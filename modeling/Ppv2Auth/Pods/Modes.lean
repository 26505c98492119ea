/-
What a pod is made of, throughout a run: the last table that landed, counted,
and every config accepted so far with the rules it came with.  The checks made
on loading then say which lists can admit at all.
-/
import Ppv2Auth.Pods.Exactness

namespace Ppv2Auth

namespace Pods

open Rust Identity Filters Runs Expansion

section Loaded

variable [Sha256] {readers : Readers} {past : List Act} {act : Act} {p p' : Pod Config}
  {reply : Reply}

/-- The published generation counts the tables, the table is the last one and
every config keeps the rules it came with; only caches move. -/
structure Kept (readers : Readers) (past : List Act) (p : Pod Config) : Prop where
  generation : p.cell.generation = UInt64.ofNat (publications readers past).length
  table : p.cell.table = landed readers past
  rules : p.configs.map (Hosted.map Config.rules) =
    (loads readers past).map (Hosted.map Config.rules)

omit [Sha256] in
theorem kept_initial : Kept readers [] Pod.initial := ⟨rfl, rfl, rfl⟩

omit [Sha256] in
theorem Kept.loaded (h : Kept readers past p) :
    Kept readers (past ++ [act])
      (p.loaded (landOn p.cell (act.publication readers)) (act.config readers)) where
  generation := by
    rw [publications_concat]
    cases act.publication readers with
    | none => simpa [landOn, Pod.loaded] using h.generation
    | some table =>
        simp [landOn, Published.publish, Pod.loaded, h.generation, UInt64.ofNat_add]
  table := by
    rw [landed_concat]
    cases act.publication readers with
    | none => exact h.table
    | some table => rfl
  rules := by
    rw [loads_concat, List.map_append, ← h.rules]
    cases act.config readers <;> simp [Pod.loaded]

omit [Sha256] in
/-- An action that loads nothing leaves all of it alone. -/
theorem Kept.same (h : Kept readers past p) (hcell : p'.cell = p.cell)
    (hrules : p'.configs.map (Hosted.map Config.rules) =
      p.configs.map (Hosted.map Config.rules))
    (hpublication : act.publication readers = none) (hconfig : act.config readers = none) :
    Kept readers (past ++ [act]) p' where
  generation := by
    rw [publications_concat, hpublication, hcell]
    simpa using h.generation
  table := by
    rw [landed_concat, hpublication, hcell]
    exact h.table
  rules := by
    rw [loads_concat, hconfig, hrules]
    simpa using h.rules

theorem permits_rules (c : Config) (cell : Published) (sni : Bytes) (addr : U128) :
    (c.permits cell sni addr).1.rules = c.rules := by
  by_cases hsame : c.cache.1 = cell.generation
  · rw [permits_of_fresh hsame]
  · rw [permits_of_stale hsame]

theorem Kept.step (h : Kept readers past p)
    (hsteps : Steps readers .cached p act p' reply) : Kept readers (past ++ [act]) p' := by
  cases hsteps with
  | loaded hload =>
      have hsame : (act.config readers).map (Hosted.map Holding.cached.hold) =
          act.config readers := by
        cases act.config readers <;> simp [Holding.cached]
      rw [hsame]
      exact h.loaded
  | created | settled | judging => exact h.same rfl rfl rfl rfl
  | @judged k live hosted cfg cfg' due permitted outcome hlive hconfig hcfg hdue hpermits =>
      have hrules : cfg'.rules = cfg.rules := by
        have hkeeps := permits_rules cfg p.cell due.serverName due.id
        rwa [show cfg.permits p.cell due.serverName due.id = (cfg', permitted) from hpermits]
          at hkeeps
      refine h.same rfl ?_ rfl rfl
      have hforget : (p.setCfg live.owner cfg').forget = p.forget := by
        rw [forget_setCfg, hrules]
        have hforgot : p.forget.configs[live.owner]? = some (hosted.map Config.rules) := by
          simp [Pod.forget, hconfig]
        exact setCfg_same hforgot (by simp [hcfg])
      exact congrArg Pod.configs hforget

/-- The run lemma of `Kept.step`. -/
theorem kept_of_ends {acts : List Act}
    (hends : Reactive.Ends (Pod.step readers .cached) Pod.initial acts p) :
    Kept readers acts p :=
  Reactive.history_of_ends kept_initial
    (fun _ _ _ _ _ hpast hstep => hpast.step (steps_of_step hstep)) hends

/-- A rejected config leaves the pod as it was. -/
theorem step_of_rejected {name bytes : Bytes} {define : Bytes → Option Nat}
    (hstep : p.step readers .cached (.load name bytes define) = some (p', .loaded false)) :
    p' = p := by
  simp only [Pod.step, Pod.load, Option.some.injEq, Prod.mk.injEq, Reply.loaded.injEq,
    Option.isSome_eq_false_iff, Option.isNone_iff_eq_none] at hstep
  obtain ⟨rfl, hrejected⟩ := hstep
  rw [newListenerFilterConfig_fst, publication_of_rejected hrejected, hrejected]
  simp [Pod.loaded, landOn]

/-- In every run the pod is what was loaded: the last table that landed under
the number of tables, and the accepted configs in order with the rules they
came with; and a rejected config might never have been offered. -/
theorem pod_is_its_loads {acts : List Act} {replies : List Reply}
    (hrun : Pod.run readers .cached acts = some (p, replies)) :
    Kept readers acts p ∧
      ∀ past name bytes define rest, acts = past ++ .load name bytes define :: rest →
        replies[past.length]? = some (.loaded false) →
          Pod.run readers .cached (past ++ rest) =
            some (p, replies.eraseIdx past.length) := by
  refine ⟨kept_of_ends ⟨replies, hrun⟩, ?_⟩
  rintro past name bytes define rest rfl hreply
  obtain ⟨m, before, next, reply, after, hpast, hstep, hafter, rfl⟩ :=
    Reactive.run_split hrun
  have hlength : before.length = past.length := Reactive.length_of_run hpast
  have hrejected : reply = .loaded false := by
    rw [← hlength] at hreply
    simpa using hreply
  subst hrejected
  have hsame : next = m := step_of_rejected hstep
  subst hsame
  have herase : (before ++ Reply.loaded false :: after).eraseIdx past.length =
      before ++ after := by
    rw [← hlength, List.eraseIdx_append_of_length_le le_rfl]
    simp
  rw [herase, Pod.run, Reactive.run_append, hpast]
  simp [hafter]

end Loaded

namespace PodWitness

attribute [local instance] MeetingWitness.endpointDigest

/-- A config of an unknown name between two good ones. -/
def oneRejected : List Act :=
  [.load (ascii "table") (ascii "{}") (fun _ => none),
    .load (ascii "tls_inspector") (ascii "{}") (fun _ => none),
    .load (ascii "ppv2_auth") (ascii "{}") (fun _ => none)]

theorem pod_is_its_loads_rejected :
    ∃ p, Kept readers oneRejected p ∧
      Pod.run readers .cached (oneRejected.eraseIdx 1) =
        some (p, [.loaded true, .loaded true]) := by
  have hreplies : (Pod.run readers .cached oneRejected).map Prod.snd =
      some [.loaded true, .loaded false, .loaded true] := by decide +kernel
  obtain ⟨⟨p, replies⟩, hrun, hlast⟩ := Option.map_eq_some_iff.mp hreplies
  cases hlast
  obtain ⟨hkept, herase⟩ := pod_is_its_loads hrun
  exact ⟨p, hkept, herase (oneRejected.take 1) _ _ _ (oneRejected.drop 2) rfl rfl⟩

end PodWitness

section Modes

variable [Sha256] {readers : Readers} {past rest : List Act} {k : Nat}

/-- `ppv2_auth` admits by its flat list, `auth` by the list of a scope that
the server name selects; every one of its scopes has a name. -/
inductive AdmittedBy (t : Table) (serverName : Bytes) (id : U128) :
    Hosted Config → RawRules → Prop where
  | tcp {cfg : Config} {counters : Counters} {raw : RawRules} (hflat : raw.scopes = none)
      (hadmitted : Admitted t raw.allow id) :
      AdmittedBy t serverName id (.tcp (.ppv2 cfg true counters)) raw
  | udp {cfg : Config} {counters : Counters} {raw : RawRules} (hflat : raw.scopes = none)
      (hadmitted : Admitted t raw.allow id) :
      AdmittedBy t serverName id (.udp (.ppv2Auth cfg counters)) raw
  | auth {cfg : Config} {counters : Counters} {raw : RawRules} {scopes : List RawScope}
      {s : RawScope} (hallow : raw.allow = []) (hscopes : raw.scopes = some scopes)
      (hnamed : ∀ s ∈ scopes, s.sni ≠ []) (hchosen : Chosen scopes serverName s)
      (hadmitted : Admitted t s.allow id) :
      AdmittedBy t serverName id (.tcp (.auth cfg counters)) raw

omit [Sha256] in
theorem checked_of_configOf {hosted : Hosted Config}
    (hconfig : configOf readers past k = some hosted) : hosted.Checked := by
  obtain ⟨i, -, hload⟩ := Option.bind_eq_some_iff.mp hconfig
  obtain ⟨act, -, hact⟩ := List.mem_filterMap.mp (List.mem_of_getElem? hload)
  exact Act.config_checked hact

omit [Sha256] in
theorem scopes_of_validatePpv2Auth {raw : RawRules}
    (h : validatePpv2Auth (Config.ofRaw raw).rules = .ok ()) : raw.scopes = none := by
  unfold validatePpv2Auth at h
  split_ifs at h with hscopes
  simpa [Rules.hasScopes, Config.ofRaw] using hscopes

omit [Sha256] in
theorem shape_of_validateAuth {raw : RawRules}
    (h : validateAuth (Config.ofRaw raw).rules = .ok ()) :
    raw.allow = [] ∧ ∃ scopes, raw.scopes = some scopes ∧ ∀ s ∈ scopes, s.sni ≠ [] := by
  unfold validateAuth at h
  split_ifs at h with hscopes hallow hnameless
  have hnone : raw.allow = [] := by
    by_contra hsome
    exact hallow (by simp [Rules.hasAllow, Config.ofRaw, hsome])
  obtain ⟨scopes, hsome⟩ : ∃ scopes, raw.scopes = some scopes := by
    simpa [Rules.hasScopes, Config.ofRaw, Option.isSome_iff_exists] using hscopes
  refine ⟨hnone, scopes, hsome, fun s hs hempty => hnameless ?_⟩
  simp only [Rules.hasNamelessScope, Config.ofRaw, hsome, Option.map_some, Option.getD_some,
    List.any_map, List.any_eq_true, Function.comp_apply, decide_eq_true_eq]
  exact ⟨s, hs, by simp [hempty]⟩

theorem admitted_of_scoped {raw : RawRules} {scopes : List RawScope} {t : Table} {sni : Bytes}
    {id : U128} (hscopes : raw.scopes = some scopes)
    (h : (raw.scopes = none ∧ Admitted t raw.allow id) ∨
      ∃ scopes s, raw.scopes = some scopes ∧ Chosen scopes sni s ∧ Admitted t s.allow id) :
    ∃ s, Chosen scopes sni s ∧ Admitted t s.allow id := by
  rcases h with ⟨hflat, -⟩ | ⟨scopes', s, hsome, hrest⟩
  · rw [hscopes] at hflat
    cases hflat
  · rw [hscopes, Option.some.injEq] at hsome
    subst hsome
    exact ⟨s, hrest⟩

theorem admitted_of_flat {raw : RawRules} {t : Table} {sni : Bytes} {id : U128}
    (hflat : raw.scopes = none)
    (h : (raw.scopes = none ∧ Admitted t raw.allow id) ∨
      ∃ scopes s, raw.scopes = some scopes ∧ Chosen scopes sni s ∧ Admitted t s.allow id) :
    Admitted t raw.allow id := by
  rcases h with ⟨-, hadmitted⟩ | ⟨scopes, s, hsome, -⟩
  · exact hadmitted
  · rw [hflat] at hsome
    cases hsome

/-- Whatever a judgement of any run lets through is admitted by the list its
filter's kind and the server name select, against the last table. -/
theorem admitted_by_own_list {acts : List Act} {p : Pod Config} {replies : List Reply}
    {calls : List EnvoyCall} (hrun : Pod.run readers .cached acts = some (p, replies))
    (hfew : (publications readers acts).length < 2 ^ 64 - 1)
    (hacts : acts = past ++ .judge k :: rest)
    (hreply : replies[past.length]? = some (.answered calls .continueIteration)) :
    ∃ hosted raw t due, configOf readers past k = some hosted ∧
      hosted.cfg = some (.ofRaw raw) ∧ landed readers past = some t ∧
      DueSince readers past k due ∧ AdmittedBy t due.serverName due.id hosted raw := by
  cases explained_of_reply hrun hfew hacts hreply with
  | @judged _ _ hosted cfg t due hconfig hcfg htable hdue hpermits =>
      have hchecked := checked_of_configOf hconfig
      obtain ⟨raw, rfl⟩ := hchecked.ofRaw hcfg
      rw [expand_permits_iff_admitted] at hpermits
      refine ⟨hosted, raw, t, due, hconfig, hcfg, htable, hdue, ?_⟩
      obtain ⟨mid, callback, rest', asker, filter, hsplit, -, hasker, hfit, hasks⟩ := hdue
      have hsame : asker = hosted := by
        have hlater := configOf_append hasker (.call k callback :: rest')
        rw [← hsplit, hconfig] at hlater
        exact (Option.some.inj hlater).symm
      subst hsame
      cases asker with
      | tcp config =>
          cases config with
          | ppv2 cfg enforce counters =>
              cases hcfg
              cases hasks with
              | header henforce =>
                  have henforces : _ = enforce := hfit
                  rw [henforce] at henforces
                  subst henforces
                  have hflat := scopes_of_validatePpv2Auth hchecked.1
                  exact .tcp hflat (admitted_of_flat hflat hpermits)
              | label | datagram => exact hfit.elim
          | auth cfg counters =>
              cases hcfg
              obtain ⟨hallow, scopes, hscopes, hnamed⟩ := shape_of_validateAuth hchecked.1
              obtain ⟨s, hchosen, hadmitted⟩ := admitted_of_scoped hscopes hpermits
              exact .auth hallow hscopes hnamed hchosen hadmitted
          | table => cases hcfg
      | udp config =>
          cases config with
          | ppv2Auth cfg counters =>
              cases hcfg
              have hflat := scopes_of_validatePpv2Auth hchecked.1
              exact .udp hflat (admitted_of_flat hflat hpermits)
          | table | denyAll => cases hcfg

end Modes

namespace PodWitness

attribute [local instance] MeetingWitness.endpointDigest

theorem admitted_by_own_list_office :
    ∃ t due, landed readers (twoConnections.take 6) = some t ∧
      DueSince readers (twoConnections.take 6) 1 due ∧
      Admitted t [ascii "10.0.0.0/8"] due.id := by
  obtain ⟨p, replies, calls, hrun, hreply⟩ := second_admitted
  have hacts : twoConnections = twoConnections.take 6 ++ .judge 1 :: [] := rfl
  obtain ⟨hosted, raw, t, due, hconfig, hcfg, htable, hdue, hadmitted⟩ :=
    admitted_by_own_list hrun few_tables hacts hreply
  have hsame : hosted = _ := Option.some.inj
    (hconfig.symm.trans (configOf_append officeConfig [_]))
  subst hsame
  have hrules : raw.allow = [ascii "10.0.0.0/8"] :=
    congrArg (fun c => c.rules.rawAllow) (Option.some.inj hcfg).symm
  cases hadmitted with
  | tcp hflat hadmitted => exact ⟨t, due, htable, hdue, hrules ▸ hadmitted⟩

end PodWitness

end Pods

end Ppv2Auth
