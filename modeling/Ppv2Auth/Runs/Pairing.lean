/-
Whether one table decides one connection.  The scheme is read where the header
is parsed and the rules' table where `permits` starts, so a publish in between
pairs one table's identity with another table's rules.  Where the identity is
the same under both, an admission stands under one of the tables alone.
-/
import Ppv2Auth.Runs.Judgements
import Ppv2Auth.Runs.Lanes

namespace Ppv2Auth

namespace Runs

open Rust Identity Filters

variable {ι κ : Type}

/-- Traffic is judged only by a table under which it has the identity it was
labelled with. -/
def Paired [Sha256] (w : World ι κ) : Act ι κ → Prop
  | .judge k => ∀ c, w.workers k = .ready c →
      ∀ x generation, c.origin = some (x, generation) →
        ∀ labelled used, tableAt w.log generation = some labelled →
          tableAt w.log (w.configs c.config).cache.1.toNat = some used →
          x.identity used = x.identity labelled
  | _ => True

theorem mem_of_tableAt {log : List Table} {generation : Nat} {t : Table}
    (htable : tableAt log generation = some t) : t ∈ log := by
  unfold tableAt at htable
  split at htable
  · cases htable
  · exact List.mem_of_getElem? htable

section Keeps

variable [Sha256]

/-- An admission stands under one published table alone. -/
def OneTable (rules : ι → Rules) (log : List Table) (r : Answer ι) : Prop :=
  ∀ x generation, r.call.origin = some (x, generation) → r.permitted = true →
    ∃ t ∈ log, x.identity t = some r.call.addr ∧
      ((rules r.call.config).expand (some t)).permits r.call.sni r.call.addr = true

theorem OneTable.append {rules : ι → Rules} {log : List Table} {r : Answer ι}
    (h : OneTable rules log r) (t : Table) : OneTable rules (log ++ [t]) r := by
  intro x generation horigin hpermitted
  obtain ⟨u, hu, hjudged⟩ := h x generation horigin hpermitted
  exact ⟨u, List.mem_append_left _ hu, hjudged⟩

/-- What a cache permits, some published table permits. -/
theorem Cached.table_of_permits {r : Rules} {log : List Table}
    {cache : UInt64 × Judged} (h : Cached r log cache) {sni : Bytes} {addr : U128}
    (hpermits : cache.2.permits sni addr = true) :
    ∃ t, tableAt log cache.1.toNat = some t ∧
      (r.expand (some t)).permits sni addr = true := by
  rcases h with rfl | ⟨-, hexpand⟩
  · rw [permits_denyAll] at hpermits
    cases hpermits
  · cases htable : tableAt log cache.1.toNat with
    | none =>
        rw [hexpand, htable, Rules.expand, permits_denyAll] at hpermits
        cases hpermits
    | some t => exact ⟨t, rfl, by rw [← htable, ← hexpand]; exact hpermits⟩

variable {raw : ι → RawRules} {w w' : World ι κ}

theorem oneTable_answer (hcoherent : Coherent raw w) {k : κ} {c : Call ι}
    (hphase : w.workers k = .ready c) (hpaired : Paired w (.judge k)) :
    OneTable (rulesOf raw) w.log (w.answer c) := by
  intro x generation horigin hpermitted
  obtain ⟨used, hused, hjudged⟩ :=
    (hcoherent.cached c.config).table_of_permits hpermitted
  have hread := hcoherent.calls k c (by rw [hphase]; rfl)
  obtain ⟨-, labelled, hlabelled, hid⟩ := hread.origin x generation horigin
  have hsame := hpaired c hphase x generation horigin labelled used hlabelled hused
  exact ⟨used, mem_of_tableAt hused, hsame.trans hid, hjudged⟩

variable [DecidableEq ι] [DecidableEq κ]

theorem oneTable_step (h : ∀ r ∈ w.answers, OneTable (rulesOf raw) w.log r)
    (hcoherent : Coherent raw w) {act : Act ι κ} (hpaired : Paired w act)
    (hsteps : Steps w act w') :
    ∀ r ∈ w'.answers, OneTable (rulesOf raw) w'.log r := by
  cases hsteps with
  | publish t => exact fun r hr => (h r hr).append t
  | labelled | unlabelled | fetchLabel | fetch | mismatch | isMatch | rebuild =>
      exact h
  | @judge k c hphase =>
      intro r hr
      rcases List.mem_append.mp hr with hold | hnew
      · exact h r hold
      · rw [List.mem_singleton.mp hnew]
        exact oneTable_answer hcoherent hphase hpaired

end Keeps

section Whole

variable [Sha256] [DecidableEq ι] [DecidableEq κ] {raw : ι → RawRules}
  {acts : List (Act ι κ)} {w : World ι κ}

theorem Reaches.oneTable (hreaches : Reaches raw acts w)
    (hfew : publishes acts < 2 ^ 64)
    (hpaired : Transition.Meets World.step Paired (World.initial raw) acts) :
    ∀ r ∈ w.answers, OneTable (rulesOf raw) w.log r := by
  have hroom : Transition.Meets World.step HasRoom (World.initial raw) acts :=
    meets_hasRoom (by simpa [World.initial] using hfew)
  refine (Transition.exec_invariant
    (P := fun m => Coherent raw m ∧ ∀ r ∈ m.answers, OneTable (rulesOf raw) m.log r)
    (fun s act s' hs hact hstep => ?_)
    ⟨coherent_initial raw, fun r hr => by cases hr⟩ (hroom.and hpaired) hreaches).2
  have hsteps := steps_of_step hstep
  exact ⟨hs.1.step hact.1 hsteps, oneTable_step hs.2 hs.1 hact.2 hsteps⟩

/-- Publishes that leave the scheme alone never part an identity from its
rules. -/
theorem meets_paired_of_scheme {scheme : Scheme}
    (hlog : ∀ t ∈ w.log, t.scheme = scheme)
    (hacts : ∀ t, .publish t ∈ acts → t.scheme = scheme) :
    Transition.Meets World.step Paired w acts := by
  induction acts generalizing w with
  | nil => trivial
  | cons act rest ih =>
      refine ⟨?_, fun next hnext => ih ?_ fun t ht =>
        hacts t (List.mem_cons_of_mem act ht)⟩
      · cases act with
        | judge k =>
            intro c _ x generation _ labelled used hlabelled hused
            rw [Traffic.identity_eq, Traffic.identity_eq,
              hlog used (mem_of_tableAt hused),
              hlog labelled (mem_of_tableAt hlabelled)]
        | publish | label | fetchLabel | fetch | compare | rebuild => trivial
      · cases steps_of_step hnext with
        | publish t =>
            intro u hu
            rcases List.mem_append.mp hu with hold | hnew
            · exact hlog u hold
            · rw [List.mem_singleton.mp hnew]
              exact hacts t List.mem_cons_self
        | labelled | unlabelled | fetchLabel | fetch | mismatch | isMatch
        | rebuild | judge => exact hlog

/-- One table decides one connection, in every run that judges traffic only
where it has the identity it was labelled with: what is admitted is permitted
under one published table, identity and rules, and what every published table
alone denies is denied. -/
theorem one_table_when_paired (hreaches : Reaches raw acts w)
    (hfew : publishes acts < 2 ^ 64)
    (hpaired : Transition.Meets World.step Paired (World.initial raw) acts) :
    ∀ r ∈ w.answers, ∀ x generation, r.call.origin = some (x, generation) →
      (r.permitted = true → ∃ t ∈ w.log, ∃ h, Ppv2.parse x.bytes = .ok h ∧
        ((rulesOf raw r.call.config).expand (some t)).permits r.call.sni
          (toU128 (synthesize t.scheme h)) = true) ∧
      ((∀ t ∈ w.log, x.admitted t r.call.sni
          ((rulesOf raw r.call.config).expand (some t)).permits = false) →
        r.permitted = false) := by
  intro r hr x generation horigin
  have hone : r.permitted = true → ∃ t ∈ w.log, ∃ h, x.header = some h ∧
      ((rulesOf raw r.call.config).expand (some t)).permits r.call.sni
        (toU128 (synthesize t.scheme h)) = true := by
    intro hpermitted
    obtain ⟨t, ht, hid, hjudged⟩ :=
      hreaches.oneTable hfew hpaired r hr x generation horigin hpermitted
    rw [Traffic.identity_eq, Option.map_eq_some_iff] at hid
    obtain ⟨h, hheader, hid⟩ := hid
    exact ⟨t, ht, h, hheader, hid ▸ hjudged⟩
  refine ⟨fun hpermitted => ?_, fun hdenied => ?_⟩
  · obtain ⟨t, ht, h, hheader, hjudged⟩ := hone hpermitted
    exact ⟨t, ht, h, parse_of_header hheader, hjudged⟩
  · rw [← Bool.not_eq_true]
    intro hpermitted
    obtain ⟨t, ht, hadmits⟩ := hone hpermitted
    have htrue := (x.admitted_iff t r.call.sni _).mpr hadmits
    rw [hdenied t ht] at htrue
    cases htrue

end Whole

namespace PairingWitness

attribute [local instance] MeetingWitness.endpointDigest

def quad (a b c d : UInt8) : Octets 4 := ⟨[a, b, c, d], rfl⟩

/-- A site that owns one /24. -/
def site (id : UInt16) (net : Octets 4) : Site where
  id := id
  vpce := []
  cidrs := Cidr.Set.ofRanges [Cidr.Range.ofPrefix (toU128 (mappedV4 net)) 120]

/-- A connection from 203.0.113.7. -/
def connection : Traffic where
  lane := .tcp
  bytes := MeetingWitness.wire 0x11 203 0 113 7
  setsRemoteAddress := true

/-- The network of the connection is the site's, with a list behind `@g`. -/
def owned (id : UInt16) (others : List Site) (members : List Bytes) : Table :=
  ⟨Scheme.new MeetingWitness.pfx (site id (quad 203 0 113 0) :: others),
    Graph.default.upsert (ascii "g") members⟩

/-- Site 1 owns the network and nothing is allowed. -/
def before : Table := owned 1 [] []

/-- The network is site 2's now, and site 1 is allowed. -/
def after : Table := owned 2 [site 1 (quad 198 51 100 0)] [ascii "!1"]

def raw : Unit → RawRules := fun _ => ⟨[ascii "@g"], none⟩

def judgedUnder (t : Table) : Bool :=
  connection.admitted t [] ((rulesOf raw ()).expand (some t)).permits

/-- The table moves between the label and the judgement. -/
def movedTo (t : Table) : List (Act Unit Unit) :=
  [.publish before, .label () connection, .publish t, .fetchLabel () () [],
    .compare (), .rebuild (), .judge ()]

/-- Whose connections were answered, and how. -/
def verdicts (w : World Unit Unit) : List (Option Traffic × Bytes × Bool) :=
  w.answers.map fun r => (r.call.origin.map Prod.fst, r.call.sni, r.permitted)

theorem moved_verdicts :
    (Transition.exec World.step (World.initial raw) (movedTo after)).map
        (fun w => (verdicts w, w.log.map judgedUnder)) =
      some ([(some connection, [], true)], [false, false]) := by
  decide +kernel

/-- Either table alone denies the connection, and the two together admit it. -/
theorem mixed_tables_allow :
    ∃ (acts : List (Act Unit Unit)) (w : World Unit Unit), Reaches raw acts w ∧
      (∃ r ∈ w.answers, r.call.origin.map Prod.fst = some connection ∧
        r.call.sni = [] ∧ r.permitted = true) ∧
      ∀ t ∈ w.log, connection.admitted t []
          ((rulesOf raw ()).expand (some t)).permits = false ∧
        ∀ id, connection.identity t = some id →
          ((rulesOf raw ()).expand (some t)).permits [] id = false := by
  obtain ⟨w, hw, hverdicts⟩ := Option.map_eq_some_iff.mp moved_verdicts
  rw [Prod.mk.injEq] at hverdicts
  obtain ⟨r, hr, hfields⟩ := List.map_eq_singleton_iff.mp hverdicts.1
  have hdenied : ∀ t ∈ w.log, judgedUnder t = false := by
    intro t ht
    have hmem : judgedUnder t ∈ w.log.map judgedUnder := List.mem_map_of_mem ht
    rw [hverdicts.2] at hmem
    simpa using hmem
  refine ⟨movedTo after, w, hw, ⟨r, ?_, ?_⟩, fun t ht =>
    ⟨hdenied t ht, fun id hid => ?_⟩⟩
  · rw [hr]
    exact List.mem_singleton_self r
  · simpa using hfields
  · rw [← Bool.not_eq_true]
    intro hpermits
    rw [Traffic.identity_eq, Option.map_eq_some_iff] at hid
    obtain ⟨h, hheader, rfl⟩ := hid
    have hadmitted : judgedUnder t = true :=
      (connection.admitted_iff t [] _).mpr ⟨h, hheader, hpermits⟩
    rw [hdenied t ht] at hadmitted
    cases hadmitted

/-- The rules move and the site stays. -/
def allowed : Table := owned 1 [] [ascii "!1"]

theorem allowed_verdicts :
    (Transition.exec World.step (World.initial raw) (movedTo allowed)).map
        (fun w => verdicts w) =
      some [(some connection, [], true)] := by
  decide +kernel

theorem one_table_allowed :
    ∃ w : World Unit Unit, Reaches raw (movedTo allowed) w ∧
      ∃ t ∈ w.log, ∃ h, Ppv2.parse connection.bytes = .ok h ∧
        ((rulesOf raw ()).expand (some t)).permits []
          (toU128 (synthesize t.scheme h)) = true := by
  obtain ⟨w, hw, hverdicts⟩ := Option.map_eq_some_iff.mp allowed_verdicts
  obtain ⟨r, hr, hfields⟩ := List.map_eq_singleton_iff.mp hverdicts
  simp only [Prod.mk.injEq, Option.map_eq_some_iff, Prod.exists, exists_and_right,
    exists_eq_right] at hfields
  obtain ⟨⟨generation, horigin⟩, hsni, hpermitted⟩ := hfields
  refine ⟨w, hw, ?_⟩
  have hscheme : ∀ t, .publish t ∈ movedTo allowed → t.scheme = before.scheme := by
    simp [movedTo, before, allowed, owned]
  have hpaired := meets_paired_of_scheme (w := World.initial raw)
    (fun t ht => by cases ht) hscheme
  have hone := (one_table_when_paired hw (by decide) hpaired r
    (by rw [hr]; exact List.mem_singleton_self r) connection generation horigin).1
  rw [hsni] at hone
  exact hone hpermitted

end PairingWitness

end Runs

end Ppv2Auth
