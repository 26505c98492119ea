/-
Every judgement is the policy's.  While no table lands between a callback and
its judgement, the reply of any enforcing filter in any run of a pod is what
the policy of its config says of the header, whether the header came on a
connection, in a datagram or as the label of a filter ahead.
-/
import Ppv2Auth.Config.Policy
import Ppv2Auth.Pods.Mediation

namespace Ppv2Auth

namespace Pods

open Rust Identity Filters Runs

/-- The callback shows this header, or the label it has under this table. -/
def Callback.Shows [Sha256] (t : Table) (h : Ppv2.Header) : Callback → Prop
  | .onAccept remote _ => remote = some (labelFor t h)
  | .onData buffer _ => Ppv2.parse (buffer.getD []) = .ok h
  | .onDatagram chunks _ => Ppv2.parse (datagram chunks) = .ok h

def Callback.serverName : Callback → Bytes
  | .onAccept _ serverName => serverName.getD []
  | .onData _ _ => []
  | .onDatagram _ _ => []

/-- The host accepts what a permitted callback asks of it last. -/
def Callback.Delivers : Callback → Prop
  | .onAccept _ _ => True
  | .onData _ _ => True
  | .onDatagram _ setsDatagramData => setsDatagramData = true

section Callbacks

variable [Sha256] {table : Option Table} {filter : Filter} {callback : Callback}
  {due : Pending}

/-- A callback that shows a header asks about its identity. -/
theorem asked_of_shows {t : Table} {h : Ppv2.Header} (hasks : Asks table filter callback due)
    (htable : table = some t) (hshows : callback.Shows t h) :
    due.serverName = callback.serverName ∧ due.id = toU128 (synthesize t.scheme h) := by
  subst htable
  cases hasks with
  | header henforce htable hparse =>
      cases htable
      cases hparse.symm.trans hshows
      exact ⟨rfl, rfl⟩
  | label hlabel =>
      have hremote : _ = some (labelFor t h) := hshows
      refine ⟨rfl, ?_⟩
      rw [hremote] at hlabel
      simpa [Pending.id, labelledIdentity, labelFor, parseIpv6_displayIpv6, eq_comm] using hlabel
  | datagram htable hparse =>
      cases htable
      cases hparse.symm.trans hshows
      exact ⟨rfl, rfl⟩

/-- The judgement decides the status, up to what the host does with a
datagram. -/
theorem status_of_finish {filter' : Filter} (hasks : Asks table filter callback due)
    {permitted : Bool} {outcome : Outcome Filter}
    (hfinish : filter'.finish permitted due = some outcome) :
    outcome.status = .continueIteration ↔ permitted = true ∧ callback.Delivers := by
  unfold Filter.finish at hfinish
  split at hfinish
  · cases hasks
    cases permitted with
    | true =>
        cases hfinish
        simp [lift, Ppv2Filter.conclude, Ppv2Filter.accept, Callback.Delivers]
    | false =>
        cases hfinish
        simp [lift, Ppv2Filter.conclude, Ppv2Filter.refuse]
  · cases hasks
    cases permitted with
    | true =>
        cases hfinish
        simp [lift, AuthFilter.conclude, Callback.Delivers]
    | false =>
        cases hfinish
        simp [lift, AuthFilter.conclude, AuthFilter.refuse]
  · cases hasks
    cases permitted with
    | true =>
        cases hfinish
        simp [lift, Ppv2AuthFilter.settle, Callback.Delivers]
    | false =>
        cases hfinish
        simp [lift, Ppv2AuthFilter.settle]
  · cases hfinish

end Callbacks

theorem last_unique {α : Type} {P : α → Prop} {xs ys xs' ys' : List α} {a b : α}
    (h : xs ++ a :: ys = xs' ++ b :: ys') (ha : P a) (hb : P b) (hys : ∀ y ∈ ys, ¬ P y)
    (hys' : ∀ y ∈ ys', ¬ P y) : xs = xs' ∧ a = b ∧ ys = ys' := by
  rcases List.append_eq_append_iff.mp h with ⟨mid, hxs', htail⟩ | ⟨mid, hxs, htail⟩
  · cases mid with
    | nil =>
        simp only [List.nil_append, List.cons.injEq] at htail
        simpa [htail] using hxs'.symm
    | cons c mid =>
        simp only [List.cons_append, List.cons.injEq] at htail
        exact absurd hb (hys b (by simp [htail.2]))
  · cases mid with
    | nil =>
        simp only [List.nil_append, List.cons.injEq] at htail
        simpa [htail] using hxs
    | cons c mid =>
        simp only [List.cons_append, List.cons.injEq] at htail
        exact absurd ha (hys' a (by simp [htail.2]))

section Judgement

variable [Sha256] {readers : Readers} {mid rest : List Act} {k : Nat} {callback : Callback}

omit [Sha256] in
/-- Nothing lands while nothing is published. -/
theorem landed_still (hstill : ∀ act ∈ rest, act.publication readers = none) :
    landed readers (mid ++ .call k callback :: rest) = landed readers mid := by
  have hnone : rest.filterMap (Act.publication readers) = [] :=
    List.filterMap_eq_nil_iff.mpr hstill
  have hcall : (Act.call k callback).publication readers = none := rfl
  simp [landed, publications, hcall, hnone]

/-- The judgement without a cache, by the past of the pod. -/
theorem status_of_judged {m m' : Pod Rules} {reply : Reply} {raw : RawRules} {t : Table}
    {h : Ppv2.Header} {hosted : Hosted Config}
    (hhistory : History readers (mid ++ .call k callback :: rest) m)
    (hsteps : Steps readers .cacheless m (.judge k) m' reply)
    (hquiet : ∀ act ∈ rest, act.filter ≠ some k)
    (hstill : ∀ act ∈ rest, act.publication readers = none)
    (hconfig : configOf readers (mid ++ .call k callback :: rest) k = some hosted)
    (hcfg : hosted.cfg = some (.ofRaw raw)) (htable : landed readers mid = some t)
    (hshows : callback.Shows t h)
    (hin : PassesThrough t.scheme h → ¬ InPrefix t.scheme.pfx h.src) :
    ∃ calls status, reply = .answered calls status ∧
      (status = .continueIteration ↔
        Grants raw t callback.serverName h ∧ callback.Delivers) := by
  cases hsteps with
  | loaded hload => exact hload.elim
  | @judged _ live hosted' r r' due permitted outcome hlive howned hrules hdue hpermits hfinish =>
      refine ⟨outcome.calls, outcome.status, rfl, ?_⟩
      obtain ⟨loaded, cfg, hkind, hcfg', rfl, -⟩ := hhistory.judgedBy hlive howned hrules
      have hsame : loaded = hosted := Option.some.inj (hkind.symm.trans hconfig)
      subst hsame
      have hraw : cfg = .ofRaw raw := Option.some.inj (hcfg'.symm.trans hcfg)
      subst hraw
      -- The callback that asked is the last one of this filter.
      obtain ⟨mid', callback', rest', asker, filter, hsplit, hquiet', -, -, hasks⟩ :=
        hhistory.due k live due hlive hdue
      obtain ⟨rfl, hcallback, rfl⟩ := last_unique (P := fun act => act.filter = some k)
        hsplit rfl rfl hquiet hquiet'
      cases hcallback
      obtain ⟨hname, hid⟩ := asked_of_shows hasks htable hshows
      have hanswer : ((Config.ofRaw raw).rules.expand m.cell.table).permits due.serverName
          due.id = permitted := congrArg Prod.snd hpermits
      rw [hhistory.table, landed_still hstill, htable, hname, hid] at hanswer
      rw [status_of_finish hasks hfinish, ← hanswer, expand_permits_iff hin]

/-- In every run of a pod a judgement is what the policy says of the header,
for each of the filters that enforce, while no table lands between a callback
and its judgement. -/
theorem judged_by_policy {p : Pod Config} {replies : List Reply} {raw : RawRules} {t : Table}
    {h : Ppv2.Header} {hosted : Hosted Config}
    (hrun : Pod.run readers .cached (mid ++ .call k callback :: rest ++ [.judge k]) =
      some (p, replies))
    (hfew : (publications readers mid).length < 2 ^ 64 - 1)
    (hquiet : ∀ act ∈ rest, act.filter ≠ some k)
    (hstill : ∀ act ∈ rest, act.publication readers = none)
    (hconfig : configOf readers mid k = some hosted)
    (hcfg : hosted.cfg = some (.ofRaw raw)) (htable : landed readers mid = some t)
    (hshows : callback.Shows t h)
    (hin : PassesThrough t.scheme h → ¬ InPrefix t.scheme.pfx h.src) :
    ∃ calls status, replies.getLast? = some (.answered calls status) ∧
      (status = .continueIteration ↔
        Grants raw t callback.serverName h ∧ callback.Delivers) := by
  have hcount : (publications readers (mid ++ .call k callback :: rest ++ [.judge k])) =
      publications readers mid := by
    have hnone : rest.filterMap (Act.publication readers) = [] :=
      List.filterMap_eq_nil_iff.mpr hstill
    have hcall : (Act.call k callback).publication readers = none := rfl
    have hjudge : (Act.judge k).publication readers = none := rfl
    simp [publications, hnone, hcall, hjudge]
  have hcacheless : Pod.run readers .cacheless (mid ++ .call k callback :: rest ++ [.judge k]) =
      some (p.forget, replies) := by
    rw [forget_run _ (hcount ▸ hfew), hrun]
    rfl
  obtain ⟨m, before, next, reply, after, hpast, hstep, hafter, rfl⟩ :=
    Reactive.run_split hcacheless
  cases hafter
  have hhistory := history_of_ends ⟨before, hpast⟩
  obtain ⟨calls, status, rfl, hstatus⟩ := status_of_judged hhistory (steps_of_step hstep)
    hquiet hstill (configOf_append hconfig _) hcfg htable hshows hin
  exact ⟨calls, status, by simp, hstatus⟩

end Judgement

namespace PodWitness

attribute [local instance] MeetingWitness.endpointDigest

open ChainWitness (office officeHeader)

theorem officeConfig : configOf readers (twoConnections.take 5) 1 =
    some (.tcp (.ppv2 (.ofRaw ⟨[ascii "10.0.0.0/8"], none⟩) true ⟨none, none, none⟩)) := rfl

/-- The second connection is judged as the policy says. -/
theorem judged_by_policy_office :
    ∃ p replies t calls status,
      Pod.run readers .cached twoConnections = some (p, replies) ∧
        landed readers (twoConnections.take 5) = some t ∧
        replies.getLast? = some (.answered calls status) ∧
        (status = .continueIteration ↔
          Grants ⟨[ascii "10.0.0.0/8"], none⟩ t [] officeHeader ∧
            (Callback.onData (some office) true).Delivers) := by
  obtain ⟨⟨p, replies⟩, hrun⟩ : ∃ last, Pod.run readers .cached twoConnections = some last :=
    Option.isSome_iff_exists.mp (by decide +kernel)
  obtain ⟨t, htable⟩ : ∃ t, landed readers (twoConnections.take 5) = some t :=
    Option.isSome_iff_exists.mp (by decide +kernel)
  have hone : (publications readers (twoConnections.take 5)).length = 1 := by decide +kernel
  have hshows : (Callback.onData (some office) true).Shows t officeHeader := by
    show Ppv2.parse office = .ok officeHeader
    decide +kernel
  have hin : PassesThrough t.scheme officeHeader → ¬ InPrefix t.scheme.pfx officeHeader.src :=
    fun hpass => absurd hpass.2.2 (by decide)
  have hsplit : Pod.run readers .cached (twoConnections.take 5 ++
      .call 1 (.onData (some office) true) :: [] ++ [.judge 1]) = some (p, replies) := hrun
  obtain ⟨calls, status, hreply, hstatus⟩ := judged_by_policy hsplit (by omega) (by simp)
    (by simp) officeConfig rfl htable hshows hin
  exact ⟨p, replies, t, calls, status, hrun, htable, hreply, hstatus⟩

end PodWitness

end Pods

end Ppv2Auth
