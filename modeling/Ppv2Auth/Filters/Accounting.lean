/-
What the UDP counters say.  A datagram is counted once and under the right
name as long as it finds a table and, when it passes, the host takes its
payload; the sums then match what was forwarded and what was dropped.
-/
import Ppv2Auth.Filters.Agreement
import Ppv2Auth.Identity.Meeting
import Ppv2Auth.Support.Transition

namespace Ppv2Auth

namespace Filters

open Rust Identity

/-- Three counters under three ids. -/
structure CounterIds where
  allowed : Nat
  denied : Nat
  notPpv2 : Nat
  apart : [allowed, denied, notPpv2].Nodup

/-- All three registered. -/
def CounterIds.counters (ids : CounterIds) : Counters :=
  ⟨some ids.allowed, some ids.denied, some ids.notPpv2⟩

/-- A host that defines every counter, and no two under one id, registers all
three. -/
theorem exists_ids_of_register {filterName : Bytes} {define : Bytes → Option Nat}
    (hdefine : ∀ name, ∃ id, define name = some id)
    (hapart : ∀ name name' id, define name = some id → define name' = some id →
      name = name') :
    ∃ ids : CounterIds, Counters.register filterName define = ids.counters := by
  obtain ⟨allowed, hallowed⟩ := hdefine (filterName ++ ascii "_allowed")
  obtain ⟨denied, hdenied⟩ := hdefine (filterName ++ ascii "_denied")
  obtain ⟨notPpv2, hnotPpv2⟩ := hdefine (filterName ++ ascii "_not_ppv2")
  have hne : ∀ stat stat' id, stat ≠ stat' → define (filterName ++ stat) = some id →
      define (filterName ++ stat') ≠ some id := by
    intro stat stat' id hstat hid hid'
    exact hstat (List.append_cancel_left (hapart _ _ id hid hid'))
  have hids : [allowed, denied, notPpv2].Nodup := by
    simp only [List.nodup_cons, List.mem_cons, List.not_mem_nil, or_false, not_or,
      not_false_eq_true, List.nodup_nil, and_true]
    refine ⟨⟨?_, ?_⟩, ?_⟩
    · rintro rfl
      exact hne _ _ _ (by decide) hallowed hdenied
    · rintro rfl
      exact hne _ _ _ (by decide) hallowed hnotPpv2
    · rintro rfl
      exact hne _ _ _ (by decide) hdenied hnotPpv2
  exact ⟨⟨allowed, denied, notPpv2, hids⟩, by
    simp [Counters.register, CounterIds.counters, hallowed, hdenied, hnotPpv2]⟩

/-- One UDP listener: its filter, the values its host keeps and the datagrams
so far. -/
structure Listener where
  cell : Published
  filter : Ppv2AuthFilter
  values : Nat → Nat
  forwarded : Nat
  dropped : Nat

def Listener.start (counters : Counters) : Listener where
  cell := .initial
  filter := .new counters
  values _ := 0
  forwarded := 0
  dropped := 0

/-- What a call does to the counters. -/
def EnvoyCall.count (values : Nat → Nat) : EnvoyCall → Nat → Nat
  | .incrementCounter id amount => Function.update values id (values id + amount)
  | _ => values

def EnvoyCall.isIncrement : EnvoyCall → Bool
  | .incrementCounter _ _ => true
  | _ => false

/-- `StopIteration` drops a datagram. -/
def Listener.take (l : Listener) (outcome : Outcome Ppv2AuthFilter) : Listener where
  cell := l.cell
  filter := outcome.filter
  values := outcome.calls.foldl EnvoyCall.count l.values
  forwarded := l.forwarded + if outcome.status = .continueIteration then 1 else 0
  dropped := l.dropped + if outcome.status = .stopIteration then 1 else 0

inductive UdpAct where
  | publish (table : Table)
  /-- The answers are those `permits_unscoped` gives during the callback. -/
  | datagram (chunks : List Bytes) (permits : U128 → Bool) (setsDatagramData : Bool)

section Step

variable [Sha256]

def Listener.react (l : Listener) (chunks : List Bytes) (permits : U128 → Bool)
    (setsDatagramData : Bool) : Outcome Ppv2AuthFilter :=
  l.filter.onData ⟨chunks, l.cell.table, setsDatagramData⟩ permits

def Listener.step (l : Listener) : UdpAct → Option Listener
  | .publish t => some { l with cell := l.cell.publish t }
  | .datagram chunks permits setsDatagramData =>
      some (l.take (l.react chunks permits setsDatagramData))

/-- The datagram moves one counter by one, and `allowed` when it is forwarded
and only then. -/
def Counted (ids : CounterIds) (l : Listener) : UdpAct → Prop
  | .publish _ => True
  | .datagram chunks permits setsDatagramData =>
      ∃ id ∈ [ids.allowed, ids.denied, ids.notPpv2],
        (l.react chunks permits setsDatagramData).calls.filter EnvoyCall.isIncrement =
            [.incrementCounter id 1] ∧
          (id = ids.allowed ↔
            (l.react chunks permits setsDatagramData).status = .continueIteration)

/-- A table is published, and the host takes the payload of a datagram that
passes. -/
def Accountable (l : Listener) : UdpAct → Prop
  | .publish _ => True
  | .datagram chunks permits setsDatagramData =>
      l.cell.table ≠ none ∧
        ∀ h, Passes l.cell.table permits chunks.flatten h → setsDatagramData = true

end Step

/-- The sums match. -/
structure Balanced (ids : CounterIds) (l : Listener) : Prop where
  forwarded : l.values ids.allowed = l.forwarded
  dropped : l.values ids.denied + l.values ids.notPpv2 = l.dropped

section Accounts

variable {ids : CounterIds}

theorem CounterIds.ne (ids : CounterIds) :
    ids.denied ≠ ids.allowed ∧ ids.notPpv2 ≠ ids.allowed ∧ ids.denied ≠ ids.notPpv2 := by
  have hapart := ids.apart
  simp only [List.nodup_cons, List.mem_cons, List.not_mem_nil, or_false, not_or,
    not_false_eq_true, List.nodup_nil, and_true] at hapart
  obtain ⟨⟨hdenied, hnotPpv2⟩, hne⟩ := hapart
  exact ⟨Ne.symm hdenied, Ne.symm hnotPpv2, hne⟩

/-- A payload changes no counter. -/
@[simp] theorem increments_bump (id : Nat) :
    (bump (some id)).filter EnvoyCall.isIncrement = [.incrementCounter id 1] := rfl

@[simp] theorem increments_setDatagramData (data : Bytes) :
    [EnvoyCall.setDatagramData data].filter EnvoyCall.isIncrement = [] := rfl

/-- Only increments count. -/
theorem count_increments (calls : List EnvoyCall) (values : Nat → Nat) :
    (calls.filter EnvoyCall.isIncrement).foldl EnvoyCall.count values =
      calls.foldl EnvoyCall.count values := by
  induction calls generalizing values with
  | nil => rfl
  | cons call rest ih =>
      rw [List.filter_cons]
      split
      · exact ih _
      · next hother =>
          have hsame : EnvoyCall.count values call = values := by
            cases call <;> first | rfl | exact absurd rfl hother
          rw [List.foldl_cons, hsame]
          exact ih values

variable {l l' : Listener} {act : UdpAct}

/-- One increment keeps the sums exactly when it is the right one. -/
theorem balanced_take_iff (hbalanced : Balanced ids l) {outcome : Outcome Ppv2AuthFilter}
    {id : Nat} (hid : id ∈ [ids.allowed, ids.denied, ids.notPpv2])
    (hcalls : outcome.calls.filter EnvoyCall.isIncrement = [.incrementCounter id 1]) :
    Balanced ids (l.take outcome) ↔
      (id = ids.allowed ↔ outcome.status = .continueIteration) := by
  obtain ⟨hforwarded, hdropped⟩ := hbalanced
  obtain ⟨hdenied, hnotPpv2, hne⟩ := ids.ne
  have hvalues : (l.take outcome).values = Function.update l.values id (l.values id + 1) := by
    rw [Listener.take, ← count_increments, hcalls]
    rfl
  have hiff : Balanced ids (l.take outcome) ↔
      (l.take outcome).values ids.allowed = (l.take outcome).forwarded ∧
        (l.take outcome).values ids.denied + (l.take outcome).values ids.notPpv2 =
          (l.take outcome).dropped :=
    ⟨fun h => ⟨h.forwarded, h.dropped⟩, fun h => ⟨h.1, h.2⟩⟩
  rw [hiff, hvalues]
  simp only [Listener.take, ← hforwarded, ← hdropped]
  simp only [List.mem_cons, List.not_mem_nil, or_false] at hid
  rcases hid with rfl | rfl | rfl <;> cases outcome.status <;>
    simp [hdenied, hnotPpv2, hdenied.symm, hnotPpv2.symm, hne, hne.symm] <;> omega

/-- An uncounted datagram leaves a sum short. -/
theorem not_balanced_take (hbalanced : Balanced ids l) {outcome : Outcome Ppv2AuthFilter}
    (hcalls : outcome.calls.filter EnvoyCall.isIncrement = []) :
    ¬ Balanced ids (l.take outcome) := by
  rintro ⟨hforwarded, hdropped⟩
  have hvalues : (l.take outcome).values = l.values := by
    rw [Listener.take, ← count_increments, hcalls]
    rfl
  rw [hvalues, hbalanced.forwarded] at hforwarded
  rw [hvalues, hbalanced.dropped] at hdropped
  cases hstatus : outcome.status <;> simp [Listener.take, hstatus] at hforwarded hdropped

variable [Sha256]

theorem Listener.exists_step (l : Listener) (act : UdpAct) :
    ∃ l', l.step act = some l' := by
  cases act with
  | publish t => exact ⟨_, rfl⟩
  | datagram chunks permits sets => exact ⟨_, rfl⟩

theorem counters_of_step {c : Counters} (hcounters : l.filter.counters = c)
    (hstep : l.step act = some l') : l'.filter.counters = c := by
  cases act with
  | publish t =>
      cases hstep
      exact hcounters
  | datagram chunks permits sets =>
      cases hstep
      exact (udp_onData_counters l.filter _ permits).trans hcounters

/-- A datagram is counted right exactly when it is accountable. -/
theorem counted_iff (hcounters : l.filter.counters = ids.counters) :
    Counted ids l act ↔ Accountable l act := by
  cases act with
  | publish t => exact Iff.rfl
  | datagram chunks permits sets =>
      obtain ⟨hdenied, hnotPpv2, -⟩ := ids.ne
      have hreacts : UdpReacts l.filter ⟨chunks, l.cell.table, sets⟩ permits
          (l.react chunks permits sets) := udp_onData_reacts _ _ _
      simp only [Counted, Accountable]
      generalize l.react chunks permits sets = outcome at hreacts
      cases hreacts with
      | unready htable =>
          simp only at htable
          simp [htable]
      | notPpv2 htable hparse =>
          simp only at htable hparse
          simp [htable, hparse, Passes, bump, hcounters, CounterIds.counters,
            EnvoyCall.isIncrement, hnotPpv2]
      | denied htable hparse hpermits =>
          simp only at htable hparse
          simp [htable, hparse, hpermits, Passes, bump, hcounters, CounterIds.counters,
            EnvoyCall.isIncrement, hdenied]
      | @passes h hpasses =>
          obtain ⟨t, htable, hparse, hpermits⟩ := hpasses
          simp only at htable hparse
          cases sets <;>
            simp [htable, hparse, hpermits, Passes, hcounters, CounterIds.counters,
              hdenied.symm, hnotPpv2.symm]

/-- A datagram moves no counter, or one of the three by one. -/
theorem increments_react (hcounters : l.filter.counters = ids.counters)
    (chunks : List Bytes) (permits : U128 → Bool) (setsDatagramData : Bool) :
    (l.react chunks permits setsDatagramData).calls.filter EnvoyCall.isIncrement = [] ∨
      ∃ id ∈ [ids.allowed, ids.denied, ids.notPpv2],
        (l.react chunks permits setsDatagramData).calls.filter EnvoyCall.isIncrement =
          [.incrementCounter id 1] := by
  have hreacts : UdpReacts l.filter ⟨chunks, l.cell.table, setsDatagramData⟩ permits
      (l.react chunks permits setsDatagramData) := udp_onData_reacts _ _ _
  generalize l.react chunks permits setsDatagramData = outcome at hreacts
  cases hreacts with
  | unready => exact Or.inl rfl
  | notPpv2 => exact Or.inr ⟨ids.notPpv2, by simp, by simp [hcounters, CounterIds.counters]⟩
  | denied => exact Or.inr ⟨ids.denied, by simp, by simp [hcounters, CounterIds.counters]⟩
  | passes => exact Or.inr ⟨ids.allowed, by simp, by simp [hcounters, CounterIds.counters]⟩

/-- So the sums stay matched exactly when every datagram is accountable. -/
theorem balanced_step_iff (hcounters : l.filter.counters = ids.counters)
    (hbalanced : Balanced ids l) (hstep : l.step act = some l') :
    Balanced ids l' ↔ Accountable l act := by
  rw [← counted_iff hcounters]
  cases act with
  | publish t =>
      cases hstep
      exact iff_of_true ⟨hbalanced.forwarded, hbalanced.dropped⟩ trivial
  | datagram chunks permits sets =>
      cases hstep
      rcases increments_react hcounters chunks permits sets with hnone | ⟨id, hid, hone⟩
      · have hnot := not_balanced_take hbalanced hnone
        simp [hnot, Counted, hnone]
      · rw [balanced_take_iff hbalanced hid hone]
        constructor
        · intro hright
          exact ⟨id, hid, hone, hright⟩
        · rintro ⟨id', -, hone', hright⟩
          rw [hone'] at hone
          simp only [List.cons.injEq, EnvoyCall.incrementCounter.injEq, and_true] at hone
          exact hone ▸ hright

/-- The counters account for every datagram of a run exactly as far as each
finds a table, and the host takes the payload of each that passes. -/
theorem counters_account (ids : CounterIds) (acts : List UdpAct) :
    (Transition.Meets Listener.step (Counted ids) (.start ids.counters) acts ↔
      Transition.Meets Listener.step Accountable (.start ids.counters) acts) ∧
    (Transition.Throughout Listener.step (Balanced ids) (.start ids.counters) acts ↔
      Transition.Meets Listener.step Accountable (.start ids.counters) acts) := by
  have hkeep : ∀ (l : Listener) act l', l.filter.counters = ids.counters →
      l.step act = some l' → l'.filter.counters = ids.counters :=
    fun l act l' hcounters hstep => counters_of_step hcounters hstep
  constructor
  · apply Transition.meets_congr hkeep
    · intro l act hcounters
      exact counted_iff hcounters
    · rfl
  · apply Transition.throughout_iff_meets Listener.exists_step hkeep
    · intro l act l' hcounters hbalanced hstep
      exact balanced_step_iff hcounters hbalanced hstep
    · rfl
    · exact ⟨rfl, rfl⟩

end Accounts

namespace AccountingWitness

attribute [local instance] MeetingWitness.endpointDigest

def ids : CounterIds := ⟨0, 1, 2, by decide⟩

def bare : Table := ⟨Scheme.new MeetingWitness.pfx [], Graph.default⟩

/-- What rules that allow 10.0.0.0/8 answer once the table is published. -/
def answers (addr : U128) : Bool :=
  ((Config.ofRaw ⟨[ascii "10.0.0.0/8"], none⟩).permitsUnscoped
    (Published.initial.publish bare) addr).2

/-- A header for 10.0.0.1 and nothing behind it. -/
def office : Bytes := MeetingWitness.wire 0x12 10 0 0 1

/-- Forwarded, dropped, and the three counters. -/
def sums (l : Listener) : List Nat :=
  [l.forwarded, l.dropped, l.values ids.allowed, l.values ids.denied,
    l.values ids.notPpv2]

/-- Before the first table a datagram is dropped uncounted; a payload the host
does not take is counted as allowed and dropped. -/
theorem datagrams_miscounted :
    (Transition.exec Listener.step (.start ids.counters)
        [.datagram [office] answers true]).map sums = some [0, 1, 0, 0, 0] ∧
      (Transition.exec Listener.step (.start ids.counters)
        [.publish bare, .datagram [office] answers false]).map sums =
          some [0, 1, 1, 0, 0] := by
  decide +kernel

end AccountingWitness

end Filters

end Ppv2Auth
