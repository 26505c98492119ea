/-
What one connection is told.  A header filter says nothing until its verdict,
says everything in one answer and stays silent after it; two of its five
fates have no counter.
-/
import Ppv2Auth.Filters.Accounting
import Ppv2Auth.Filters.Segmentation

namespace Ppv2Auth

namespace Filters

open Rust Identity

/-- What becomes of a connection. -/
inductive Fate where
  | admitted
  | refused (reason : String)
deriving DecidableEq

def fates : List Fate :=
  [.admitted, .refused "denied_by_allowlist", .refused "not_proxy_protocol",
    .refused "no_identity_table", .refused "set_remote_address_failed"]

/-- Where a verdict is counted. -/
def Counters.of (counters : Counters) : Fate → Option Nat
  | .admitted => counters.allowed
  | .refused reason =>
      if reason = "denied_by_allowlist" then counters.denied
      else if reason = "not_proxy_protocol" then counters.notPpv2
      else none

def EnvoyCall.reason : EnvoyCall → Option String
  | .setDownstreamTransportFailureReason reason => some reason
  | _ => none

/-- A refusal names its reason; a stop without one is a wait. -/
def Verdict.fate (a : Verdict) : Option Fate :=
  match a.status with
  | .continueIteration => some .admitted
  | .stopIteration => (a.calls.findSome? EnvoyCall.reason).map .refused

/-- The first verdict of a conversation. -/
def fateOf (answers : List Verdict) : Option Fate := answers.findSome? Verdict.fate

def said (answers : List Verdict) : List EnvoyCall := answers.flatMap Verdict.calls

/-- The answers that asked for anything. -/
def spoken (answers : List Verdict) : List Verdict := answers.filter fun a => a.calls ≠ []

theorem fateOf_concat (answers : List Verdict) (a : Verdict) :
    fateOf (answers ++ [a]) = (fateOf answers).or a.fate := by
  rw [fateOf, List.findSome?_append]
  cases hfate : a.fate <;> simp [fateOf, hfate]

@[simp] theorem said_append (answers answers' : List Verdict) :
    said (answers ++ answers') = said answers ++ said answers' :=
  List.flatMap_append

@[simp] theorem said_singleton (a : Verdict) : said [a] = a.calls := by
  simp [said]

@[simp] theorem spoken_append (answers answers' : List Verdict) :
    spoken (answers ++ answers') = spoken answers ++ spoken answers' :=
  List.filter_append _ _

/-- What a call adds to a counter. -/
def EnvoyCall.adds (id : Nat) : EnvoyCall → Nat
  | .incrementCounter id' amount => if id' = id then amount else 0
  | _ => 0

def tally (id : Nat) (calls : List EnvoyCall) : Nat := (calls.map (EnvoyCall.adds id)).sum

@[simp] theorem tally_nil (id : Nat) : tally id [] = 0 := rfl

@[simp] theorem tally_append (id : Nat) (calls calls' : List EnvoyCall) :
    tally id (calls ++ calls') = tally id calls + tally id calls' := by
  simp [tally]

@[simp] theorem tally_bump (id : Nat) (counter : Option Nat) :
    tally id (bump counter) = if counter = some id then 1 else 0 := by
  cases counter with
  | none => rfl
  | some id' => simp [bump, tally, EnvoyCall.adds]

/-- The host's counters move by the sums. -/
theorem foldl_count (id : Nat) (calls : List EnvoyCall) (before : Nat → Nat) :
    calls.foldl EnvoyCall.count before id = before id + tally id calls := by
  induction calls generalizing before with
  | nil => rfl
  | cons call rest ih =>
      have hcall : EnvoyCall.count before call id = before id + call.adds id := by
        cases call with
        | incrementCounter id' amount =>
            by_cases hid : id' = id
            · subst hid
              simp [EnvoyCall.count, EnvoyCall.adds]
            · simp [EnvoyCall.count, EnvoyCall.adds, hid, Function.update_of_ne (Ne.symm hid)]
        | _ => rfl
      rw [List.foldl_cons, ih, hcall]
      simp [tally, Nat.add_assoc]

/-- Neither counted nor a refusal. -/
def EnvoyCall.isQuiet : EnvoyCall → Bool
  | .setRemoteAddress _ _ _ => true
  | .setDynamicMetadataString _ _ _ => true
  | .drainBuffer _ => true
  | .incrementCounter _ _ => false
  | .setDownstreamTransportFailureReason _ => false
  | .continueFilterChain _ => false
  | .setDatagramData _ => true

def Quiet (calls : List EnvoyCall) : Prop := ∀ call ∈ calls, call.isQuiet = true

theorem quiet_nil : Quiet [] := nofun

theorem quiet_labelCalls [Sha256] (scheme : Scheme) (h : Ppv2.Header) :
    Quiet (labelCalls scheme h) := by
  simp [Quiet, labelCalls, EnvoyCall.isQuiet]

theorem Quiet.tally {calls : List EnvoyCall} (hquiet : Quiet calls) (id : Nat) :
    tally id calls = 0 := by
  apply List.sum_eq_zero
  intro n hn
  obtain ⟨call, hcall, rfl⟩ := List.mem_map.mp hn
  have := hquiet call hcall
  cases call <;> first | rfl | cases this

theorem Quiet.reason {calls : List EnvoyCall} (hquiet : Quiet calls) :
    calls.findSome? EnvoyCall.reason = none := by
  rw [List.findSome?_eq_none_iff]
  intro call hcall
  have := hquiet call hcall
  cases call <;> first | rfl | cases this

@[simp] theorem reason_bump (counter : Option Nat) :
    (bump counter).findSome? EnvoyCall.reason = none := by
  cases counter <;> rfl

/-- How a header filter tells a verdict, after the calls it has made. -/
def Ppv2Filter.tell (f : Ppv2Filter) (calls : List EnvoyCall) : Fate → Outcome Ppv2Filter
  | .admitted => f.accept calls
  | .refused reason => f.refuse (calls ++ bump (f.counters.of (.refused reason))) reason

section Tell

variable (f : Ppv2Filter) {calls : List EnvoyCall} (v : Fate)

theorem fate_tell (hquiet : Quiet calls) : (f.tell calls v).verdict.fate = some v := by
  cases v with
  | admitted => rfl
  | refused reason =>
      have hreason : ((f.tell calls (.refused reason)).calls.findSome? EnvoyCall.reason) =
          some reason := by
        rw [Ppv2Filter.tell, Ppv2Filter.refuse, List.findSome?_append, List.findSome?_append,
          hquiet.reason, reason_bump]
        rfl
      exact congrArg (Option.map Fate.refused) hreason

theorem tally_tell (hquiet : Quiet calls) (id : Nat) :
    tally id (f.tell calls v).calls = if f.counters.of v = some id then 1 else 0 := by
  cases v with
  | admitted =>
      rw [Ppv2Filter.tell, Ppv2Filter.accept, tally_append, hquiet.tally, tally_bump,
        Nat.zero_add]
      rfl
  | refused reason =>
      have hclose : tally id [.setDownstreamTransportFailureReason reason,
          .continueFilterChain false] = 0 := rfl
      simp [Ppv2Filter.tell, Ppv2Filter.refuse, hquiet.tally, hclose]

@[simp] theorem counters_tell : (f.tell calls v).filter.counters = f.counters := by
  cases v <;> rfl

theorem conclude_eq_tell (permitted : Bool) :
    f.conclude calls permitted =
      f.tell calls (if permitted then .admitted else .refused "denied_by_allowlist") := by
  cases permitted <;> rfl

end Tell

/-- Nothing but these counters moves. -/
def Counters.Covers (counters : Counters) (calls : List EnvoyCall) : Prop :=
  ∀ id, some id ∉ [counters.allowed, counters.denied, counters.notPpv2] → tally id calls = 0

theorem Counters.Covers.append {counters : Counters} {calls calls' : List EnvoyCall}
    (h : counters.Covers calls) (h' : counters.Covers calls') :
    counters.Covers (calls ++ calls') := by
  intro id hid
  rw [tally_append, h id hid, h' id hid]

theorem covers_bump {counters : Counters} {counter : Option Nat}
    (hcounter : counter = none ∨
      counter ∈ [counters.allowed, counters.denied, counters.notPpv2]) :
    counters.Covers (bump counter) := by
  intro id hid
  rw [tally_bump, if_neg]
  rintro rfl
  rcases hcounter with hnone | hmem
  · cases hnone
  · exact hid hmem

theorem of_mem (counters : Counters) (v : Fate) :
    counters.of v = none ∨
      counters.of v ∈ [counters.allowed, counters.denied, counters.notPpv2] := by
  cases v with
  | admitted => exact Or.inr (by simp [Counters.of])
  | refused reason =>
      simp only [Counters.of]
      split_ifs <;> simp

/-- Three ids tell three verdicts apart. -/
theorem bind_of_iff {ids : CounterIds} {fate : Option Fate} {v : Fate} {id : Nat}
    (hknown : ∀ v', fate = some v' → v' ∈ fates) (hv : v ∈ fates)
    (hof : ids.counters.of v = some id) :
    fate.bind ids.counters.of = some id ↔ fate = some v := by
  constructor
  · intro hbind
    obtain ⟨v', rfl, hof'⟩ := Option.bind_eq_some_iff.mp hbind
    have hv' := hknown v' rfl
    obtain ⟨hdenied, hnotPpv2, hne⟩ := ids.ne
    simp only [fates, List.mem_cons, List.not_mem_nil, or_false] at hv hv'
    rcases hv with rfl | rfl | rfl | rfl | rfl <;>
      rcases hv' with rfl | rfl | rfl | rfl | rfl <;>
      simp_all [Counters.of, CounterIds.counters]
  · rintro rfl
    exact hof

theorem covers_tell (f : Ppv2Filter) {calls : List EnvoyCall} (v : Fate)
    (hquiet : Quiet calls) : f.counters.Covers (f.tell calls v).calls := by
  intro id hid
  rw [tally_tell f v hquiet, ← tally_bump]
  exact covers_bump (of_mem f.counters v) id hid

/-- What the examination of a connection's bytes comes to. -/
inductive Examines (f : Ppv2Filter) : Examined Ppv2Filter → Prop where
  | refused (hrefused : f.refused = true) : Examines f (.settled ⟨f, [], .stopIteration⟩)
  | done (hrefused : f.refused = false) (hdone : f.done = true) :
      Examines f (.settled ⟨f, [], .continueIteration⟩)
  | waits (hfresh : f.Fresh) (n : Nat) :
      Examines f (.settled ⟨{ f with want := n }, [], .stopIteration⟩)
  | tells (hfresh : f.Fresh) {calls : List EnvoyCall} (hquiet : Quiet calls) {v : Fate}
      (hv : v ∈ fates) : Examines f (.settled (f.tell calls v))
  | asks (hfresh : f.Fresh) {calls : List EnvoyCall} (hquiet : Quiet calls) (id : U128) :
      Examines f (.judge id calls)

/-- A parsed header is labelled, then admitted or asked about. -/
theorem examines_of_parsed [Sha256] {f : Ppv2Filter} (hfresh : f.Fresh) {host : TcpHost}
    {table : Table} (htable : host.table = some table) {h : Ppv2.Header}
    (hparse : Ppv2.parse (host.buffer.getD []) = .ok h) : Examines f (f.examine host) := by
  have hrefused := hfresh.refused
  have hdone := hfresh.done
  have hquiet := quiet_labelCalls table.scheme h
  cases hlabel : host.setsRemoteAddress with
  | false =>
      have hexamine : f.examine host = .settled (f.tell ((labelCalls table.scheme h).take 1)
          (.refused "set_remote_address_failed")) := by
        simp [Ppv2Filter.examine, hrefused, hdone, htable, inspect, hparse, hlabel,
          Ppv2Filter.tell, Counters.of, bump, labelCalls]
      have hfirst : Quiet ((labelCalls table.scheme h).take 1) :=
        fun call hcall => hquiet call (List.mem_of_mem_take hcall)
      exact hexamine ▸ .tells hfresh hfirst (by decide)
  | true =>
      cases henforce : f.enforce with
      | true =>
          have hexamine : f.examine host =
              .judge (toU128 (synthesize table.scheme h)) (labelCalls table.scheme h) := by
            simp [Ppv2Filter.examine, hrefused, hdone, htable, inspect, hparse, hlabel,
              henforce, labelCalls]
          exact hexamine ▸ .asks hfresh hquiet _
      | false =>
          have hexamine : f.examine host =
              .settled (f.tell (labelCalls table.scheme h) .admitted) := by
            simp [Ppv2Filter.examine, hrefused, hdone, htable, inspect, hparse, hlabel,
              henforce, labelCalls, Ppv2Filter.tell]
          exact hexamine ▸ .tells hfresh hquiet (by decide)

/-- A filter that is neither done nor refused reads. -/
theorem examines_of_fresh [Sha256] {f : Ppv2Filter} (hfresh : f.Fresh) (host : TcpHost) :
    Examines f (f.examine host) := by
  have hrefused := hfresh.refused
  have hdone := hfresh.done
  cases htable : host.table with
  | none =>
      have hexamine : f.examine host =
          .settled (f.tell [] (.refused "no_identity_table")) := by
        simp [Ppv2Filter.examine, hrefused, hdone, htable, Ppv2Filter.tell, Counters.of, bump]
      exact hexamine ▸ .tells hfresh quiet_nil (by decide)
  | some table =>
      cases hparse : Ppv2.parse (host.buffer.getD []) with
      | error e =>
          cases e with
          | need n =>
              have hexamine : f.examine host =
                  .settled ⟨{ f with want := n }, [], .stopIteration⟩ := by
                simp [Ppv2Filter.examine, hrefused, hdone, htable, inspect, hparse]
              exact hexamine ▸ .waits hfresh n
          | invalid =>
              have hexamine : f.examine host =
                  .settled (f.tell [] (.refused "not_proxy_protocol")) := by
                simp [Ppv2Filter.examine, hrefused, hdone, htable, inspect, hparse,
                  Ppv2Filter.tell, Counters.of]
              exact hexamine ▸ .tells hfresh quiet_nil (by decide)
      | ok h => exact examines_of_parsed hfresh htable hparse

theorem examines_examine [Sha256] (f : Ppv2Filter) (host : TcpHost) :
    Examines f (f.examine host) := by
  cases hrefused : f.refused with
  | true =>
      have hexamine : f.examine host = .settled ⟨f, [], .stopIteration⟩ := by
        simp [Ppv2Filter.examine, hrefused]
      exact hexamine ▸ .refused hrefused
  | false =>
      cases hdone : f.done with
      | true =>
          have hexamine : f.examine host = .settled ⟨f, [], .continueIteration⟩ := by
            simp [Ppv2Filter.examine, hrefused, hdone]
          exact hexamine ▸ .done hrefused hdone
      | false => exact examines_of_fresh ⟨hrefused, hdone⟩ host

/-- What the flags say about the verdict. -/
def Ppv2Filter.Stands (f : Ppv2Filter) : Option Fate → Prop
  | none => f.Fresh
  | some .admitted => f.refused = false ∧ f.done = true
  | some (.refused _) => f.refused = true

/-- A filter and everything it has answered; `busy` while a judgement is
due. -/
structure Recorded (f : Ppv2Filter) (busy : Bool) (answers : List Verdict) : Prop where
  stands : f.Stands (fateOf answers)
  known : ∀ v, fateOf answers = some v → v ∈ fates
  tallied : ∀ id, tally id (said answers) =
    if (fateOf answers).bind f.counters.of = some id then 1 else 0
  once : (spoken answers).length ≤ if (fateOf answers).isSome then 1 else 0
  awaits : busy = true → fateOf answers = none

theorem recorded_new (enforce : Bool) (counters : Counters) :
    Recorded (Ppv2Filter.new enforce counters) false [] where
  stands := ⟨rfl, rfl⟩
  known v hv := by cases hv
  tallied id := by simp [said, fateOf]
  once := Nat.zero_le _
  awaits := nofun

section Recorded

variable {f f' : Ppv2Filter} {busy : Bool} {answers : List Verdict}

/-- A silent answer changes nothing that was said. -/
theorem Recorded.silent (h : Recorded f false answers) {status : Status}
    (hstands : f'.Stands (fateOf answers)) (hcounters : f'.counters = f.counters)
    (hstatus : status = .continueIteration → fateOf answers = some .admitted) :
    Recorded f' false (answers ++ [⟨[], status⟩]) := by
  have hfate : fateOf (answers ++ [⟨[], status⟩]) = fateOf answers := by
    rw [fateOf_concat]
    cases status with
    | continueIteration => simp [hstatus rfl]
    | stopIteration => simp [Verdict.fate]
  constructor
  · exact hfate ▸ hstands
  · exact hfate ▸ h.known
  · intro id
    rw [hfate, hcounters, ← h.tallied id]
    simp
  · have hnone : spoken [⟨[], status⟩] = [] := rfl
    rw [hfate, spoken_append, hnone, List.append_nil]
    exact h.once
  · exact nofun

/-- The verdict, told once. -/
theorem Recorded.tell (h : Recorded f busy answers) (hopen : fateOf answers = none)
    {calls : List EnvoyCall} (hquiet : Quiet calls) {v : Fate} (hv : v ∈ fates) :
    Recorded (f.tell calls v).filter false (answers ++ [(f.tell calls v).verdict]) := by
  have hfate : fateOf (answers ++ [(f.tell calls v).verdict]) = some v := by
    rw [fateOf_concat, hopen, fate_tell f v hquiet]
    rfl
  have hfresh : f.Fresh := by
    have hstands := h.stands
    rwa [hopen] at hstands
  constructor
  · rw [hfate]
    cases v with
    | admitted => exact ⟨hfresh.refused, rfl⟩
    | refused reason => rfl
  · intro v' hv'
    rw [hfate] at hv'
    exact Option.some.inj hv' ▸ hv
  · intro id
    have hbefore := h.tallied id
    rw [hopen] at hbefore
    have htell := tally_tell f v hquiet id
    rw [said_append, said_singleton, tally_append, hbefore, hfate, counters_tell]
    simpa [Outcome.verdict] using htell
  · have hbefore := h.once
    rw [hopen] at hbefore
    have hone : (spoken [(f.tell calls v).verdict]).length ≤ 1 :=
      List.length_filter_le _ _
    rw [hfate, spoken_append, List.length_append]
    simpa using Nat.add_le_add hbefore hone
  · exact nofun

/-- One callback that settles. -/
theorem Recorded.settled (h : Recorded f false answers) {outcome : Outcome Ppv2Filter}
    (hexamines : Examines f (.settled outcome)) :
    Recorded outcome.filter false (answers ++ [outcome.verdict]) := by
  have hstands := h.stands
  generalize hfate : fateOf answers = v at hstands
  cases hexamines with
  | refused hrefused =>
      exact h.silent h.stands rfl nofun
  | done hrefused hdone =>
      apply h.silent h.stands rfl
      intro _
      cases v with
      | none => exact absurd hdone (by simp [hstands.done])
      | some v =>
          cases v with
          | admitted => exact hfate
          | refused reason => exact absurd hstands (by simp [hrefused, Ppv2Filter.Stands])
  | waits hfresh n =>
      refine h.silent ?_ rfl nofun
      rw [hfate]
      cases v with
      | none => exact ⟨hfresh.refused, hfresh.done⟩
      | some v =>
          cases v with
          | admitted => exact absurd hstands.2 (by simp [hfresh.done])
          | refused reason => exact hstands
  | tells hfresh hquiet hv =>
      refine h.tell ?_ hquiet hv
      cases v with
      | none => exact hfate
      | some v =>
          cases v with
          | admitted => exact absurd hstands.2 (by simp [hfresh.done])
          | refused reason => exact absurd hstands (by simp [hfresh.refused, Ppv2Filter.Stands])

/-- One that asks is still open. -/
theorem Recorded.asks (h : Recorded f false answers) (hfresh : f.Fresh) :
    Recorded f true answers where
  stands := h.stands
  known := h.known
  tallied := h.tallied
  once := h.once
  awaits _ := by
    have hstands := h.stands
    cases hfate : fateOf answers with
    | none => rfl
    | some v =>
        rw [hfate] at hstands
        cases v with
        | admitted => exact absurd hstands.2 (by simp [hfresh.done])
        | refused reason => exact absurd hstands (by simp [hfresh.refused, Ppv2Filter.Stands])

end Recorded

end Filters

end Ppv2Auth
