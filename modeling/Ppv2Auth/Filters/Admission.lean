/-
Admission safety of the TCP filter.  One callback either repeats a terminal
answer, waits, refuses or admits; what a run has drained and closed is then a
function of the two flags.
-/
import Ppv2Auth.Filters.Tcp

namespace Ppv2Auth

namespace Filters

open Rust Identity

/-- One `on_data`: what the host holds and what judging would answer. -/
structure Callback where
  host : TcpHost
  permits : U128 → Bool

section Runs

variable [Sha256]

/-- The outcomes of a sequence of callbacks on one filter. -/
def Ppv2Filter.run (f : Ppv2Filter) : List Callback → List (Outcome Ppv2Filter)
  | [] => []
  | cb :: rest =>
      let outcome := f.onData cb.host cb.permits
      outcome :: outcome.filter.run rest

/-- The filter after a sequence of callbacks. -/
def Ppv2Filter.after (f : Ppv2Filter) (callbacks : List Callback) : Ppv2Filter :=
  callbacks.foldl (fun f cb => (f.onData cb.host cb.permits).filter) f

end Runs

def drains (calls : List EnvoyCall) : Nat := calls.countP EnvoyCall.isDrain

def closes (calls : List EnvoyCall) : Nat := calls.countP EnvoyCall.isClose

/-- What admitting takes: a parsed header, a label of its identity that was
accepted, its bytes drained and nothing else, and permission if asked for. -/
def Admits [Sha256] (enforce : Bool) (cb : Callback)
    (calls : List EnvoyCall) : Prop :=
  ∃ table h, cb.host.table = some table ∧
    Ppv2.parse (cb.host.buffer.getD []) = .ok h ∧
    cb.host.setsRemoteAddress = true ∧
    .setRemoteAddress (format (synthesize table.scheme h)).text
      h.srcPort.toUInt32 true ∈ calls ∧
    calls.filter EnvoyCall.isDrain = [.drainBuffer h.len] ∧
    (enforce = true → cb.permits (toU128 (synthesize table.scheme h)) = true)

/-- Everything one callback can do. -/
inductive Reacts [Sha256] (f : Ppv2Filter) (cb : Callback) :
    Outcome Ppv2Filter → Prop where
  | refused (hrefused : f.refused = true) : Reacts f cb ⟨f, [], .stopIteration⟩
  | done (hrefused : f.refused = false) (hdone : f.done = true) :
      Reacts f cb ⟨f, [], .continueIteration⟩
  | waits (hfresh : f.Fresh) (n : Nat) :
      Reacts f cb ⟨{ f with want := n }, [], .stopIteration⟩
  | refuses (hfresh : f.Fresh) (calls : List EnvoyCall) (reason : String)
      (hdrains : drains calls ≤ 1) (hcloses : closes calls = 0) :
      Reacts f cb (f.refuse calls reason)
  | admits (hfresh : f.Fresh) (calls : List EnvoyCall)
      (hadmits : Admits f.enforce cb calls) (hcloses : closes calls = 0) :
      Reacts f cb ⟨{ f with done := true }, calls, .continueIteration⟩

@[simp] theorem drains_bump (id : Option Nat) : drains (bump id) = 0 := by
  cases id <;> rfl

@[simp] theorem closes_bump (id : Option Nat) : closes (bump id) = 0 := by
  cases id <;> rfl

@[simp] theorem drains_append (calls calls' : List EnvoyCall) :
    drains (calls ++ calls') = drains calls + drains calls' :=
  List.countP_append

@[simp] theorem closes_append (calls calls' : List EnvoyCall) :
    closes (calls ++ calls') = closes calls + closes calls' :=
  List.countP_append

@[simp] theorem filter_isDrain_bump (id : Option Nat) :
    (bump id).filter EnvoyCall.isDrain = [] := by
  cases id <;> rfl

theorem closes_refuse (f : Ppv2Filter) (calls : List EnvoyCall)
    (reason : String) : closes (f.refuse calls reason).calls = closes calls + 1 := by
  simp [Ppv2Filter.refuse, closes, EnvoyCall.isClose]

theorem drains_refuse (f : Ppv2Filter) (calls : List EnvoyCall)
    (reason : String) : drains (f.refuse calls reason).calls = drains calls := by
  simp [Ppv2Filter.refuse, drains, EnvoyCall.isDrain]

/-- What the flags say about everything asked so far. -/
structure Ledger (f : Ppv2Filter) (calls : List EnvoyCall) : Prop where
  exclusive : ¬ (f.done = true ∧ f.refused = true)
  drained : drains calls ≤ 1
  untouched : f.Fresh → drains calls = 0
  closed : closes calls = if f.refused then 1 else 0

theorem ledger_new (enforce : Bool) (counters : Counters) :
    Ledger (Ppv2Filter.new enforce counters) [] := by
  constructor <;> simp [Ppv2Filter.new, drains, closes]

section Steps

variable [Sha256]

theorem drains_labelCalls (scheme : Scheme) (h : Ppv2.Header) :
    drains (labelCalls scheme h) = 1 := rfl

theorem closes_labelCalls (scheme : Scheme) (h : Ppv2.Header) :
    closes (labelCalls scheme h) = 0 := rfl

theorem onData_reacts (f : Ppv2Filter) (cb : Callback) :
    Reacts f cb (f.onData cb.host cb.permits) := by
  cases hrefused : f.refused with
  | true => exact onData_of_refused cb.permits hrefused ▸ .refused hrefused
  | false =>
      cases hdone : f.done with
      | true => exact onData_of_done cb.permits hrefused hdone ▸ .done hrefused hdone
      | false =>
          have hfresh : f.Fresh := ⟨hrefused, hdone⟩
          cases htable : cb.host.table with
          | none =>
              rw [onData_no_table cb.permits hfresh htable]
              exact .refuses hfresh _ _ (Nat.zero_le 1) rfl
          | some table =>
              cases hparse : Ppv2.parse (cb.host.buffer.getD []) with
              | error e =>
                  cases e with
                  | need n =>
                      rw [onData_need cb.permits hfresh htable hparse]
                      exact .waits hfresh n
                  | invalid =>
                      rw [onData_invalid cb.permits hfresh htable hparse]
                      exact .refuses hfresh _ _ (by simp) (by simp)
              | ok h =>
                  rw [onData_ok cb.permits hfresh htable hparse]
                  split
                  · exact .refuses hfresh _ _ (Nat.zero_le 1) rfl
                  · next hlabel =>
                      unfold Ppv2Filter.conclude
                      split
                      · next hpermitted =>
                          refine .admits hfresh _ ⟨table, h, htable, hparse,
                            by simpa using hlabel, by simp [labelCalls], ?_, ?_⟩
                            (by simp [closes_labelCalls])
                          · rw [List.filter_append, filter_isDrain_bump]
                            rfl
                          · intro henforce
                            simpa [henforce] using hpermitted
                      · exact .refuses hfresh _ _ (by simp [drains_labelCalls])
                          (by simp [closes_labelCalls])

theorem Ledger.step {f : Ppv2Filter} {calls : List EnvoyCall}
    (hledger : Ledger f calls) {cb : Callback} {outcome : Outcome Ppv2Filter}
    (hreacts : Reacts f cb outcome) :
    Ledger outcome.filter (calls ++ outcome.calls) := by
  cases hreacts with
  | refused | done => simpa using hledger
  | waits hfresh =>
      have huntouched := hledger.untouched hfresh
      have hclosed := hledger.closed
      exact ⟨hledger.exclusive, by simpa using hledger.drained,
        fun _ => by simpa using huntouched, by simpa using hclosed⟩
  | refuses hfresh calls' reason hdrains hcloses =>
      have huntouched := hledger.untouched hfresh
      have hclosed := hledger.closed
      rw [hfresh.refused] at hclosed
      refine ⟨fun hboth => ?_, ?_, fun hnow => ?_, ?_⟩
      · exact absurd hboth.1 (by simp [Ppv2Filter.refuse, hfresh.done])
      · rw [drains_append, drains_refuse]
        omega
      · exact absurd hnow.refused (by simp [Ppv2Filter.refuse])
      · rw [closes_append, closes_refuse]
        simp [Ppv2Filter.refuse, hclosed, hcloses]
  | admits hfresh calls' hadmits hcloses =>
      have huntouched := hledger.untouched hfresh
      have hclosed := hledger.closed
      obtain ⟨-, h, -, -, -, -, hdrain, -⟩ := hadmits
      have hdrains : drains calls' = 1 := by
        rw [drains, List.countP_eq_length_filter, hdrain]
        rfl
      refine ⟨fun hboth => ?_, ?_, fun hnow => ?_, ?_⟩
      · exact absurd hboth.2 (by simp [hfresh.refused])
      · rw [drains_append, huntouched, Nat.zero_add]
        exact hdrains.le
      · exact absurd hnow.done (by simp)
      · rw [closes_append, hcloses]
        simpa using hclosed

theorem Ledger.run {f : Ppv2Filter} {calls : List EnvoyCall}
    (hledger : Ledger f calls) (callbacks : List Callback) :
    Ledger (f.after callbacks)
      (calls ++ (f.run callbacks).flatMap Outcome.calls) := by
  induction callbacks generalizing f calls with
  | nil => simpa [Ppv2Filter.after, Ppv2Filter.run] using hledger
  | cons cb rest ih =>
      have hrest := ih (hledger.step (onData_reacts f cb))
      simpa [Ppv2Filter.after, Ppv2Filter.run] using hrest

/-- A refused filter stays as it is. -/
theorem run_of_refused {f : Ppv2Filter} (hrefused : f.refused = true)
    (callbacks : List Callback) :
    ∀ outcome ∈ f.run callbacks, outcome = ⟨f, [], .stopIteration⟩ := by
  induction callbacks with
  | nil => simp [Ppv2Filter.run]
  | cons cb rest ih =>
      have hout : f.onData cb.host cb.permits = _ :=
        onData_of_refused cb.permits hrefused
      intro outcome houtcome
      rw [Ppv2Filter.run, hout] at houtcome
      rcases List.mem_cons.mp houtcome with rfl | hrest
      · rfl
      · exact ih outcome hrest

/-- A filter that has only waited or refused has not admitted. -/
theorem done_of_continue {f : Ppv2Filter} (hdone : f.done = false)
    {callbacks : List Callback}
    (hstop : ∀ outcome ∈ f.run callbacks, outcome.status = .stopIteration) :
    (f.after callbacks).done = false ∧
      (f.after callbacks).enforce = f.enforce := by
  induction callbacks generalizing f with
  | nil => exact ⟨hdone, rfl⟩
  | cons cb rest ih =>
      have hhead := hstop _ List.mem_cons_self
      have hnext : (f.onData cb.host cb.permits).filter.done = false ∧
          (f.onData cb.host cb.permits).filter.enforce = f.enforce := by
        have hreacts := onData_reacts f cb
        generalize f.onData cb.host cb.permits = outcome at hreacts hhead
        cases hreacts with
        | refused => exact ⟨hdone, rfl⟩
        | done => cases hhead
        | waits => exact ⟨hdone, rfl⟩
        | refuses => exact ⟨hdone, rfl⟩
        | admits => cases hhead
      have hrest := ih hnext.1 fun outcome houtcome =>
        hstop outcome (List.mem_cons_of_mem _ houtcome)
      exact ⟨hrest.1, hrest.2.trans hnext.2⟩

/-- Admission safety of the filter, over runs of any length with any buffers,
tables, label outcomes and answers along the way. -/
theorem admission_safety (enforce : Bool) (counters : Counters)
    (callbacks : List Callback) :
    (∀ before cb later, callbacks = before ++ cb :: later →
      (∀ outcome ∈ (Ppv2Filter.new enforce counters).run before,
        outcome.status = .stopIteration) →
      (((Ppv2Filter.new enforce counters).after before).onData cb.host
          cb.permits).status = .continueIteration →
      Admits enforce cb (((Ppv2Filter.new enforce counters).after before).onData
        cb.host cb.permits).calls) ∧
      (∀ before later, callbacks = before ++ later →
        ((Ppv2Filter.new enforce counters).after before).refused = true →
        ∀ outcome ∈ ((Ppv2Filter.new enforce counters).after before).run later,
          outcome.status = .stopIteration ∧ outcome.calls = []) ∧
      (∀ before later, callbacks = before ++ later →
        let f := (Ppv2Filter.new enforce counters).after before
        let calls := ((Ppv2Filter.new enforce counters).run before).flatMap
          Outcome.calls
        ¬ (f.done = true ∧ f.refused = true) ∧ drains calls ≤ 1 ∧
          closes calls = if f.refused then 1 else 0) := by
  refine ⟨?_, ?_, ?_⟩
  · rintro before cb later rfl hstop hcontinue
    obtain ⟨hdone, henforce⟩ := done_of_continue (f := .new enforce counters)
      rfl hstop
    have hreacts := onData_reacts ((Ppv2Filter.new enforce counters).after before) cb
    generalize ((Ppv2Filter.new enforce counters).after before).onData cb.host
      cb.permits = outcome at hreacts hcontinue ⊢
    cases hreacts with
    | refused | waits | refuses => cases hcontinue
    | done _ hadmitted => simp [hdone] at hadmitted
    | admits _ _ hadmits => exact henforce ▸ hadmits
  · rintro before later rfl hrefused outcome houtcome
    rw [run_of_refused hrefused later outcome houtcome]
    exact ⟨rfl, rfl⟩
  · rintro before later rfl
    have hledger := (ledger_new enforce counters).run before
    exact ⟨hledger.exclusive, by simpa using hledger.drained,
      by simpa using hledger.closed⟩

end Steps

end Filters

end Ppv2Auth
