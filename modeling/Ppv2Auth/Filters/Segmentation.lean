/-
Segmentation independence of the TCP filter.  The filter waits exactly while
the parser asks for more, and any peek that is not a wait has the verdict of
the whole stream; so schedules can differ only in when they decide.
-/
import Ppv2Auth.Filters.Tcp
import Ppv2Auth.Filters.Admission
import Ppv2Auth.Ppv2.Incremental

namespace Ppv2Auth

namespace Filters

open Rust Identity

/-- What a filter asked for and answered when it decided. -/
structure Verdict where
  calls : List EnvoyCall
  status : Status
deriving DecidableEq

def Outcome.verdict {σ : Type} (o : Outcome σ) : Verdict := ⟨o.calls, o.status⟩

/-- A terminal flag is set. -/
def Outcome.decides (o : Outcome Ppv2Filter) : Bool :=
  o.filter.done || o.filter.refused

/-- A filter that has only waited differs from a new one in what it wants. -/
def waiting (enforce : Bool) (counters : Counters) (want : Nat) : Ppv2Filter :=
  { Ppv2Filter.new enforce counters with want }

theorem waiting_fresh (enforce : Bool) (counters : Counters) (want : Nat) :
    (waiting enforce counters want).Fresh :=
  ⟨rfl, rfl⟩

theorem refuse_decides (f : Ppv2Filter) (calls : List EnvoyCall)
    (reason : String) : (f.refuse calls reason).decides = true := by
  simp [Outcome.decides, Ppv2Filter.refuse]

theorem conclude_decides (f : Ppv2Filter) (calls : List EnvoyCall)
    (permitted : Bool) : (f.conclude calls permitted).decides = true := by
  cases permitted with
  | false => exact refuse_decides f _ _
  | true => simp [Outcome.decides, Ppv2Filter.conclude, Ppv2Filter.accept]

theorem conclude_verdict (enforce : Bool) (counters : Counters) (want : Nat)
    (calls : List EnvoyCall) (permitted : Bool) :
    ((waiting enforce counters want).conclude calls permitted).verdict =
      ((Ppv2Filter.new enforce counters).conclude calls permitted).verdict := by
  cases permitted <;> rfl

section Schedules

variable [Sha256] (enforce : Bool) (counters : Counters) (table : Table)
  (setsRemoteAddress : Bool) (permits : U128 → Bool)

/-- The verdict a parse result determines; none while bytes are missing. -/
def ruling : Except Ppv2.Error Ppv2.Header → Option Verdict
  | .error (.need _) => none
  | .error .invalid =>
      some ((Ppv2Filter.new enforce counters).refuse (bump counters.notPpv2)
        "not_proxy_protocol").verdict
  | .ok h =>
      if setsRemoteAddress = false then
        some ((Ppv2Filter.new enforce counters).refuse
          ((labelCalls table.scheme h).take 1) "set_remote_address_failed").verdict
      else
        some ((Ppv2Filter.new enforce counters).conclude
          (labelCalls table.scheme h)
          (!enforce || permits (toU128 (synthesize table.scheme h)))).verdict

/-- A callback that shows the first `n` bytes of a stream. -/
def peek (s : Bytes) (n : Nat) : Callback where
  host := ⟨some (s.take n), some table, setsRemoteAddress⟩
  permits := permits

/-- The first decision of a schedule of peeks. -/
def decision (s : Bytes) (schedule : List Nat) : Option Verdict :=
  (((Ppv2Filter.new enforce counters).run
      (schedule.map (peek table setsRemoteAddress permits s))).find?
    Outcome.decides).map Outcome.verdict

/-- One peek: a wait for what the parser asks for, or the ruling. -/
theorem onData_peek (s : Bytes) (n want : Nat) :
    (∃ k, Ppv2.parse (s.take n) = .error (.need k) ∧
        (waiting enforce counters want).onData
          (peek table setsRemoteAddress permits s n).host permits =
          ⟨waiting enforce counters k, [], .stopIteration⟩) ∨
      ∃ o, (waiting enforce counters want).onData
          (peek table setsRemoteAddress permits s n).host permits = o ∧
        o.decides = true ∧
        ruling enforce counters table setsRemoteAddress permits
          (Ppv2.parse (s.take n)) = some o.verdict := by
  have hfresh := waiting_fresh enforce counters want
  cases hparse : Ppv2.parse (s.take n) with
  | error e =>
      cases e with
      | need k => exact Or.inl ⟨k, rfl, onData_need permits hfresh rfl hparse⟩
      | invalid =>
          exact Or.inr ⟨_, onData_invalid permits hfresh rfl hparse,
            refuse_decides _ _ _, rfl⟩
  | ok h =>
      refine Or.inr ⟨_, onData_ok permits hfresh rfl hparse, ?_⟩
      cases setsRemoteAddress with
      | false => exact ⟨refuse_decides _ _ _, rfl⟩
      | true =>
          rw [if_neg (by simp [peek]), ruling, if_neg (by simp),
            ← conclude_verdict enforce counters want]
          exact ⟨conclude_decides _ _ _, rfl⟩

/-- A schedule decides at its first peek that is not a wait. -/
theorem decision_from (s : Bytes) (schedule : List Nat) (want : Nat) :
    (((waiting enforce counters want).run
        (schedule.map (peek table setsRemoteAddress permits s))).find?
      Outcome.decides).map Outcome.verdict =
      schedule.findSome? fun n =>
        ruling enforce counters table setsRemoteAddress permits
          (Ppv2.parse (s.take n)) := by
  induction schedule generalizing want with
  | nil => rfl
  | cons n rest ih =>
      rw [List.map_cons, Ppv2Filter.run, List.findSome?_cons]
      rcases onData_peek enforce counters table setsRemoteAddress permits s n
        want with ⟨k, hneed, hout⟩ | ⟨o, hout, hdecides, hruling⟩
      · have hwaits : Outcome.decides
            (⟨waiting enforce counters k, [], .stopIteration⟩) = false := rfl
        have hnone : ruling enforce counters table setsRemoteAddress permits
            (Ppv2.parse (s.take n)) = none := by rw [hneed, ruling]
        rw [hnone]
        show Option.map _ (List.find? _ (_ :: _)) = _
        rw [show (peek table setsRemoteAddress permits s n).permits = permits from
          rfl, hout, List.find?_cons_of_neg (by simp [hwaits])]
        exact ih k
      · rw [hruling]
        show Option.map _ (List.find? _ (_ :: _)) = _
        rw [show (peek table setsRemoteAddress permits s n).permits = permits from
          rfl, hout, List.find?_cons_of_pos hdecides]
        rfl

theorem decision_eq_findSome? (s : Bytes) (schedule : List Nat) :
    decision enforce counters table setsRemoteAddress permits s schedule =
      schedule.findSome? fun n =>
        ruling enforce counters table setsRemoteAddress permits
          (Ppv2.parse (s.take n)) :=
  decision_from enforce counters table setsRemoteAddress permits s schedule
    Ppv2.maxHeader

theorem ruling_eq_none_iff (parsed : Except Ppv2.Error Ppv2.Header) :
    ruling enforce counters table setsRemoteAddress permits parsed = none ↔
      ∃ k, parsed = .error (.need k) := by
  cases parsed with
  | error e => cases e <;> simp [ruling]
  | ok h =>
      simp only [ruling, reduceCtorEq, exists_false, iff_false]
      split <;> simp

/-- After a peek the filter still waits on, it wants what the parser asks
for. -/
theorem after_waiting (s : Bytes) (schedule : List Nat) (n want : Nat)
    (hwaits : ∀ m ∈ schedule ++ [n], ∃ k,
      Ppv2.parse (s.take m) = .error (.need k)) :
    ∃ k, Ppv2.parse (s.take n) = .error (.need k) ∧
      (waiting enforce counters want).after
        ((schedule ++ [n]).map (peek table setsRemoteAddress permits s)) =
        waiting enforce counters k := by
  have hstep : ∀ m ∈ schedule ++ [n], ∀ w, ∃ k,
      Ppv2.parse (s.take m) = .error (.need k) ∧
      ((waiting enforce counters w).onData
        (peek table setsRemoteAddress permits s m).host permits).filter =
        waiting enforce counters k := by
    intro m hm w
    rcases onData_peek enforce counters table setsRemoteAddress permits s m w with
      ⟨k, hneed, hout⟩ | ⟨o, -, -, hruling⟩
    · exact ⟨k, hneed, by rw [hout]⟩
    · have hnone := (ruling_eq_none_iff enforce counters table setsRemoteAddress
        permits _).mpr (hwaits m hm)
      rw [hnone] at hruling
      cases hruling
  induction schedule generalizing want with
  | nil =>
      obtain ⟨k, hneed, hfilter⟩ := hstep n (by simp) want
      exact ⟨k, hneed, hfilter⟩
  | cons m rest ih =>
      obtain ⟨k, -, hfilter⟩ := hstep m (by simp) want
      obtain ⟨k', hneed, hafter⟩ := ih k
        (fun m' hm' => hwaits m' (by simp_all))
        (fun m' hm' => hstep m' (by simp_all))
      refine ⟨k', hneed, ?_⟩
      rw [← hafter, ← hfilter]
      rfl

/-- Segmentation independence.  However a stream is cut into peeks, the filter
decides what its parse determines or has not decided; while it waits it wants
more than it was shown and no more than the ceiling; and it has decided once
the ceiling or the whole stream was shown. -/
theorem segmentation_independence (s : Bytes) :
    (∀ schedule verdict,
        decision enforce counters table setsRemoteAddress permits s schedule =
          some verdict →
        ruling enforce counters table setsRemoteAddress permits
          (Ppv2.parse s) = some verdict) ∧
      (∀ schedule n,
        decision enforce counters table setsRemoteAddress permits s
          (schedule ++ [n]) = none →
        (s.take n).length <
            ((Ppv2Filter.new enforce counters).after ((schedule ++ [n]).map
              (peek table setsRemoteAddress permits s))).maxReadBytes ∧
          ((Ppv2Filter.new enforce counters).after ((schedule ++ [n]).map
              (peek table setsRemoteAddress permits s))).maxReadBytes ≤
            Ppv2.maxHeader) ∧
      ((∀ k, Ppv2.parse s ≠ .error (.need k)) →
        ∀ schedule, (∃ n ∈ schedule, min s.length Ppv2.maxHeader ≤ n) →
          decision enforce counters table setsRemoteAddress permits s schedule ≠
            none) := by
  refine ⟨?_, ?_, ?_⟩
  · intro schedule verdict hdecision
    rw [decision_eq_findSome?] at hdecision
    obtain ⟨n, -, hruling⟩ := List.exists_of_findSome?_eq_some hdecision
    rcases Ppv2.parse_take s n with ⟨k, hneed⟩ | hsame
    · rw [hneed] at hruling
      cases hruling
    · rw [← hsame, hruling]
  · intro schedule n hdecision
    rw [decision_eq_findSome?, List.findSome?_eq_none_iff] at hdecision
    obtain ⟨k, hneed, hafter⟩ := after_waiting enforce counters table
      setsRemoteAddress permits s schedule n Ppv2.maxHeader fun m hm =>
        (ruling_eq_none_iff enforce counters table setsRemoteAddress permits _).mp
          (hdecision m hm)
    obtain ⟨hmore, hceiling⟩ := Ppv2.lt_of_parse_need hneed
    have hnew : waiting enforce counters Ppv2.maxHeader =
        Ppv2Filter.new enforce counters := rfl
    rw [← hnew, hafter]
    exact ⟨hmore, hceiling⟩
  · rintro hcomplete schedule ⟨n, hn, hshown⟩ hdecision
    rw [decision_eq_findSome?, List.findSome?_eq_none_iff] at hdecision
    have hnone := hdecision n hn
    rw [Ppv2.parse_take_of_shown hshown, ruling_eq_none_iff] at hnone
    obtain ⟨k, hneed⟩ := hnone
    exact hcomplete k hneed

end Schedules

end Filters

end Ppv2Auth
