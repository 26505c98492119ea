/-
The read loop of the TCP filter, closed.  The filter says how many bytes from
the start of the connection it wants, the host wakes it up as they arrive; two
wake-ups that show what was wanted, or all there is, settle any stream.
-/
import Ppv2Auth.Filters.Segmentation
import Ppv2Auth.Filters.Accounting

namespace Ppv2Auth

namespace Ppv2

theorem preamble_of_parse_need {buf : Bytes} {k : Nat} (hshort : buf.length < preamble)
    (hparse : parse buf = .error (.need k)) : k = preamble := by
  rw [parse_short hshort] at hparse
  split at hparse
  · cases hparse
  · cases hparse
    rfl

theorem declared_of_parse_need {buf : Bytes} {k : Nat} (hlong : preamble ≤ buf.length)
    (hparse : parse buf = .error (.need k)) : k = declared buf := by
  rw [parse_long hlong] at hparse
  split_ifs at hparse with hmagic hceiling hmore
  · cases hparse
  · cases hparse
  · cases hparse
    rfl
  · cases hfamily : family (buf.getD 13 0) with
    | none =>
        rw [hfamily] at hparse
        cases hparse
    | some isV6 =>
        rw [hfamily] at hparse
        exact absurd hparse (parseBody_ne_need _ _ _ _)

theorem declared_take {s : Bytes} {n : Nat} (hn : preamble ≤ n) :
    declared (s.take n) = declared s := by
  have hpreamble : preamble = 16 := rfl
  simp [declared, show 14 < n by omega, show 15 < n by omega]

/-- Past the preamble the first request stands, and meeting it gives the
verdict of the stream. -/
theorem parse_take_of_served {s : Bytes} {n m k : Nat}
    (hpreamble : preamble ≤ (s.take n).length)
    (hparse : parse (s.take n) = .error (.need k)) (hnm : n ≤ m)
    (hserved : min s.length k ≤ m) : parse (s.take m) = parse s := by
  have hn : preamble ≤ n := le_trans hpreamble (List.length_take_le n s)
  have hk : k = declared s :=
    (declared_of_parse_need hpreamble hparse).trans (declared_take hn)
  rcases Nat.lt_or_ge m s.length with hm | hall
  swap
  · rw [List.take_of_length_le hall]
  rcases parse_take s m with ⟨k', hneed⟩ | hsame
  · have hlength : (s.take m).length = m := List.length_take_of_le hm.le
    have hk' : k' = declared s :=
      (declared_of_parse_need (by omega) hneed).trans (declared_take (by omega))
    have hmore := (lt_of_parse_need hneed).1
    omega
  · exact hsame

end Ppv2

namespace Filters

open Rust Identity

/-- A wake-up the filter waits on. -/
def Waits (s : Bytes) (n : Nat) : Prop := ∃ k, Ppv2.parse (s.take n) = .error (.need k)

theorem not_waits_of_parse_eq {s : Bytes} {n : Nat}
    (hcomplete : ∀ k, Ppv2.parse s ≠ .error (.need k))
    (hsame : Ppv2.parse (s.take n) = Ppv2.parse s) : ¬ Waits s n := by
  rintro ⟨k, hneed⟩
  exact hcomplete k (hsame ▸ hneed)

section Loop

variable [Sha256] (enforce : Bool) (counters : Counters) (table : Table)
  (setsRemoteAddress : Bool) (permits : U128 → Bool)

/-- How many wake-ups show the filter what it then wants, or the whole
stream. -/
def served (s : Bytes) (f : Ppv2Filter) : List Nat → Nat
  | [] => 0
  | n :: rest =>
      (if min s.length f.maxReadBytes ≤ n then 1 else 0) +
        served s (f.onData (peek table setsRemoteAddress permits s n).host permits).filter
          rest

variable {enforce counters table setsRemoteAddress permits} {s : Bytes}

/-- A wait leaves the filter wanting what the parser asked for. -/
theorem served_cons {n want k : Nat} {rest : List Nat}
    (hneed : Ppv2.parse (s.take n) = .error (.need k)) :
    served table setsRemoteAddress permits s (waiting enforce counters want) (n :: rest) =
      (if min s.length want ≤ n then 1 else 0) +
        served table setsRemoteAddress permits s (waiting enforce counters k) rest := by
  have hfilter : ((waiting enforce counters want).onData
      (peek table setsRemoteAddress permits s n).host permits).filter =
        waiting enforce counters k := by
    have hwait := @onData_need _ (waiting enforce counters want)
      (peek table setsRemoteAddress permits s n).host permits table
      (waiting_fresh enforce counters want) rfl k hneed
    rw [hwait]
    rfl
  rw [served, hfilter]
  rfl

/-- Once the preamble is shown, no wait is served. -/
theorem served_eq_zero (hcomplete : ∀ k, Ppv2.parse s ≠ .error (.need k)) {n want : Nat}
    (hpreamble : Ppv2.preamble ≤ (s.take n).length)
    (hneed : Ppv2.parse (s.take n) = .error (.need want)) {rest : List Nat}
    (hlater : ∀ m ∈ rest, n ≤ m) (hwaits : ∀ m ∈ rest, Waits s m) :
    served table setsRemoteAddress permits s (waiting enforce counters want) rest = 0 := by
  have hn : Ppv2.preamble ≤ n := le_trans hpreamble (List.length_take_le n s)
  have hwant : want = Ppv2.declared s :=
    (Ppv2.declared_of_parse_need hpreamble hneed).trans (Ppv2.declared_take hn)
  induction rest with
  | nil => rfl
  | cons m rest ih =>
      have hnm : n ≤ m := hlater m List.mem_cons_self
      obtain ⟨k, hk⟩ := hwaits m List.mem_cons_self
      have hnot : ¬ min s.length want ≤ m := fun hserved =>
        not_waits_of_parse_eq hcomplete
          (Ppv2.parse_take_of_served hpreamble hneed hnm hserved) ⟨k, hk⟩
      have hlong : Ppv2.preamble ≤ (s.take m).length := by
        rw [List.length_take] at hpreamble ⊢
        omega
      have hkeep : k = want := by
        rw [hwant, Ppv2.declared_of_parse_need hlong hk, Ppv2.declared_take (by omega)]
      rw [served_cons hk, if_neg hnot, Nat.zero_add, hkeep]
      exact ih (fun m' hm' => hlater m' (List.mem_cons_of_mem _ hm'))
        fun m' hm' => hwaits m' (List.mem_cons_of_mem _ hm')

/-- As long as every wake-up is a wait, at most one was served: the one that
showed the preamble. -/
theorem served_le_one (hcomplete : ∀ k, Ppv2.parse s ≠ .error (.need k)) {want : Nat}
    (hwant : Ppv2.preamble ≤ want) {schedule : List Nat}
    (hgrows : schedule.Pairwise (· ≤ ·)) (hwaits : ∀ n ∈ schedule, Waits s n) :
    served table setsRemoteAddress permits s (waiting enforce counters want) schedule ≤ 1 := by
  induction schedule generalizing want with
  | nil => simp [served]
  | cons n rest ih =>
      obtain ⟨hlater, hgrows⟩ := List.pairwise_cons.mp hgrows
      obtain ⟨k, hk⟩ := hwaits n List.mem_cons_self
      have hrest : ∀ m ∈ rest, Waits s m := fun m hm =>
        hwaits m (List.mem_cons_of_mem _ hm)
      rw [served_cons hk]
      by_cases hpreamble : Ppv2.preamble ≤ (s.take n).length
      · rw [served_eq_zero hcomplete hpreamble hk hlater hrest]
        split <;> omega
      · have hnot : ¬ min s.length want ≤ n := by
          intro hserved
          have hall : s.length ≤ n := by
            rw [List.length_take] at hpreamble
            omega
          apply not_waits_of_parse_eq hcomplete _ ⟨k, hk⟩
          rw [List.take_of_length_le hall]
        have hk16 := Ppv2.preamble_of_parse_need (Nat.lt_of_not_le hpreamble) hk
        rw [if_neg hnot, Nat.zero_add]
        exact ih hk16.ge hgrows hrest

/-- Two wake-ups that show what the filter then wants settle it, whatever the
others show: the decision is the one the stream determines, and there is none
where the stream ends inside a header. -/
theorem closed_loop_decides (enforce : Bool) (counters : Counters) (table : Table)
    (setsRemoteAddress : Bool) (permits : U128 → Bool) (s : Bytes) (schedule : List Nat)
    (hgrows : schedule.Pairwise (· ≤ ·))
    (hserved : 2 ≤ served table setsRemoteAddress permits s
      (Ppv2Filter.new enforce counters) schedule) :
    decision enforce counters table setsRemoteAddress permits s schedule =
      ruling enforce counters table setsRemoteAddress permits (Ppv2.parse s) := by
  rw [decision_eq_findSome?]
  by_cases hcomplete : ∀ k, Ppv2.parse s ≠ .error (.need k)
  · cases hfind : schedule.findSome? fun n =>
      ruling enforce counters table setsRemoteAddress permits (Ppv2.parse (s.take n)) with
    | none =>
        rw [List.findSome?_eq_none_iff] at hfind
        have hwaits : ∀ n ∈ schedule, Waits s n := fun n hn =>
          (ruling_eq_none_iff enforce counters table setsRemoteAddress permits _).mp
            (hfind n hn)
        have honce : served table setsRemoteAddress permits s
            (waiting enforce counters Ppv2.maxHeader) schedule ≤ 1 :=
          served_le_one hcomplete (by decide) hgrows hwaits
        exact absurd hserved (Nat.not_le_of_lt (Nat.lt_succ_of_le honce))
    | some verdict =>
        obtain ⟨n, -, hruling⟩ := List.exists_of_findSome?_eq_some hfind
        rcases Ppv2.parse_take s n with ⟨k, hneed⟩ | hsame
        · rw [hneed] at hruling
          cases hruling
        · rw [← hsame, hruling]
  · push Not at hcomplete
    obtain ⟨k, hneed⟩ := hcomplete
    rw [hneed, ruling, List.findSome?_eq_none_iff]
    intro n hn
    rcases Ppv2.parse_take s n with ⟨k', hwait⟩ | hsame
    · rw [hwait, ruling]
    · rw [hsame, hneed, ruling]

end Loop

namespace ProgressWitness

open AccountingWitness

attribute [local instance] MeetingWitness.endpointDigest

/-- The preamble arrives alone, after a first wake-up too early for it. -/
theorem closed_loop_decides_preamble :
    decision true ⟨none, none, none⟩ bare true (fun _ => true) office [5, 16, 28] =
      ruling true ⟨none, none, none⟩ bare true (fun _ => true) (Ppv2.parse office) :=
  closed_loop_decides true ⟨none, none, none⟩ bare true (fun _ => true) office [5, 16, 28]
    (by decide) (by decide +kernel)

/-- One served wake-up is not enough. -/
example : served bare true (fun _ => true) office (Ppv2Filter.new true ⟨none, none, none⟩)
      [5, 16] = 1 ∧
    decision true ⟨none, none, none⟩ bare true (fun _ => true) office [5, 16] = none := by
  decide +kernel

end ProgressWitness

end Filters

end Ppv2Auth
