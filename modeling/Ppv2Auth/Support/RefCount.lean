/-
Reference counts in thirty-two bits.  Events take or drop one reference to
their owner; a map keeps the owners with references left and how many each
has.  As long as no drop comes before its take and no owner is taken 2^32
times at once, the map is the exact difference.
-/
import Mathlib

namespace Ppv2Auth

namespace RefCount

variable {ι ε : Type} [DecidableEq ι] (takes : ε → Bool) (owner : ε → ι)

/-- How often a reference to `id` is taken. -/
def taken (id : ι) (events : List ε) : Nat :=
  events.countP fun e => takes e ∧ owner e = id

/-- How often a reference to `id` is dropped. -/
def dropped (id : ι) (events : List ε) : Nat :=
  events.countP fun e => ¬ takes e ∧ owner e = id

/-- One event on the map.  The counter wraps; an owner whose count reaches
zero by a drop is forgotten, and a drop without an owner is ignored. -/
def count (m : ι → Option UInt32) (e : ε) : ι → Option UInt32 :=
  if takes e then Function.update m (owner e) (some ((m (owner e)).getD 0 + 1))
  else
    match m (owner e) with
    | some c =>
        Function.update m (owner e) (if c - 1 = 0 then none else some (c - 1))
    | none => m

/-- No counter wraps on the event. -/
structure Safe (m : ι → Option UInt32) (e : ε) : Prop where
  take : takes e → ((m (owner e)).getD 0).toNat + 1 < 2 ^ 32
  drop : ¬ takes e → ∀ c, m (owner e) = some c → 0 < c.toNat

/-- The map is the difference between takes and drops. -/
structure Tracks (m : ι → Option UInt32) (events : List ε) : Prop where
  balanced : ∀ id, dropped takes owner id events ≤ taken takes owner id events
  bounded : ∀ id,
    taken takes owner id events < dropped takes owner id events + 2 ^ 32
  exact : ∀ id, m id =
    if taken takes owner id events = dropped takes owner id events then none
    else some (UInt32.ofNat
      (taken takes owner id events - dropped takes owner id events))

/-- What the counts so far have to allow before an event. -/
structure Admits (before : List ε) (e : ε) : Prop where
  take : takes e → taken takes owner (owner e) before + 1 <
    dropped takes owner (owner e) before + 2 ^ 32
  drop : ¬ takes e → dropped takes owner (owner e) before <
    taken takes owner (owner e) before

variable {takes owner}

@[simp] theorem taken_nil (id : ι) : taken takes owner id [] = 0 := rfl

@[simp] theorem dropped_nil (id : ι) : dropped takes owner id [] = 0 := rfl

theorem taken_concat (id : ι) (before : List ε) (e : ε) :
    taken takes owner id (before ++ [e]) = taken takes owner id before +
      if takes e ∧ owner e = id then 1 else 0 := by
  simp [taken, List.countP_append, List.countP_singleton]

theorem dropped_concat (id : ι) (before : List ε) (e : ε) :
    dropped takes owner id (before ++ [e]) = dropped takes owner id before +
      if ¬ takes e ∧ owner e = id then 1 else 0 := by
  simp [dropped, List.countP_append, List.countP_singleton]

theorem tracks_nil : Tracks takes owner (fun _ => none) [] := by
  constructor <;> simp

theorem ofNat_add_one (n : Nat) : UInt32.ofNat n + 1 = UInt32.ofNat (n + 1) := by
  simp

theorem ofNat_sub_one {n : Nat} (hn : 0 < n) :
    UInt32.ofNat n - 1 = UInt32.ofNat (n - 1) := by
  obtain ⟨k, rfl⟩ := Nat.exists_eq_add_of_lt hn
  simp

theorem ofNat_eq_zero_iff {n : Nat} (hn : n < 2 ^ 32) :
    UInt32.ofNat n = 0 ↔ n = 0 := by
  rw [← UInt32.toNat_inj, UInt32.toNat_ofNat_of_lt' (by simpa using hn)]
  simp

variable {m : ι → Option UInt32} {before : List ε} {e : ε}

theorem Tracks.getD_toNat (h : Tracks takes owner m before) (id : ι) :
    ((m id).getD 0).toNat + dropped takes owner id before =
      taken takes owner id before := by
  have hbalanced := h.balanced id
  have hbounded := h.bounded id
  rw [h.exact id]
  split
  · next heq => simp [heq]
  · have hlt : taken takes owner id before - dropped takes owner id before <
        UInt32.size := by
      simp only [UInt32.size]
      omega
    simp only [Option.getD_some]
    rw [UInt32.toNat_ofNat_of_lt' hlt]
    omega

/-- On a map that is exact so far, a step is safe as soon as the counts admit
it. -/
theorem Tracks.safe (h : Tracks takes owner m before)
    (hadmits : Admits takes owner before e) : Safe takes owner m e where
  take htakes := by
    have hget := h.getD_toNat (owner e)
    have htake := hadmits.take htakes
    omega
  drop htakes c hc := by
    have hget := h.getD_toNat (owner e)
    have hdrop := hadmits.drop htakes
    rw [hc, Option.getD_some] at hget
    omega

/-- A take keeps the map exact. -/
theorem Tracks.step_take (h : Tracks takes owner m before)
    (hadmits : Admits takes owner before e) (htakes : takes e = true) :
    Tracks takes owner (count takes owner m e) (before ++ [e]) := by
  have hbalanced := h.balanced
  have hbounded := h.bounded
  have htake := hadmits.take htakes
  refine ⟨fun id => ?_, fun id => ?_, fun id => ?_⟩
  · have := hbalanced id
    rw [taken_concat, dropped_concat]
    simp only [htakes, not_true_eq_false, false_and, ↓reduceIte]
    omega
  · have := hbounded id
    rw [taken_concat, dropped_concat]
    by_cases hid : owner e = id
    · subst hid
      simp only [htakes, and_self, ↓reduceIte, not_true_eq_false]
      omega
    · simp only [hid, and_false, ↓reduceIte]
      omega
  · rw [taken_concat, dropped_concat, count, if_pos htakes]
    by_cases hid : owner e = id
    · subst hid
      have := hbalanced (owner e)
      have hne : taken takes owner (owner e) before + 1 ≠
          dropped takes owner (owner e) before := by omega
      have hsub : taken takes owner (owner e) before + 1 -
          dropped takes owner (owner e) before =
          taken takes owner (owner e) before -
            dropped takes owner (owner e) before + 1 := by omega
      simp only [Function.update_self, htakes, and_self, ↓reduceIte,
        not_true_eq_false, false_and, Nat.add_zero, hne, hsub,
        ← ofNat_add_one, h.exact (owner e)]
      split
      · next heq => simp [heq]
      · rfl
    · simp only [hid, and_false, ↓reduceIte, Nat.add_zero,
        Function.update_of_ne (Ne.symm hid), h.exact id]

/-- A drop keeps the map exact. -/
theorem Tracks.step_drop (h : Tracks takes owner m before)
    (hadmits : Admits takes owner before e) (htakes : takes e = false) :
    Tracks takes owner (count takes owner m e) (before ++ [e]) := by
  have hbalanced := h.balanced
  have hbounded := h.bounded
  have hdrop := hadmits.drop (by simp [htakes])
  have hcount : m (owner e) = some (UInt32.ofNat
      (taken takes owner (owner e) before -
        dropped takes owner (owner e) before)) := by
    rw [h.exact (owner e), if_neg (by omega)]
  refine ⟨fun id => ?_, fun id => ?_, fun id => ?_⟩
  · have := hbalanced id
    rw [taken_concat, dropped_concat]
    by_cases hid : owner e = id
    · subst hid
      simp only [htakes, Bool.false_eq_true, false_and, ↓reduceIte,
        not_false_eq_true, and_self]
      omega
    · simp only [hid, and_false, ↓reduceIte]
      omega
  · have := hbounded id
    rw [taken_concat, dropped_concat]
    simp only [htakes, Bool.false_eq_true, false_and, ↓reduceIte]
    omega
  · rw [taken_concat, dropped_concat, count, if_neg (by simp [htakes]),
      hcount]
    by_cases hid : owner e = id
    · subst hid
      have := hbounded (owner e)
      have hsub : taken takes owner (owner e) before -
          (dropped takes owner (owner e) before + 1) =
          taken takes owner (owner e) before -
            dropped takes owner (owner e) before - 1 := by omega
      have hzero : taken takes owner (owner e) before -
            dropped takes owner (owner e) before - 1 = 0 ↔
          taken takes owner (owner e) before =
            dropped takes owner (owner e) before + 1 := by omega
      simp only [Function.update_self, htakes, Bool.false_eq_true,
        false_and, ↓reduceIte, not_false_eq_true, and_self, Nat.add_zero,
        ofNat_sub_one (Nat.sub_pos_of_lt hdrop), hsub,
        ofNat_eq_zero_iff (show taken takes owner (owner e) before -
          dropped takes owner (owner e) before - 1 < 2 ^ 32 by omega), hzero]
    · simp only [hid, and_false, ↓reduceIte, Nat.add_zero,
        Function.update_of_ne (Ne.symm hid), h.exact id]

/-- One event keeps the map exact. -/
theorem Tracks.step (h : Tracks takes owner m before)
    (hadmits : Admits takes owner before e) :
    Tracks takes owner (count takes owner m e) (before ++ [e]) := by
  cases htakes : takes e with
  | true => exact h.step_take hadmits htakes
  | false => exact h.step_drop hadmits htakes

/-- Over a whole run: every event has to be admitted by the counts before it,
where the map may be taken to be exact already. -/
theorem tracks_foldl {events : List ε}
    (hadmits : ∀ before e after, events = before ++ e :: after →
      Tracks takes owner (before.foldl (count takes owner) fun _ => none) before →
      Admits takes owner before e) :
    Tracks takes owner (events.foldl (count takes owner) fun _ => none) events := by
  induction events using List.reverseRecOn with
  | nil => exact tracks_nil
  | append_singleton before e ih =>
      have hbefore := ih fun before' e' after hsplit =>
        hadmits before' e' (after ++ [e]) (by simp [hsplit])
      rw [List.foldl_append]
      exact hbefore.step (hadmits before e [] rfl hbefore)

end RefCount

end Ppv2Auth
