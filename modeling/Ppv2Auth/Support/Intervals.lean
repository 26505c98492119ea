/-
Sorted lists of disjoint closed intervals over a linear order, searched by
partition point.  The items may carry more than their endpoints, so the
endpoints are projections; a set of ranges and a labelled segment map are both
instances.
-/
import Mathlib

namespace Ppv2Auth

namespace Intervals

universe u v w

variable {α : Type u} {β : Type v} [LinearOrder α]

/-- The index of the first item the predicate rejects.  On a list partitioned
by the predicate this is what a binary search returns. -/
def partitionPoint (p : β → Bool) (items : List β) : Nat :=
  (items.takeWhile p).length

/-- The last item before the partition point of `lo · ≤ a`, when there is
one. -/
def floor (lo : β → α) (items : List β) (a : α) : Option β :=
  match partitionPoint (fun x => decide (lo x ≤ a)) items with
  | 0 => none
  | i + 1 => items[i]?

/-- Nonempty intervals in increasing order, no two sharing a point. -/
structure Ordered (lo hi : β → α) (items : List β) : Prop where
  nonempty : ∀ x ∈ items, lo x ≤ hi x
  apart : items.Pairwise fun x y => hi x < lo y

/-- Some item contains the point. -/
def Covered (lo hi : β → α) (items : List β) (a : α) : Prop :=
  ∃ x ∈ items, lo x ≤ a ∧ a ≤ hi x

/-- Some item contains two points, the smaller one first. -/
def Together (lo hi : β → α) (items : List β) (a b : α) : Prop :=
  ∃ x ∈ items, lo x ≤ a ∧ b ≤ hi x

instance (lo hi : β → α) (items : List β) (a : α) :
    Decidable (Covered lo hi items a) :=
  inferInstanceAs (Decidable (∃ x ∈ items, _))

variable {lo hi : β → α} {items : List β} {x y : β} {a : α}

@[simp] theorem floor_nil : floor lo [] a = none := rfl

theorem floor_cons_of_lt (h : a < lo x) : floor lo (x :: items) a = none := by
  simp [floor, partitionPoint, not_le.mpr h]

theorem floor_cons_of_le (h : lo x ≤ a) :
    floor lo (x :: items) a = (floor lo items a).or (some x) := by
  simp only [floor, partitionPoint, List.takeWhile_cons, h, decide_true,
    ↓reduceIte, List.length_cons]
  cases hpoint : (items.takeWhile fun y => decide (lo y ≤ a)).length with
  | zero => simp
  | succ i =>
      have hbound : i < items.length := by
        have := (List.takeWhile_sublist (fun y => decide (lo y ≤ a))
          (l := items)).length_le
        omega
      simp [List.getElem?_eq_getElem hbound]

theorem mem_of_floor (h : floor lo items a = some x) :
    x ∈ items ∧ lo x ≤ a := by
  induction items with
  | nil => simp at h
  | cons head tail ih =>
      rcases lt_or_ge a (lo head) with hlt | hle
      · simp [floor_cons_of_lt hlt] at h
      · rw [floor_cons_of_le hle] at h
        cases hfloor : floor lo tail a with
        | none =>
            simp only [hfloor, Option.none_or, Option.some.injEq] at h
            exact ⟨h ▸ List.mem_cons_self, h ▸ hle⟩
        | some found =>
            simp only [hfloor, Option.some_or, Option.some.injEq] at h
            obtain ⟨hmem, hlo⟩ := ih (h ▸ hfloor)
            exact ⟨List.mem_cons_of_mem head hmem, hlo⟩

theorem floor_eq_none_of_forall_lt (h : ∀ x ∈ items, a < lo x) :
    floor lo items a = none := by
  cases items with
  | nil => rfl
  | cons head tail => exact floor_cons_of_lt (h head List.mem_cons_self)

/-- The partition point finds the one item containing a covered point. -/
theorem Ordered.floor_of_mem (h : Ordered lo hi items) (hx : x ∈ items)
    (hlo : lo x ≤ a) (hhi : a ≤ hi x) : floor lo items a = some x := by
  induction items with
  | nil => simp at hx
  | cons head tail ih =>
      obtain ⟨happart, htail⟩ := List.pairwise_cons.mp h.apart
      rcases List.mem_cons.mp hx with rfl | hmem
      · have hnone : floor lo tail a = none :=
          floor_eq_none_of_forall_lt fun y hy => hhi.trans_lt (happart y hy)
        rw [floor_cons_of_le hlo, hnone, Option.none_or]
      · have hhead : lo head ≤ a :=
          (h.nonempty head List.mem_cons_self).trans
            ((happart x hmem).le.trans hlo)
        have hrest : Ordered lo hi tail :=
          ⟨fun y hy => h.nonempty y (List.mem_cons_of_mem head hy), htail⟩
        rw [floor_cons_of_le hhead, ih hrest hmem, Option.some_or]

/-- One item of an ordered list contains any given point. -/
theorem Ordered.eq_of_mem (h : Ordered lo hi items) (hx : x ∈ items)
    (hy : y ∈ items) (hxa : lo x ≤ a ∧ a ≤ hi x) (hya : lo y ≤ a ∧ a ≤ hi y) :
    x = y := by
  have hfx := h.floor_of_mem hx hxa.1 hxa.2
  have hfy := h.floor_of_mem hy hya.1 hya.2
  exact Option.some.inj (hfx.symm.trans hfy)

/-- The bounds check after the search finds the item that reaches as far. -/
theorem Ordered.floor_reaches_iff {b : α} (h : Ordered lo hi items) (hab : a ≤ b) :
    (∃ x, floor lo items a = some x ∧ b ≤ hi x) ↔ Together lo hi items a b := by
  constructor
  · rintro ⟨x, hfloor, hhi⟩
    obtain ⟨hmem, hlo⟩ := mem_of_floor hfloor
    exact ⟨x, hmem, hlo, hhi⟩
  · rintro ⟨x, hmem, hlo, hhi⟩
    exact ⟨x, h.floor_of_mem hmem hlo (hab.trans hhi), hhi⟩

/-- The bounds check after the search decides membership. -/
theorem Ordered.floor_covers_iff (h : Ordered lo hi items) :
    (∃ x, floor lo items a = some x ∧ a ≤ hi x) ↔ Covered lo hi items a :=
  h.floor_reaches_iff le_rfl

/-- Neighbours that are always together leave no room for a second item. -/
theorem Ordered.together_of_forall [WellFoundedLT α] (h : Ordered lo hi items)
    {first last : α} (hle : first ≤ last)
    (hall : ∀ a b, first ≤ a → a ⩿ b → b ≤ last → Together lo hi items a b) :
    Together lo hi items first last := by
  obtain ⟨x, hx, hxlo, hxhi⟩ := hall first first le_rfl (WCovBy.refl first) hle
  refine ⟨x, hx, hxlo, ?_⟩
  by_contra hlast
  have hlast : hi x < last := not_le.mp hlast
  obtain ⟨next, hnext, hmin⟩ :=
    wellFounded_lt.has_min {b : α | hi x < b} ⟨last, hlast⟩
  have hcov : hi x ⩿ next :=
    ⟨hnext.le, fun b hxb hbn => hmin b hxb hbn⟩
  have hnextLast : next ≤ last := not_lt.mp fun hgt => hmin last hlast hgt
  obtain ⟨y, hy, hylo, hyhi⟩ := hall (hi x) next hxhi hcov hnextLast
  have hsame : x = y := h.eq_of_mem (a := hi x) hx hy
    ⟨h.nonempty x hx, le_rfl⟩ ⟨hylo, hnext.le.trans hyhi⟩
  exact absurd (hsame ▸ hyhi) (not_le.mpr hnext)

theorem Ordered.append_singleton (h : Ordered lo hi items)
    (hnonempty : lo y ≤ hi y) (hbelow : ∀ x ∈ items, hi x < lo y) :
    Ordered lo hi (items ++ [y]) where
  nonempty x hx := by
    rcases List.mem_append.mp hx with hold | hnew
    · exact h.nonempty x hold
    · exact List.mem_singleton.mp hnew ▸ hnonempty
  apart := by
    rw [List.pairwise_append]
    refine ⟨h.apart, List.pairwise_singleton _ _, ?_⟩
    intro x hx z hz
    exact List.mem_singleton.mp hz ▸ hbelow x hx

/-- Two neighbours replaced by one item spanning both. -/
theorem Ordered.join {before after : List β} {m : β}
    (h : Ordered lo hi (before ++ x :: y :: after)) (hlo : lo m = lo x)
    (hhi : hi m = hi y) : Ordered lo hi (before ++ m :: after) := by
  have hx := h.nonempty x (by simp)
  have hy := h.nonempty y (by simp)
  obtain ⟨hbefore, hrest, hcross⟩ := List.pairwise_append.mp h.apart
  obtain ⟨hxrest, hyafter⟩ := List.pairwise_cons.mp hrest
  obtain ⟨hyall, hafter⟩ := List.pairwise_cons.mp hyafter
  have hxy := hxrest y List.mem_cons_self
  constructor
  · intro z hz
    rcases List.mem_append.mp hz with hz | hz
    · exact h.nonempty z (List.mem_append.mpr (Or.inl hz))
    · rcases List.mem_cons.mp hz with rfl | hz
      · rw [hlo, hhi]
        exact hx.trans (hxy.le.trans hy)
      · exact h.nonempty z (by simp [hz])
  · refine List.pairwise_append.mpr
      ⟨hbefore, List.pairwise_cons.mpr ⟨fun z hz => hhi ▸ hyall z hz, hafter⟩, ?_⟩
    intro b hb z hz
    rcases List.mem_cons.mp hz with rfl | hz
    · exact hlo ▸ hcross b hb x (by simp)
    · exact hcross b hb z (by simp [hz])

/-- Items lying in order on the line stand in that order in the list. -/
theorem Ordered.rel_of_lt (h : Ordered lo hi items) {R : β → β → Prop}
    (hR : items.Pairwise R) (hx : x ∈ items) (hy : y ∈ items)
    (hlt : hi x < lo y) : R x y := by
  obtain ⟨i, hi', rfl⟩ := List.mem_iff_getElem.mp hx
  obtain ⟨j, hj', rfl⟩ := List.mem_iff_getElem.mp hy
  have hxne := h.nonempty _ hx
  have hyne := h.nonempty _ hy
  rcases lt_trichotomy i j with hij | rfl | hji
  · exact List.pairwise_iff_getElem.mp hR i j hi' hj' hij
  · exact absurd hlt (not_lt.mpr hxne)
  · have hback := List.pairwise_iff_getElem.mp h.apart j i hj' hi' hji
    exact absurd (hlt.trans_le hyne) (not_lt.mpr (hback.trans_le hxne).le)

/-- What has started by a point either still covers it or has ended before
it. -/
theorem countP_started (hne : ∀ x ∈ items, lo x ≤ hi x) (p : β → Bool) (a : α) :
    items.countP (fun x => p x ∧ lo x ≤ a) =
      items.countP (fun x => p x ∧ lo x ≤ a ∧ a ≤ hi x) +
        items.countP (fun x => p x ∧ hi x < a) := by
  induction items with
  | nil => rfl
  | cons x rest ih =>
      have hx := hne x List.mem_cons_self
      have hrest := ih fun y hy => hne y (List.mem_cons_of_mem x hy)
      rcases le_or_gt a (hi x) with hcover | hend
      · simp only [List.countP_cons, hrest, hcover, not_lt.mpr hcover]
        simp only [and_true, and_false, decide_false, Bool.false_eq_true,
          ↓reduceIte]
        omega
      · have hstart : lo x ≤ a := hx.trans hend.le
        simp only [List.countP_cons, hrest, hend, hstart, not_le.mpr hend]
        simp only [and_true, and_false, decide_false, Bool.false_eq_true,
          ↓reduceIte]
        omega

/-- At most one item of an ordered list covers a point. -/
theorem Ordered.countP_covering (h : Ordered lo hi items) (a : α) :
    items.countP (fun x => lo x ≤ a ∧ a ≤ hi x) =
      if Covered lo hi items a then 1 else 0 := by
  induction items with
  | nil => simp [Covered]
  | cons x rest ih =>
      obtain ⟨hx, hrest⟩ := List.pairwise_cons.mp h.apart
      have htail : Ordered lo hi rest :=
        ⟨fun y hy => h.nonempty y (List.mem_cons_of_mem x hy), hrest⟩
      by_cases hcover : lo x ≤ a ∧ a ≤ hi x
      · have hnone : ¬ Covered lo hi rest a := by
          rintro ⟨y, hy, hylo, -⟩
          exact absurd (hcover.2.trans_lt (hx y hy)) (not_lt.mpr hylo)
        have hhere : Covered lo hi (x :: rest) a :=
          ⟨x, List.mem_cons_self, hcover⟩
        rw [List.countP_cons, ih htail, if_neg hnone, if_pos hhere]
        simp [hcover]
      · have hiff : Covered lo hi (x :: rest) a ↔ Covered lo hi rest a := by
          simp [Covered, hcover]
        rw [List.countP_cons, ih htail]
        simp [hiff, hcover]

section Labelled

variable {ι : Type w} {label : β → ι} {l : ι}

/-- No two items with one label stand next to each other without a gap. -/
def Coalesced (lo hi : β → α) (label : β → ι) (items : List β) : Prop :=
  items.Pairwise fun x y => label x = label y → ¬ hi x ⋖ lo y

/-- In a coalesced list an interval whose points all carry one label lies in
one item: neighbours in different items would be a seam between two touching
items of the same label. -/
theorem Ordered.exists_item_of_forall [WellFoundedLT α]
    (h : Ordered lo hi items) (hcoalesced : Coalesced lo hi label items)
    {first last : α} (hle : first ≤ last)
    (hall : ∀ a, first ≤ a → a ≤ last →
      ∃ x ∈ items, (lo x ≤ a ∧ a ≤ hi x) ∧ label x = l) :
    ∃ x ∈ items, lo x ≤ first ∧ last ≤ hi x ∧ label x = l := by
  have hpairs : ∀ a b, first ≤ a → a ⩿ b → b ≤ last → Together lo hi items a b := by
    intro a b ha hab hb
    obtain ⟨x, hx, ⟨hxlo, hxhi⟩, hxl⟩ := hall a ha (hab.le.trans hb)
    obtain ⟨y, hy, ⟨hylo, hyhi⟩, hyl⟩ := hall b (ha.trans hab.le) hb
    rcases le_or_gt b (hi x) with hreach | hshort
    · exact ⟨x, hx, hxlo, hreach⟩
    · rcases le_or_gt (lo y) a with hlow | hgap
      · exact ⟨y, hy, hlow, hyhi⟩
      · have hend : hi x = a := le_antisymm (not_lt.mp fun hlt => hab.2 hlt hshort) hxhi
        have hstart : lo y = b := le_antisymm hylo (not_lt.mp fun hlt => hab.2 hgap hlt)
        have hcov : hi x ⋖ lo y := by
          rw [hend, hstart]
          exact ⟨hxhi.trans_lt hshort, hab.2⟩
        exact absurd hcov (h.rel_of_lt hcoalesced hx hy hcov.lt (hxl.trans hyl.symm))
  obtain ⟨x, hx, hlo, hhi⟩ := h.together_of_forall hle hpairs
  obtain ⟨y, hy, hin, hyl⟩ := hall first le_rfl hle
  have hsame := h.eq_of_mem (a := first) hx hy ⟨hlo, hle.trans hhi⟩ hin
  exact ⟨x, hx, hlo, hhi, hsame ▸ hyl⟩

end Labelled

end Intervals

end Ppv2Auth
