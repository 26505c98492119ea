/-
The IPv6 CIDR allowlist: merged disjoint ranges and a binary search.  A range
carries that it is not empty and a set that its ranges are sorted and disjoint
inside its span, since neither type can be built any other way.
-/
import Ppv2Auth.Rust.NetText
import Ppv2Auth.Support.BitPrefix
import Ppv2Auth.Support.Intervals

namespace Ppv2Auth

namespace Cidr

open Rust

structure Range where
  start : U128
  stop : U128
  start_le_stop : start ≤ stop
deriving DecidableEq

/-- The merged ranges with their hull.  An empty set may have any span. -/
structure Set where
  ranges : List Range
  span : U128 × U128
  ordered : Intervals.Ordered Range.start Range.stop ranges
  hull : ∀ r ∈ ranges, span.1 ≤ r.start ∧ r.stop ≤ span.2

/-- `Set::default`. -/
def Set.default : Set where
  ranges := []
  span := (0, 0)
  ordered := ⟨by simp, List.Pairwise.nil⟩
  hull := by simp

/-- The last range starting at or below `addr` decides, behind the span. -/
def Set.contains (set : Set) (addr : U128) : Bool :=
  if addr < set.span.1 ∨ addr > set.span.2 then false
  else
    match Intervals.floor Range.start set.ranges addr with
    | some r => addr ≤ r.stop
    | none => false

def Set.containsRange (set : Set) (start stop : U128) : Bool :=
  if start < set.span.1 ∨ stop > set.span.2 then false
  else
    match Intervals.floor Range.start set.ranges start with
    | some r => stop ≤ r.stop
    | none => false

/-- The mask of a width up to 128; a shift by 128 is not defined, so zero is a
case of its own. -/
def maskOf (bits : Nat) : U128 :=
  if bits = 0 then 0 else BitVec.allOnes 128 <<< (128 - bits)

theorem maskOf_eq_mask (bits : Nat) : maskOf bits = BitPrefix.mask bits := by
  unfold maskOf BitPrefix.mask
  split
  · next hzero =>
      subst hzero
      decide
  · rfl

/-- The inclusive range a prefix covers. -/
def Range.ofPrefix (base : U128) (bits : Nat) : Range where
  start := base &&& maskOf bits
  stop := (base &&& maskOf bits) ||| ~~~maskOf bits
  start_le_stop := by
    rw [maskOf_eq_mask]
    exact BitPrefix.mask_start_le_stop bits base

def parseCidr (text : Bytes) : Except String Range :=
  match splitOnce 47 text with
  | none => .error "missing prefix length"
  | some (ipText, bitsText) =>
      match parseIpv6 ipText with
      | none => .error "bad IPv6 address"
      | some ip =>
          match parseU32 bitsText with
          | none => .error "bad prefix length"
          | some bits =>
              if bits > 128 then .error "prefix length above 128"
              else .ok (Range.ofPrefix (u128FromBe ip) bits)

/-- Comma, space, tab, carriage return and line feed. -/
def isSeparator (c : UInt8) : Bool := [44, 32, 9, 13, 10].contains c

/-- The nonempty pieces between separators. -/
def tokens (list : Bytes) : List Bytes :=
  (list.splitOnP isSeparator).filter (· ≠ [])

theorem isSeparator_iff {c : UInt8} : isSeparator c = true ↔ c ∈ ascii ", \t\r\n" := by
  have hlist : ascii ", \t\r\n" = [44, 32, 9, 13, 10] := by decide +kernel
  rw [hlist, isSeparator, List.contains_iff_mem]

/-- A token is a nonempty stretch of the list without comma, space, tab,
carriage return or line feed, between two of these or the ends. -/
theorem mem_tokens_iff {list tok : Bytes} : tok ∈ tokens list ↔
    tok ≠ [] ∧ ∃ left right, list = left ++ tok ++ right ∧
      (∀ c ∈ tok, c ∉ ascii ", \t\r\n") ∧
      (∀ c ∈ left.getLast?, c ∈ ascii ", \t\r\n") ∧
      ∀ c ∈ right.head?, c ∈ ascii ", \t\r\n" := by
  rw [tokens, List.mem_filter, mem_splitOnP_iff, and_comm]
  simp only [decide_eq_true_eq, ← isSeparator_iff, Bool.not_eq_true]
/-- One round of the merge.  The vector is kept with its last range first. -/
def mergeStep : List Range → Range → List Range
  | [], r => [r]
  | last :: below, r =>
      if r.start ≤ last.stop then
        if h : r.stop > last.stop then
          ⟨last.start, r.stop, last.start_le_stop.trans h.le⟩ :: below
        else last :: below
      else r :: last :: below

/-- Overlaps collapse; adjacent ranges stay apart. -/
def mergeRanges (raw : List Range) : List Range :=
  ((raw.insertionSort fun r s => r.start ≤ s.start).foldl mergeStep []).reverse

theorem covBy_add_one {a b : U128} (h : a < b) : a ⋖ a + 1 := by
  constructor
  · bv_omega
  · intro c hac hca
    bv_omega

theorem add_one_eq_of_covBy {a b : U128} (h : a ⋖ b) : a + 1 = b := by
  have hlt := h.lt
  by_contra hne
  exact h.2 (c := a + 1) (by bv_omega) (by bv_omega)

/-- What the merge keeps: the ranges so far are sorted and disjoint, and every
range still to come starts no earlier than the last of them. -/
structure Merging (stack rest : List Range) : Prop where
  apart : stack.Pairwise fun upper lower => lower.stop < upper.start
  sorted : rest.Pairwise fun r s => r.start ≤ s.start
  below : ∀ last ∈ stack.head?, ∀ r ∈ rest, last.start ≤ r.start

theorem mergeStep_merging {stack rest : List Range} {r : Range}
    (h : Merging stack (r :: rest)) : Merging (mergeStep stack r) rest := by
  obtain ⟨hr, hrest⟩ := List.pairwise_cons.mp h.sorted
  cases stack with
  | nil =>
      exact ⟨List.pairwise_singleton _ _, hrest, by simpa [mergeStep] using hr⟩
  | cons last below =>
      obtain ⟨hlast, hbelow⟩ := List.pairwise_cons.mp h.apart
      have hstart : ∀ s ∈ rest, last.start ≤ s.start := fun s hs =>
        h.below last (by simp) s (List.mem_cons_of_mem r hs)
      by_cases hjoin : r.start ≤ last.stop
      · by_cases hlonger : r.stop > last.stop
        · simp only [mergeStep, hjoin, hlonger, ↓reduceIte, ↓reduceDIte]
          exact ⟨List.pairwise_cons.mpr ⟨hlast, hbelow⟩, hrest,
            by simpa using hstart⟩
        · simp only [mergeStep, hjoin, hlonger, ↓reduceIte, ↓reduceDIte]
          exact ⟨h.apart, hrest, by simpa using hstart⟩
      · simp only [mergeStep, hjoin, ↓reduceIte]
        have hgap : last.stop < r.start := not_le.mp hjoin
        refine ⟨List.pairwise_cons.mpr ⟨?_, h.apart⟩, hrest, by simpa using hr⟩
        intro lower hlower
        rcases List.mem_cons.mp hlower with rfl | hmem
        · exact hgap
        · exact (hlast lower hmem).trans_le (last.start_le_stop.trans hgap.le)

/-- A round joins no neighbours that neither the stack nor the new range has
together; a point is its own neighbour. -/
theorem mergeStep_together {stack rest : List Range} {r : Range}
    (h : Merging stack (r :: rest)) {a b : U128} (hab : a ⩿ b) :
    Intervals.Together Range.start Range.stop (mergeStep stack r) a b ↔
      Intervals.Together Range.start Range.stop stack a b ∨
        (r.start ≤ a ∧ b ≤ r.stop) := by
  cases stack with
  | nil => simp [mergeStep, Intervals.Together]
  | cons last below =>
      have hstart := h.below last (by simp) r List.mem_cons_self
      by_cases hjoin : r.start ≤ last.stop
      · by_cases hlonger : r.stop > last.stop
        · have hunion : (last.start ≤ a ∧ b ≤ r.stop) ↔
              ((last.start ≤ a ∧ b ≤ last.stop) ∨
                (r.start ≤ a ∧ b ≤ r.stop)) := by
            constructor
            · rintro ⟨hlo, hhi⟩
              rcases le_or_gt b last.stop with hle | hgt
              · exact Or.inl ⟨hlo, hle⟩
              · have hpast : last.stop ≤ a := not_lt.mp fun hlt => hab.2 hlt hgt
                exact Or.inr ⟨hjoin.trans hpast, hhi⟩
            · rintro (⟨hlo, hhi⟩ | ⟨hlo, hhi⟩)
              · exact ⟨hlo, hhi.trans hlonger.le⟩
              · exact ⟨hstart.trans hlo, hhi⟩
          simp only [mergeStep, hjoin, hlonger, ↓reduceIte, ↓reduceDIte,
            Intervals.Together, List.exists_mem_cons_iff, hunion]
          exact or_right_comm
        · have hinside : r.stop ≤ last.stop := not_lt.mp hlonger
          simp only [mergeStep, hjoin, hlonger, ↓reduceIte, ↓reduceDIte]
          refine ⟨Or.inl, ?_⟩
          rintro (hold | ⟨hlo, hhi⟩)
          · exact hold
          · exact ⟨last, List.mem_cons_self, hstart.trans hlo, hhi.trans hinside⟩
      · simp only [mergeStep, hjoin, ↓reduceIte, Intervals.Together,
          List.exists_mem_cons_iff (a := r)]
        exact or_comm

theorem foldl_mergeStep {stack rest : List Range} (h : Merging stack rest) :
    Merging (rest.foldl mergeStep stack) [] ∧
      ∀ a b, a ⩿ b → (Intervals.Together Range.start Range.stop
          (rest.foldl mergeStep stack) a b ↔
        Intervals.Together Range.start Range.stop stack a b ∨
          Intervals.Together Range.start Range.stop rest a b) := by
  induction rest generalizing stack with
  | nil => exact ⟨h, by simp [Intervals.Together]⟩
  | cons r rest ih =>
      obtain ⟨hmerging, htogether⟩ := ih (mergeStep_merging h)
      refine ⟨hmerging, fun a b hab => ?_⟩
      rw [List.foldl_cons, htogether a b hab, mergeStep_together h hab]
      simp only [Intervals.Together, List.exists_mem_cons_iff]
      exact or_assoc

theorem merging_sorted (raw : List Range) :
    Merging [] (raw.insertionSort fun r s => r.start ≤ s.start) where
  apart := List.Pairwise.nil
  sorted := by
    have : Std.Total fun r s : Range => r.start ≤ s.start :=
      ⟨fun r s => le_total r.start s.start⟩
    have : IsTrans Range fun r s : Range => r.start ≤ s.start :=
      ⟨fun _ _ _ => le_trans⟩
    exact List.pairwise_insertionSort _ raw
  below := by simp

theorem mergeRanges_ordered (raw : List Range) :
    Intervals.Ordered Range.start Range.stop (mergeRanges raw) where
  nonempty r _ := r.start_le_stop
  apart := List.pairwise_reverse.mpr (foldl_mergeStep (merging_sorted raw)).1.apart

/-- Neighbours share a merged range exactly when they share a raw one. -/
theorem mergeRanges_together (raw : List Range) {a b : U128} (hab : a ⩿ b) :
    Intervals.Together Range.start Range.stop (mergeRanges raw) a b ↔
      Intervals.Together Range.start Range.stop raw a b := by
  have hfold := (foldl_mergeStep (merging_sorted raw)).2 a b hab
  have hsort : ∀ r, r ∈ raw.insertionSort (fun r s => r.start ≤ s.start) ↔
      r ∈ raw := fun r => (List.perm_insertionSort _ raw).mem_iff
  simp only [Intervals.Together, mergeRanges, List.mem_reverse, hsort,
    List.not_mem_nil, false_and, exists_false, false_or] at hfold ⊢
  exact hfold

/-- Merging changes no membership. -/
theorem mergeRanges_covered (raw : List Range) (a : U128) :
    Intervals.Covered Range.start Range.stop (mergeRanges raw) a ↔
      Intervals.Covered Range.start Range.stop raw a :=
  mergeRanges_together raw (WCovBy.refl a)

/-- First start and last end; the largest and the smallest address when there
is no range. -/
def hullOf (ranges : List Range) : U128 × U128 :=
  match ranges.head?, ranges.getLast? with
  | some first, some last => (first.start, last.stop)
  | _, _ => (BitVec.allOnes 128, 0)

theorem hullOf_bounds {ranges : List Range}
    (h : Intervals.Ordered Range.start Range.stop ranges) :
    ∀ r ∈ ranges, (hullOf ranges).1 ≤ r.start ∧ r.stop ≤ (hullOf ranges).2 := by
  intro r hr
  obtain ⟨first, tail, rfl⟩ := List.exists_cons_of_ne_nil (List.ne_nil_of_mem hr)
  have hlast := List.getLast?_eq_some_getLast (List.cons_ne_nil first tail)
  simp only [hullOf, List.head?_cons, hlast]
  constructor
  · rcases List.mem_cons.mp hr with rfl | hmem
    · exact le_rfl
    · have hgap := (List.pairwise_cons.mp h.apart).1 r hmem
      exact first.start_le_stop.trans hgap.le
  · set last := (first :: tail).getLast (List.cons_ne_nil first tail)
    have hmem : last ∈ first :: tail := List.getLast_mem _
    rcases le_or_gt r.stop last.stop with hle | hgt
    · exact hle
    · have hsplit := List.dropLast_append_getLast (List.cons_ne_nil first tail)
      have happart := h.apart
      rw [← hsplit] at hr happart
      rcases List.mem_append.mp hr with hfront | hend
      · have hgap := (List.pairwise_append.mp happart).2.2 r hfront last
          (List.mem_singleton.mpr rfl)
        exact hgap.le.trans last.start_le_stop
      · exact (List.mem_singleton.mp hend ▸ le_rfl)

/-- The set of the given ranges, in any order and with any overlaps. -/
def Set.ofRanges (raw : List Range) : Set where
  ranges := mergeRanges raw
  span := hullOf (mergeRanges raw)
  ordered := mergeRanges_ordered raw
  hull := hullOf_bounds (mergeRanges_ordered raw)

def buildFrom (lists : List Bytes) : Except String Set := do
  let raw ← (lists.flatMap tokens).mapM parseCidr
  return Set.ofRanges raw

def build (list : Bytes) : Except String Set := buildFrom [list]

/-- The span check never disagrees with the search. -/
theorem Set.containsRange_iff_together (set : Set) {start stop : U128}
    (hle : start ≤ stop) :
    set.containsRange start stop = true ↔
      Intervals.Together Range.start Range.stop set.ranges start stop := by
  have hsearch : (match Intervals.floor Range.start set.ranges start with
      | some r => decide (stop ≤ r.stop)
      | none => false) = true ↔
      Intervals.Together Range.start Range.stop set.ranges start stop := by
    rw [← set.ordered.floor_reaches_iff hle]
    cases Intervals.floor Range.start set.ranges start with
    | none => simp
    | some r => simp
  unfold containsRange
  split
  · next hspan =>
      simp only [Bool.false_eq_true, false_iff]
      rintro ⟨r, hr, hlo, hhi⟩
      obtain ⟨hfirst, hlast⟩ := set.hull r hr
      rcases hspan with hbefore | hafter
      · exact absurd (hfirst.trans hlo) (not_le.mpr hbefore)
      · exact absurd (hhi.trans hlast) (not_le.mpr hafter)
  · exact hsearch

theorem Set.contains_iff_covered (set : Set) (a : U128) :
    set.contains a = true ↔
      Intervals.Covered Range.start Range.stop set.ranges a :=
  set.containsRange_iff_together (le_refl a)

@[simp] theorem Set.contains_default (a : U128) :
    Set.default.contains a = false := by
  rw [← Bool.not_eq_true, contains_iff_covered]
  simp [Set.default, Intervals.Covered]

theorem Set.contains_ofRanges (raw : List Range) (a : U128) :
    (Set.ofRanges raw).contains a = true ↔
      ∃ r ∈ raw, r.start ≤ a ∧ a ≤ r.stop := by
  rw [contains_iff_covered]
  exact mergeRanges_covered raw a

theorem Range.mem_ofPrefix (base : U128) (bits : Nat) (a : U128) :
    (Range.ofPrefix base bits).start ≤ a ∧ a ≤ (Range.ofPrefix base bits).stop ↔
      BitPrefix.Agree bits a base := by
  simp only [ofPrefix, maskOf_eq_mask]
  exact BitPrefix.mem_interval_iff_agree bits base a

end Cidr

end Ppv2Auth
