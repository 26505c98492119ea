/-
What a built allowlist contains.  A token spells an address and a width; the
set built from the tokens holds the addresses that agree with one of them, and
two neighbouring addresses share one of its ranges when one token holds both.
-/
import Ppv2Auth.Cidr

namespace Ppv2Auth

namespace Cidr

open Rust BitPrefix

/-- A token is an IPv6 address, a slash and a width of at most 128. -/
def Spells (tok : Bytes) (addr : U128) (bits : Nat) : Prop :=
  ∃ ipText bitsText ip, tok = ipText ++ 47 :: bitsText ∧ 47 ∉ ipText ∧
    parseIpv6 ipText = some ip ∧ addr = u128FromBe ip ∧
    parseU32 bitsText = some bits ∧ bits ≤ 128

/-- Some token of the lists agrees with every one of the addresses. -/
def Listed (lists : List Bytes) (addrs : List U128) : Prop :=
  ∃ list ∈ lists, ∃ tok ∈ tokens list, ∃ base bits,
    Spells tok base bits ∧ ∀ a ∈ addrs, Agree bits a base

/-- The search alone, without the look at the span. -/
def Set.search (set : Set) (addr : U128) : Bool :=
  match Intervals.floor Range.start set.ranges addr with
  | some r => addr ≤ r.stop
  | none => false

/-- The tightest bounds of the ranges; those of no range admit nothing. -/
structure IsHull (span : U128 × U128) (ranges : List Range) : Prop where
  empty : ranges = [] → span = (BitVec.allOnes 128, 0)
  bounds : ∀ r ∈ ranges, span.1 ≤ r.start ∧ r.stop ≤ span.2
  attained : ranges ≠ [] →
    (∃ r ∈ ranges, r.start = span.1) ∧ ∃ r ∈ ranges, r.stop = span.2

theorem parseCidr_eq_ok_iff {tok : Bytes} {r : Range} :
    parseCidr tok = .ok r ↔
      ∃ addr bits, Spells tok addr bits ∧ r = Range.ofPrefix addr bits := by
  constructor
  · intro h
    unfold parseCidr at h
    split at h
    · cases h
    · next ipText bitsText hsplit =>
        obtain ⟨htok, hslash⟩ := splitOnce_eq_some_iff.mp hsplit
        split at h
        · cases h
        · next ip hip =>
            split at h
            · cases h
            · next bits hbits =>
                split at h
                · cases h
                · next hwidth =>
                    exact ⟨u128FromBe ip, bits, ⟨ipText, bitsText, ip, htok, hslash,
                      hip, rfl, hbits, not_lt.mp hwidth⟩, (Except.ok.inj h).symm⟩
  · rintro ⟨_, bits, ⟨ipText, bitsText, ip, rfl, hslash, hip, rfl, hbits, hwidth⟩, rfl⟩
    simp [parseCidr, splitOnce_append hslash, hip, hbits, not_lt.mpr hwidth]

theorem buildFrom_eq_ok_iff {lists : List Bytes} {set : Set} :
    buildFrom lists = .ok set ↔
      ∃ raw, (lists.flatMap tokens).mapM parseCidr = .ok raw ∧
        Set.ofRanges raw = set := by
  rw [buildFrom]
  cases (lists.flatMap tokens).mapM parseCidr with
  | error e => simp [bind, Except.bind]
  | ok raw => simp [bind, Except.bind, pure, Except.pure]

/-- The raw ranges are those the tokens spell. -/
theorem mem_raw_iff {lists : List Bytes} {raw : List Range}
    (hraw : (lists.flatMap tokens).mapM parseCidr = .ok raw) {r : Range} :
    r ∈ raw ↔ ∃ list ∈ lists, ∃ tok ∈ tokens list, ∃ addr bits,
      Spells tok addr bits ∧ r = Range.ofPrefix addr bits := by
  rw [mem_of_mapM hraw]
  simp only [List.mem_flatMap, parseCidr_eq_ok_iff]
  constructor
  · rintro ⟨tok, ⟨list, hlist, htok⟩, hspells⟩
    exact ⟨list, hlist, tok, htok, hspells⟩
  · rintro ⟨list, hlist, tok, htok, hspells⟩
    exact ⟨tok, ⟨list, hlist, htok⟩, hspells⟩

/-- One raw range holds both ends exactly when one token agrees with both. -/
theorem together_raw_iff {lists : List Bytes} {raw : List Range}
    (hraw : (lists.flatMap tokens).mapM parseCidr = .ok raw) {a b : U128}
    (hle : a ≤ b) :
    Intervals.Together Range.start Range.stop raw a b ↔ Listed lists [a, b] := by
  have hends : ∀ base bits, ((Range.ofPrefix base bits).start ≤ a ∧
      b ≤ (Range.ofPrefix base bits).stop) ↔ ∀ x ∈ [a, b], Agree bits x base := by
    intro base bits
    simp only [List.forall_mem_cons, List.not_mem_nil, IsEmpty.forall_iff,
      implies_true, and_true, ← Range.mem_ofPrefix]
    constructor
    · rintro ⟨hlo, hhi⟩
      exact ⟨⟨hlo, hle.trans hhi⟩, hlo.trans hle, hhi⟩
    · rintro ⟨⟨hlo, -⟩, -, hhi⟩
      exact ⟨hlo, hhi⟩
  constructor
  · rintro ⟨r, hr, hin⟩
    obtain ⟨list, hlist, tok, htok, base, bits, hspells, rfl⟩ := (mem_raw_iff hraw).mp hr
    exact ⟨list, hlist, tok, htok, base, bits, hspells, (hends base bits).mp hin⟩
  · rintro ⟨list, hlist, tok, htok, base, bits, hspells, hagree⟩
    have hr := (mem_raw_iff hraw).mpr ⟨list, hlist, tok, htok, base, bits, hspells, rfl⟩
    exact ⟨_, hr, (hends base bits).mpr hagree⟩

/-- Neighbours share a range of the built set when one token holds both. -/
theorem together_iff_listed {lists : List Bytes} {set : Set}
    (hset : buildFrom lists = .ok set) {a b : U128} (hab : a ⩿ b) :
    Intervals.Together Range.start Range.stop set.ranges a b ↔
      Listed lists [a, b] := by
  obtain ⟨raw, hraw, rfl⟩ := buildFrom_eq_ok_iff.mp hset
  exact (mergeRanges_together raw hab).trans (together_raw_iff hraw hab.le)

theorem contains_iff_listed {lists : List Bytes} {set : Set}
    (hset : buildFrom lists = .ok set) (a : U128) :
    set.contains a = true ↔ Listed lists [a] := by
  rw [Set.contains_iff_covered]
  have htwice : Listed lists [a, a] ↔ Listed lists [a] := by simp [Listed]
  exact (together_iff_listed hset (WCovBy.refl a)).trans htwice

theorem exists_buildFrom_iff (lists : List Bytes) :
    (∃ set, buildFrom lists = .ok set) ↔
      ∀ list ∈ lists, ∀ tok ∈ tokens list, ∃ addr bits, Spells tok addr bits := by
  have hraw : (∃ set, buildFrom lists = .ok set) ↔
      ∃ raw, (lists.flatMap tokens).mapM parseCidr = .ok raw := by
    simp only [buildFrom_eq_ok_iff]
    constructor
    · rintro ⟨_, raw, hraw, -⟩
      exact ⟨raw, hraw⟩
    · rintro ⟨raw, hraw⟩
      exact ⟨_, raw, hraw, rfl⟩
  have htok : ∀ tok, (∃ r, parseCidr tok = .ok r) ↔
      ∃ addr bits, Spells tok addr bits := by
    intro tok
    simp only [parseCidr_eq_ok_iff]
    constructor
    · rintro ⟨_, addr, bits, hspells, -⟩
      exact ⟨addr, bits, hspells⟩
    · rintro ⟨addr, bits, hspells⟩
      exact ⟨_, addr, bits, hspells, rfl⟩
  simp only [hraw, exists_mapM_iff, htok, List.mem_flatMap]
  constructor
  · intro h list hlist tok hmem
    exact h tok ⟨list, hlist, hmem⟩
  · rintro h tok ⟨list, hlist, hmem⟩
    exact h list hlist tok hmem

theorem Set.search_iff_covered (set : Set) (a : U128) :
    set.search a = true ↔
      Intervals.Covered Range.start Range.stop set.ranges a := by
  rw [← set.ordered.floor_covers_iff, search]
  cases Intervals.floor Range.start set.ranges a with
  | none => simp
  | some r => simp

theorem Set.contains_eq_search (set : Set) (a : U128) :
    set.contains a = set.search a := by
  rw [Bool.eq_iff_iff, contains_iff_covered, search_iff_covered]

theorem isHull_hullOf {ranges : List Range}
    (h : Intervals.Ordered Range.start Range.stop ranges) :
    IsHull (hullOf ranges) ranges := by
  constructor
  · rintro rfl
    rfl
  · exact hullOf_bounds h
  · intro hne
    obtain ⟨first, rest, rfl⟩ := List.exists_cons_of_ne_nil hne
    have hlast := List.getLast?_eq_some_getLast hne
    simp only [hullOf, List.head?_cons, hlast]
    constructor
    · exact ⟨first, List.mem_cons_self, rfl⟩
    · exact ⟨_, List.getLast_mem hne, rfl⟩

theorem ordered_pairwise {ranges : List Range}
    (h : Intervals.Ordered Range.start Range.stop ranges) :
    ranges.Pairwise fun r s => r.start < s.start ∧ r.stop < s.start := by
  apply h.apart.imp
  intro r s hgap
  exact ⟨r.start_le_stop.trans_lt hgap, hgap⟩

/-- Membership is exact.  The lists build when every token spells a prefix;
what is built holds the addresses that agree with some token, keeps its ranges
sorted and disjoint with their hull as its span, and the look at the span never
changes the answer of the search.  The default set holds nothing. -/
theorem buildFrom_exact (lists : List Bytes) :
    ((∃ set, buildFrom lists = .ok set) ↔
      ∀ list ∈ lists, ∀ tok ∈ tokens list, ∃ addr bits, Spells tok addr bits) ∧
    (∀ set, buildFrom lists = .ok set →
      (∀ a, set.contains a = true ↔
        ∃ list ∈ lists, ∃ tok ∈ tokens list, ∃ addr bits,
          Spells tok addr bits ∧ Agree bits a addr) ∧
      (set.ranges.Pairwise fun r s => r.start < s.start ∧ r.stop < s.start) ∧
      IsHull set.span set.ranges ∧
      ∀ a, set.contains a = set.search a) ∧
    (∀ a, Set.default.contains a = false ∧ Set.default.search a = false) := by
  constructor
  · exact exists_buildFrom_iff lists
  constructor
  · intro set hset
    constructor
    · intro a
      rw [contains_iff_listed hset a]
      simp [Listed]
    constructor
    · exact ordered_pairwise set.ordered
    constructor
    · obtain ⟨raw, -, rfl⟩ := buildFrom_eq_ok_iff.mp hset
      exact isHull_hullOf (mergeRanges_ordered raw)
    · exact set.contains_eq_search
  · intro a
    have hnone := Set.contains_default a
    exact ⟨hnone, (Set.default.contains_eq_search a) ▸ hnone⟩

/-- One range holds the whole of `start..=stop` exactly when every address of
it is contained and neighbours always share a token. -/
theorem containsRange_iff_listed {lists : List Bytes} {set : Set}
    (hset : buildFrom lists = .ok set) {start stop : U128} (hle : start ≤ stop) :
    set.containsRange start stop = true ↔
      (∀ a, start ≤ a → a ≤ stop → set.contains a = true) ∧
        ∀ c, start ≤ c → c < stop → Listed lists [c, c + 1] := by
  rw [Set.containsRange_iff_together set hle]
  constructor
  · rintro ⟨r, hr, hlo, hhi⟩
    constructor
    · intro a ha hb
      rw [Set.contains_iff_covered]
      exact ⟨r, hr, hlo.trans ha, hb.trans hhi⟩
    · intro c hc hlt
      rw [← together_iff_listed hset (covBy_add_one hlt).wcovBy]
      have hnext : c + 1 ≤ stop := (covBy_add_one hlt).ge_of_gt hlt
      exact ⟨r, hr, hlo.trans hc, hnext.trans hhi⟩
  · rintro ⟨hall, hpairs⟩
    apply set.ordered.together_of_forall hle
    intro a b ha hab hb
    rcases hab.eq_or_covBy with rfl | hcov
    · exact (Set.contains_iff_covered set a).mp (hall a ha hb)
    · rw [together_iff_listed hset hab, ← add_one_eq_of_covBy hcov]
      exact hpairs a ha (hcov.lt.trans_le hb)

/-- Whole-range containment agrees with containment point by point exactly
when an address of the range is in no token, or every two neighbours in it lie
in one token. -/
theorem containsRange_agrees_iff {lists : List Bytes} {set : Set}
    (hset : buildFrom lists = .ok set) {start stop : U128} (hle : start ≤ stop) :
    (set.containsRange start stop = true ↔
      ∀ a, start ≤ a → a ≤ stop → set.contains a = true) ↔
    (∃ a, start ≤ a ∧ a ≤ stop ∧ ¬ Listed lists [a]) ∨
      ∀ c, start ≤ c → c < stop → Listed lists [c, c + 1] := by
  rw [containsRange_iff_listed hset hle]
  by_cases hall : ∀ a, start ≤ a → a ≤ stop → set.contains a = true
  · have hlisted : ¬ ∃ a, start ≤ a ∧ a ≤ stop ∧ ¬ Listed lists [a] := by
      rintro ⟨a, hlo, hhi, hnot⟩
      exact hnot ((contains_iff_listed hset a).mp (hall a hlo hhi))
    simp only [hlisted, false_or]
    constructor
    · intro h
      exact (h.mpr hall).2
    · intro hpairs
      exact ⟨And.left, fun h => ⟨h, hpairs⟩⟩
  · have hmissing : ∃ a, start ≤ a ∧ a ≤ stop ∧ ¬ Listed lists [a] := by
      push Not at hall
      obtain ⟨a, hlo, hhi, hnot⟩ := hall
      exact ⟨a, hlo, hhi, fun h => hnot ((contains_iff_listed hset a).mpr h)⟩
    simp only [hmissing, true_or, iff_true]
    exact ⟨And.left, fun h => absurd h hall⟩

namespace MembershipWitness

/-- The text `::/1,8000::/1`: two halves that touch and leave no gap. -/
def halves : List Bytes :=
  [[58, 58, 47, 49, 44, 56, 48, 48, 48, 58, 58, 47, 49]]

def lower : Range := Range.ofPrefix 0 1

def upper : Range := Range.ofPrefix (1 <<< 127) 1

theorem mapM_halves :
    (halves.flatMap tokens).mapM parseCidr = .ok [lower, upper] := by
  decide +kernel

theorem buildFrom_halves :
    buildFrom halves = .ok (Set.ofRanges [lower, upper]) :=
  buildFrom_eq_ok_iff.mpr ⟨_, mapM_halves, rfl⟩

theorem lower_ends : lower.start.toNat = 0 ∧ lower.stop.toNat = 2 ^ 127 - 1 := by
  decide +kernel

theorem upper_ends : upper.start.toNat = 2 ^ 127 ∧ upper.stop.toNat = 2 ^ 128 - 1 := by
  decide +kernel

/-- Every address is contained, and no range holds them all. -/
theorem containsRange_halves :
    ¬ ∀ (lists : List Bytes) (set : Set) (start stop : U128),
      buildFrom lists = .ok set → start ≤ stop →
      (set.containsRange start stop = true ↔
        ∀ a, start ≤ a → a ≤ stop → set.contains a = true) := by
  intro hclaim
  have hwhole : (Set.ofRanges [lower, upper]).containsRange 0 (BitVec.allOnes 128) =
      false := by
    decide +kernel
  have hpoints : ∀ a : U128, (Set.ofRanges [lower, upper]).contains a = true := by
    intro a
    have hlt := a.isLt
    rw [Set.contains_ofRanges]
    simp only [List.mem_cons, List.not_mem_nil, or_false, exists_eq_or_imp,
      exists_eq_left, BitVec.le_def, lower_ends, upper_ends]
    omega
  have hiff := hclaim halves _ 0 (BitVec.allOnes 128) buildFrom_halves (by decide)
  rw [hwhole] at hiff
  simp [hpoints] at hiff

/-- Within one of the halves the two agree. -/
theorem containsRange_agrees_lower :
    (Set.ofRanges [lower, upper]).containsRange 0 lower.stop = true ↔
      ∀ a : U128, 0 ≤ a → a ≤ lower.stop →
        (Set.ofRanges [lower, upper]).contains a = true := by
  apply (containsRange_agrees_iff buildFrom_halves (by decide +kernel)).mpr
  right
  intro c _ hlt
  have hcov := covBy_add_one hlt
  rw [← together_raw_iff mapM_halves hcov.le]
  refine ⟨lower, List.mem_cons_self, ?_, hcov.ge_of_gt hlt⟩
  simp [BitVec.le_def, lower_ends]

end MembershipWitness

end Cidr

end Ppv2Auth
