/-
How many keys can spell one site id.  Keys such as `1`, `01` and `+1` do, but
two of a length at most, and the keys of a map stand side by side in the text
it is read from: a text that fits a memory has fewer than 2^32 of them, so no
count of the sweep can wrap.
-/
import Ppv2Auth.Config.Loading
import Ppv2Auth.Identity.Counts

namespace Ppv2Auth

namespace Loading

open Rust Identity

/-- What the JSON reader is trusted for: each key of the sites map is spelled in
the text, in no fewer bytes than it has, and no two share a byte. -/
def SpellsKeys (fromStr : Bytes → Except String RawTable) : Prop :=
  ∀ text raw, fromStr text = .ok raw →
    (raw.sites.keys.map List.length).sum ≤ text.length

/-- Distinct numbers from `c` on are at least the first so many of them. -/
theorem sum_distinct {c : Nat} {numbers : List Nat} (hnodup : numbers.Nodup)
    (hle : ∀ x ∈ numbers, c ≤ x) :
    numbers.length * (numbers.length - 1) + 2 * (c * numbers.length) ≤ 2 * numbers.sum := by
  have hcast : (numbers.map ((↑) : Nat → Int)).Nodup := hnodup.map Nat.cast_injective
  have hleast : ∀ x ∈ (numbers.map ((↑) : Nat → Int)).toFinset, (c : Int) ≤ x := by
    intro x hx
    obtain ⟨y, hy, rfl⟩ := List.mem_map.mp (List.mem_toFinset.mp hx)
    exact_mod_cast hle y hy
  have hsum := Finset.sum_range_le_sum hleast
  rw [List.toFinset_card_of_nodup hcast, List.sum_toFinset _ hcast, List.length_map,
    Finset.sum_add_distrib, Finset.sum_const, Finset.card_range] at hsum
  have hgauss := Finset.sum_range_id_mul_two numbers.length
  rw [List.map_id', ← Nat.cast_list_sum, ← Nat.cast_sum, nsmul_eq_mul] at hsum
  have hnat : numbers.length * c + ∑ i ∈ Finset.range numbers.length, i ≤ numbers.sum := by
    exact_mod_cast hsum
  rw [Nat.mul_comm c]
  omega

/-- Apart by length, and at one length by the plus sign. -/
def keyRank (key : Bytes) : Nat :=
  2 * key.length + if key.head? = some 43 then 1 else 0

theorem IsDecimal.two_le_keyRank {key : Bytes} {n : Nat} (h : IsDecimal key n) :
    2 ≤ keyRank key := by
  obtain ⟨digits, hne, -, htext, -⟩ := h
  have hpos := List.length_pos_iff.mpr hne
  rcases htext with rfl | rfl
  · simp only [keyRank]
    omega
  · simp only [keyRank, List.length_cons]
    omega

/-- Of one length there are two ways to write a number. -/
theorem IsDecimal.keyRank_inj {key key' : Bytes} {n : Nat} (h : IsDecimal key n)
    (h' : IsDecimal key' n) (hrank : keyRank key = keyRank key') : key = key' := by
  obtain ⟨digits, -, hdigits, htext, hvalue⟩ := h
  obtain ⟨digits', -, hdigits', htext', hvalue'⟩ := h'
  have hplain : ∀ text : Bytes, (∀ c ∈ text, (Radix.toDigit 10 c).isSome) →
      text.head? ≠ some 43 := by
    intro text hall hhead
    have hplus := hall 43 (List.mem_of_mem_head? hhead)
    simp [Radix.toDigit] at hplus
  have hsame : digits.length = digits'.length → digits = digits' := fun hlength =>
    Radix.valueOf_inj (by decide) le_rfl hdigits hdigits' hlength (hvalue.trans hvalue'.symm)
  rcases htext with rfl | rfl <;> rcases htext' with rfl | rfl
  · simp only [keyRank, hplain _ hdigits, hplain _ hdigits'] at hrank
    exact hsame (by simpa using hrank)
  · simp only [keyRank, hplain _ hdigits, List.head?_cons, if_true] at hrank
    simp only [reduceIte] at hrank
    omega
  · simp only [keyRank, hplain _ hdigits', List.head?_cons, if_true] at hrank
    simp only [reduceIte] at hrank
    omega
  · simp only [keyRank, List.head?_cons, List.length_cons, if_true] at hrank
    rw [hsame (by omega)]

/-- So many keys for one number take a quarter of their square in bytes. -/
theorem sq_length_le {keys : List Bytes} {n : Nat} (hnodup : keys.Nodup)
    (hdecimal : ∀ key ∈ keys, IsDecimal key n) :
    keys.length ^ 2 ≤ 4 * (keys.map List.length).sum := by
  have hranks : (keys.map keyRank).Nodup := by
    apply List.Nodup.map_on _ hnodup
    intro key hkey key' hkey' hrank
    exact (hdecimal key hkey).keyRank_inj (hdecimal key' hkey') hrank
  have hleast : ∀ x ∈ keys.map keyRank, 2 ≤ x := by
    intro x hx
    obtain ⟨key, hkey, rfl⟩ := List.mem_map.mp hx
    exact (hdecimal key hkey).two_le_keyRank
  have hbound : (keys.map keyRank).sum ≤ 2 * (keys.map List.length).sum + keys.length := by
    clear hnodup hdecimal hranks hleast
    induction keys with
    | nil => simp
    | cons key rest ih =>
        simp only [List.map_cons, List.sum_cons, List.length_cons]
        have hrank : keyRank key ≤ 2 * key.length + 1 := by
          unfold keyRank
          split <;> omega
        omega
  have hsum := sum_distinct hranks hleast
  rw [List.length_map] at hsum
  have hsquare : keys.length ^ 2 = keys.length * (keys.length - 1) + keys.length := by
    cases keys.length with
    | zero => rfl
    | succ k =>
        rw [Nat.add_sub_cancel]
        ring
  omega

/-- Sites of one id are no more than the keys that spell it. -/
theorem covering_le_keys {raw : Std.TreeMap Bytes (List Bytes)} {sites : List Site}
    (hsites : buildSites raw = .ok sites) (id : UInt16) (a : U128) :
    covering sites id a ≤ (raw.keys.filter (parseU16 · = some id)).length := by
  have honboards := onboards_of_buildSites hsites
  rw [← Std.TreeMap.map_fst_toList_eq_keys, List.filter_map, List.length_map,
    ← List.countP_eq_length_filter]
  clear hsites
  generalize raw.toList = entries at honboards
  induction honboards with
  | nil => simp [covering]
  | @cons entry site entries sites honboards _ ih =>
      have hid : parseU16 entry.1 = some id ↔ site.id = id := by
        rw [honboards.id, Option.some.injEq]
      simp only [covering, List.countP_cons, Function.comp_apply, hid, Bool.decide_and] at ih ⊢
      by_cases hsame : site.id = id
      · simp only [hsame, decide_true, Bool.true_and, reduceIte]
        split <;> omega
      · simpa [hsame] using ih

/-- No count wraps over a table that was read from a text of less than 2^62 bytes. -/
theorem covering_lt_of_text {fromStr : Bytes → Except String RawTable}
    (hreader : SpellsKeys fromStr) {text : Bytes} {raw : RawTable} {sites : List Site}
    (hraw : fromStr text = .ok raw) (htext : text.length < 2 ^ 62)
    (hsites : buildSites raw.sites = .ok sites) (id : UInt16) (a : U128) :
    covering sites id a < 2 ^ 32 := by
  have hsub := List.filter_sublist (p := (parseU16 · = some id)) (l := raw.sites.keys)
  have hsquare := sq_length_le (n := id.toNat) (hsub.nodup Std.TreeMap.nodup_keys)
    fun key hkey => isDecimal_of_parseU16 (by simpa using (List.mem_filter.mp hkey).2)
  have hbytes := (hsub.map List.length).sum_le_sum fun x _ => Nat.zero_le x
  have hspelled := hreader text raw hraw
  have hkeys : (raw.sites.keys.filter (parseU16 · = some id)).length < 2 ^ 32 := by
    by_contra hmany
    have hpow := Nat.pow_le_pow_left (not_lt.mp hmany) 2
    omega
  exact (covering_le_keys hsites id a).trans_lt hkeys

end Loading

end Ppv2Auth
