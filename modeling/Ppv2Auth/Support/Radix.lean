/-
Numbers written in a radix up to sixteen, as ASCII text.  Printing is
Mathlib's digit list, most significant digit first; reading is its inverse on
whatever run of digits a text starts with.
-/
import Ppv2Auth.Support.BigEndian

namespace Ppv2Auth

namespace Radix

/-- The value of an ASCII digit in `radix`, letters in either case. -/
def toDigit (radix : Nat) (c : UInt8) : Option Nat :=
  let value :=
    if 48 ≤ c ∧ c ≤ 57 then some (c.toNat - 48)
    else if 97 ≤ c ∧ c ≤ 122 then some (c.toNat - 87)
    else if 65 ≤ c ∧ c ≤ 90 then some (c.toNat - 55)
    else none
  value.filter (· < radix)

/-- The lower-case ASCII digit of a value below sixteen. -/
def ofDigit (d : Nat) : UInt8 :=
  if d < 10 then UInt8.ofNat (48 + d) else UInt8.ofNat (87 + d)

/-- The value of a string of digits; bytes that are no digits count zero. -/
def valueOf (radix : Nat) (digits : Bytes) : Nat :=
  digits.foldl (fun acc c => acc * radix + (toDigit radix c).getD 0) 0

/-- A number without leading zeros, `0` itself as one digit. -/
def print (radix n : Nat) : Bytes :=
  if n = 0 then [ofDigit 0] else (radix.digits n).reverse.map ofDigit

/-- The longest prefix of digits. -/
def digitRun (radix : Nat) (text : Bytes) : Bytes :=
  text.takeWhile fun c => (toDigit radix c).isSome

/-- No digit of `radix` stands at the front. -/
def Stops (radix : Nat) (text : Bytes) : Prop :=
  ∀ c ∈ text.head?, toDigit radix c = none

variable {radix : Nat}

theorem toDigit_ofDigit {d : Nat} (hradix : radix ≤ 16) (hd : d < radix) :
    toDigit radix (ofDigit d) = some d := by
  have hall : ∀ e < 16, toDigit 16 (ofDigit e) = some e := by decide
  have hwide : ∀ r ≤ 16, ∀ e < r, toDigit r (ofDigit e) = some e := by
    intro r hr e he
    have hsome := hall e (by omega)
    simp only [toDigit, Option.filter_eq_some_iff, decide_eq_true_eq] at hsome ⊢
    exact ⟨hsome.1, he⟩
  exact hwide radix hradix d hd

/-- Up to radix ten a value has one digit only. -/
theorem ofDigit_of_toDigit (hradix : radix ≤ 10) {c : UInt8} {d : Nat}
    (h : toDigit radix c = some d) : ofDigit d = c := by
  simp only [toDigit, Option.filter_eq_some_iff, decide_eq_true_eq] at h
  obtain ⟨hvalue, hd⟩ := h
  split_ifs at hvalue with hdigit hlower hupper
  · have hc : 48 ≤ c.toNat := UInt8.le_iff_toNat_le.mp hdigit.1
    have hsum : 48 + d = c.toNat := by
      have := Option.some.inj hvalue
      omega
    rw [ofDigit, if_pos (by omega), hsum, UInt8.ofNat_toNat]
  · have hc : 97 ≤ c.toNat := UInt8.le_iff_toNat_le.mp hlower.1
    have := Option.some.inj hvalue
    omega
  · have hc : 65 ≤ c.toNat := UInt8.le_iff_toNat_le.mp hupper.1
    have := Option.some.inj hvalue
    omega

theorem print_ne_nil (n : Nat) : print radix n ≠ [] := by
  unfold print
  split
  · simp
  · next hn => simpa [Nat.digits_ne_nil_iff_ne_zero] using hn

theorem isSome_toDigit_of_mem_print (hlow : 2 ≤ radix) (hhigh : radix ≤ 16)
    {n : Nat} {c : UInt8} (hc : c ∈ print radix n) :
    (toDigit radix c).isSome := by
  unfold print at hc
  split at hc
  · rw [List.mem_singleton.mp hc, toDigit_ofDigit hhigh (by omega)]
    rfl
  · obtain ⟨d, hd, rfl⟩ := List.mem_map.mp hc
    have hlt := Nat.digits_lt_base (by omega) (List.mem_reverse.mp hd)
    rw [toDigit_ofDigit hhigh hlt]
    rfl

theorem valueOf_map_ofDigit (hhigh : radix ≤ 16) (digits : List Nat)
    (hdigits : ∀ d ∈ digits, d < radix) :
    valueOf radix (digits.reverse.map ofDigit) = Nat.ofDigits radix digits := by
  rw [valueOf, List.foldl_map, List.foldl_reverse, Nat.ofDigits_eq_foldr]
  induction digits with
  | nil => rfl
  | cons d digits ih =>
      have hd := hdigits d List.mem_cons_self
      simp only [List.foldr_cons, toDigit_ofDigit hhigh hd, Option.getD_some,
        ih fun e he => hdigits e (List.mem_cons_of_mem d he), Nat.cast_id]
      ring

theorem valueOf_eq_ofDigits (digits : Bytes) : valueOf radix digits =
    Nat.ofDigits radix (digits.map fun c => (toDigit radix c).getD 0).reverse := by
  rw [valueOf, Nat.ofDigits_eq_foldr, List.foldr_reverse, List.foldl_map]
  simp [Nat.mul_comm, Nat.add_comm]

/-- Up to radix ten, digits of one length and value are the same. -/
theorem valueOf_inj (hlow : 2 ≤ radix) (hhigh : radix ≤ 10) {digits digits' : Bytes}
    (hdigits : ∀ c ∈ digits, (toDigit radix c).isSome)
    (hdigits' : ∀ c ∈ digits', (toDigit radix c).isSome)
    (hlength : digits.length = digits'.length)
    (hvalue : valueOf radix digits = valueOf radix digits') : digits = digits' := by
  have hlt : ∀ text : Bytes, (∀ c ∈ text, (toDigit radix c).isSome) →
      ∀ d ∈ (text.map fun c => (toDigit radix c).getD 0).reverse, d < radix := by
    intro text htext d hd
    obtain ⟨c, hc, rfl⟩ := List.mem_map.mp (List.mem_reverse.mp hd)
    obtain ⟨d, hd⟩ := Option.isSome_iff_exists.mp (htext c hc)
    rw [hd, Option.getD_some]
    exact of_decide_eq_true (Option.filter_eq_some_iff.mp hd).2
  have hback : ∀ text : Bytes, (∀ c ∈ text, (toDigit radix c).isSome) →
      (text.map fun c => (toDigit radix c).getD 0).map ofDigit = text := by
    intro text htext
    rw [List.map_map, List.map_congr_left (g := id), List.map_id]
    intro c hc
    obtain ⟨d, hd⟩ := Option.isSome_iff_exists.mp (htext c hc)
    simpa [hd] using ofDigit_of_toDigit hhigh hd
  rw [valueOf_eq_ofDigits, valueOf_eq_ofDigits] at hvalue
  have hvalues := Nat.ofDigits_inj_of_len_eq (by omega) (by simp [hlength])
    (hlt digits hdigits) (hlt digits' hdigits') hvalue
  rw [← hback digits hdigits, ← hback digits' hdigits', List.reverse_injective hvalues]

/-- Reading a printed number gives it back. -/
theorem valueOf_print (hlow : 2 ≤ radix) (hhigh : radix ≤ 16) (n : Nat) :
    valueOf radix (print radix n) = n := by
  unfold print
  split
  · next hn => simp [valueOf, toDigit_ofDigit hhigh (by omega : 0 < radix), hn]
  · rw [valueOf_map_ofDigit hhigh _ fun d hd =>
      Nat.digits_lt_base (by omega) hd, Nat.ofDigits_digits]

theorem print_length_le (hlow : 2 ≤ radix) {n k : Nat} (hk : 0 < k)
    (hn : n < radix ^ k) : (print radix n).length ≤ k := by
  unfold print
  split
  · simpa using Nat.succ_le_of_lt hk
  · simpa using (Nat.digits_length_le_iff (by omega) n).mpr hn

/-- A printed number has a leading zero only when it is the digit zero. -/
theorem print_head_ne_zero (hlow : 2 ≤ radix) (hhigh : radix ≤ 16) {n : Nat}
    (hlong : 1 < (print radix n).length) :
    (print radix n).head? ≠ some (ofDigit 0) := by
  intro hhead
  unfold print at hhead hlong
  split at hhead
  · next hn => simp [hn] at hlong
  · next hn =>
      have hlast := Nat.getLast_digit_ne_zero radix hn
      simp only [List.head?_map, List.head?_reverse, Option.map_eq_some_iff] at hhead
      obtain ⟨d, hd, hzero⟩ := hhead
      rw [List.getLast?_eq_getLast_of_ne_nil
        (Nat.digits_ne_nil_iff_ne_zero.mpr hn), Option.some.injEq] at hd
      have hmem : d ∈ radix.digits n := hd ▸ List.getLast_mem _
      rw [hd] at hlast
      have hdlt := Nat.digits_lt_base (by omega) hmem
      have hback := toDigit_ofDigit hhigh hdlt
      rw [hzero, toDigit_ofDigit hhigh (by omega : 0 < radix)] at hback
      exact hlast (Option.some.inj hback).symm

theorem digitRun_length_le (text : Bytes) :
    (digitRun radix text).length ≤ text.length :=
  (List.takeWhile_sublist _).length_le

theorem digitRun_of_stops {text : Bytes} (h : Stops radix text) :
    digitRun radix text = [] := by
  cases text with
  | nil => rfl
  | cons c rest => simp [digitRun, h c (by simp)]

theorem digitRun_append {digits rest : Bytes}
    (hdigits : ∀ c ∈ digits, (toDigit radix c).isSome)
    (hrest : Stops radix rest) : digitRun radix (digits ++ rest) = digits := by
  have hnil := digitRun_of_stops hrest
  rw [digitRun] at hnil
  rw [digitRun, List.takeWhile_append_of_pos hdigits, hnil, List.append_nil]

end Radix

end Ppv2Auth
