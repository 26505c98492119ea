/-
Big-endian byte strings and the numbers they denote.  A byte string of known
length and its value determine each other, and cutting a string is dividing
its value, so facts about leading bytes and facts about leading bits are the
same facts.
-/
import Mathlib

namespace Ppv2Auth

/-- A byte string. -/
abbrev Bytes := List UInt8

/-- The bytes of an ASCII literal. -/
def ascii (text : String) : Bytes := text.toUTF8.data.toList

/-- A byte array of fixed size. -/
structure Octets (n : Nat) where
  bytes : Bytes
  length_eq : bytes.length = n
deriving DecidableEq

attribute [simp] Octets.length_eq

theorem Octets.ext_bytes {n : Nat} {x y : Octets n} (h : x.bytes = y.bytes) :
    x = y := by
  cases x
  cases y
  simp_all

/-- A zeroed array with `bytes` copied to its front. -/
def Octets.fill (n : Nat) (bytes : Bytes) : Octets n :=
  ⟨(bytes ++ List.replicate n 0).take n, by simp⟩

@[simp] theorem Octets.fill_bytes {n : Nat} {bytes : Bytes}
    (h : bytes.length = n) : (Octets.fill n bytes).bytes = bytes := by
  simp [Octets.fill, ← h]

@[simp] theorem Octets.fill_self {n : Nat} (x : Octets n) :
    Octets.fill n x.bytes = x :=
  Octets.ext_bytes (Octets.fill_bytes x.length_eq)

namespace BigEndian

/-- The number a byte string denotes, most significant byte first. -/
def value : Bytes → Nat
  | [] => 0
  | b :: rest => b.toNat * 256 ^ rest.length + value rest

@[simp] theorem value_nil : value [] = 0 := rfl

@[simp] theorem value_cons (b : UInt8) (rest : Bytes) :
    value (b :: rest) = b.toNat * 256 ^ rest.length + value rest := rfl

theorem value_lt (bytes : Bytes) : value bytes < 256 ^ bytes.length := by
  induction bytes with
  | nil => simp
  | cons b rest ih =>
      have hb : b.toNat ≤ 255 := Nat.le_of_lt_succ b.toNat_lt
      have hmul : b.toNat * 256 ^ rest.length ≤ 255 * 256 ^ rest.length :=
        Nat.mul_le_mul_right _ hb
      simp only [value_cons, List.length_cons, pow_succ]
      omega

theorem value_append (left right : Bytes) :
    value (left ++ right) = value left * 256 ^ right.length + value right := by
  induction left with
  | nil => simp
  | cons b rest ih =>
      simp only [List.cons_append, value_cons, ih, List.length_append, pow_add]
      ring

/-- Strings of one length are determined by their values. -/
theorem value_injective {left right : Bytes}
    (hlength : left.length = right.length) (hvalue : value left = value right) :
    left = right := by
  induction left generalizing right with
  | nil =>
      cases right with
      | nil => rfl
      | cons b rest => simp at hlength
  | cons a left ih =>
      cases right with
      | nil => simp at hlength
      | cons b right =>
          simp only [List.length_cons, Nat.add_right_cancel_iff] at hlength
          simp only [value_cons, hlength] at hvalue
          have hleft := value_lt left
          have hright := value_lt right
          rw [hlength] at hleft
          have hpos : 0 < 256 ^ right.length := by positivity
          have hhead : a.toNat = b.toNat := by
            have hdiv := congrArg (· / 256 ^ right.length) hvalue
            simpa [Nat.add_div_of_dvd_right, Nat.mul_div_cancel _ hpos,
              Nat.div_eq_of_lt hleft, Nat.div_eq_of_lt hright] using hdiv
          have htail : value left = value right := by
            rw [hhead] at hvalue
            omega
          rw [UInt8.toNat_inj.mp hhead, ih hlength htail]

/-- Two strings cut at one place: dividing inside the tail compares the heads
byte by byte and the tails by their leading part. -/
theorem value_append_div_eq_iff {head head' tail tail' : Bytes}
    (hhead : head.length = head'.length) (htail : tail.length = tail'.length)
    {d : Nat} (hd : 0 < d) (hdvd : d ∣ 256 ^ tail.length) :
    value (head ++ tail) / d = value (head' ++ tail') / d ↔
      head = head' ∧ value tail / d = value tail' / d := by
  obtain ⟨q, hq⟩ := hdvd
  have hsplit : ∀ x y : Bytes, y.length = tail.length →
      value (x ++ y) / d = value x * q + value y / d := by
    intro x y hy
    rw [value_append, hy, hq, Nat.mul_left_comm, Nat.add_comm,
      Nat.add_mul_div_left _ _ hd, Nat.add_comm]
  have hsmall : ∀ y : Bytes, y.length = tail.length → value y / d < q := by
    intro y hy
    have := value_lt y
    rw [hy, hq] at this
    exact Nat.div_lt_of_lt_mul this
  rw [hsplit head tail rfl, hsplit head' tail' htail.symm]
  constructor
  · intro heq
    have hq0 : 0 < q := Nat.zero_lt_of_lt (hsmall tail rfl)
    have hquot : ∀ x r : Nat, r < q → (x * q + r) / q = x := by
      intro x r hr
      rw [Nat.add_comm, Nat.add_mul_div_right _ _ hq0, Nat.div_eq_of_lt hr,
        Nat.zero_add]
    have hval : value head = value head' := by
      have hdiv := congrArg (· / q) heq
      simpa only [hquot _ _ (hsmall tail rfl),
        hquot _ _ (hsmall tail' htail.symm)] using hdiv
    refine ⟨value_injective hhead hval, ?_⟩
    rw [hval] at heq
    omega
  · rintro ⟨rfl, heq⟩
    rw [heq]

/-- The sixteen-bit word of two bytes. -/
def word (hi lo : UInt8) : UInt16 := UInt16.ofNat (hi.toNat * 256 + lo.toNat)

/-- The two bytes of a sixteen-bit word. -/
def bytesOfWord (w : UInt16) : Bytes :=
  [UInt8.ofNat (w.toNat / 256), UInt8.ofNat (w.toNat % 256)]

@[simp] theorem bytesOfWord_length (w : UInt16) : (bytesOfWord w).length = 2 := rfl

theorem word_toNat (hi lo : UInt8) :
    (word hi lo).toNat = hi.toNat * 256 + lo.toNat := by
  have hhi := hi.toNat_lt
  have hlo := lo.toNat_lt
  rw [word, UInt16.toNat_ofNat_of_lt']
  simp only [UInt16.size]
  omega

@[simp] theorem bytesOfWord_word (hi lo : UInt8) :
    bytesOfWord (word hi lo) = [hi, lo] := by
  have hlo := lo.toNat_lt
  have hdiv : (hi.toNat * 256 + lo.toNat) / 256 = hi.toNat := by omega
  have hmod : (hi.toNat * 256 + lo.toNat) % 256 = lo.toNat := by omega
  simp [bytesOfWord, word_toNat, hdiv, hmod]

theorem value_bytesOfWord (w : UInt16) : value (bytesOfWord w) = w.toNat := by
  have hw := w.toNat_lt
  have hhi : w.toNat / 256 % 256 = w.toNat / 256 := Nat.mod_eq_of_lt (by omega)
  simp only [bytesOfWord, value_cons, value_nil, List.length_cons,
    List.length_nil, UInt8.toNat_ofNat', hhi]
  omega

theorem bytesOfWord_inj {w w' : UInt16} :
    bytesOfWord w = bytesOfWord w' ↔ w = w' := by
  constructor
  · intro heq
    have hvalue := congrArg value heq
    rw [value_bytesOfWord, value_bytesOfWord] at hvalue
    exact UInt16.toNat_inj.mp hvalue
  · rintro rfl
    rfl

end BigEndian

end Ppv2Auth
