/-
Type-length-value records: one kind byte, a sixteen-bit length and that many
bytes.  A byte string splits in one way into complete records and a tail that
starts with none, and that split is the longest.
-/
import Ppv2Auth.Support.BigEndian

namespace Ppv2Auth

namespace Tlv

open BigEndian

/-- A record whose value fits its length field. -/
structure Record where
  kind : UInt8
  value : Bytes
  fits : value.length < 2 ^ 16

def Record.bytes (r : Record) : Bytes :=
  r.kind :: bytesOfWord (UInt16.ofNat r.value.length) ++ r.value

def serialize (records : List Record) : Bytes := records.flatMap Record.bytes

/-- Too short for the bytes before a value, or for the value they announce. -/
def Incomplete : Bytes → Prop
  | _ :: hi :: lo :: rest => rest.length < (word hi lo).toNat
  | _ => True

@[simp] theorem serialize_nil : serialize [] = [] := rfl

@[simp] theorem serialize_cons (r : Record) (rest : List Record) :
    serialize (r :: rest) = r.bytes ++ serialize rest := rfl

theorem serialize_append (left right : List Record) :
    serialize (left ++ right) = serialize left ++ serialize right :=
  List.flatMap_append

/-- The two length bytes read back as the length. -/
theorem Record.exists_length_bytes (r : Record) :
    ∃ hi lo, r.bytes = r.kind :: hi :: lo :: r.value ∧
      (word hi lo).toNat = r.value.length := by
  have hlt := r.fits
  refine ⟨_, _, rfl, ?_⟩
  have hlength : (UInt16.ofNat r.value.length).toNat = r.value.length :=
    UInt16.toNat_ofNat_of_lt' hlt
  rw [word_toNat, hlength, UInt8.toNat_ofNat_of_lt' (by simp [UInt8.size]; omega),
    UInt8.toNat_ofNat_of_lt' (by simp [UInt8.size]; omega)]
  omega

theorem Record.bytes_of_length (r : Record) {hi lo : UInt8}
    (hlength : (word hi lo).toNat = r.value.length) :
    r.bytes = r.kind :: hi :: lo :: r.value := by
  rw [bytes, ← hlength, UInt16.ofNat_toNat, bytesOfWord_word]
  rfl

theorem Record.length_pos (r : Record) : 0 < r.bytes.length := by
  simp [bytes]

/-- No two records start alike. -/
theorem Record.bytes_append_inj {r r' : Record} {rest rest' : Bytes}
    (h : r.bytes ++ rest = r'.bytes ++ rest') : r = r' ∧ rest = rest' := by
  obtain ⟨hi, lo, hr, hlength⟩ := r.exists_length_bytes
  obtain ⟨hi', lo', hr', hlength'⟩ := r'.exists_length_bytes
  rw [hr, hr'] at h
  simp only [List.cons_append, List.cons.injEq] at h
  obtain ⟨hkind, rfl, rfl, hvalue⟩ := h
  obtain ⟨hvalue, hrest⟩ := List.append_inj hvalue (hlength.symm.trans hlength')
  constructor
  · cases r
    cases r'
    simp_all
  · exact hrest

/-- A string is incomplete exactly when no record stands at its front. -/
theorem incomplete_iff {tail : Bytes} :
    Incomplete tail ↔ ∀ (r : Record) (rest : Bytes), tail ≠ r.bytes ++ rest := by
  constructor
  · rintro h r rest rfl
    obtain ⟨hi, lo, hr, hlength⟩ := r.exists_length_bytes
    rw [hr] at h
    simp only [List.cons_append, Incomplete, hlength, List.length_append] at h
    omega
  · intro h
    match tail with
    | [] | [_] | [_, _] => trivial
    | kind :: hi :: lo :: rest =>
        by_contra hcomplete
        have hle : (word hi lo).toNat ≤ rest.length := not_lt.mp hcomplete
        have hlength := List.length_take_of_le hle
        have hlt := (word hi lo).toNat_lt
        apply h ⟨kind, rest.take (word hi lo).toNat, by omega⟩
          (rest.drop (word hi lo).toNat)
        rw [Record.bytes_of_length _ hlength.symm]
        simp

/-- Every string splits into records and an incomplete tail. -/
theorem exists_split (body : Bytes) :
    ∃ records tail, body = serialize records ++ tail ∧ Incomplete tail := by
  induction hn : body.length using Nat.strong_induction_on generalizing body with
  | _ n ih =>
      by_cases hbody : Incomplete body
      · exact ⟨[], body, rfl, hbody⟩
      · simp only [incomplete_iff, not_forall, not_not] at hbody
        obtain ⟨r, rest, rfl⟩ := hbody
        have hpos := r.length_pos
        rw [List.length_append] at hn
        obtain ⟨records, tail, rfl, htail⟩ := ih rest.length (by omega) rest rfl
        exact ⟨r :: records, tail, by simp, htail⟩

/-- Records before an incomplete tail take in every other split. -/
theorem prefix_of_split {records records' : List Record} {tail tail' : Bytes}
    (hsame : serialize records ++ tail = serialize records' ++ tail')
    (htail : Incomplete tail) : records' <+: records := by
  induction records' generalizing records with
  | nil => exact List.nil_prefix
  | cons r' rest' ih =>
      cases records with
      | nil =>
          rw [serialize_nil, List.nil_append, serialize_cons, List.append_assoc] at hsame
          exact absurd hsame (incomplete_iff.mp htail r' _)
      | cons r rest =>
          simp only [serialize_cons, List.append_assoc] at hsame
          obtain ⟨rfl, hrest⟩ := Record.bytes_append_inj hsame
          exact List.cons_prefix_cons.mpr ⟨rfl, ih hrest⟩

/-- The records of a string: the longest front that is all records. -/
structure Splits (body : Bytes) (records : List Record) (tail : Bytes) : Prop where
  split : body = serialize records ++ tail
  longest : ∀ records' tail', body = serialize records' ++ tail' →
    (serialize records').length ≤ (serialize records).length

theorem splits_iff {body tail : Bytes} {records : List Record} :
    Splits body records tail ↔ body = serialize records ++ tail ∧ Incomplete tail := by
  constructor
  · rintro ⟨rfl, hlongest⟩
    refine ⟨rfl, incomplete_iff.mpr ?_⟩
    rintro r rest rfl
    have hmore := hlongest (records ++ [r]) rest (by simp [serialize_append])
    have hpos := r.length_pos
    rw [serialize_append, List.length_append, serialize_cons, serialize_nil,
      List.append_nil] at hmore
    omega
  · rintro ⟨rfl, htail⟩
    refine ⟨rfl, ?_⟩
    intro records' tail' hsame
    obtain ⟨more, rfl⟩ := prefix_of_split hsame htail
    simp [serialize_append]

end Tlv

end Ppv2Auth
