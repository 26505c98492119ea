/-
The spaces an encoding can name.  A written prefix is read back into exactly
the addresses that agree with it, and agreement with an assembled address is
agreement part by part: the prefix, the kind, the body and the leading bits of
the client address.
-/
import Ppv2Auth.Identity.Synthesis

namespace Ppv2Auth

namespace Identity

open Rust BigEndian BitPrefix

theorem isSeparator_of_addrByte {c : UInt8} (h : AddrByte c) :
    Cidr.isSeparator c = false := by
  by_contra hsep
  simp only [Cidr.isSeparator, Bool.not_eq_false, List.contains_eq_mem,
    decide_eq_true_eq, List.mem_cons, List.not_mem_nil, or_false] at hsep
  rcases hsep with rfl | rfl | rfl | rfl | rfl <;>
    simp [AddrByte, Radix.toDigit] at h

theorem slash_not_addrByte : ¬ AddrByte 47 := by
  simp [AddrByte, Radix.toDigit]

theorem tokens_cidrText (addr : Octets 16) (width : Nat) :
    Cidr.tokens (cidrText addr width) = [cidrText addr width] := by
  have hplain : ∀ c ∈ cidrText addr width, Cidr.isSeparator c = false := by
    intro c hc
    simp only [cidrText, List.mem_append, List.mem_cons] at hc
    rcases hc with haddr | rfl | hwidth
    · exact isSeparator_of_addrByte (addrByte_displayIpv6 addr c haddr)
    · decide
    · exact isSeparator_of_addrByte (addrByte_decimal width c hwidth)
  have hne : cidrText addr width ≠ [] := by simp [cidrText]
  simp [Cidr.tokens, List.splitOnP_eq_singleton hplain, hne]

theorem splitOnce_cidrText (addr : Octets 16) (width : Nat) :
    splitOnce 47 (cidrText addr width) = some (displayIpv6 addr, decimal width) :=
  splitOnce_append fun hmem =>
    slash_not_addrByte (addrByte_displayIpv6 addr 47 hmem)

/-- A written prefix reads back when its width is one of an address. -/
theorem parseCidr_cidrText_eq (addr : Octets 16) {width : Nat} (hsmall : width ≤ 255) :
    Cidr.parseCidr (cidrText addr width) =
      if width > 128 then .error "prefix length above 128"
      else .ok (Cidr.Range.ofPrefix (toU128 addr) width) := by
  have hparse : parseU32 (decimal width) = some width :=
    parseUnsigned_decimal (by omega)
  simp only [Cidr.parseCidr, splitOnce_cidrText, parseIpv6_displayIpv6, hparse]
  rfl

theorem parseCidr_cidrText (addr : Octets 16) {width : Nat}
    (hwidth : width ≤ 128) :
    Cidr.parseCidr (cidrText addr width) =
      .ok (Cidr.Range.ofPrefix (toU128 addr) width) := by
  rw [parseCidr_cidrText_eq addr (by omega), if_neg (by omega)]

/-- What `cidr::build` makes of a written prefix. -/
theorem build_cidrText (addr : Octets 16) {width : Nat} (hwidth : width ≤ 128) :
    Cidr.build (cidrText addr width) =
      .ok (Cidr.Set.ofRanges [Cidr.Range.ofPrefix (toU128 addr) width]) := by
  simp [Cidr.build, Cidr.buildFrom, tokens_cidrText,
    parseCidr_cidrText addr hwidth]

theorem contains_ofPrefix (base a : U128) (width : Nat) :
    (Cidr.Set.ofRanges [Cidr.Range.ofPrefix base width]).contains a = true ↔
      Agree width a base := by
  rw [Cidr.Set.contains_ofRanges]
  simp only [List.mem_singleton, exists_eq_left]
  exact Cidr.Range.mem_ofPrefix base width a

/-- Four octets as a word. -/
def quad (x : Octets 4) : BitVec 32 := BitVec.ofNat 32 (value x.bytes)

@[simp] theorem quad_toNat (x : Octets 4) : (quad x).toNat = value x.bytes := by
  have hlt := value_lt x.bytes
  rw [x.length_eq] at hlt
  rw [quad, BitVec.toNat_ofNat]
  exact Nat.mod_eq_of_lt (by simpa using hlt)

/-- The last four octets of an address. -/
def lowQuad (x : Octets 16) : Octets 4 := ⟨x.bytes.drop 12, by simp⟩

theorem take_append_lowQuad (x : Octets 16) :
    x.bytes = x.bytes.take 12 ++ (lowQuad x).bytes :=
  (List.take_append_drop 12 x.bytes).symm

/-- Past the first twelve octets, agreement is agreement of the last four. -/
theorem agree_append_iff {x y : Octets 16} {head head' : Bytes}
    {low low' : Octets 4} (hx : x.bytes = head ++ low.bytes)
    (hy : y.bytes = head' ++ low'.bytes) {width : Nat} (hwidth : width ≤ 32) :
    Agree (96 + width) (toU128 x) (toU128 y) ↔
      head = head' ∧ Agree width (quad low) (quad low') := by
  have hhead : head.length = head'.length := by
    have hxlen := congrArg List.length hx
    have hylen := congrArg List.length hy
    simp only [Octets.length_eq, List.length_append] at hxlen hylen
    omega
  have hlow : low.bytes.length = low'.bytes.length := by simp
  have hdvd : 2 ^ (32 - width) ∣ 256 ^ low.bytes.length := by
    rw [low.length_eq, show (256 : Nat) ^ 4 = 2 ^ 32 from rfl]
    exact Nat.pow_dvd_pow 2 (by omega)
  rw [agree_iff_div, agree_iff_div, quad_toNat, quad_toNat, toU128, toU128,
    u128FromBe_toNat, u128FromBe_toNat, hx, hy,
    show 128 - (96 + width) = 32 - width by omega]
  exact value_append_div_eq_iff hhead hlow (by positivity) hdvd

theorem assemble_head_inj {p p' : Prefix} {k k' : UInt16}
    {body body' : Octets 4} :
    p.bytes ++ bytesOfWord k ++ body.bytes =
        p'.bytes ++ bytesOfWord k' ++ body'.bytes ↔
      p = p' ∧ k = k' ∧ body = body' := by
  constructor
  · intro heq
    obtain ⟨hfront, hbody⟩ := List.append_inj heq (by simp)
    obtain ⟨hp, hk⟩ := List.append_inj hfront (by simp)
    exact ⟨Octets.ext_bytes hp, bytesOfWord_inj.mp hk, Octets.ext_bytes hbody⟩
  · rintro ⟨rfl, rfl, rfl⟩
    rfl

theorem agree_assemble_iff {p p' : Prefix} {k k' : UInt16}
    {body body' low low' : Octets 4} {width : Nat} (hwidth : width ≤ 32) :
    Agree (96 + width) (toU128 (assemble p k body low))
        (toU128 (assemble p' k' body' low')) ↔
      (p = p' ∧ k = k' ∧ body = body') ∧ Agree width (quad low) (quad low') := by
  rw [agree_append_iff rfl rfl hwidth, assemble_head_inj]

/-- Inside the /48. -/
def InPrefix (pfx : Prefix) (addr : Octets 16) : Prop :=
  addr.bytes.take 6 = pfx.bytes

instance (pfx : Prefix) (addr : Octets 16) : Decidable (InPrefix pfx addr) :=
  inferInstanceAs (Decidable (_ = _))

@[simp] theorem inPrefix_assemble (p : Prefix) (k : UInt16)
    (body low : Octets 4) : InPrefix p (assemble p k body low) := by
  simp [InPrefix, assemble]

/-- What agrees with an assembled address past the client bits shares its
prefix. -/
theorem InPrefix.of_agree {x : Octets 16} {p : Prefix} {k : UInt16}
    {body low : Octets 4} {width : Nat} (hwidth : width ≤ 32)
    (h : Agree (96 + width) (toU128 x) (toU128 (assemble p k body low))) :
    InPrefix p x := by
  have hhead := ((agree_append_iff (take_append_lowQuad x) rfl hwidth).mp h).1
  have htake := congrArg (List.take 6) hhead
  simpa [InPrefix, List.take_take, List.take_append] using htake

theorem agree_zero (x y : BitVec 32) : Agree 0 x y := by
  rw [agree_iff_div, Nat.sub_zero, Nat.div_eq_of_lt x.isLt,
    Nat.div_eq_of_lt y.isLt]

/-- A /96 leaves the client bits open. -/
theorem agree_96_assemble_iff {p p' : Prefix} {k k' : UInt16}
    {body body' low low' : Octets 4} :
    Agree 96 (toU128 (assemble p k body low))
        (toU128 (assemble p' k' body' low')) ↔
      p = p' ∧ k = k' ∧ body = body' := by
  have h : Agree (96 + 0) (toU128 (assemble p k body low))
      (toU128 (assemble p' k' body' low')) ↔ _ :=
    agree_assemble_iff (Nat.zero_le 32)
  rw [Nat.add_zero] at h
  rw [h]
  exact and_iff_left (agree_zero _ _)

theorem value_mappedPrefix : value mappedPrefix = 0xffff := by decide

/-- The two spellings of the mapped form meet. -/
theorem mappedBase_eq (v4 : Octets 4) : mappedBase v4 = toU128 (mappedV4 v4) := by
  have hlt : value v4.bytes < 2 ^ 32 := by
    have := value_lt v4.bytes
    rwa [v4.length_eq] at this
  apply BitVec.eq_of_toNat_eq
  have hmod : value v4.bytes % 2 ^ 128 = value v4.bytes :=
    Nat.mod_eq_of_lt (hlt.trans (by decide))
  have hshift : (0xffff00000000#128).toNat = 0xffff <<< 32 := by decide
  rw [toU128, u128FromBe_toNat, mappedV4, value_append, value_mappedPrefix,
    v4.length_eq, mappedBase, BitVec.toNat_or, hshift, BitVec.toNat_ofNat, hmod,
    ← Nat.shiftLeft_add_eq_or_of_lt hlt, Nat.shiftLeft_eq,
    show (256 : Nat) ^ 4 = 2 ^ 32 from rfl]

theorem rangeOf_eq (addr : U128) (bits : Nat) :
    rangeOf addr bits =
      ((Cidr.Range.ofPrefix addr bits).start,
        (Cidr.Range.ofPrefix addr bits).stop) := by
  unfold rangeOf Cidr.Range.ofPrefix Cidr.maskOf
  by_cases hzero : bits = 0
  · simp [hzero]
  · simp [hzero]

end Identity

end Ppv2Auth
