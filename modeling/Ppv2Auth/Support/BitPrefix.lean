/-
Address prefixes on fixed-width words.  A base and a width denote the words
that agree with the base on its leading bits; masking turns that set into one
inclusive interval.
-/
import Mathlib

namespace Ppv2Auth

namespace BitPrefix

variable {n : Nat}

instance linearOrderBitVec : LinearOrder (BitVec n) where
  le_refl := BitVec.le_refl
  le_trans _ _ _ := BitVec.le_trans
  le_antisymm _ _ := BitVec.le_antisymm
  le_total := BitVec.le_total
  lt_iff_le_not_ge x y := by
    rw [BitVec.lt_def, BitVec.le_def, BitVec.le_def]
    omega
  toDecidableLE := inferInstance
  toDecidableEq := inferInstance
  toDecidableLT := inferInstance

/-- Two words agree on their leading `width` bits. -/
def Agree (width : Nat) (x y : BitVec n) : Prop :=
  x >>> (n - width) = y >>> (n - width)

instance (width : Nat) (x y : BitVec n) : Decidable (Agree width x y) :=
  inferInstanceAs (Decidable (_ = _))

theorem agree_iff_div {width : Nat} {x y : BitVec n} :
    Agree width x y ↔
      x.toNat / 2 ^ (n - width) = y.toNat / 2 ^ (n - width) := by
  rw [Agree, ← BitVec.toNat_inj]
  simp [BitVec.toNat_ushiftRight, Nat.shiftRight_eq_div_pow]

theorem Agree.symm {width : Nat} {x y : BitVec n} (h : Agree width x y) :
    Agree width y x := Eq.symm h

theorem Agree.trans {width : Nat} {x y z : BitVec n}
    (hxy : Agree width x y) (hyz : Agree width y z) : Agree width x z :=
  Eq.trans hxy hyz

/-- Agreement on more bits is agreement on fewer. -/
theorem Agree.mono {width width' : Nat} {x y : BitVec n} (hle : width' ≤ width)
    (h : Agree width x y) : Agree width' x y := by
  rw [agree_iff_div] at h ⊢
  have hpow : 2 ^ (n - width') = 2 ^ (n - width) * 2 ^ (n - width' - (n - width)) := by
    rw [← pow_add]
    congr 1
    omega
  rw [hpow, ← Nat.div_div_eq_div_mul, ← Nat.div_div_eq_div_mul, h]

/-- The mask of a prefix.  A full-width shift clears everything, so width zero
needs no case of its own. -/
def mask (width : Nat) : BitVec n := BitVec.allOnes n <<< (n - width)

theorem and_mask_toNat (width : Nat) (x : BitVec n) :
    (x &&& mask width).toNat =
      x.toNat / 2 ^ (n - width) * 2 ^ (n - width) := by
  have hshift : x &&& mask width = (x >>> (n - width)) <<< (n - width) := by
    ext i hi
    simp only [mask, BitVec.getElem_and, BitVec.getElem_shiftLeft,
      BitVec.getElem_allOnes, BitVec.getElem_ushiftRight]
    by_cases hlow : i < n - width
    · simp [hlow]
    · have hback : n - width + (i - (n - width)) = i := by omega
      simp [hlow, hback, BitVec.getLsbD_eq_getElem hi]
  rw [hshift, BitVec.toNat_shiftLeft, BitVec.toNat_ushiftRight,
    Nat.shiftRight_eq_div_pow, Nat.shiftLeft_eq]
  apply Nat.mod_eq_of_lt
  exact Nat.lt_of_le_of_lt (Nat.div_mul_le_self _ _) x.isLt

theorem not_mask_toNat {width : Nat} :
    (~~~(mask width : BitVec n)).toNat = 2 ^ (n - width) - 1 := by
  have hpow : 2 ^ (n - width) ≤ 2 ^ n := Nat.pow_le_pow_right (by omega) (by omega)
  have hpos : 0 < 2 ^ (n - width) := by positivity
  have hall : (mask width : BitVec n).toNat = 2 ^ n - 2 ^ (n - width) := by
    have hand := and_mask_toNat width (BitVec.allOnes n)
    rw [BitVec.allOnes_and, BitVec.toNat_allOnes] at hand
    have hdvd : 2 ^ (n - width) ∣ 2 ^ n := Nat.pow_dvd_pow 2 (by omega)
    obtain ⟨q, hq⟩ := hdvd
    have hqpos : 0 < q := by
      rcases Nat.eq_zero_or_pos q with hzero | hq0
      · rw [hzero] at hq
        simp at hq
      · exact hq0
    have hdiv : (2 ^ n - 1) / 2 ^ (n - width) = q - 1 := by
      rw [hq, Nat.mul_sub_div 0 _ _ (by positivity)]
      simp
    rw [hand, hdiv, hq, Nat.sub_one_mul, Nat.mul_comm]
  rw [BitVec.toNat_not, hall]
  omega

theorem or_not_mask_toNat (width : Nat) (x : BitVec n) :
    ((x &&& mask width) ||| ~~~mask width).toNat =
      x.toNat / 2 ^ (n - width) * 2 ^ (n - width) + (2 ^ (n - width) - 1) := by
  have hpos : 0 < 2 ^ (n - width) := by positivity
  rw [BitVec.toNat_or, and_mask_toNat, not_mask_toNat,
    ← Nat.shiftLeft_eq, Nat.shiftLeft_add_eq_or_of_lt (by omega)]

theorem mask_start_le_stop (width : Nat) (x : BitVec n) :
    x &&& mask width ≤ (x &&& mask width) ||| ~~~mask width := by
  rw [BitVec.le_def, or_not_mask_toNat, and_mask_toNat]
  omega

/-- The interval cut out by the mask is exactly the prefix. -/
theorem mem_interval_iff_agree (width : Nat) (base x : BitVec n) :
    base &&& mask width ≤ x ∧ x ≤ (base &&& mask width) ||| ~~~mask width ↔
      Agree width x base := by
  have hpos : 0 < 2 ^ (n - width) := by positivity
  rw [BitVec.le_def, BitVec.le_def, or_not_mask_toNat, and_mask_toNat,
    agree_iff_div, Nat.div_eq_iff hpos]
  omega

end BitPrefix

end Ppv2Auth
