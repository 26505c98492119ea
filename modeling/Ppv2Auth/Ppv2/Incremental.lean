/-
Parsing what has arrived so far.  A prefix of a stream either asks for more
than it shows, never above the ceiling, or already has the verdict of the
whole stream; so what a peek decides does not depend on how bytes arrive.
-/
import Ppv2Auth.Ppv2

namespace Ppv2Auth

namespace Ppv2

open BigEndian

theorem parse_short {buf : Bytes} (hshort : buf.length < preamble) :
    parse buf =
      if buf.take signature.length ≠ signature.take buf.length then
        .error .invalid
      else .error (.need preamble) := by
  have hbuf : buf.take (min buf.length signature.length) =
      buf.take signature.length := by
    rw [Nat.min_comm, ← List.take_take, List.take_length]
  have hsig : signature.take (min buf.length signature.length) =
      signature.take buf.length := by
    rw [← List.take_take, List.take_length]
  simp [parse, hshort, hbuf, hsig]

/-- The declared length of a header whose preamble is there. -/
def declared (buf : Bytes) : Nat :=
  preamble + (word (buf.getD 14 0) (buf.getD 15 0)).toNat

theorem parse_long {buf : Bytes} (hlong : preamble ≤ buf.length) :
    parse buf =
      if buf.take 12 ≠ signature ∨ buf.getD 12 0 ≠ v2Proxy then .error .invalid
      else if declared buf > maxHeader then .error .invalid
      else if buf.length < declared buf then .error (.need (declared buf))
      else
        match family (buf.getD 13 0) with
        | none => .error .invalid
        | some isV6 =>
            parseBody (declared buf) isV6
              ((buf.take (declared buf)).drop preamble) := by
  have hpreamble : preamble = 16 := rfl
  have h12 : 12 < buf.length := by omega
  have h13 : 13 < buf.length := by omega
  have h14 : 14 < buf.length := by omega
  have h15 : 15 < buf.length := by omega
  rewrite [parse, dif_neg (by omega), declared,
    List.getD_eq_getElem buf 0 h12, List.getD_eq_getElem buf 0 h13,
    List.getD_eq_getElem buf 0 h14, List.getD_eq_getElem buf 0 h15]
  rfl

theorem parseBody_ne_need (len : Nat) (isV6 : Bool) (body : Bytes) (k : Nat) :
    parseBody len isV6 body ≠ .error (.need k) := by
  unfold parseBody
  split <;> simp

/-- A request for bytes is for more than is there, within the ceiling. -/
theorem lt_of_parse_need {buf : Bytes} {k : Nat}
    (hparse : parse buf = .error (.need k)) : buf.length < k ∧ k ≤ maxHeader := by
  by_cases hshort : buf.length < preamble
  · rw [parse_short hshort] at hparse
    split at hparse
    · cases hparse
    · cases hparse
      exact ⟨hshort, by decide⟩
  · rw [parse_long (Nat.le_of_not_lt hshort)] at hparse
    split_ifs at hparse with hmagic hceiling hmore
    · cases hparse
    · cases hparse
    · cases hparse
      exact ⟨hmore, Nat.le_of_not_lt hceiling⟩
    · cases hfamily : family (buf.getD 13 0) with
      | none =>
          rw [hfamily] at hparse
          cases hparse
      | some isV6 =>
          rw [hfamily] at hparse
          exact absurd hparse (parseBody_ne_need _ _ _ _)

/-- A mismatch in the bytes shown stays one. -/
theorem parse_invalid_of_mismatch {s : Bytes} {n : Nat} (hn : n ≤ s.length)
    (hmismatch : (s.take n).take signature.length ≠ signature.take n) :
    parse s = .error .invalid := by
  have hwhole : s.take signature.length ≠ signature.take s.length := by
    intro heq
    apply hmismatch
    have hcut := congrArg (List.take n) heq
    rw [List.take_take, List.take_take, Nat.min_eq_left hn] at hcut
    rwa [List.take_take, Nat.min_comm]
  by_cases hlong : s.length < preamble
  · rw [parse_short hlong, if_pos hwhole]
  · have hlen : signature.length ≤ s.length := by
      have : signature.length = 12 ∧ preamble = 16 := ⟨rfl, rfl⟩
      omega
    rw [parse_long (Nat.le_of_not_lt hlong), if_pos]
    rw [List.take_of_length_le hlen] at hwhole
    exact Or.inl hwhole

/-- What is shown either asks for more than is shown or has the verdict of the
whole stream. -/
theorem parse_take (s : Bytes) (n : Nat) :
    (∃ k, parse (s.take n) = .error (.need k)) ∨ parse (s.take n) = parse s := by
  rcases Nat.lt_or_ge n s.length with hn | hall
  swap
  · rw [List.take_of_length_le hall]
    exact Or.inr rfl
  have hlength : (s.take n).length = n := List.length_take_of_le hn.le
  by_cases hshort : n < preamble
  · rw [parse_short (by omega), hlength]
    split
    · next hmismatch =>
        exact Or.inr (parse_invalid_of_mismatch hn.le hmismatch).symm
    · exact Or.inl ⟨preamble, rfl⟩
  · have hpreamble : preamble = 16 := rfl
    have hget : ∀ i < 16, (s.take n).getD i 0 = s.getD i 0 := by
      intro i hi
      simp [show i < n by omega]
    have hdeclared : declared (s.take n) = declared s := by
      simp only [declared, hget, Nat.reduceLT]
    have hfront : (s.take n).take 12 = s.take 12 := by
      rw [List.take_take, Nat.min_eq_left (by omega)]
    rw [parse_long (show preamble ≤ (s.take n).length by omega),
      parse_long (show preamble ≤ s.length by omega), hfront, hdeclared,
      hget 12 (by omega), hget 13 (by omega), hlength]
    by_cases hmore : n < declared s
    · split_ifs with hmagic hceiling
      · exact Or.inr rfl
      · exact Or.inr rfl
      · exact Or.inl ⟨_, rfl⟩
      · exact Or.inl ⟨_, rfl⟩
    · have hbody : (s.take n).take (declared s) = s.take (declared s) := by
        rw [List.take_take, Nat.min_eq_left (Nat.le_of_not_lt hmore)]
      have hwhole : ¬ s.length < declared s := by omega
      rw [hbody, if_neg hmore, if_neg hwhole]
      exact Or.inr rfl

/-- Once the ceiling or the whole stream is shown, the verdict is that of the
stream. -/
theorem parse_take_of_shown {s : Bytes} {n : Nat}
    (hshown : min s.length maxHeader ≤ n) : parse (s.take n) = parse s := by
  rcases parse_take s n with ⟨k, hneed⟩ | hsame
  · obtain ⟨hmore, hceiling⟩ := lt_of_parse_need hneed
    have hall : s.length ≤ n := by
      rw [List.length_take] at hmore
      omega
    rw [List.take_of_length_le hall]
  · exact hsame

end Ppv2

end Ppv2Auth
