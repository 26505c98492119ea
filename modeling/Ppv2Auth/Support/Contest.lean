/-
Answers that claims to one thing have together.  Nobody claims it, one claimant
does, or several do and a fixed value stands for the contest; taking answers
together is a join, so neither order nor repetition of claims matters.
-/
import Mathlib

namespace Ppv2Auth

namespace Contest

universe u

variable {α : Type u} [DecidableEq α] (contested : α)

/-- Two answers taken together. -/
def join : Option α → Option α → Option α
  | none, answer => answer
  | some a, none => some a
  | some a, some b => if a = b then some a else some contested

/-- The answer of a list of claims. -/
def joinAll : List α → Option α
  | [] => none
  | a :: rest => join contested (some a) (joinAll rest)

@[simp] theorem join_none_left (x : Option α) : join contested none x = x := rfl

@[simp] theorem join_none_right (x : Option α) : join contested x none = x := by
  cases x with
  | none => rfl
  | some a => rfl

theorem join_some_some (a b : α) :
    join contested (some a) (some b) = if a = b then some a else some contested := rfl

@[simp] theorem join_self (x : Option α) : join contested x x = x := by
  cases x with
  | none => rfl
  | some a => simp [join_some_some]

/-- A contest takes in every other claim. -/
theorem join_contested (x : Option α) : join contested (some contested) x = some contested := by
  cases x with
  | none => rfl
  | some b => simp [join_some_some]

theorem join_comm (x y : Option α) : join contested x y = join contested y x := by
  cases x with
  | none => simp
  | some a =>
      cases y with
      | none => rfl
      | some b =>
          by_cases hab : a = b
          · rw [hab]
          · simp [join_some_some, hab, Ne.symm hab]

theorem join_assoc (x y z : Option α) :
    join contested (join contested x y) z = join contested x (join contested y z) := by
  cases x with
  | none => rfl
  | some a =>
      cases y with
      | none => rfl
      | some b =>
          cases z with
          | none => simp
          | some c =>
              by_cases hab : a = b
              · subst hab
                by_cases hac : a = c
                · simp [hac]
                · rw [join_some_some, if_pos rfl, join_some_some, if_neg hac,
                    join_comm contested (some a), join_contested]
              · by_cases hbc : b = c
                · subst hbc
                  rw [join_some_some, if_neg hab, join_contested, join_self, join_some_some,
                    if_neg hab]
                · rw [join_some_some, if_neg hab, join_contested, join_some_some, if_neg hbc,
                    join_comm contested (some a), join_contested]

/-- What was claimed stays with its claimant or becomes contested. -/
theorem join_of_some (a : α) (x : Option α) :
    join contested (some a) x = some a ∨ join contested (some a) x = some contested := by
  cases x with
  | none => exact Or.inl rfl
  | some b =>
      rw [join_some_some]
      split
      · exact Or.inl rfl
      · exact Or.inr rfl

theorem join_eq_none_iff {x y : Option α} :
    join contested x y = none ↔ x = none ∧ y = none := by
  cases x with
  | none => simp
  | some a => rcases join_of_some contested a y with hkeep | hcontest <;> simp [*]

theorem joinAll_eq_none_iff {xs : List α} : joinAll contested xs = none ↔ xs = [] := by
  cases xs with
  | nil => simp [joinAll]
  | cons a rest =>
      rw [joinAll]
      rcases join_of_some contested a (joinAll contested rest) with hkeep | hcontest
      · simp [hkeep]
      · simp [hcontest]

/-- The answer is a claimant or the contest. -/
theorem eq_or_mem_of_joinAll {xs : List α} {a : α} (h : joinAll contested xs = some a) :
    a = contested ∨ a ∈ xs := by
  cases xs with
  | nil => cases h
  | cons b rest =>
      rw [joinAll] at h
      rcases join_of_some contested b (joinAll contested rest) with hkeep | hcontest
      · rw [hkeep, Option.some.injEq] at h
        exact Or.inr (h ▸ List.mem_cons_self)
      · rw [hcontest, Option.some.injEq] at h
        exact Or.inl h.symm

theorem joinAll_append (xs ys : List α) :
    joinAll contested (xs ++ ys) =
      join contested (joinAll contested xs) (joinAll contested ys) := by
  induction xs with
  | nil => rfl
  | cons a rest ih => rw [List.cons_append, joinAll, joinAll, ih, join_assoc]

end Contest

end Ppv2Auth
