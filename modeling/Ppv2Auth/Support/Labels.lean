/-
Labels of a name.  A separator cuts a list into labels; the last of them is
what stands in front of whatever is joined on behind one more separator.
-/
import Mathlib.Data.List.Basic

namespace Ppv2Auth

namespace Labels

universe u

variable {α : Type u}

/-- `rest` stands behind a separator that opens the name or follows another. -/
def BehindEmpty (sep : α) (name rest : List α) : Prop :=
  name = sep :: rest ∨ ∃ front, name = front ++ sep :: sep :: rest

theorem BehindEmpty.exists_front {sep : α} {name rest : List α}
    (h : BehindEmpty sep name rest) : ∃ front, name = front ++ sep :: rest := by
  rcases h with rfl | ⟨front, rfl⟩
  · exact ⟨[], rfl⟩
  · exact ⟨front ++ [sep], by simp⟩

variable [DecidableEq α]

/-- What stands behind the last separator, everything where there is none. -/
def lastLabel (sep : α) (name : List α) : List α :=
  (name.splitOn sep).getLast (List.splitOn_ne_nil sep name)

variable {sep : α}

theorem lastLabel_of_not_mem {name : List α} (h : sep ∉ name) :
    lastLabel sep name = name := by
  simp [lastLabel, List.splitOn_eq_singleton h]

theorem lastLabel_append (front rest : List α) :
    lastLabel sep (front ++ sep :: rest) = lastLabel sep rest := by
  simp only [lastLabel, List.splitOn_append_cons_self]
  exact List.getLast_append_of_ne_nil _ (List.splitOn_ne_nil sep rest)

/-- A name is one label, or it ends in one behind a separator. -/
theorem not_mem_or_exists_last (sep : α) (name : List α) :
    sep ∉ name ∨ ∃ front rest, name = front ++ sep :: rest ∧ sep ∉ rest := by
  by_cases hmem : sep ∈ name
  · obtain ⟨rest, front, hsplit, hrest⟩ :=
      List.eq_append_cons_of_mem (List.mem_reverse.mpr hmem)
    refine Or.inr ⟨front.reverse, rest.reverse, ?_, by simpa using hrest⟩
    simpa using congrArg List.reverse hsplit
  · exact Or.inl hmem

theorem lastLabel_eq_nil_iff {name : List α} :
    lastLabel sep name = [] ↔ name = [] ∨ ∃ front, name = front ++ [sep] := by
  rcases not_mem_or_exists_last sep name with hmem | ⟨front, rest, rfl, hrest⟩
  · rw [lastLabel_of_not_mem hmem]
    constructor
    · exact Or.inl
    · rintro (hnil | ⟨front, rfl⟩)
      · exact hnil
      · simp at hmem
  · rw [lastLabel_append, lastLabel_of_not_mem hrest]
    constructor
    · rintro rfl
      exact Or.inr ⟨front, rfl⟩
    · rintro (hnil | ⟨front', hsplit⟩)
      · simp at hnil
      · rcases List.eq_nil_or_concat rest with hnil | ⟨init, last, rfl⟩
        · exact hnil
        · simp only [List.concat_eq_append, ← List.cons_append,
            ← List.append_assoc] at hsplit
          -- The name ends in the separator, so its last label would hold one.
          have hlast := List.append_inj_right' hsplit rfl
          simp at hlast
          simp [hlast] at hrest

/-- Renaming elements keeps the labels where only the separator becomes one. -/
theorem lastLabel_map {f : α → α} (hf : ∀ a, f a = sep ↔ a = sep) (name : List α) :
    lastLabel sep (name.map f) = (lastLabel sep name).map f := by
  have hnot : ∀ {l : List α}, sep ∉ l → sep ∉ l.map f := by
    intro l hl hmem
    obtain ⟨a, ha, hsep⟩ := List.mem_map.mp hmem
    exact hl ((hf a).mp hsep ▸ ha)
  rcases not_mem_or_exists_last sep name with hmem | ⟨front, rest, rfl, hrest⟩
  · rw [lastLabel_of_not_mem hmem, lastLabel_of_not_mem (hnot hmem)]
  · rw [List.map_append, List.map_cons, (hf sep).mpr rfl, lastLabel_append,
      lastLabel_append, lastLabel_of_not_mem hrest, lastLabel_of_not_mem (hnot hrest)]

theorem behindEmpty_iff {front rest : List α} :
    BehindEmpty sep (front ++ sep :: rest) rest ↔ lastLabel sep front = [] := by
  rw [lastLabel_eq_nil_iff, BehindEmpty]
  have hopens : front ++ sep :: rest = sep :: rest ↔ front = [] :=
    List.append_left_eq_self
  have hfollows : ∀ q, front ++ sep :: rest = q ++ sep :: sep :: rest ↔
      front = q ++ [sep] := by
    intro q
    rw [← List.singleton_append (l := sep :: rest), ← List.append_assoc q]
    exact List.append_left_inj _
  rw [hopens, exists_congr hfollows]

end Labels

end Ppv2Auth
