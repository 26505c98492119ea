/-
Giving part of the lists a name.  Some items of the lists and of the entry are
moved into one new list and stand there as a reference to it; what can be
reached and leads nowhere stays the same.
-/
import Ppv2Auth.Support.Traversal

namespace Ppv2Auth

namespace Traversal

universe u v

variable {α : Type u} {κ : Type v}

/-- The second list says the same as the first once the reference stands for
its items. -/
def Unfolds (fresh : α) (moved : List α) (items items' : List α) : Prop :=
  ∀ a, a ∈ items ↔ (a ∈ items' ∧ a ≠ fresh) ∨ (fresh ∈ items' ∧ a ∈ moved)

/-- The reference is no item of the first list. -/
theorem Unfolds.ne {fresh : α} {moved items items' : List α}
    (h : Unfolds fresh moved items items') (hunused : fresh ∉ moved) {a : α}
    (ha : a ∈ items) : a ≠ fresh := by
  rintro rfl
  rcases (h a).mp ha with ⟨-, hne⟩ | ⟨-, hmoved⟩
  · exact hne rfl
  · exact hunused hmoved

/-- The new name has the moved items, every other list is kept or refers to
it. -/
structure Factors (ref : α → Option κ) (fresh : α) (name : κ) (moved : List α)
    (lists lists' : κ → Option (List α)) : Prop where
  refers : ∀ a, ref a = some name ↔ a = fresh
  free : lists name = none
  named : lists' name = some moved
  unused : fresh ∉ moved
  others : ∀ k, k ≠ name → Option.Rel (Unfolds fresh moved) (lists k) (lists' k)

section Factored

variable {ref : α → Option κ} {fresh : α} {name : κ} {moved : List α}
  {lists lists' : κ → Option (List α)}

/-- Items other than the reference lead where they led. -/
theorem Factors.target_iff (h : Factors ref fresh name moved lists lists') {a : α}
    (ha : a ≠ fresh) {k : κ} :
    ((∃ members, target ref lists a = some (k, members)) ↔
      ∃ members, target ref lists' a = some (k, members)) ∧
    ∀ members members', target ref lists a = some (k, members) →
      target ref lists' a = some (k, members') → Unfolds fresh moved members members' := by
  simp only [target_eq_some_iff]
  by_cases href : ref a = some k
  · have hk : k ≠ name := by
      rintro rfl
      exact ha ((h.refers a).mp href)
    have hrel := h.others k hk
    generalize lists k = items at hrel
    generalize lists' k = items' at hrel
    cases hrel with
    | none => simp
    | some hunfolds =>
        refine ⟨by simp [href], ?_⟩
        rintro members members' ⟨-, hmembers⟩ ⟨-, hmembers'⟩
        cases hmembers
        cases hmembers'
        exact hunfolds
  · simp [href]

/-- What a kept item leads to is led to afterwards, if by way of the reference. -/
theorem Factors.path_of_link (h : Factors ref fresh name moved lists lists') {a b : α}
    (hlink : Link ref lists a b) : Relation.ReflTransGen (Link ref lists') a b := by
  obtain ⟨k, members, htarget, hb⟩ := hlink
  have ha : a ≠ fresh := by
    rintro rfl
    obtain ⟨href, hlist⟩ := target_eq_some_iff.mp htarget
    have hname : k = name := Option.some.inj (href.symm.trans ((h.refers a).mpr rfl))
    rw [hname, h.free] at hlist
    cases hlist
  obtain ⟨hiff, hunfolds⟩ := h.target_iff ha
  obtain ⟨members', htarget'⟩ := hiff.mp ⟨members, htarget⟩
  rcases (hunfolds members members' htarget htarget' b).mp hb with ⟨hb', -⟩ | ⟨hfresh, hb'⟩
  · exact .single ⟨k, members', htarget', hb'⟩
  · have hname : target ref lists' fresh = some (name, moved) :=
      target_eq_some_iff.mpr ⟨(h.refers fresh).mpr rfl, h.named⟩
    exact .tail (.single ⟨k, members', htarget', hfresh⟩) ⟨name, moved, hname, hb'⟩

section Entry

variable {entry entry' : List α}

theorem Factors.reachable (h : Factors ref fresh name moved lists lists')
    (hentry : Unfolds fresh moved entry entry') {b : α}
    (hb : Reachable ref lists entry b) : Reachable ref lists' entry' b := by
  obtain ⟨a, ha, hpath⟩ := hb
  have hpath' : Relation.ReflTransGen (Link ref lists') a b := by
    induction hpath with
    | refl => exact .refl
    | tail _ hlink ih => exact ih.trans (h.path_of_link hlink)
  rcases (hentry a).mp ha with ⟨ha', -⟩ | ⟨hfresh, hmoved⟩
  · exact ⟨a, ha', hpath'⟩
  · have hname : target ref lists' fresh = some (name, moved) :=
      target_eq_some_iff.mpr ⟨(h.refers fresh).mpr rfl, h.named⟩
    exact ⟨fresh, hfresh, .head ⟨name, moved, hname, hmoved⟩ hpath'⟩

theorem Factors.ne_of_reachable (h : Factors ref fresh name moved lists lists')
    (hentry : Unfolds fresh moved entry entry') {b : α}
    (hb : Reachable ref lists entry b) : b ≠ fresh := by
  obtain ⟨a, ha, hpath⟩ := hb
  induction hpath with
  | refl => exact hentry.ne h.unused ha
  | tail _ hlink ih =>
      obtain ⟨k, members, htarget, hb⟩ := hlink
      obtain ⟨hiff, hunfolds⟩ := h.target_iff ih
      obtain ⟨members', htarget'⟩ := hiff.mp ⟨members, htarget⟩
      exact (hunfolds members members' htarget htarget').ne h.unused hb

/-- What is reached afterwards was reached before; the reference stands for
its items. -/
theorem Factors.reachable_back (h : Factors ref fresh name moved lists lists')
    (hentry : Unfolds fresh moved entry entry') {b : α}
    (hb : Reachable ref lists' entry' b) :
    (b ≠ fresh → Reachable ref lists entry b) ∧
      (b = fresh → ∀ a ∈ moved, Reachable ref lists entry a) := by
  obtain ⟨a, ha, hpath⟩ := hb
  induction hpath with
  | refl =>
      constructor
      · exact fun hne => .of_mem ((hentry a).mpr (Or.inl ⟨ha, hne⟩))
      · rintro rfl c hc
        exact .of_mem ((hentry c).mpr (Or.inr ⟨ha, hc⟩))
  | @tail c d _ hlink ih =>
      obtain ⟨k, members', htarget', hd⟩ := hlink
      by_cases hc : c = fresh
      · subst hc
        obtain ⟨href, hlist⟩ := target_eq_some_iff.mp htarget'
        have hname : k = name := Option.some.inj (href.symm.trans ((h.refers c).mpr rfl))
        rw [hname, h.named, Option.some.injEq] at hlist
        subst hlist
        exact ⟨fun _ => ih.2 rfl d hd, fun heq => absurd (heq ▸ hd) h.unused⟩
      · obtain ⟨hiff, hunfolds⟩ := h.target_iff hc
        obtain ⟨members, htarget⟩ := hiff.mpr ⟨members', htarget'⟩
        have hmembers := hunfolds members members' htarget htarget'
        have hlinks : ∀ e ∈ members, Reachable ref lists entry e := fun e he =>
          (ih.1 hc).link ⟨k, members, htarget, he⟩
        constructor
        · exact fun hne => hlinks d ((hmembers d).mpr (Or.inl ⟨hd, hne⟩))
        · rintro rfl e he
          exact hlinks e ((hmembers e).mpr (Or.inr ⟨hd, he⟩))

/-- The same leaves can be reached. -/
theorem Factors.reachable_leaf_iff (h : Factors ref fresh name moved lists lists')
    (hentry : Unfolds fresh moved entry entry') {b : α} :
    (Reachable ref lists' entry' b ∧ target ref lists' b = none) ↔
      Reachable ref lists entry b ∧ target ref lists b = none := by
  have hleaf : b ≠ fresh → (target ref lists' b = none ↔ target ref lists b = none) := by
    intro hne
    simp only [Option.eq_none_iff_forall_ne_some, Prod.forall]
    exact forall_congr' fun k => by
      simpa using not_congr (h.target_iff hne).1.symm
  have hnamed : target ref lists' fresh ≠ none := by
    simp [target_eq_some_iff.mpr ⟨(h.refers fresh).mpr rfl, h.named⟩]
  constructor
  · rintro ⟨hreach, hnone⟩
    have hne : b ≠ fresh := fun heq => hnamed (heq ▸ hnone)
    exact ⟨(h.reachable_back hentry hreach).1 hne, (hleaf hne).mp hnone⟩
  · rintro ⟨hreach, hnone⟩
    have hne := h.ne_of_reachable hentry hreach
    exact ⟨h.reachable hentry hreach, (hleaf hne).mpr hnone⟩

end Entry

end Factored

end Traversal

end Ppv2Auth
