/-
Editing lists that refer to one another.  What an entry reaches it still
reaches once the lists on the way are longer, and lists that it does not reach
may change at will.
-/
import Ppv2Auth.Support.Traversal

namespace Ppv2Auth

namespace Traversal

universe u v

variable {α : Type u} {κ : Type v} (ref : α → Option κ) (lists lists' : κ → Option (List α))

/-- Wherever the entry leads the same names are known, and their lists hold
what they held. -/
def Widens (entry : List α) : Prop :=
  ∀ a k, Reachable ref lists entry a → ref a = some k →
    Option.Rel (· ⊆ ·) (lists k) (lists' k)

/-- Wherever the entry leads the lists are the same. -/
def Agrees (entry : List α) : Prop :=
  ∀ a k, Reachable ref lists entry a → ref a = some k → lists' k = lists k

variable {ref lists lists'} {entry entry' : List α}

theorem Agrees.widens (h : Agrees ref lists lists' entry) : Widens ref lists lists' entry := by
  intro a k ha href
  rw [h a k ha href]
  cases lists k with
  | none => exact .none
  | some members => exact .some (List.Subset.refl members)

/-- Known references stay known. -/
theorem Widens.target_eq_none_iff (h : Widens ref lists lists' entry) {a : α}
    (ha : Reachable ref lists entry a) :
    target ref lists' a = none ↔ target ref lists a = none := by
  cases href : ref a with
  | none => simp [target, href]
  | some k =>
      have hrel := h a k ha href
      simp only [target, href, Option.bind_some]
      generalize lists k = found at hrel
      generalize lists' k = found' at hrel
      cases hrel with
      | none => simp
      | some => simp

/-- One step on the way can be taken in the longer lists. -/
theorem Widens.link (h : Widens ref lists lists' entry) {a b : α}
    (ha : Reachable ref lists entry a) (hlink : Link ref lists a b) : Link ref lists' a b := by
  obtain ⟨k, members, htarget, hb⟩ := hlink
  obtain ⟨href, hlist⟩ := target_eq_some_iff.mp htarget
  have hrel := h a k ha href
  rw [hlist] at hrel
  cases hlist' : lists' k with
  | none =>
      rw [hlist'] at hrel
      cases hrel
  | some members' =>
      rw [hlist'] at hrel
      cases hrel with
      | some hsubset =>
          exact ⟨k, members', target_eq_some_iff.mpr ⟨href, hlist'⟩, hsubset hb⟩

theorem Widens.reachable (h : Widens ref lists lists' entry) (hentry : entry ⊆ entry') {b : α}
    (hb : Reachable ref lists entry b) : Reachable ref lists' entry' b := by
  obtain ⟨a, ha, hpath⟩ := hb
  induction hpath with
  | refl => exact .of_mem (hentry ha)
  | tail hsteps hlink ih => exact ih.link (h.link ⟨a, ha, hsteps⟩ hlink)

/-- The other lists lead to nothing else. -/
theorem Agrees.reachable_iff (h : Agrees ref lists lists' entry) {b : α} :
    Reachable ref lists' entry b ↔ Reachable ref lists entry b := by
  constructor
  · rintro ⟨a, ha, hpath⟩
    induction hpath with
    | refl => exact .of_mem ha
    | tail _ hlink ih =>
        obtain ⟨k, members, htarget, hb⟩ := hlink
        obtain ⟨href, hlist⟩ := target_eq_some_iff.mp htarget
        rw [h _ k ih href] at hlist
        exact ih.link ⟨k, members, target_eq_some_iff.mpr ⟨href, hlist⟩, hb⟩
  · exact h.widens.reachable (List.Subset.refl entry)

/-- An entry without references sees none of the lists. -/
theorem agrees_of_literals (hliteral : ∀ a ∈ entry, ref a = none) :
    Agrees ref lists lists' entry := by
  rintro a k ⟨b, hb, hpath⟩ href
  rcases hpath.cases_head with rfl | ⟨c, ⟨k', members, htarget, -⟩, -⟩
  · rw [hliteral b hb] at href
    cases href
  · have hknown := (target_eq_some_iff.mp htarget).1
    rw [hliteral b hb] at hknown
    cases hknown

end Traversal

end Ppv2Auth
