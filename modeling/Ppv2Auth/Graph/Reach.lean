/-
What a walk of the group graph yields.  The members of the groups are items
that lead to one another through references, and the walk collects whatever
can be reached and refers to no group.
-/
import Ppv2Auth.Graph
import Ppv2Auth.Support.Traversal

namespace Ppv2Auth

open Rust

namespace Graph

/-- The name a member refers to, when it has the form of a reference. -/
def refName (member : Bytes) : Option Bytes := stripPrefix [64] member

/-- The member list of a group, when the group is known. -/
def membersOf (g : Graph) (name : Bytes) : Option (List Bytes) :=
  g.groups[name]?

/-- A member that refers to a known group. -/
def IsKnownRef (g : Graph) (member : Bytes) : Prop :=
  ∃ name members, refName member = some name ∧ g.membersOf name = some members

/-- A member that can be reached from the entry through known references. -/
def Reachable (g : Graph) (entry : List Bytes) (member : Bytes) : Prop :=
  Traversal.Reachable refName g.membersOf entry member

/-- The members of a list that refer to no known group. -/
def literals (g : Graph) (members : List Bytes) : List Bytes :=
  Traversal.leaves refName g.membersOf members

/-- The walk as the general one sees it. -/
def Walk.general (w : Walk) : Traversal.Walk Bytes Bytes := ⟨w.out, w.seen⟩

/-- The walk over a list of members, told without fuel. -/
def Walks (g : Graph) (w : Walk) (members : List Bytes) (w' : Walk) : Prop :=
  Traversal.Walks refName g.membersOf w.general members w'.general

/-- Two graphs with the same groups, each with its members in some order. -/
def Reordered (g g' : Graph) : Prop :=
  ∀ name, Option.Rel List.Perm (g.membersOf name) (g'.membersOf name)

variable {g : Graph}

theorem target_eq_none_iff {member : Bytes} :
    Traversal.target refName g.membersOf member = none ↔ ¬ g.IsKnownRef member := by
  rw [Option.eq_none_iff_forall_ne_some]
  constructor
  · rintro hnone ⟨name, members, href, hmembers⟩
    exact hnone _ (Traversal.target_eq_some_iff.mpr ⟨href, hmembers⟩)
  · rintro hunknown ⟨name, members⟩ htarget
    exact hunknown ⟨name, members, Traversal.target_eq_some_iff.mp htarget⟩

/-- The walk of the source is the general one. -/
theorem walk_general (g : Graph) (fuel : Nat) (w : Walk) (member : Bytes) :
    (g.walk fuel w member).general =
      Traversal.walk refName g.membersOf fuel w.general member := by
  induction fuel generalizing w member with
  | zero => rfl
  | succ fuel ih =>
      rw [walk, Traversal.walk, Traversal.target, refName]
      cases href : stripPrefix [64] member with
      | none => rfl
      | some name =>
          cases hmembers : g.membersOf name with
          | none =>
              have hget : g.groups[name]? = none := hmembers
              simp [hmembers, hget, Walk.general]
          | some members =>
              have hget : g.groups[name]? = some members := hmembers
              have hfold : (members.foldl (g.walk fuel)
                  ⟨w.out, name :: w.seen⟩).general =
                  members.foldl (Traversal.walk refName g.membersOf fuel)
                    ⟨w.out, name :: w.seen⟩ :=
                (List.foldl_hom Walk.general fun w member => (ih w member).symm).symm
              by_cases hseen : name ∈ w.seen
              · simp [hmembers, hget, hseen, Walk.general]
              · simpa [hmembers, hget, hseen, Walk.general] using hfold

theorem foldl_walk_general (g : Graph) (fuel : Nat) (w : Walk)
    (members : List Bytes) :
    (members.foldl (g.walk fuel) w).general =
      members.foldl (Traversal.walk refName g.membersOf fuel) w.general :=
  (List.foldl_hom Walk.general fun w member => (walk_general g fuel w member).symm).symm

theorem Walk.general_injective {w w' : Walk} (h : w.general = w'.general) :
    w = w' := by
  cases w
  cases w'
  simpa [Walk.general] using h

theorem mem_keys_of_membersOf {name : Bytes} {members : List Bytes}
    (hmembers : g.membersOf name = some members) : name ∈ g.groups.keys := by
  rw [Std.TreeMap.mem_keys, Std.TreeMap.mem_iff_isSome_getElem?]
  exact Option.isSome_of_eq_some hmembers

/-- The walk ends, whatever the references between the groups. -/
theorem exists_walks (g : Graph) (w : Walk) (entry : List Bytes) :
    ∃ w', g.Walks w entry w' := by
  obtain ⟨w', hw'⟩ := Traversal.exists_walks
    (fun _ _ hmembers => mem_keys_of_membersOf hmembers) w.general entry
  exact ⟨⟨w'.out, w'.seen⟩, hw'⟩

theorem Walks.unique {w w₁ w₂ : Walk} {entry : List Bytes}
    (h₁ : g.Walks w entry w₁) (h₂ : g.Walks w entry w₂) : w₁ = w₂ :=
  Walk.general_injective (Traversal.Walks.unique h₁ h₂)

/-- The fuel of `resolve`, and any more of it, is enough. -/
theorem Walks.foldl_walk {w : Walk} {entry : List Bytes}
    (h : g.Walks ⟨[], []⟩ entry w) {fuel : Nat} (hfuel : g.groups.size < fuel) :
    entry.foldl (g.walk fuel) ⟨[], []⟩ = w := by
  apply Walk.general_injective
  rw [foldl_walk_general]
  apply Traversal.Walks.foldl_walk
    (fun _ _ hmembers => mem_keys_of_membersOf hmembers) h
  apply lt_of_le_of_lt _ hfuel
  rw [← Std.TreeMap.length_keys]
  exact List.countP_le_length

theorem Walks.resolve {w : Walk} {entry : List Bytes}
    (h : g.Walks ⟨[], []⟩ entry w) : g.resolve entry = w.out := by
  rw [Graph.resolve, h.foldl_walk (Nat.lt_succ_self _)]

/-- What resolving yields: whatever can be reached and refers to no group. -/
theorem mem_resolve_iff (g : Graph) (entry : List Bytes) (member : Bytes) :
    member ∈ g.resolve entry ↔
      g.Reachable entry member ∧ ¬ g.IsKnownRef member := by
  obtain ⟨w, hw⟩ := g.exists_walks ⟨[], []⟩ entry
  rw [hw.resolve, ← target_eq_none_iff]
  exact Traversal.Walks.mem_out_iff hw

/-- The output is the literals of the entry and of the groups opened. -/
theorem Walks.perm {w : Walk} {entry : List Bytes}
    (h : g.Walks ⟨[], []⟩ entry w) :
    w.seen.Nodup ∧ (∀ name ∈ w.seen, (g.membersOf name).isSome) ∧
      w.out.Perm (g.literals entry ++ w.seen.flatMap fun name =>
        g.literals ((g.membersOf name).getD [])) := by
  obtain ⟨opened, hacc⟩ := Traversal.Walks.exists_account h
  have hseen : w.seen = opened := by simpa [Walk.general] using hacc.seen
  have hnodup : w.seen.Nodup := Traversal.Walks.seen_nodup h List.nodup_nil
  rw [hseen] at hnodup ⊢
  have hout := hacc.out
  simp only [Walk.general, List.nil_append] at hout
  exact ⟨hnodup, hacc.known, hout⟩

/-- The members of all groups together. -/
def totalMembers (g : Graph) : Nat :=
  (g.groups.toList.map fun (_, members) => members.length).sum

theorem totalMembers_eq (g : Graph) :
    g.totalMembers =
      (g.groups.keys.map fun name => ((g.membersOf name).getD []).length).sum := by
  rw [totalMembers, ← Std.TreeMap.map_fst_toList_eq_keys, List.map_map]
  congr 1
  apply List.map_congr_left
  rintro ⟨name, members⟩ hmem
  rw [Std.TreeMap.mem_toList_iff_getElem?_eq_some] at hmem
  simp [membersOf, hmem]

theorem Walks.length_out_le {w : Walk} {entry : List Bytes}
    (h : g.Walks ⟨[], []⟩ entry w) :
    w.out.length ≤ entry.length + g.totalMembers := by
  obtain ⟨hnodup, hknown, hperm⟩ := h.perm
  have hliterals : ∀ members, (g.literals members).length ≤ members.length :=
    fun members => List.length_filter_le _ members
  have hsubset : w.seen ⊆ g.groups.keys := by
    intro name hname
    obtain ⟨members, hmembers⟩ := Option.isSome_iff_exists.mp (hknown name hname)
    exact mem_keys_of_membersOf hmembers
  obtain ⟨some, hsome, hsub⟩ := List.subperm_of_subset hnodup hsubset
  have hopened : (w.seen.flatMap fun name =>
      g.literals ((g.membersOf name).getD [])).length ≤ g.totalMembers := by
    rw [List.length_flatMap, totalMembers_eq]
    calc (w.seen.map fun name => (g.literals ((g.membersOf name).getD [])).length).sum
        ≤ (w.seen.map fun name => ((g.membersOf name).getD []).length).sum :=
          List.sum_le_sum fun name _ => hliterals _
      _ = (some.map fun name => ((g.membersOf name).getD []).length).sum :=
          ((hsome.map _).sum_eq).symm
      _ ≤ _ := (hsub.map _).sum_le_sum fun _ _ => Nat.zero_le _
  rw [hperm.length_eq, List.length_append]
  exact Nat.add_le_add (hliterals entry) hopened

theorem Reordered.sameItems {g' : Graph} (h : g.Reordered g') :
    Traversal.SameItems g.membersOf g'.membersOf := by
  intro name
  have hrel := h name
  generalize g.membersOf name = members at hrel ⊢
  generalize g'.membersOf name = members' at hrel ⊢
  cases hrel with
  | none => exact .none
  | some hperm => exact .some fun _ => hperm.mem_iff

/-- Resolving in a reordered graph yields the same set. -/
theorem Reordered.mem_resolve {g' : Graph} (h : g.Reordered g')
    {entry entry' : List Bytes} (hentry : entry.Perm entry') {member : Bytes} :
    member ∈ g'.resolve entry' ↔ member ∈ g.resolve entry := by
  rw [mem_resolve_iff, mem_resolve_iff, ← target_eq_none_iff, ← target_eq_none_iff]
  constructor
  · rintro ⟨hreach, hleaf⟩
    constructor
    · exact h.sameItems.symm.reachable (fun _ => hentry.mem_iff.mpr) hreach
    · exact h.sameItems.symm.target_eq_none hleaf
  · rintro ⟨hreach, hleaf⟩
    constructor
    · exact h.sameItems.reachable (fun _ => hentry.mem_iff.mp) hreach
    · exact h.sameItems.target_eq_none hleaf

/-- Expansion is reachability.  The walk ends in one way, which `resolve`
computes with the fuel it has; its output is, as a set, the members reachable
from the entry that refer to no known group; every group is opened at most
once, which bounds the output; and the set does not depend on any order. -/
theorem resolve_exact (g : Graph) (entry : List Bytes) :
    (∃ w, g.Walks ⟨[], []⟩ entry w ∧
      (∀ w', g.Walks ⟨[], []⟩ entry w' → w' = w) ∧
      (∀ fuel, g.groups.size < fuel →
        entry.foldl (g.walk fuel) ⟨[], []⟩ = w) ∧
      g.resolve entry = w.out ∧
      w.seen.Nodup ∧ (∀ name ∈ w.seen, (g.membersOf name).isSome) ∧
      w.out.Perm (g.literals entry ++ w.seen.flatMap fun name =>
        g.literals ((g.membersOf name).getD []))) ∧
    (∀ member, member ∈ g.resolve entry ↔
      g.Reachable entry member ∧ ¬ g.IsKnownRef member) ∧
    (g.resolve entry).length ≤ entry.length + g.totalMembers ∧
    (∀ g' entry', g.Reordered g' → entry.Perm entry' →
      ∀ member, member ∈ g'.resolve entry' ↔ member ∈ g.resolve entry) := by
  obtain ⟨w, hw⟩ := g.exists_walks ⟨[], []⟩ entry
  constructor
  · exact ⟨w, hw, fun w' hw' => hw'.unique hw, fun fuel hfuel => hw.foldl_walk hfuel,
      hw.resolve, hw.perm⟩
  constructor
  · exact g.mem_resolve_iff entry
  constructor
  · rw [hw.resolve]
    exact hw.length_out_le
  · intro g' entry' hreordered hentry member
    exact hreordered.mem_resolve hentry

end Graph

end Ppv2Auth
