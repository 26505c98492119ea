/-
Splitting a list into its maximal runs of equal key.  On a list sorted by key
the runs come in strictly increasing order, which is what lets a sweep treat
everything at one position as one step.
-/
import Mathlib

namespace Ppv2Auth

namespace Batches

universe u v

variable {α : Type u} {β : Type v}

section Runs

variable [DecidableEq α] (key : β → α) (items : List β)

/-- The maximal runs of equal key, each with its key. -/
def batches : List (α × List β) :=
  (items.splitBy fun x y => key x = key y).filterMap fun run =>
    run.head?.map fun x => (key x, run)

theorem flatMap_batches : (batches key items).flatMap Prod.snd = items := by
  have hne := List.nil_notMem_splitBy (fun x y => key x = key y) items
  rw [batches, List.flatMap_def, List.map_filterMap]
  conv_rhs => rw [← List.flatten_splitBy (fun x y => key x = key y) items]
  congr 1
  rw [List.filterMap_eq_map_iff_forall_eq_some.mpr, List.map_id]
  intro run hrun
  obtain ⟨x, rest, rfl⟩ := List.exists_cons_of_ne_nil fun hnil => hne (hnil ▸ hrun)
  rfl

variable {key items}

theorem key_eq_of_mem_splitBy {run : List β}
    (hrun : run ∈ items.splitBy fun x y => key x = key y) {x y : β} (hx : x ∈ run)
    (hy : y ∈ run) : key x = key y := by
  have htrans : IsTrans β fun x y => key x = key y := ⟨fun _ _ _ => Eq.trans⟩
  have hpair : run.Pairwise fun x y => key x = key y :=
    ((List.isChain_of_mem_splitBy hrun).imp fun _ _ h => of_decide_eq_true h).pairwise
  have hsymm : Std.Symm fun x y => key x = key y := ⟨fun _ _ => Eq.symm⟩
  exact List.Pairwise.forall_of_forall (R := fun x y => key x = key y) (fun _ _ => rfl)
    hpair hx hy

theorem mem_batches_key {batch : α × List β} (hbatch : batch ∈ batches key items) :
    ∀ x ∈ batch.2, key x = batch.1 := by
  obtain ⟨run, hrun, hhead⟩ := List.mem_filterMap.mp hbatch
  obtain ⟨first, hfirst, rfl⟩ := Option.map_eq_some_iff.mp hhead
  intro x hx
  exact key_eq_of_mem_splitBy hrun hx (List.mem_of_mem_head? hfirst)

end Runs

/-- On a sorted list the runs have strictly increasing keys. -/
theorem batches_pairwise_lt [LinearOrder α] {key : β → α} {items : List β}
    (hsorted : items.Pairwise fun x y => key x ≤ key y) :
    (batches key items).Pairwise fun a b => a.1 < b.1 := by
  have hbefore := hsorted
  rw [← List.flatten_splitBy (fun x y => key x = key y) items, List.pairwise_flatten] at hbefore
  -- Adjacent runs differ where they meet, and a key is the same all over its run.
  have hchain : (items.splitBy fun x y => key x = key y).IsChain fun a b =>
      b ≠ [] ∧ ∀ x ∈ a, ∀ y ∈ b, key x < key y := by
    rw [List.isChain_iff_getElem]
    intro i hi
    obtain ⟨ha, hb, hmeet⟩ := List.isChain_iff_getElem.mp
      (List.isChain_getLast_head_splitBy (fun x y => key x = key y) items) i hi
    refine ⟨hb, fun x hx y hy => ?_⟩
    have hle := List.pairwise_iff_getElem.mp hbefore.2 i (i + 1) (by omega) hi
      (Nat.lt_succ_self i) x hx y hy
    have hlast := key_eq_of_mem_splitBy (List.getElem_mem _) hx (List.getLast_mem ha)
    have hfirst := key_eq_of_mem_splitBy (List.getElem_mem _) hy (List.head_mem hb)
    refine lt_of_le_of_ne hle fun heq => of_decide_eq_false hmeet ?_
    rw [← hlast, ← hfirst, heq]
  have htrans : IsTrans (List β) fun a b => b ≠ [] ∧ ∀ x ∈ a, ∀ y ∈ b, key x < key y := by
    refine ⟨fun a b c hab hbc => ⟨hbc.1, fun x hx y hy => ?_⟩⟩
    obtain ⟨z, hz⟩ := List.exists_mem_of_ne_nil b hab.1
    exact (hab.2 x hx z hz).trans (hbc.2 z hz y hy)
  rw [batches, List.pairwise_filterMap]
  refine hchain.pairwise.imp fun hlt a ha b hb => ?_
  obtain ⟨x, hx, rfl⟩ := Option.map_eq_some_iff.mp ha
  obtain ⟨y, hy, rfl⟩ := Option.map_eq_some_iff.mp hb
  exact hlt.2 x (List.mem_of_mem_head? hx) y (List.mem_of_mem_head? hy)

end Batches

end Ppv2Auth
