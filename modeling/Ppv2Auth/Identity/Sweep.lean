/-
Flattening the sites' source ranges into one disjoint segment map.  A range
opens at its start and closes after its end; the sweep keeps a reference count
per active id and cuts a segment whenever the position moves on.  What is
proved here is the shape of the result, which does not depend on the counts.
-/
import Ppv2Auth.Cidr
import Ppv2Auth.Support.Batches

namespace Ppv2Auth

namespace Identity

open Rust

/-- The quarantine site, minted by contests and never declared. -/
def siteContested : UInt16 := 0

/-- One onboarded tenant: what resolves to it, and the id it resolves to. -/
structure Site where
  id : UInt16
  /-- Exact endpoint ids. -/
  vpce : List Bytes
  /-- Source prefixes, IPv4 in its mapped form. -/
  cidrs : Cidr.Set

/-- A stretch of addresses with one owner. -/
structure Segment where
  start : U128
  stop : U128
  id : UInt16
deriving DecidableEq

/-- A range of site `id` opening or closing at `pos`. -/
structure Event where
  pos : U128
  opens : Bool
  id : UInt16
deriving DecidableEq

/-- The order of the tuples `(pos, opens, id)`. -/
def Event.key (e : Event) : U128 ×ₗ (Bool ×ₗ Nat) :=
  toLex (e.pos, toLex (e.opens, e.id.toNat))

/-- The largest address never closes. -/
def rangeEvents (id : UInt16) (r : Cidr.Range) : List Event :=
  if r.stop < BitVec.allOnes 128 then
    [⟨r.start, true, id⟩, ⟨r.stop + 1, false, id⟩]
  else [⟨r.start, true, id⟩]

def siteEvents (site : Site) : List Event :=
  site.cidrs.ranges.flatMap (rangeEvents site.id)

def sortedEvents (sites : List Site) : List Event :=
  (sites.flatMap siteEvents).insertionSort fun e f => e.key ≤ f.key

/-- The ids with a range open here, and how many each has. -/
abbrev Active := Std.TreeMap UInt16 UInt32

def applyEvent (active : Active) (e : Event) : Active :=
  if e.opens then active.insert e.id (active.getD e.id 0 + 1)
  else
    match active[e.id]? with
    | some c =>
        if c - 1 = 0 then active.erase e.id else active.insert e.id (c - 1)
    | none => active

/-- One claimant is a site; two or more are a contest. -/
def claimant (active : Active) : Option UInt16 :=
  match active.size with
  | 0 => none
  | 1 => active.keys.head?
  | _ => some siteContested

structure Sweep where
  segments : List Segment
  active : Active
  curStart : U128
  curId : Option UInt16

def Sweep.start : Sweep := ⟨[], ∅, 0, none⟩

/-- Cut the segment that ends just before `pos`. -/
def Sweep.emit (s : Sweep) (pos : U128) : List Segment :=
  match s.curId with
  | some id =>
      if pos > s.curStart then s.segments ++ [⟨s.curStart, pos - 1, id⟩]
      else s.segments
  | none => s.segments

/-- One round of the outer loop: every event at one position. -/
def Sweep.advance (s : Sweep) (batch : U128 × List Event) : Sweep :=
  let active := batch.2.foldl applyEvent s.active
  ⟨s.emit batch.1, active, batch.1, claimant active⟩

/-- What is still open after the last event stays open to the end. -/
def Sweep.finish (s : Sweep) : List Segment :=
  match s.curId with
  | some id => s.segments ++ [⟨s.curStart, BitVec.allOnes 128, id⟩]
  | none => s.segments

def sweep (events : List Event) : List Segment :=
  ((Batches.batches Event.pos events).foldl Sweep.advance Sweep.start).finish

/-- One round of the merge.  The vector is kept with its last segment first. -/
def mergeSegment : List Segment → Segment → List Segment
  | [], seg => [seg]
  | last :: below, seg =>
      if last.id = seg.id ∧ last.stop + 1 = seg.start then
        { last with stop := seg.stop } :: below
      else seg :: last :: below

def mergeSegments (segments : List Segment) : List Segment :=
  (segments.foldl mergeSegment []).reverse

theorem sortedEvents_perm (sites : List Site) :
    (sortedEvents sites).Perm (sites.flatMap siteEvents) :=
  List.perm_insertionSort _ _

theorem sortedEvents_pairwise_key (sites : List Site) :
    (sortedEvents sites).Pairwise fun e f => e.key ≤ f.key := by
  have : Std.Total fun e f : Event => e.key ≤ f.key :=
    ⟨fun e f => le_total e.key f.key⟩
  have : IsTrans Event fun e f => e.key ≤ f.key := ⟨fun _ _ _ => le_trans⟩
  exact List.pairwise_insertionSort _ _

theorem Event.pos_le_of_key_le {e f : Event} (h : e.key ≤ f.key) :
    e.pos ≤ f.pos := by
  rcases (Prod.Lex.le_iff).mp h with hlt | ⟨heq, -⟩
  · exact le_of_lt hlt
  · exact le_of_eq heq

theorem sortedEvents_pairwise_pos (sites : List Site) :
    (sortedEvents sites).Pairwise fun e f => e.pos ≤ f.pos :=
  (sortedEvents_pairwise_key sites).imp Event.pos_le_of_key_le

theorem le_sub_one_iff {a p q : U128} (h : q < p) : a ≤ p - 1 ↔ a < p := by
  bv_omega

/-- The segments cut so far are sorted, disjoint and behind the position. -/
structure Sweep.Shaped (s : Sweep) : Prop where
  ordered : Intervals.Ordered Segment.start Segment.stop s.segments
  behind : ∀ seg ∈ s.segments, seg.stop < s.curStart

theorem Sweep.start_shaped : Sweep.start.Shaped :=
  ⟨⟨by simp [Sweep.start], List.Pairwise.nil⟩, by simp [Sweep.start]⟩

theorem Sweep.emit_shaped {s : Sweep} (h : s.Shaped) {pos : U128}
    (hpos : s.curStart ≤ pos) :
    Intervals.Ordered Segment.start Segment.stop (s.emit pos) ∧
      ∀ seg ∈ s.emit pos, seg.stop < pos := by
  have hold : ∀ seg ∈ s.segments, seg.stop < pos := fun seg hseg =>
    (h.behind seg hseg).trans_le hpos
  unfold emit
  cases s.curId with
  | none => exact ⟨h.ordered, hold⟩
  | some id =>
      by_cases hgap : pos > s.curStart
      · simp only [hgap, ↓reduceIte]
        refine ⟨h.ordered.append_singleton ((le_sub_one_iff hgap).mpr hgap)
          h.behind, ?_⟩
        intro seg hseg
        rcases List.mem_append.mp hseg with hmem | hnew
        · exact hold seg hmem
        · rw [List.mem_singleton.mp hnew]
          exact (le_sub_one_iff hgap).mp le_rfl
      · simp only [hgap, ↓reduceIte]
        exact ⟨h.ordered, hold⟩

theorem Sweep.advance_shaped {s : Sweep} (h : s.Shaped)
    {batch : U128 × List Event} (hpos : s.curStart ≤ batch.1) :
    (s.advance batch).Shaped :=
  ⟨(s.emit_shaped h hpos).1, (s.emit_shaped h hpos).2⟩

theorem Sweep.foldl_advance_shaped {s : Sweep} (h : s.Shaped)
    {batches : List (U128 × List Event)}
    (hfirst : ∀ batch ∈ batches, s.curStart ≤ batch.1)
    (hsorted : batches.Pairwise fun a b => a.1 < b.1) :
    (batches.foldl Sweep.advance s).Shaped := by
  induction batches generalizing s with
  | nil => exact h
  | cons batch rest ih =>
      obtain ⟨hbatch, hrest⟩ := List.pairwise_cons.mp hsorted
      exact ih (Sweep.advance_shaped h (hfirst batch List.mem_cons_self))
        (fun b hb => (hbatch b hb).le) hrest

theorem le_allOnes (a : U128) : a ≤ BitVec.allOnes 128 := by
  rw [BitVec.le_def, BitVec.toNat_allOnes]
  have := a.isLt
  omega

theorem Sweep.finish_ordered {s : Sweep} (h : s.Shaped) :
    Intervals.Ordered Segment.start Segment.stop s.finish := by
  unfold finish
  cases s.curId with
  | none => exact h.ordered
  | some id => exact h.ordered.append_singleton (le_allOnes _) h.behind

theorem sweep_ordered {events : List Event}
    (hsorted : events.Pairwise fun e f => e.pos ≤ f.pos) :
    Intervals.Ordered Segment.start Segment.stop (sweep events) :=
  Sweep.finish_ordered (Sweep.foldl_advance_shaped Sweep.start_shaped
    (fun batch _ => by simp [Sweep.start, BitVec.le_def])
    (Batches.batches_pairwise_lt hsorted))

/-- Some segment of site `id` contains the address. -/
def OwnedBy (segments : List Segment) (id : UInt16) (a : U128) : Prop :=
  ∃ seg ∈ segments, (seg.start ≤ a ∧ a ≤ seg.stop) ∧ seg.id = id

/-- What the merge keeps of the segments done and to come. -/
structure SegmentMerge (stack rest : List Segment) : Prop where
  ordered : Intervals.Ordered Segment.start Segment.stop (stack.reverse ++ rest)
  coalesced : stack.Pairwise fun upper lower =>
    lower.id = upper.id → ¬ lower.stop ⋖ upper.start

theorem mergeSegment_spec {stack rest : List Segment} {seg : Segment}
    (h : SegmentMerge stack (seg :: rest)) :
    SegmentMerge (mergeSegment stack seg) rest ∧
      ∀ id a, OwnedBy ((mergeSegment stack seg).reverse ++ rest) id a ↔
        OwnedBy (stack.reverse ++ seg :: rest) id a := by
  cases stack with
  | nil => exact ⟨⟨h.ordered, List.pairwise_singleton _ _⟩, fun _ _ => Iff.rfl⟩
  | cons last below =>
      have hordered : Intervals.Ordered Segment.start Segment.stop
          (below.reverse ++ last :: seg :: rest) := by
        simpa using h.ordered
      have hlast := hordered.nonempty last (by simp)
      have hseg := hordered.nonempty seg (by simp)
      have hgap : last.stop < seg.start :=
        (List.pairwise_cons.mp (List.pairwise_append.mp hordered.apart).2.1).1
          seg List.mem_cons_self
      obtain ⟨hcoalesced, hbelow⟩ := List.pairwise_cons.mp h.coalesced
      by_cases htouch : last.id = seg.id ∧ last.stop + 1 = seg.start
      · rw [mergeSegment, if_pos htouch]
        have hjoin : ∀ a, (last.start ≤ a ∧ a ≤ seg.stop) ↔
            ((last.start ≤ a ∧ a ≤ last.stop) ∨ (seg.start ≤ a ∧ a ≤ seg.stop)) := by
          intro a
          have hnext := htouch.2
          bv_omega
        refine ⟨⟨?_, List.pairwise_cons.mpr ⟨hcoalesced, hbelow⟩⟩, ?_⟩
        · have := hordered.join
            (m := { last with stop := seg.stop }) rfl rfl
          simpa using this
        · intro id a
          simp only [OwnedBy, List.reverse_cons, List.append_assoc,
            List.singleton_append, List.mem_append, List.mem_cons,
            or_and_right, exists_or, exists_eq_left, hjoin, htouch.1, or_assoc]
      · rw [mergeSegment, if_neg htouch]
        refine ⟨⟨by simpa using hordered,
          List.pairwise_cons.mpr ⟨?_, h.coalesced⟩⟩, fun id a => by simp [OwnedBy]⟩
        intro lower hlower
        rcases List.mem_cons.mp hlower with rfl | hmem
        · exact fun hid hcov => htouch ⟨hid, Cidr.add_one_eq_of_covBy hcov⟩
        · have hbetween : lower.stop < last.start :=
            (List.pairwise_append.mp hordered.apart).2.2 lower
              (List.mem_reverse.mpr hmem) last List.mem_cons_self
          exact fun _ hcov => hcov.2 hbetween (hlast.trans_lt hgap)

theorem foldl_mergeSegment {stack rest : List Segment}
    (h : SegmentMerge stack rest) :
    SegmentMerge (rest.foldl mergeSegment stack) [] ∧
      ∀ id a, OwnedBy (rest.foldl mergeSegment stack).reverse id a ↔
        OwnedBy (stack.reverse ++ rest) id a := by
  induction rest generalizing stack with
  | nil => exact ⟨h, by simp⟩
  | cons seg rest ih =>
      obtain ⟨hstep, howned⟩ := mergeSegment_spec h
      obtain ⟨hmerge, hrest⟩ := ih hstep
      exact ⟨hmerge, fun id a => (hrest id a).trans (howned id a)⟩

theorem segmentMerge_nil {segments : List Segment}
    (h : Intervals.Ordered Segment.start Segment.stop segments) :
    SegmentMerge [] segments := ⟨by simpa using h, List.Pairwise.nil⟩

theorem mergeSegments_ordered {segments : List Segment}
    (h : Intervals.Ordered Segment.start Segment.stop segments) :
    Intervals.Ordered Segment.start Segment.stop (mergeSegments segments) := by
  simpa [mergeSegments] using
    (foldl_mergeSegment (segmentMerge_nil h)).1.ordered

theorem mergeSegments_coalesced {segments : List Segment}
    (h : Intervals.Ordered Segment.start Segment.stop segments) :
    Intervals.Coalesced Segment.start Segment.stop Segment.id
      (mergeSegments segments) :=
  List.pairwise_reverse.mpr (foldl_mergeSegment (segmentMerge_nil h)).1.coalesced

/-- Merging changes no owner. -/
theorem mergeSegments_owned {segments : List Segment}
    (h : Intervals.Ordered Segment.start Segment.stop segments) (id : UInt16)
    (a : U128) :
    OwnedBy (mergeSegments segments) id a ↔ OwnedBy segments id a := by
  simpa [mergeSegments] using
    (foldl_mergeSegment (segmentMerge_nil h)).2 id a

end Identity

end Ppv2Auth
