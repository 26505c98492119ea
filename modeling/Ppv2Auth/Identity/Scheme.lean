/-
What a header is encoded against: the sites and the flat indices that site
matching runs on.  The indices are private to the constructor, so a scheme
carries their shape.
-/
import Ppv2Auth.Identity.Sweep

namespace Ppv2Auth

namespace Identity

open Rust

/-- The /48 prefix all synthesized addresses share. -/
abbrev Prefix := Octets 6

structure Scheme where
  pfx : Prefix
  /-- Kept for declarations; matching uses the indices below. -/
  sites : List Site
  vpceIndex : Std.TreeMap Bytes UInt16
  segments : List Segment
  ordered : Intervals.Ordered Segment.start Segment.stop segments
  coalesced : Intervals.Coalesced Segment.start Segment.stop Segment.id segments

/-- One listing of a label: the same site twice is harmless, a second site is
a contest. -/
def listLabel (index : Std.TreeMap Bytes UInt16) (id : UInt16) (label : Bytes) :
    Std.TreeMap Bytes UInt16 :=
  match index[label]? with
  | none => index.insert label id
  | some owner =>
      if owner ≠ id ∧ owner ≠ siteContested then
        index.insert label siteContested
      else index

def labelIndex (sites : List Site) : Std.TreeMap Bytes UInt16 :=
  sites.foldl (fun index site => site.vpce.foldl (listLabel · site.id) index) ∅

def Scheme.new (pfx : Prefix) (sites : List Site) : Scheme :=
  let sites := sites.insertionSort fun s t => s.id.toNat ≤ t.id.toNat
  { pfx
    sites
    vpceIndex := labelIndex sites
    segments := mergeSegments (sweep (sortedEvents sites))
    ordered := mergeSegments_ordered (sweep_ordered (sortedEvents_pairwise_pos sites))
    coalesced :=
      mergeSegments_coalesced (sweep_ordered (sortedEvents_pairwise_pos sites)) }

/-- The site whose space this address synthesizes into. -/
def Scheme.addrSite (sch : Scheme) (addr : U128) : Option UInt16 :=
  match Intervals.floor Segment.start sch.segments addr with
  | some seg => if addr ≤ seg.stop then some seg.id else none
  | none => none

/-- The site owning every address of a range, by the one segment that has to
cover it all. -/
def Scheme.rangeSite (sch : Scheme) (start stop : U128) : Option UInt16 :=
  match Intervals.floor Segment.start sch.segments start with
  | some seg => if stop ≤ seg.stop then some seg.id else none
  | none => none

def Scheme.labelSite (sch : Scheme) (label : Bytes) : Option UInt16 :=
  sch.vpceIndex[label]?

theorem Scheme.addrSite_eq_some_iff (sch : Scheme) (a : U128) (id : UInt16) :
    sch.addrSite a = some id ↔ OwnedBy sch.segments id a := by
  constructor
  · intro h
    unfold addrSite at h
    cases hfloor : Intervals.floor Segment.start sch.segments a with
    | none => simp [hfloor] at h
    | some seg =>
        obtain ⟨hmem, hlo⟩ := Intervals.mem_of_floor hfloor
        simp only [hfloor, Option.ite_none_right_eq_some, Option.some.injEq] at h
        exact ⟨seg, hmem, ⟨hlo, h.1⟩, h.2⟩
  · rintro ⟨seg, hmem, ⟨hlo, hhi⟩, hid⟩
    simp [addrSite, sch.ordered.floor_of_mem hmem hlo hhi, hhi, hid]

/-- One segment covers the range exactly when every address in it has that
owner: coalescing leaves no two touching segments of one site. -/
theorem Scheme.rangeSite_iff_forall_addrSite (sch : Scheme) {start stop : U128}
    (hle : start ≤ stop) (id : UInt16) :
    sch.rangeSite start stop = some id ↔
      ∀ a, start ≤ a → a ≤ stop → sch.addrSite a = some id := by
  constructor
  · intro h a hlo hhi
    unfold rangeSite at h
    cases hfloor : Intervals.floor Segment.start sch.segments start with
    | none => simp [hfloor] at h
    | some seg =>
        obtain ⟨hmem, hseg⟩ := Intervals.mem_of_floor hfloor
        simp only [hfloor, Option.ite_none_right_eq_some, Option.some.injEq] at h
        exact (sch.addrSite_eq_some_iff a id).mpr
          ⟨seg, hmem, ⟨hseg.trans hlo, hhi.trans h.1⟩, h.2⟩
  · intro hall
    obtain ⟨seg, hmem, hlo, hhi, hid⟩ :=
      sch.ordered.exists_item_of_forall sch.coalesced hle fun a hlo hhi =>
        (sch.addrSite_eq_some_iff a id).mp (hall a hlo hhi)
    simp [rangeSite, sch.ordered.floor_of_mem hmem hlo (hle.trans hhi), hhi, hid]

/-- Whole-range ownership is exact: one site when every address of the range
is that site's, and none as soon as one address is nobody's or two addresses
differ. -/
theorem Scheme.rangeSite_exact (pfx : Prefix) (sites : List Site)
    {start stop : U128} (hle : start ≤ stop) :
    (∀ id, (Scheme.new pfx sites).rangeSite start stop = some id ↔
      ∀ a, start ≤ a → a ≤ stop →
        (Scheme.new pfx sites).addrSite a = some id) ∧
    ((Scheme.new pfx sites).rangeSite start stop = none ↔
      (∃ a, start ≤ a ∧ a ≤ stop ∧
        (Scheme.new pfx sites).addrSite a = none) ∨
      ∃ a b, (start ≤ a ∧ a ≤ stop) ∧ (start ≤ b ∧ b ≤ stop) ∧
        (Scheme.new pfx sites).addrSite a ≠ (Scheme.new pfx sites).addrSite b) := by
  generalize Scheme.new pfx sites = sch
  have hsome := fun id => sch.rangeSite_iff_forall_addrSite hle id
  constructor
  · exact hsome
  constructor
  · intro hnone
    by_contra hone
    push Not at hone
    obtain ⟨howned, hsame⟩ := hone
    obtain ⟨id, hid⟩ := Option.ne_none_iff_exists'.mp (howned start le_rfl hle)
    have hall : sch.rangeSite start stop = some id := by
      rw [hsome]
      intro a hlo hhi
      rw [← hid]
      exact hsame a start ⟨hlo, hhi⟩ ⟨le_rfl, hle⟩
    simp [hnone] at hall
  · intro hpart
    by_contra hid
    obtain ⟨id, hid⟩ := Option.ne_none_iff_exists'.mp hid
    have hall := (hsome id).mp hid
    rcases hpart with ⟨a, hlo, hhi, hnone⟩ | ⟨a, b, ha, hb, hne⟩
    · simp [hall a hlo hhi] at hnone
    · exact hne ((hall a ha.1 ha.2).trans (hall b hb.1 hb.2).symm)

namespace SchemeWitness

def pfx : Prefix := ⟨[0xfd, 0x00, 0x00, 0x00, 0x00, 0x17], rfl⟩

/-- One site under two entries whose ranges touch. -/
def fragments : List Site :=
  [⟨1, [], Cidr.Set.ofRanges [⟨2, 2, le_rfl⟩]⟩,
    ⟨1, [], Cidr.Set.ofRanges [⟨3, 3, le_rfl⟩]⟩]

theorem rangeSite_exact_fragments :
    (Scheme.new pfx fragments).addrSite 2 = some 1 ∧
      (Scheme.new pfx fragments).addrSite 3 = some 1 := by
  have hall := ((@Scheme.rangeSite_exact pfx fragments 2 3 (by decide)).1 1).mp
    (by decide +kernel)
  exact ⟨hall 2 le_rfl (by decide), hall 3 (by decide) le_rfl⟩

end SchemeWitness

end Identity

end Ppv2Auth
