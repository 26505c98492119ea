/-
What more sites change.  The scan over the sites is a join of their claims, so
a scheme with further sites answers each lookup with the old answer joined with
that of the new sites: what they do not name stays, and a claimed source is
never handed to them.
-/
import Ppv2Auth.Identity.Meeting
import Ppv2Auth.Identity.Refinement
import Ppv2Auth.Support.Contest

namespace Ppv2Auth

namespace Identity

open Rust Contest

theorem relist_eq_join (answer : Option UInt16) (id : UInt16) :
    relist answer id = join siteContested answer (some id) := by
  cases answer with
  | none => rfl
  | some owner =>
      by_cases hid : owner = id
      · simp [relist, hid]
      · by_cases hzero : owner = siteContested <;> simp [relist, join_some_some, hid, hzero]

theorem contest_eq_joinAll (ids : List UInt16) :
    contest ids.dedup = joinAll siteContested ids := by
  induction ids using List.reverseRecOn with
  | nil => rfl
  | append_singleton ids id ih => simp [contest_concat, ih, relist_eq_join, joinAll_append, joinAll]

section Scan

variable {sites sites' news : List Site} {claims : Site → Bool}

theorem scan_eq_joinAll : scan sites claims =
    joinAll siteContested ((sites.filter claims).map Site.id) :=
  contest_eq_joinAll _

theorem scan_grows (hmem : ∀ s, s ∈ sites' ↔ s ∈ sites ∨ s ∈ news) :
    scan sites' claims = join siteContested (scan sites claims) (scan news claims) := by
  have hsites : scan sites claims = _ := scan_eq_joinAll
  have hnews : scan news claims = _ := scan_eq_joinAll
  rw [hsites, hnews, ← joinAll_append, ← contest_eq_joinAll]
  refine contest_dedup_congr fun id => ?_
  simp only [List.mem_append, List.mem_map, List.mem_filter, hmem, or_and_right, exists_or]

theorem scan_eq_none_iff : scan sites claims = none ↔ ∀ s ∈ sites, claims s = false := by
  rw [scan_eq_joinAll, joinAll_eq_none_iff, List.map_eq_nil_iff, List.filter_eq_nil_iff]
  simp

/-- Some site claims what the scan answers for; the answer is its id unless
another claims it too. -/
theorem exists_of_scan {id : UInt16} (hscan : scan sites claims = some id) :
    ∃ s ∈ sites, claims s = true ∧ (id = siteContested ∨ id = s.id) := by
  have hanswer := hscan
  rw [scan_eq_joinAll] at hanswer
  rcases eq_or_mem_of_joinAll siteContested hanswer with hzero | hmem
  · by_contra hnobody
    push Not at hnobody
    have hnone : scan sites claims = none := by
      rw [scan_eq_none_iff]
      intro s hs
      by_contra hclaims
      exact (hnobody s hs (by simpa using hclaims)).1 hzero
    rw [hnone] at hscan
    cases hscan
  · obtain ⟨s, hs, hid⟩ := List.mem_map.mp hmem
    obtain ⟨hsite, hclaims⟩ := List.mem_filter.mp hs
    exact ⟨s, hsite, hclaims, Or.inr hid.symm⟩

end Scan

/-- Every lookup joins the old answer with that of the new sites. -/
structure Scheme.Grows (sch sch' : Scheme) (news : List Site) : Prop where
  pfx : sch'.pfx = sch.pfx
  sites : ∀ s, s ∈ sch'.sites ↔ s ∈ sch.sites ∨ s ∈ news
  label : ∀ text, sch'.labelSite text =
    join siteContested (sch.labelSite text) (scan news fun s => text ∈ s.vpce)
  addr : ∀ a, sch'.addrSite a =
    join siteContested (sch.addrSite a) (scan news fun s => s.cidrs.contains a)

theorem covering_le_length (sites : List Site) (id : UInt16) (a : U128) :
    covering sites id a ≤ sites.length := List.countP_le_length

theorem grows_new (pfx : Prefix) {sites sites' news : List Site}
    (hmem : ∀ s, s ∈ sites' ↔ s ∈ sites ∨ s ∈ news)
    (hfew : sites.length < 2 ^ 32) (hfew' : sites'.length < 2 ^ 32) :
    (Scheme.new pfx sites).Grows (Scheme.new pfx sites') news where
  pfx := rfl
  sites s := by
    rw [(new_sites_perm pfx sites).mem_iff, (new_sites_perm pfx sites').mem_iff]
    exact hmem s
  label text := by
    rw [labelSite_eq_scan, labelSite_eq_scan]
    exact scan_grows hmem
  addr a := by
    rw [addrSite_eq_scan fun id a => (covering_le_length sites id a).trans_lt hfew,
      addrSite_eq_scan fun id a => (covering_le_length sites' id a).trans_lt hfew']
    exact scan_grows hmem

/-- A site claims the endpoint id of a header or its source. -/
def Site.Names (site : Site) (h : Ppv2.Header) : Prop :=
  (h.vpce ≠ [] ∧ h.vpce ∈ site.vpce) ∨ site.cidrs.contains (mapped h) = true

/-- The site of the endpoint id, if the header has one. -/
def endpointSite (sch : Scheme) (h : Ppv2.Header) : Option UInt16 :=
  if h.vpce ≠ [] then sch.labelSite h.vpce else none

theorem siteOf_eq (sch : Scheme) (h : Ppv2.Header) :
    siteOf sch h = ((endpointSite sch h).map fun id => ⟨id, true⟩).or
      ((sch.addrSite (mapped h)).map fun id => ⟨id, false⟩) := by
  unfold siteOf endpointSite
  cases (if h.vpce ≠ [] then sch.labelSite h.vpce else none) with
  | none => rfl
  | some id => rfl

section Grown

variable {sch sch' : Scheme} {news : List Site} {h : Ppv2.Header}

/-- The new sites that list the endpoint id of the header. -/
def newEndpoint (news : List Site) (h : Ppv2.Header) : Option UInt16 :=
  if h.vpce ≠ [] then scan news fun s => s.vpce.contains h.vpce else none

theorem Scheme.Grows.endpoint (hgrows : sch.Grows sch' news) (h : Ppv2.Header) :
    endpointSite sch' h =
      join siteContested (endpointSite sch h) (newEndpoint news h) := by
  unfold endpointSite newEndpoint
  simp only [List.contains_eq_mem]
  split
  · exact hgrows.label h.vpce
  · rfl

theorem newEndpoint_eq_none (hnot : ∀ s ∈ news, ¬ s.Names h) : newEndpoint news h = none := by
  unfold newEndpoint
  split
  · next hvpce =>
      rw [scan_eq_none_iff]
      intro s hs
      simpa using fun hlists => hnot s hs (Or.inl ⟨hvpce, hlists⟩)
  · rfl

theorem exists_of_newEndpoint {id : UInt16} (hnew : newEndpoint news h = some id) :
    ∃ s ∈ news, h.vpce ≠ [] ∧ h.vpce ∈ s.vpce ∧ (id = siteContested ∨ id = s.id) := by
  unfold newEndpoint at hnew
  split at hnew
  · next hvpce =>
      obtain ⟨s, hs, hlists, hid⟩ := exists_of_scan hnew
      exact ⟨s, hs, hvpce, by simpa using hlists, hid⟩
  · cases hnew

/-- Headers that no new site names keep their site. -/
theorem Scheme.Grows.siteOf_of_not_names (hgrows : sch.Grows sch' news)
    (hnot : ∀ s ∈ news, ¬ s.Names h) : siteOf sch' h = siteOf sch h := by
  have haddr : (scan news fun s => s.cidrs.contains (mapped h)) = none := by
    rw [scan_eq_none_iff]
    intro s hs
    simpa using fun hclaims => hnot s hs (Or.inr hclaims)
  rw [siteOf_eq, siteOf_eq, hgrows.endpoint, hgrows.addr, newEndpoint_eq_none hnot, haddr,
    join_none_right, join_none_right]

theorem Scheme.Grows.synthesize_of_not_names [Sha256] (hgrows : sch.Grows sch' news)
    (hnot : ∀ s ∈ news, ¬ s.Names h) : synthesize sch' h = synthesize sch h := by
  simp only [synthesize, hgrows.siteOf_of_not_names hnot, hgrows.pfx]

/-- A header that has a site keeps it, is contested, or is claimed by an
endpoint id where before its source decided. -/
theorem Scheme.Grows.siteOf_of_some (hgrows : sch.Grows sch' news) {m : SiteMatch}
    (hsite : siteOf sch h = some m) :
    siteOf sch' h = some m ∨ siteOf sch' h = some ⟨siteContested, m.inner⟩ ∨
      (m.inner = false ∧ ∃ id, newEndpoint news h = some id ∧
        siteOf sch' h = some ⟨id, true⟩) := by
  rw [siteOf_eq] at hsite
  rw [siteOf_eq, hgrows.endpoint, hgrows.addr]
  cases hendpoint : endpointSite sch h with
  | some id =>
      rw [hendpoint] at hsite
      cases hsite
      rcases join_of_some siteContested id (newEndpoint news h) with hkeep | hcontest
      · exact Or.inl (by rw [hkeep]; rfl)
      · exact Or.inr (Or.inl (by rw [hcontest]; rfl))
  | none =>
      rw [hendpoint] at hsite
      obtain ⟨id, haddr, rfl⟩ := Option.map_eq_some_iff.mp hsite
      rw [join_none_left, haddr]
      cases hnew : newEndpoint news h with
      | some id' => exact Or.inr (Or.inr ⟨rfl, id', rfl, rfl⟩)
      | none =>
          rcases join_of_some siteContested id
            (scan news fun s => s.cidrs.contains (mapped h)) with hkeep | hcontest
          · exact Or.inl (by rw [hkeep]; rfl)
          · exact Or.inr (Or.inl (by rw [hcontest]; rfl))

/-- A header without a site has one afterwards only if a new site names it. -/
theorem Scheme.Grows.siteOf_of_none (hgrows : sch.Grows sch' news)
    (hsite : siteOf sch h = none) {m : SiteMatch} (hsite' : siteOf sch' h = some m) :
    ∃ s ∈ news, s.Names h ∧ (m.id = siteContested ∨ m.id = s.id) := by
  rw [siteOf_eq, Option.or_eq_none_iff, Option.map_eq_none_iff, Option.map_eq_none_iff] at hsite
  rw [siteOf_eq, hgrows.endpoint, hgrows.addr, hsite.1, hsite.2, join_none_left,
    join_none_left] at hsite'
  cases hnew : newEndpoint news h with
  | some id =>
      rw [hnew] at hsite'
      cases hsite'
      obtain ⟨s, hs, hvpce, hlists, hid⟩ := exists_of_newEndpoint hnew
      exact ⟨s, hs, Or.inl ⟨hvpce, hlists⟩, hid⟩
  | none =>
      rw [hnew] at hsite'
      obtain ⟨id, hscan, rfl⟩ := Option.map_eq_some_iff.mp hsite'
      obtain ⟨s, hs, hclaims, hid⟩ := exists_of_scan hscan
      exact ⟨s, hs, Or.inr hclaims, hid⟩

/-- An id that is neither the quarantine nor new was there before. -/
theorem eq_some_of_join {x : Option UInt16} {claims : Site → Bool} {id : UInt16}
    (hjoin : join siteContested x (scan news claims) = some id) (hzero : id ≠ siteContested)
    (hold : ∀ s ∈ news, s.id ≠ id) : x = some id := by
  cases x with
  | none =>
      obtain ⟨s, hs, -, hid⟩ := exists_of_scan hjoin
      rcases hid with hid | hid
      · exact absurd hid hzero
      · exact absurd hid.symm (hold s hs)
  | some a =>
      rcases join_of_some siteContested a (scan news claims) with hkeep | hcontest
      · exact hkeep.symm.trans hjoin
      · rw [hcontest, Option.some.injEq] at hjoin
        exact absurd hjoin.symm hzero

end Grown

end Identity

end Ppv2Auth
