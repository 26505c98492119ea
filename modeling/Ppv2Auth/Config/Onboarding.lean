/-
A source in the sites map and the same source in a rule.  The loader and the
encoder read it alike, so an uncontested source encodes as its site and the
packets that carry it land in that site's space.
-/
import Ppv2Auth.Config.Expansion
import Ppv2Auth.Config.Keys
import Ppv2Auth.Identity.Refinement

namespace Ppv2Auth

namespace Onboarding

open Rust Identity BitPrefix Loading Expansion

/-- The entries of one site id list a source. -/
def ListedUnder (raw : Std.TreeMap Bytes (List Bytes)) (id : UInt16)
    (source : Bytes) : Prop :=
  ∃ key sources, raw[key]? = some sources ∧ parseU16 key = some id ∧
    source ∈ kept sources

/-- One label, or two ranges with an address in common. -/
def Overlaps (source source' : Bytes) : Prop :=
  source = source' ∨ ∃ a, InSource source a ∧ InSource source' a

/-- No other site id lists the same label or a range that overlaps. -/
def Uncontested (raw : Std.TreeMap Bytes (List Bytes)) (id : UInt16)
    (source : Bytes) : Prop :=
  ∀ id' source', ListedUnder raw id' source' → Overlaps source source' → id' = id

/-- A key that is no integer in `1..=65535`. -/
def BadKey (key : Bytes) : Prop :=
  ¬ ∃ n, IsDecimal key n ∧ 1 ≤ n ∧ n ≤ 65535

/-- The header names a label, or comes from a range without naming one. -/
def Carries (h : Ppv2.Header) (source : Bytes) : Prop :=
  (IsLabel source ∧ h.vpce = source) ∨ (h.vpce = [] ∧ InSource source (mapped h))

/-- In rules and on the wire a source is the tenant. -/
structure Meets [Sha256] (sch : Scheme) (id : UInt16) (source : Bytes) : Prop where
  encoded : encodeMember sch source = siteSpace sch.pfx id
  synthesized : ∀ h, Carries h source →
    InSiteSpace sch.pfx id (toU128 (synthesize sch h))

section Loaded

variable {raw : Std.TreeMap Bytes (List Bytes)} {sites : List Site}
  {id : UInt16} {source : Bytes}

theorem ne_nil_of_mem_kept {sources : List Bytes} (h : source ∈ kept sources) :
    source ≠ [] := by
  simpa using (List.mem_filter.mp h).2

theorem exists_entry (hsites : buildSites raw = .ok sites) {site : Site}
    (hsite : site ∈ sites) :
    ∃ key sources, raw[key]? = some sources ∧ Onboards key sources site := by
  obtain ⟨entry, hentry, hbuild⟩ := (mem_of_mapM hsites).mp hsite
  exact ⟨entry.1, entry.2, Std.TreeMap.mem_toList_iff_getElem?_eq_some.mp hentry,
    (onboards_of_buildSite hbuild).1⟩

theorem exists_site (hsites : buildSites raw = .ok sites)
    (hlisted : ListedUnder raw id source) :
    ∃ key sources, ∃ site ∈ sites, Onboards key sources site ∧ site.id = id ∧
      source ∈ kept sources := by
  obtain ⟨key, sources, hentry, hkey, hsource⟩ := hlisted
  have hmem := Std.TreeMap.mem_toList_iff_getElem?_eq_some.mpr hentry
  obtain ⟨site, hbuild⟩ := exists_mapM_iff.mp ⟨sites, hsites⟩ (key, sources) hmem
  have honboards := (onboards_of_buildSite hbuild).1
  refine ⟨key, sources, site, (mem_of_mapM hsites).mpr ⟨_, hmem, hbuild⟩,
    honboards, ?_, hsource⟩
  exact Option.some.inj (honboards.id.symm.trans hkey)

/-- The sites that list a label are the listing's. -/
theorem scan_label (hsites : buildSites raw = .ok sites)
    (hlisted : ListedUnder raw id source) (hlabel : IsLabel source)
    (hown : Uncontested raw id source) :
    scan sites (fun s => source ∈ s.vpce) = some id := by
  apply contest_dedup_single
  · obtain ⟨key, sources, site, hsite, honboards, rfl, hsource⟩ :=
      exists_site hsites hlisted
    have hvpce : source ∈ site.vpce := by
      rw [honboards.vpce]
      exact List.mem_filter.mpr ⟨hsource, by simpa using hlabel⟩
    exact List.mem_map.mpr ⟨site, List.mem_filter.mpr ⟨hsite, by simpa using hvpce⟩, rfl⟩
  · intro id' hid'
    obtain ⟨site, hsite, rfl⟩ := List.mem_map.mp hid'
    obtain ⟨hsite, hvpce⟩ := List.mem_filter.mp hsite
    obtain ⟨key, sources, hentry, honboards⟩ := exists_entry hsites hsite
    rw [honboards.vpce] at hvpce
    have hsource : source ∈ kept sources := by simp_all
    exact hown site.id source ⟨key, sources, hentry, honboards.id, hsource⟩ (Or.inl rfl)

/-- The sites over an address of a range are the listing's. -/
theorem scan_range (hsites : buildSites raw = .ok sites)
    (hlisted : ListedUnder raw id source) (hown : Uncontested raw id source)
    {a : U128} (ha : InSource source a) :
    scan sites (fun s => s.cidrs.contains a) = some id := by
  apply contest_dedup_single
  · obtain ⟨key, sources, site, hsite, honboards, rfl, hsource⟩ :=
      exists_site hsites hlisted
    have hin := (honboards.cidrs a).mpr ⟨source, hsource, ha⟩
    exact List.mem_map.mpr ⟨site, List.mem_filter.mpr ⟨hsite, hin⟩, rfl⟩
  · intro id' hid'
    obtain ⟨site, hsite, rfl⟩ := List.mem_map.mp hid'
    obtain ⟨hsite, hin⟩ := List.mem_filter.mp hsite
    obtain ⟨key, sources, hentry, honboards⟩ := exists_entry hsites hsite
    obtain ⟨source', hsource', ha'⟩ := (honboards.cidrs a).mp hin
    exact hown site.id source' ⟨key, sources, hentry, honboards.id, hsource'⟩
      (Or.inr ⟨a, ha, ha'⟩)

end Loaded

section Meeting

variable {sch : Scheme} {id : UInt16} {source : Bytes}

theorem siteRef_eq_none (h : source.head? ≠ some 33) : siteRef sch source = none := by
  rw [Option.eq_none_iff_forall_ne_some]
  intro id href
  obtain ⟨number, rfl, -⟩ := siteRef_eq_some_iff.mp href
  exact h rfl

variable [Sha256]

theorem encodeMember_of_site (h : Reads sch source (.site id)) :
    encodeMember sch source = siteSpace sch.pfx id := by
  rw [encodeMember_of_reads h, siteSpace_eq]
  rfl

theorem inSiteSpace_of_siteOf {h : Ppv2.Header} {inner : Bool}
    (hsite : siteOf sch h = some ⟨id, inner⟩) :
    InSiteSpace sch.pfx id (toU128 (synthesize sch h)) := by
  rw [synthesize_of_site hsite, InSiteSpace, agree_96_assemble_iff]
  exact ⟨rfl, rfl, rfl⟩

/-- A listed label is read as its site, and found first on every packet. -/
theorem meets_of_label (hbang : source.head? ≠ some 33) (hne : source ≠ [])
    (hlabel : IsLabel source) (hlisted : sch.labelSite source = some id) :
    Meets sch id source := by
  constructor
  · apply encodeMember_of_site
    exact .listed (siteRef_eq_none hbang) hlabel.1 hlabel.2 hlisted
  · rintro h (⟨-, rfl⟩ | ⟨-, hin⟩)
    · have hsite : siteOf sch h = some ⟨id, true⟩ := by simp [siteOf, hne, hlisted]
      exact inSiteSpace_of_siteOf hsite
    · simp [InSource, hlabel.1, hlabel.2] at hin

/-- A range that is one site's everywhere is read as the site. -/
theorem meets_of_range (hrange : ¬ IsLabel source)
    (hsite : ∀ a, InSource source a → sch.addrSite a = some id) :
    Meets sch id source := by
  constructor
  · apply encodeMember_of_site
    cases hv4 : v4Member source with
    | some parts => exact .v4Owned hv4 fun a ha => hsite a (Or.inl ⟨_, _, hv4, ha⟩)
    | none =>
        cases hv6 : v6Member source with
        | some parts => exact .v6Owned hv6 fun a ha => hsite a (Or.inr ⟨_, _, hv6, ha⟩)
        | none => exact absurd ⟨hv4, hv6⟩ hrange
  · rintro h (⟨hlabel, -⟩ | ⟨hvpce, hin⟩)
    · exact absurd hlabel hrange
    · have hmatch : siteOf sch h = some ⟨id, false⟩ := by
        simp [siteOf, hvpce, hsite _ hin]
      exact inSiteSpace_of_siteOf hmatch

end Meeting

theorem badKey_of_onboards {key : Bytes} {sources : List Bytes} {site : Site}
    (h : Onboards key sources site) : ¬ BadKey key := by
  intro hbad
  have hdecimal := isDecimal_of_parseU16 h.id
  have hpos : site.id.toNat ≠ 0 := fun hzero =>
    h.declared (UInt16.toNat_inj.mp hzero)
  have hlt := site.id.toNat_lt
  exact hbad ⟨site.id.toNat, hdecimal, by omega, by omega⟩

theorem sound_of_buildSites {raw : Std.TreeMap Bytes (List Bytes)}
    {sites : List Site} (hsites : buildSites raw = .ok sites) {key : Bytes}
    {sources : List Bytes} (hentry : raw[key]? = some sources) :
    ¬ BadKey key ∧ ∀ s ∈ kept sources, ¬ BadWidth s := by
  have hmem := Std.TreeMap.mem_toList_iff_getElem?_eq_some.mpr hentry
  obtain ⟨site, hbuild⟩ := exists_mapM_iff.mp ⟨sites, hsites⟩ (key, sources) hmem
  obtain ⟨honboards, hall⟩ := onboards_of_buildSite hbuild
  constructor
  · exact badKey_of_onboards honboards
  · intro s hs
    obtain ⟨c, hc, hreads⟩ := hall s hs
    exact not_badWidth_of_classify hc hreads

/-- A listed source means its tenant to both readers: an accepted map gives
every entry a site with exactly its sources, an uncontested source encodes as
its site and every packet that carries it lands there.  Maps with a bad key or
a bad width do not load.  The reader spells every key out of the text, and the
text is one that fits an address space. -/
theorem listed_source_meets [Sha256] {fromStr : Bytes → Except String RawTable}
    (hreader : SpellsKeys fromStr) {text : Bytes} (htext : text.length < 2 ^ 62)
    {raw : RawTable} (hraw : fromStr text = .ok raw) :
    (∀ t, parseTable fromStr text = .ok t →
      (∃ sites, sites.Perm t.scheme.sites ∧ List.Forall₂
        (fun entry site => Onboards entry.1 entry.2 site) raw.sites.toList sites) ∧
      ∀ id source, ListedUnder raw.sites id source → source.head? ≠ some 33 →
        Uncontested raw.sites id source → Meets t.scheme id source) ∧
    ((∃ key sources, raw.sites[key]? = some sources ∧
        (BadKey key ∨ ∃ s ∈ kept sources, BadWidth s)) →
      ∃ e, parseTable fromStr text = .error e) := by
  constructor
  · intro t hload
    obtain ⟨raw', pfx, sites, hraw', -, hsites, rfl⟩ := parseTable_eq_ok_iff.mp hload
    obtain rfl : raw' = raw := Except.ok.inj (hraw'.symm.trans hraw)
    refine ⟨⟨sites, (new_sites_perm pfx sites).symm, onboards_of_buildSites hsites⟩, ?_⟩
    intro id source hlisted hbang hown
    by_cases hlabel : IsLabel source
    · have hne : source ≠ [] := by
        obtain ⟨key, sources, -, -, hsource⟩ := hlisted
        exact ne_nil_of_mem_kept hsource
      apply meets_of_label hbang hne hlabel
      rw [labelSite_eq_scan]
      exact scan_label hsites hlisted hlabel hown
    · apply meets_of_range hlabel
      intro a ha
      rw [addrSite_eq_scan (covering_lt_of_text hreader hraw htext hsites)]
      exact scan_range hsites hlisted hown ha
  · rintro ⟨key, sources, hentry, hbad⟩
    cases hload : parseTable fromStr text with
    | error e => exact ⟨e, rfl⟩
    | ok t =>
        obtain ⟨raw', pfx, sites, hraw', -, hsites, -⟩ := parseTable_eq_ok_iff.mp hload
        obtain rfl : raw' = raw := Except.ok.inj (hraw'.symm.trans hraw)
        obtain ⟨hkey, hwidth⟩ := sound_of_buildSites hsites hentry
        rcases hbad with hbad | ⟨s, hs, hbad⟩
        · exact absurd hbad hkey
        · exact absurd hbad (hwidth s hs)

namespace OnboardingWitness

open MeetingWitness (endpointDigest)

/-- One site with an endpoint id and half of all addresses. -/
def text : Bytes :=
  ascii "\x7b\"ula\":\"fd00:dead:beef::/48\"," ++
    ascii "\"sites\":\x7b\"1\":[\"vpce-0123456789abcdef0\",\"::/1\"]\x7d\x7d"

/-- The JSON reader as far as this text goes. -/
def reader (config : Bytes) : Except String RawTable :=
  if config = text then .ok ExpansionWitness.rawTable
  else .error "expected value at line 1 column 1"

theorem reader_text : reader text = .ok ExpansionWitness.rawTable := if_pos rfl

theorem spellsKeys_reader : SpellsKeys reader := by
  intro config raw hraw
  unfold reader at hraw
  split_ifs at hraw with hconfig
  rw [hconfig, ← Except.ok.inj hraw]
  decide +kernel

/-- The endpoint id of the one site, in rules and on packets. -/
theorem listed_source_meets_known : ∃ t, parseTable reader text = .ok t ∧
    @Meets endpointDigest t.scheme 1 (ascii "vpce-0123456789abcdef0") := by
  obtain ⟨t, hload⟩ := ExpansionWitness.exists_rawTable reader_text
  have hentries : ∀ key sources, ExpansionWitness.rawTable.sites[key]? = some sources →
      key = ascii "1" := by
    intro key sources hentry
    simp only [ExpansionWitness.rawTable, Std.TreeMap.getElem?_insert] at hentry
    split at hentry
    · next hkey => exact (Std.compare_eq_iff_eq.mp hkey).symm
    · simp at hentry
  have hshort : text.length < 2 ^ 62 := by decide +kernel
  refine ⟨t, hload, ?_⟩
  apply ((@listed_source_meets endpointDigest reader spellsKeys_reader text hshort
    _ reader_text).1 t hload).2
  · exact ⟨ascii "1", [ascii "vpce-0123456789abcdef0", ascii "::/1"], by decide +kernel,
      by decide +kernel, by decide +kernel⟩
  · decide
  · rintro id source ⟨key, sources, hentry, hkey, -⟩ -
    rw [hentries key sources hentry] at hkey
    have hone : parseU16 (ascii "1") = some 1 := by decide +kernel
    exact Option.some.inj (hkey.symm.trans hone)

end OnboardingWitness

end Onboarding

end Ppv2Auth
