/-
Onboarding more tenants.  A table whose sites map has further entries loads as
a scheme with further sites; callers the new entries do not name keep their
identities, and no rules admit one of them that they refused before.
-/
import Ppv2Auth.Config.Policy
import Ppv2Auth.Identity.Growth

namespace Ppv2Auth

namespace Growth

open Rust Identity BitPrefix Loading Expansion Contest

/-- The one map holds what the other two do; the rest of the config is kept. -/
structure Extends (raw raw' : RawTable) (added : Std.TreeMap Bytes (List Bytes)) :
    Prop where
  ula : raw'.ula = raw.ula
  groups : raw'.groups = raw.groups
  sites : ∀ (key : Bytes) (sources : List Bytes), raw'.sites[key]? = some sources ↔
    raw.sites[key]? = some sources ∨ added[key]? = some sources

theorem length_of_buildSites {raw : Std.TreeMap Bytes (List Bytes)} {sites : List Site}
    (h : buildSites raw = .ok sites) : sites.length = raw.size := by
  rw [← (onboards_of_buildSites h).length_eq, Std.TreeMap.length_toList]

theorem toList_nodup (raw : Std.TreeMap Bytes (List Bytes)) : raw.toList.Nodup :=
  Std.TreeMap.distinct_keys_toList.imp fun hne heq =>
    hne (Std.compare_eq_iff_eq.mpr (congrArg Prod.fst heq))

theorem mem_toList_extends {raw raw' : RawTable} {added : Std.TreeMap Bytes (List Bytes)}
    (hext : Extends raw raw' added) (entry : Bytes × List Bytes) :
    entry ∈ raw'.sites.toList ↔ entry ∈ raw.sites.toList ∨ entry ∈ added.toList := by
  obtain ⟨key, sources⟩ := entry
  simp only [Std.TreeMap.mem_toList_iff_getElem?_eq_some]
  exact hext.sites key sources

section Loads

variable {fromStr : Bytes → Except String RawTable} {text text' : Bytes}
  {raw raw' : RawTable} {added : Std.TreeMap Bytes (List Bytes)} {t t' : Table}

/-- The larger table has the sites of the smaller and those of the further
entries, and nothing else changes. -/
theorem grows_of_extends (hraw : fromStr text = .ok raw) (hraw' : fromStr text' = .ok raw')
    (hext : Extends raw raw' added) (hload : parseTable fromStr text = .ok t)
    (hload' : parseTable fromStr text' = .ok t') (hfew : raw'.sites.size < 2 ^ 32) :
    ∃ news, buildSites added = .ok news ∧ t.scheme.Grows t'.scheme news ∧
      t'.groups = t.groups := by
  obtain ⟨r, pfx, sites, hr, hpfx, hsites, rfl⟩ := parseTable_eq_ok_iff.mp hload
  obtain rfl : r = raw := Except.ok.inj (hr.symm.trans hraw)
  obtain ⟨r', pfx', sites', hr', hpfx', hsites', rfl⟩ := parseTable_eq_ok_iff.mp hload'
  obtain rfl : r' = raw' := Except.ok.inj (hr'.symm.trans hraw')
  rw [hext.ula, hpfx, Except.ok.injEq] at hpfx'
  subst hpfx'
  have hentries := mem_toList_extends hext
  obtain ⟨news, hnews⟩ : ∃ news, buildSites added = .ok news := by
    apply exists_mapM_iff.mpr
    intro entry hentry
    exact exists_mapM_iff.mp ⟨sites', hsites'⟩ entry ((hentries entry).mpr (Or.inr hentry))
  have hmem : ∀ s, s ∈ sites' ↔ s ∈ sites ∨ s ∈ news := by
    intro s
    rw [mem_of_mapM hsites', mem_of_mapM hsites, mem_of_mapM hnews]
    simp only [hentries, or_and_right, exists_or]
  have hless : r.sites.size ≤ r'.sites.size := by
    have hsub : r.sites.toList ⊆ r'.sites.toList := fun entry hentry =>
      (hentries entry).mpr (Or.inl hentry)
    have hlength := (List.subperm_of_subset (toList_nodup r.sites) hsub).length_le
    rwa [Std.TreeMap.length_toList, Std.TreeMap.length_toList] at hlength
  refine ⟨news, hnews, grows_new pfx hmem ?_ ?_, by rw [hext.groups]⟩
  · rw [length_of_buildSites hsites]
    omega
  · rw [length_of_buildSites hsites']
    exact hfew

/-- Onboarding is local.  A caller no new entry names keeps its identity; one
that had a site keeps it or is contested, unless a new entry lists the endpoint
id of a caller placed by its source; and one that had none gets a site that
names it or is contested. -/
theorem onboarding_is_local [Sha256] (hraw : fromStr text = .ok raw)
    (hraw' : fromStr text' = .ok raw') (hext : Extends raw raw' added)
    (hload : parseTable fromStr text = .ok t) (hload' : parseTable fromStr text' = .ok t')
    (hfew : raw'.sites.size < 2 ^ 32) :
    ∃ news, buildSites added = .ok news ∧ ∀ h : Ppv2.Header,
      ((∀ s ∈ news, ¬ s.Names h) → synthesize t'.scheme h = synthesize t.scheme h) ∧
      (∀ m, siteOf t.scheme h = some m →
        siteOf t'.scheme h = some m ∨ siteOf t'.scheme h = some ⟨siteContested, m.inner⟩ ∨
          (m.inner = false ∧ ∃ s ∈ news, h.vpce ∈ s.vpce ∧ ∃ id,
            siteOf t'.scheme h = some ⟨id, true⟩ ∧ (id = siteContested ∨ id = s.id))) ∧
      (siteOf t.scheme h = none → ∀ m, siteOf t'.scheme h = some m →
        ∃ s ∈ news, s.Names h ∧ (m.id = siteContested ∨ m.id = s.id)) := by
  obtain ⟨news, hnews, hgrows, -⟩ := grows_of_extends hraw hraw' hext hload hload' hfew
  refine ⟨news, hnews, fun h => ⟨hgrows.synthesize_of_not_names, fun m hsite => ?_,
    fun hsite m hsite' => hgrows.siteOf_of_none hsite hsite'⟩⟩
  refine (hgrows.siteOf_of_some hsite).imp_right (Or.imp_right ?_)
  rintro ⟨hinner, id, hnew, hsite'⟩
  obtain ⟨s, hs, -, hlists, hid⟩ := exists_of_newEndpoint hnew
  exact ⟨hinner, s, hs, hlists, id, hsite', hid⟩

end Loads

/-- No site claims an address of the table's own /48. -/
def ClearPrefix (sch : Scheme) : Prop :=
  ∀ addr, InPrefix sch.pfx addr → sch.addrSite (toU128 addr) = none

/-- A caller that a growth is not about: no further entry names it or extends
the tenant it is of, and it is not quarantined. -/
structure Bystander (sch' : Scheme) (news : List Site) (h : Ppv2.Header) : Prop where
  unnamed : ∀ s ∈ news, ¬ s.Names h
  trusted : ∀ m, siteOf sch' h = some m → m.id ≠ siteContested ∧ ∀ s ∈ news, s.id ≠ m.id

section Schemes

variable {sch sch' : Scheme} {news : List Site} {id : UInt16}

theorem siteRef_of_grows (hgrows : sch.Grows sch' news) {member : Bytes}
    (href : siteRef sch' member = some id) (hold : ∀ s ∈ news, s.id ≠ id) :
    siteRef sch member = some id := by
  obtain ⟨hparse, hdeclared⟩ := Option.filter_eq_some_iff.mp href
  refine Option.filter_eq_some_iff.mpr ⟨hparse, ?_⟩
  simp only [List.any_eq_true, decide_eq_true_eq] at hdeclared ⊢
  refine hdeclared.imp_right ?_
  rintro ⟨s, hs, hid⟩
  rcases (hgrows.sites s).mp hs with hs | hs
  · exact ⟨s, hs, hid⟩
  · exact absurd hid (hold s hs)

theorem siteRef_none_of_grows (hgrows : sch.Grows sch' news) {member : Bytes}
    (href : siteRef sch' member = none) : siteRef sch member = none := by
  rw [Option.eq_none_iff_forall_ne_some] at href ⊢
  intro id hsome
  obtain ⟨hparse, hdeclared⟩ := Option.filter_eq_some_iff.mp hsome
  apply href id
  refine Option.filter_eq_some_iff.mpr ⟨hparse, ?_⟩
  simp only [List.any_eq_true, decide_eq_true_eq] at hdeclared ⊢
  refine hdeclared.imp_right ?_
  rintro ⟨s, hs, hid⟩
  exact ⟨s, (hgrows.sites s).mpr (Or.inl hs), hid⟩

theorem ownsRange_of_grows (hgrows : sch.Grows sch' news) {width : Nat} {base : U128}
    (howns : OwnsRange sch' id width base) (hzero : id ≠ siteContested)
    (hold : ∀ s ∈ news, s.id ≠ id) : OwnsRange sch id width base := by
  intro a ha
  have hjoin := howns a ha
  rw [hgrows.addr] at hjoin
  exact eq_some_of_join hjoin hzero hold

end Schemes

/-- A range with the source of a plain client in it is nobody's. -/
theorem not_ownsRange_of_v4 {sch : Scheme} {h : Ppv2.Header} {base : Octets 4} {width : Nat}
    (hwidth : width ≤ 32) (hv4 : h.isV6 = false) (hvpce : h.vpce = [])
    (hsite : siteOf sch h = none) (hagree : Agree width (quad (v4Of h.src)) (quad base))
    (id : UInt16) : ¬ OwnsRange sch id (96 + width) (toU128 (mappedV4 base)) := by
  intro howns
  have hin : Agree (96 + width) (mapped h) (toU128 (mappedV4 base)) := by
    rw [mapped, if_neg (by simp [hv4])]
    exact (agree_append_iff rfl rfl hwidth).mpr ⟨rfl, hagree⟩
  rw [siteOf_none_of_vpce_nil hvpce, howns _ hin] at hsite
  cases hsite

/-- Nobody owns a range with an identity in it that no site has. -/
theorem not_ownsRange_of_v6 [Sha256] {sch : Scheme} {h : Ppv2.Header} {base : U128}
    {width : Nat} (hclear : ClearPrefix sch)
    (hagree : Agree width (toU128 (synthesize sch h)) base) (id : UInt16) :
    ¬ OwnsRange sch id width base := by
  intro howns
  have hclaimed := howns _ hagree
  by_cases hpass : PassesThrough sch h
  · rw [synthesize_of_passesThrough hpass] at hclaimed
    obtain ⟨hsite, hvpce, hv6⟩ := hpass
    rw [siteOf_none_of_vpce_nil hvpce, mapped, if_pos hv6, hclaimed] at hsite
    cases hsite
  · rw [hclear _ (inPrefix_synthesize_iff.mpr (Or.inl hpass))] at hclaimed
    cases hclaimed

section Bystanders

variable [Sha256] {t t' : Table} {news : List Site} {h : Ppv2.Header}

/-- A meaning under the larger table that holds of a bystander is the meaning
under the smaller one. -/
theorem reads_of_grows (hgrows : t.scheme.Grows t'.scheme news)
    (hclear : ClearPrefix t.scheme) (hby : Bystander t'.scheme news h)
    {member : Bytes} {meaning : Meaning} (hreads : Reads t'.scheme member meaning)
    (hholds : meaning.Holds t'.scheme h) : Reads t.scheme member meaning := by
  cases hreads with
  | siteRef href =>
      obtain ⟨m, hsite, rfl⟩ := hholds
      exact .siteRef (siteRef_of_grows hgrows href (hby.trusted m hsite).2)
  | v4Owned hv4 howns =>
      obtain ⟨m, hsite, rfl⟩ := hholds
      obtain ⟨hzero, hold⟩ := hby.trusted m hsite
      exact .v4Owned hv4 (ownsRange_of_grows hgrows howns hzero hold)
  | v4 hv4 _ =>
      obtain ⟨hfamily, hvpce, hsite, hagree⟩ := hholds
      rw [hgrows.siteOf_of_not_names hby.unnamed] at hsite
      exact .v4 hv4 (not_ownsRange_of_v4 (v4Member_width_le hv4) hfamily hvpce hsite hagree)
  | v6Owned hv6 howns =>
      obtain ⟨m, hsite, rfl⟩ := hholds
      obtain ⟨hzero, hold⟩ := hby.trusted m hsite
      exact .v6Owned hv6 (ownsRange_of_grows hgrows howns hzero hold)
  | v6 hv6 _ =>
      have hagree : Agree _ (toU128 (synthesize t'.scheme h)) _ := hholds
      rw [hgrows.synthesize_of_not_names hby.unnamed] at hagree
      exact .v6 hv6 (not_ownsRange_of_v6 hclear hagree)
  | listed href hv4 hv6 hlisted =>
      obtain ⟨m, hsite, rfl⟩ := hholds
      obtain ⟨hzero, hold⟩ := hby.trusted m hsite
      rw [hgrows.label] at hlisted
      exact .listed (siteRef_none_of_grows hgrows href) hv4 hv6
        (eq_some_of_join hlisted hzero hold)
  | label href hv4 hv6 hlisted =>
      rw [hgrows.label, join_eq_none_iff] at hlisted
      exact .label (siteRef_none_of_grows hgrows href) hv4 hv6 hlisted.1

theorem holds_of_grows (hgrows : t.scheme.Grows t'.scheme news)
    (hby : Bystander t'.scheme news h) {meaning : Meaning} :
    meaning.Holds t'.scheme h ↔ meaning.Holds t.scheme h := by
  have hsite := hgrows.siteOf_of_not_names hby.unnamed
  have hsame := hgrows.synthesize_of_not_names hby.unnamed
  cases meaning with
  | site id => simp [Meaning.Holds, hsite]
  | v4 base width => simp [Meaning.Holds, hsite]
  | v6 base width => simp [Meaning.Holds, hsame]
  | label text => simp [Meaning.Holds, hsite]

/-- What covers a bystander under the larger table did so before. -/
theorem covers_of_grows (hgrows : t.scheme.Grows t'.scheme news)
    (hclear : ClearPrefix t.scheme) (hby : Bystander t'.scheme news h)
    {member : Bytes} (hcovers : Covers t' member h) : Covers t member h := by
  rcases hcovers with ⟨hall, m, hsite, s, hs, hid⟩ | ⟨hmember, meaning, hreads, hholds⟩
  · rcases (hgrows.sites s).mp hs with hs | hs
    · rw [hgrows.siteOf_of_not_names hby.unnamed] at hsite
      exact Or.inl ⟨hall, m, hsite, s, hs, hid⟩
    · exact absurd hid.symm ((hby.trusted m hsite).2 s hs)
  · exact Or.inr ⟨hmember, meaning, reads_of_grows hgrows hclear hby hreads hholds,
      (holds_of_grows hgrows hby).mp hholds⟩

theorem grants_of_grows (hgrows : t.scheme.Grows t'.scheme news)
    (hgroups : t'.groups = t.groups) (hclear : ClearPrefix t.scheme)
    (hby : Bystander t'.scheme news h) {raw : RawRules} {sni : Bytes}
    (hgrants : Grants raw t' sni h) : Grants raw t sni h := by
  have hallows : ∀ list, Allows t' list h → Allows t list h := by
    rintro list ⟨member, hreach, hleaf, hcovers⟩
    rw [hgroups] at hreach hleaf
    exact ⟨member, hreach, hleaf, covers_of_grows hgrows hclear hby hcovers⟩
  rcases hgrants with ⟨hflat, hallow⟩ | ⟨hscopes, hchosen, hallow⟩
  · exact .flat hflat (hallows _ hallow)
  · exact .scoped hscopes hchosen (hallows _ hallow)

/-- Onboarding widens nothing.  Rules that permit a caller under a table with
further entries permitted it under the table without them, as long as the
growth is not about that caller and no site claims an address of the /48; an
unclaimed IPv6 client inside the /48 is left out. -/
theorem onboarding_widens_nothing {fromStr : Bytes → Except String RawTable}
    {text text' : Bytes} {r r' : RawTable} {added : Std.TreeMap Bytes (List Bytes)}
    (hr : fromStr text = .ok r) (hr' : fromStr text' = .ok r') (hext : Extends r r' added)
    (hload : parseTable fromStr text = .ok t) (hload' : parseTable fromStr text' = .ok t')
    (hfew : r'.sites.size < 2 ^ 32) (hclear : ClearPrefix t.scheme)
    (hproper : PassesThrough t.scheme h → ¬ InPrefix t.scheme.pfx h.src)
    (hby : ∀ news, buildSites added = .ok news → Bystander t'.scheme news h)
    (raw : RawRules) (sni : Bytes) :
    ((Config.ofRaw raw).rules.expand (some t')).permits sni
        (toU128 (synthesize t'.scheme h)) = true →
      ((Config.ofRaw raw).rules.expand (some t)).permits sni
        (toU128 (synthesize t.scheme h)) = true := by
  obtain ⟨news, hnews, hgrows, hgroups⟩ := grows_of_extends hr hr' hext hload hload' hfew
  have hbystander := hby news hnews
  have hproper' : PassesThrough t'.scheme h → ¬ InPrefix t'.scheme.pfx h.src := by
    rw [PassesThrough, hgrows.siteOf_of_not_names hbystander.unnamed, hgrows.pfx]
    exact hproper
  rw [expand_permits_iff hproper', expand_permits_iff hproper]
  exact grants_of_grows hgrows hgroups hclear hbystander

end Bystanders

namespace GrowthWitness

open MeetingWitness (endpoint office)

attribute [local instance] MeetingWitness.endpointDigest

def tenants : Std.TreeMap Bytes (List Bytes) :=
  (∅ : Std.TreeMap Bytes (List Bytes)).insert (ascii "1") [endpoint]

def before : RawTable := ⟨ascii "fd00:dead:beef::/48", ∅, ∅⟩

def after : RawTable := { before with sites := tenants }

/-- The first text is read as the smaller table. -/
def fromStr (text : Bytes) : Except String RawTable :=
  .ok (if text = [] then before else after)

theorem fromStr_before : fromStr [] = .ok before := rfl

theorem fromStr_after : fromStr [0] = .ok after := rfl

theorem extends_after : Extends before after tenants where
  ula := rfl
  groups := rfl
  sites key sources := by simp [before, after]

def newcomer : Site := ⟨1, [endpoint], Cidr.Set.ofRanges []⟩

theorem buildSites_tenants : buildSites tenants = .ok [newcomer] := by
  have hlist : tenants.toList = [(ascii "1", [endpoint])] := by decide +kernel
  have hsite : buildSite (ascii "1") [endpoint] = .ok newcomer :=
    buildSite_eq_ok_iff.mpr ⟨1, [(endpoint, none)], _, by decide +kernel, by decide,
      by decide +kernel, rfl, rfl⟩
  rw [buildSites, hlist, mapM_eq_ok_iff]
  exact .cons hsite .nil

def small : Table := ⟨Scheme.new MeetingWitness.pfx [], Graph.default⟩

def large : Table := ⟨Scheme.new MeetingWitness.pfx [newcomer], Graph.default⟩

theorem load_small : parseTable fromStr [] = .ok small := by
  have hsites : buildSites before.sites = .ok [] := by
    have hlist : before.sites.toList = [] := by decide +kernel
    rw [buildSites, hlist]
    rfl
  exact parseTable_eq_ok_iff.mpr ⟨before, _, [], rfl, by decide +kernel, hsites, rfl⟩

theorem load_large : parseTable fromStr [0] = .ok large :=
  parseTable_eq_ok_iff.mpr ⟨after, _, [newcomer], rfl, by decide +kernel, buildSites_tenants,
    rfl⟩

theorem bystander_office : Bystander large.scheme [newcomer] office := by
  constructor
  · intro s hs
    rw [List.mem_singleton.mp hs, Site.Names]
    decide +kernel
  · have hnone : siteOf large.scheme office = none := by decide +kernel
    simp [hnone]

/-- A plain client of the office keeps its identity when a tenant is added. -/
theorem onboarding_is_local_office :
    synthesize large.scheme office = synthesize small.scheme office := by
  obtain ⟨news, hnews, hlocal⟩ := onboarding_is_local fromStr_before fromStr_after
    extends_after load_small load_large (by decide +kernel)
  rw [buildSites_tenants, Except.ok.injEq] at hnews
  subst hnews
  exact (hlocal office).1 bystander_office.unnamed

/-- What lets that client in once the tenant is there let it in before. -/
theorem onboarding_widens_nothing_office :
    ((Config.ofRaw ⟨[ascii "10.0.0.0/8"], none⟩).rules.expand (some small)).permits []
      (toU128 (synthesize small.scheme office)) = true := by
  have hafter : ((Config.ofRaw ⟨[ascii "10.0.0.0/8"], none⟩).rules.expand
      (some large)).permits [] (toU128 (synthesize large.scheme office)) = true := by
    decide +kernel
  refine onboarding_widens_nothing fromStr_before fromStr_after extends_after load_small
    load_large (by decide +kernel) ?_ ?_ ?_ _ _ hafter
  · intro addr _
    exact addrSite_eq_scan (fun id a => by simp [covering]) (toU128 addr)
  · exact fun hpass => absurd hpass.2.2 (by decide)
  · intro news hnews
    rw [buildSites_tenants, Except.ok.injEq] at hnews
    exact hnews ▸ bystander_office

end GrowthWitness

end Growth

end Ppv2Auth
