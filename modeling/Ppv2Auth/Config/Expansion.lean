/-
Expanding an allow list against a loaded table.  Whatever an author writes
compiles to texts the set builder accepts, so the set is the union of what the
literals admit one by one, and only named members reach the quarantine.
-/
import Ppv2Auth.Config.Loading
import Ppv2Auth.Graph.Reach
import Ppv2Auth.Identity.Meeting

namespace Ppv2Auth

namespace Expansion

open Rust Identity BitPrefix Loading

/-- The /96 of a site. -/
def InSiteSpace (pfx : Prefix) (id : UInt16) (a : U128) : Prop :=
  Agree 96 a (toU128 (assemble pfx kindSite (siteBody id) zeroQuad))

/-- A literal one site owns whole: an address range or a listed label. -/
def OwnsMember (sch : Scheme) (id : UInt16) (member : Bytes) : Prop :=
  (∃ base width, v4Member member = some (base, width) ∧
      OwnsRange sch id (96 + width) (toU128 (mappedV4 base))) ∨
    (∃ base width, v6Member member = some (base, width) ∧
      OwnsRange sch id width (toU128 base)) ∨
    (v4Member member = none ∧ v6Member member = none ∧
      sch.labelSite member = some id)

/-- What one literal admits. -/
def Admits [Sha256] (t : Table) (member : Bytes) (a : U128) : Prop :=
  (member = ascii "!*" ∧
      ∃ site ∈ t.scheme.sites, InSiteSpace t.scheme.pfx site.id a) ∨
    (member ≠ ascii "!*" ∧ ∃ base width,
      Cidr.Spells (encodeMember t.scheme member) base width ∧ Agree width a base)

theorem spells_cidrText {addr : Octets 16} {width : Nat} (hwidth : width ≤ 128)
    {base : U128} {bits : Nat} :
    Cidr.Spells (cidrText addr width) base bits ↔
      base = toU128 addr ∧ bits = width := by
  have hslash : (47 : UInt8) ∉ displayIpv6 addr := fun hmem =>
    slash_not_addrByte (addrByte_displayIpv6 addr 47 hmem)
  have hparse : parseU32 (decimal width) = some width :=
    parseUnsigned_decimal (by omega)
  constructor
  · rintro ⟨ipText, bitsText, ip, htext, hip, hparsed, rfl, hbits, -⟩
    have hsplit' : splitOnce 47 (ipText ++ 47 :: bitsText) =
        some (ipText, bitsText) := splitOnce_append hip
    rw [← htext, splitOnce_cidrText] at hsplit'
    simp only [Option.some.injEq, Prod.mk.injEq] at hsplit'
    obtain ⟨rfl, rfl⟩ := hsplit'
    rw [parseIpv6_displayIpv6, Option.some.injEq] at hparsed
    rw [hparse, Option.some.injEq] at hbits
    exact ⟨hparsed ▸ rfl, hbits.symm⟩
  · rintro ⟨rfl, rfl⟩
    exact ⟨displayIpv6 addr, decimal bits, addr, rfl, hslash,
      parseIpv6_displayIpv6 addr, rfl, hparse, hwidth⟩

theorem siteSpace_eq (pfx : Prefix) (id : UInt16) :
    siteSpace pfx id =
      cidrText (assemble pfx kindSite (siteBody id) zeroQuad) 96 := by
  simp [siteSpace, cidrText]

/-- Every literal compiles to prefixes as they are written. -/
theorem exists_cidrText_of_mem_encode [Sha256] {t : Table} {member text : Bytes}
    (htext : text ∈ t.encode member) :
    ∃ addr width, text = cidrText addr width ∧ width ≤ 128 := by
  unfold Table.encode at htext
  split at htext
  · obtain ⟨site, -, rfl⟩ := List.mem_map.mp htext
    exact ⟨_, 96, siteSpace_eq _ _, by omega⟩
  · rw [List.mem_singleton] at htext
    obtain ⟨m, hreads⟩ := reads_exists t.scheme member
    rw [htext, encodeMember_of_reads hreads]
    exact ⟨_, _, rfl, space_width_le hreads⟩

/-- What a literal admits is what its texts spell. -/
theorem admits_iff [Sha256] {t : Table} {member : Bytes} {a : U128} :
    Admits t member a ↔ ∃ text ∈ t.encode member, ∃ base width,
      Cidr.Spells text base width ∧ Agree width a base := by
  unfold Admits Table.encode
  by_cases hstar : member = ascii "!*"
  · rw [if_pos hstar]
    simp only [hstar, true_and, ne_eq, not_true_eq_false, false_and, or_false,
      encodeAllSites, siteSpace_eq, InSiteSpace]
    constructor
    · rintro ⟨site, hsite, hin⟩
      refine ⟨_, List.mem_map.mpr ⟨site, hsite, rfl⟩, _, 96, ?_, hin⟩
      exact (spells_cidrText (by omega)).mpr ⟨rfl, rfl⟩
    · rintro ⟨text, htext, base, width, hspells, hin⟩
      obtain ⟨site, hsite, rfl⟩ := List.mem_map.mp htext
      obtain ⟨rfl, rfl⟩ := (spells_cidrText (by omega)).mp hspells
      exact ⟨site, hsite, hin⟩
  · rw [if_neg hstar]
    simp [hstar]

section Resolve

variable [Sha256] {t : Table}

theorem exists_resolve (t : Table) (list : List Bytes) :
    ∃ set, t.resolve list = .ok set := by
  apply (Cidr.exists_buildFrom_iff _).mpr
  intro text htext tok htok
  obtain ⟨member, -, hmember⟩ := List.mem_flatMap.mp htext
  obtain ⟨addr, width, rfl, hwidth⟩ := exists_cidrText_of_mem_encode hmember
  rw [tokens_cidrText, List.mem_singleton] at htok
  exact ⟨_, _, htok ▸ (spells_cidrText hwidth).mpr ⟨rfl, rfl⟩⟩

/-- The set holds what some literal admits. -/
theorem contains_resolve_iff {list : List Bytes} {set : Cidr.Set}
    (hset : t.resolve list = .ok set) (a : U128) :
    set.contains a = true ↔
      ∃ member ∈ t.groups.resolve list, Admits t member a := by
  rw [Cidr.contains_iff_listed hset]
  simp only [Cidr.Listed, List.mem_flatMap, List.mem_singleton, forall_eq, admits_iff]
  constructor
  · rintro ⟨text, ⟨member, hlist, hmember⟩, tok, htok, hspells⟩
    obtain ⟨addr, width, rfl, -⟩ := exists_cidrText_of_mem_encode hmember
    rw [tokens_cidrText, List.mem_singleton] at htok
    exact ⟨member, hlist, _, hmember, htok ▸ hspells⟩
  · rintro ⟨member, hlist, text, hmember, hspells⟩
    obtain ⟨addr, width, rfl, -⟩ := exists_cidrText_of_mem_encode hmember
    refine ⟨_, ⟨member, hlist, hmember⟩, _, ?_, hspells⟩
    rw [tokens_cidrText]
    exact List.mem_singleton.mpr rfl

/-- Rules expand against any table, so the failure branch is never taken. -/
theorem exists_judgeAgainst (r : Rules) (t : Table) :
    ∃ j, r.judgeAgainst t = .ok j := by
  obtain ⟨allow, hallow⟩ := exists_resolve t r.rawAllow
  simp only [Rules.judgeAgainst, bind_eq_ok_iff, hallow, Except.ok.injEq,
    exists_eq_left']
  cases r.rawScopes with
  | none => exact ⟨_, rfl⟩
  | some list =>
      have hscopes : ∃ scopes, (list.mapM fun (names, raw) => do
          let allow ← t.resolve raw
          return (⟨names, allow⟩ : Scope)) = .ok scopes := by
        apply exists_mapM_iff.mpr
        rintro ⟨names, raw⟩ -
        obtain ⟨allow, hallow⟩ := exists_resolve t raw
        exact ⟨⟨names, allow⟩, bind_eq_ok_iff.mpr ⟨allow, hallow, rfl⟩⟩
      obtain ⟨scopes, hscopes⟩ := hscopes
      refine ⟨⟨allow, some scopes⟩, ?_⟩
      simp only [hscopes]
      rfl

end Resolve

theorem inSiteSpace_inj {pfx : Prefix} {id id' : UInt16} {a : U128}
    (h : InSiteSpace pfx id a) (h' : InSiteSpace pfx id' a) : id = id' :=
  siteBody_inj.mp (agree_96_assemble_iff.mp (h.symm.trans h')).2.2

/-- An assembled address of another kind is in no site's space. -/
theorem kind_eq_of_inSiteSpace {pfx : Prefix} {id kind : UInt16} {body low : Octets 4}
    {width : Nat} {a : U128} (h : InSiteSpace pfx id a)
    (hagree : Agree (96 + width) a (toU128 (assemble pfx kind body low))) :
    kindSite = kind := by
  have hwide := hagree.mono (Nat.le_add_right 96 width)
  exact (agree_96_assemble_iff.mp (h.symm.trans hwide)).2.1

/-- Only a member that names or spells it reaches the quarantine. -/
theorem quarantine_of_admits [Sha256] {t : Table} {member : Bytes} {a : U128}
    (hdeclared : ∀ site ∈ t.scheme.sites, site.id ≠ siteContested)
    (hin : InSiteSpace t.scheme.pfx siteContested a) (h : Admits t member a) :
    member ≠ ascii "!*" ∧
      (siteRef t.scheme member = some siteContested ∨
        OwnsMember t.scheme siteContested member ∨
        ∃ base width, v6Member member = some (base, width) ∧
          Agree width a (toU128 base)) := by
  obtain ⟨hsv, hsa, -⟩ := kinds_apart
  rcases h with ⟨-, site, hsite, hspace⟩ | ⟨hstar, base, width, hspells, hagree⟩
  · exact absurd (inSiteSpace_inj hspace hin) (hdeclared site hsite)
  · refine ⟨hstar, ?_⟩
    obtain ⟨m, hreads⟩ := reads_exists t.scheme member
    rw [encodeMember_of_reads hreads, spells_cidrText (space_width_le hreads)] at hspells
    obtain ⟨rfl, rfl⟩ := hspells
    -- A meaning that is a site is site 0.
    have hsite : ∀ id, InSiteSpace t.scheme.pfx id a → id = siteContested :=
      fun id hspace => inSiteSpace_inj hspace hin
    cases hreads with
    | siteRef href =>
        left
        exact hsite _ hagree ▸ href
    | v4Owned hv4 howns =>
        right
        left
        exact Or.inl ⟨_, _, hv4, hsite _ hagree ▸ howns⟩
    | v4 hv4 => exact absurd (kind_eq_of_inSiteSpace hin hagree) hsa
    | v6Owned hv6 howns =>
        right
        left
        exact Or.inr (Or.inl ⟨_, _, hv6, hsite _ hagree ▸ howns⟩)
    | v6 hv6 =>
        right
        right
        exact ⟨_, _, hv6, hagree⟩
    | listed _ hv4 hv6 hlisted =>
        right
        left
        exact Or.inr (Or.inr ⟨hv4, hv6, hsite _ hagree ▸ hlisted⟩)
    | label _ _ _ =>
        have hwide : Agree (96 + 0) a _ := hagree
        exact absurd (kind_eq_of_inSiteSpace hin hwide) hsv

/-- Expansion is total and the union of its members: a loaded table resolves
every list to the set of what its reachable literals admit, the quarantine is
reached by name only and never by the wildcard, and no rules fail to expand. -/
theorem resolve_union [Sha256] {fromStr : Bytes → Except String RawTable}
    {text : Bytes} {t : Table} (hload : parseTable fromStr text = .ok t)
    (list : List Bytes) :
    (∃ set, t.resolve list = .ok set ∧ ∀ a, set.contains a = true ↔
      ∃ member, t.groups.Reachable list member ∧ ¬ t.groups.IsKnownRef member ∧
        Admits t member a) ∧
    (∀ member a, InSiteSpace t.scheme.pfx siteContested a → Admits t member a →
      member ≠ ascii "!*" ∧
        (siteRef t.scheme member = some siteContested ∨
          OwnsMember t.scheme siteContested member ∨
          ∃ base width, v6Member member = some (base, width) ∧
            Agree width a (toU128 base))) ∧
    ∀ r : Rules, ∃ j, r.judgeAgainst t = .ok j ∧ r.expand (some t) = j := by
  constructor
  · obtain ⟨set, hset⟩ := exists_resolve t list
    refine ⟨set, hset, fun a => ?_⟩
    rw [contains_resolve_iff hset]
    simp only [Graph.mem_resolve_iff, and_assoc]
  constructor
  · intro member a hin hadmits
    exact quarantine_of_admits (declared_of_parseTable hload) hin hadmits
  · intro r
    obtain ⟨j, hj⟩ := exists_judgeAgainst r t
    exact ⟨j, hj, by simp [Rules.expand, hj]⟩

namespace ExpansionWitness

open MeetingWitness (endpointDigest)

/-- One site with an endpoint id and half of all addresses. -/
def rawTable : RawTable where
  ula := ascii "fd00:dead:beef::/48"
  sites := (∅ : Std.TreeMap Bytes (List Bytes)).insert (ascii "1")
    [ascii "vpce-0123456789abcdef0", ascii "::/1"]
  groups := ∅

theorem exists_rawSite : ∃ site, buildSite (ascii "1")
    [ascii "vpce-0123456789abcdef0", ascii "::/1"] = .ok site := by
  cases hbuild : buildSite (ascii "1")
      [ascii "vpce-0123456789abcdef0", ascii "::/1"] with
  | ok site => exact ⟨site, rfl⟩
  | error e =>
      have hok : (buildSite (ascii "1")
          [ascii "vpce-0123456789abcdef0", ascii "::/1"]).isOk = true := by
        decide +kernel
      simp [hbuild, Except.isOk, Except.toBool] at hok

theorem exists_rawTable {fromStr : Bytes → Except String RawTable} {text : Bytes}
    (hraw : fromStr text = .ok rawTable) : ∃ t, parseTable fromStr text = .ok t := by
  obtain ⟨site, hsite⟩ := exists_rawSite
  have hsites : buildSites rawTable.sites = .ok [site] := by
    have hlist : rawTable.sites.toList =
        [(ascii "1", [ascii "vpce-0123456789abcdef0", ascii "::/1"])] := by
      decide +kernel
    rw [buildSites, hlist, mapM_eq_ok_iff]
    exact .cons hsite .nil
  have hula : parsePrefix rawTable.ula =
      .ok ⟨[0xfd, 0x00, 0xde, 0xad, 0xbe, 0xef], rfl⟩ := by
    decide +kernel
  exact ⟨_, parseTable_eq_ok_iff.mpr ⟨rawTable, _, [site], hraw, hula, hsites, rfl⟩⟩

/-- A table that loads, and rules that name every site. -/
theorem resolve_union_known :
    ∃ t, parseTable (fun _ => .ok rawTable) [] = .ok t ∧
      ∃ set, @Table.resolve endpointDigest t [ascii "!*"] = .ok set := by
  obtain ⟨t, hload⟩ := @exists_rawTable (fun _ => .ok rawTable) [] rfl
  obtain ⟨⟨set, hset, -⟩, -⟩ :=
    @resolve_union endpointDigest (fun _ => .ok rawTable) [] t hload [ascii "!*"]
  exact ⟨t, hload, set, hset⟩

end ExpansionWitness

end Expansion

end Ppv2Auth
