/-
What the access log shows, written as a rule.  The label of a connection is
the text of its identity; as the one entry of a flat list it admits the callers
of that principal and no others, unless a site claims the address itself, which
then stands for the whole site.
-/
import Ppv2Auth.Config.Policy
import Ppv2Auth.Identity.Principal

namespace Ppv2Auth

open Rust Identity BitPrefix Expansion

section Text

variable {text : Bytes} (hbytes : ∀ c ∈ text, AddrByte c)
include hbytes

theorem stripPrefix_of_addrBytes {c : UInt8} (hc : ¬ AddrByte c) :
    stripPrefix [c] text = none := by
  unfold stripPrefix
  split
  · next hprefix =>
      obtain ⟨rest, htext⟩ := List.isPrefixOf_iff_prefix.mp hprefix
      exact absurd (hbytes c (htext ▸ by simp)) hc
  · rfl

theorem addrAndWidth_of_addrBytes : addrAndWidth text = (text, none) := by
  unfold addrAndWidth
  cases hsplit : splitOnce 47 text with
  | none => rfl
  | some parts =>
      obtain ⟨htext, -⟩ := splitOnce_eq_some_iff.mp hsplit
      have hslash : (47 : UInt8) ∈ text := by
        rw [htext]
        simp
      exact absurd (hbytes 47 hslash) slash_not_addrByte

theorem ne_all_of_addrBytes : text ≠ ascii "!*" := by
  intro htext
  have hbang := stripPrefix_of_addrBytes hbytes (c := 33) (by simp [AddrByte, Radix.toDigit])
  rw [htext] at hbang
  exact absurd hbang (by decide)

/-- The text refers to no group, so it stands for itself. -/
theorem reachable_of_addrBytes_iff (g : Graph) (member : Bytes) :
    (g.Reachable [text] member ∧ ¬ g.IsKnownRef member) ↔ member = text := by
  have href : Graph.refName text = none :=
    stripPrefix_of_addrBytes hbytes (by simp [AddrByte, Radix.toDigit])
  constructor
  · rintro ⟨⟨entry, hentry, hpath⟩, -⟩
    rw [List.mem_singleton.mp hentry] at hpath
    rcases Relation.ReflTransGen.cases_head hpath with rfl | ⟨next, ⟨name, members, hlink, -⟩, -⟩
    · rfl
    · rw [Traversal.target_eq_some_iff, href] at hlink
      cases hlink.1
  · rintro rfl
    refine ⟨Traversal.Reachable.of_mem (by simp), ?_⟩
    rintro ⟨name, members, hname, -⟩
    rw [href] at hname
    cases hname

/-- As the one entry of a flat list it permits what it covers. -/
theorem permits_addrBytes_iff [Sha256] {t : Table} {h : Ppv2.Header}
    (hproper : ¬ (PassesThrough t.scheme h ∧ InPrefix t.scheme.pfx h.src)) :
    ((Config.ofRaw ⟨[text], none⟩).rules.expand (some t)).permits []
        (toU128 (synthesize t.scheme h)) = true ↔ Covers t text h := by
  have hallows : Allows t [text] h ↔ Covers t text h := by
    simp only [Allows, ← and_assoc, reachable_of_addrBytes_iff hbytes, exists_eq_left]
  rw [expand_permits_iff_admitted]
  simp only [true_and, reduceCtorEq, false_and, exists_false, or_false,
    admitted_synthesize_iff (not_and.mp hproper), hallows]

end Text

theorem v6Member_displayIpv6 (addr : Octets 16) :
    v6Member (displayIpv6 addr) = some (addr, 128) := by
  simp [v6Member, addrAndWidth_of_addrBytes (addrByte_displayIpv6 addr),
    parseIpv6_displayIpv6, bitsOf]

theorem agree_128_iff {x y : U128} : Agree 128 x y ↔ x = y := by
  rw [agree_iff_div]
  simp [BitVec.toNat_inj]

theorem toU128_inj {x y : Octets 16} : toU128 x = toU128 y ↔ x = y := by
  constructor
  · intro heq
    apply Octets.ext_bytes
    apply BigEndian.value_injective (by simp)
    have hvalue := congrArg BitVec.toNat heq
    rwa [toU128, toU128, u128FromBe_toNat, u128FromBe_toNat] at hvalue
  · rintro rfl
    rfl

/-- One address owns itself as a range. -/
theorem ownsRange_128_iff {sch : Scheme} {id : UInt16} {a : U128} :
    OwnsRange sch id 128 a ↔ sch.addrSite a = some id := by
  simp [OwnsRange, agree_128_iff]

section Member

variable {addr : Octets 16}

/-- What the text of an address means: the site that claims it, or itself. -/
theorem reads_displayIpv6_iff {sch : Scheme} {meaning : Meaning} :
    Reads sch (displayIpv6 addr) meaning ↔
      (∃ id, sch.addrSite (toU128 addr) = some id ∧ meaning = .site id) ∨
        (sch.addrSite (toU128 addr) = none ∧ meaning = .v6 addr 128) := by
  have hv6 := v6Member_displayIpv6 addr
  constructor
  · intro hreads
    cases hreads with
    | siteRef href => simp [(addr_none_of_siteRef href).2] at hv6
    | v4Owned hv4 => simp [v6Member_of_v4Member hv4] at hv6
    | v4 hv4 => simp [v6Member_of_v4Member hv4] at hv6
    | v6Owned hv6' howns =>
        rw [hv6, Option.some.injEq, Prod.mk.injEq] at hv6'
        obtain ⟨rfl, rfl⟩ := hv6'
        exact Or.inl ⟨_, ownsRange_128_iff.mp howns, rfl⟩
    | v6 hv6' hopen =>
        rw [hv6, Option.some.injEq, Prod.mk.injEq] at hv6'
        obtain ⟨rfl, rfl⟩ := hv6'
        refine Or.inr ⟨?_, rfl⟩
        rw [Option.eq_none_iff_forall_ne_some]
        exact fun id howned => hopen id (ownsRange_128_iff.mpr howned)
    | listed _ _ hnone => simp [hv6] at hnone
    | label _ _ hnone => simp [hv6] at hnone
  · rintro (⟨id, howned, rfl⟩ | ⟨hnone, rfl⟩)
    · exact .v6Owned hv6 (ownsRange_128_iff.mpr howned)
    · refine .v6 hv6 fun id howns => ?_
      rw [ownsRange_128_iff, hnone] at howns
      cases howns

/-- What the text of an address admits. -/
theorem covers_displayIpv6_iff [Sha256] {t : Table} {h : Ppv2.Header} :
    Covers t (displayIpv6 addr) h ↔
      (∃ id, t.scheme.addrSite (toU128 addr) = some id ∧
          ∃ m, siteOf t.scheme h = some m ∧ m.id = id) ∨
        (t.scheme.addrSite (toU128 addr) = none ∧ synthesize t.scheme h = addr) := by
  simp only [Covers, ne_all_of_addrBytes (addrByte_displayIpv6 addr), false_and, false_or, ne_eq,
    not_false_eq_true, true_and, reads_displayIpv6_iff, or_and_right, exists_or]
  refine or_congr ?_ ?_
  · constructor
    · rintro ⟨meaning, ⟨id, howned, rfl⟩, hholds⟩
      exact ⟨id, howned, hholds⟩
    · rintro ⟨id, howned, hholds⟩
      exact ⟨.site id, ⟨id, howned, rfl⟩, hholds⟩
  · constructor
    · rintro ⟨meaning, ⟨hnone, rfl⟩, hholds⟩
      exact ⟨hnone, toU128_inj.mp (agree_128_iff.mp hholds)⟩
    · rintro ⟨hnone, hsame⟩
      exact ⟨.v6 addr 128, ⟨hnone, rfl⟩, agree_128_iff.mpr (toU128_inj.mpr hsame)⟩

end Member

section Rule

variable [Sha256] {t t' : Table} {h h' : Ppv2.Header}

/-- The logged text of an identity is a rule for its principal.  As the one
entry of a flat list, under the table it was logged with or another one with
that prefix, it permits the headers of the same principal; where a site claims
the address, it permits the headers of that site. -/
theorem logged_identity_permits
    (hpfx : t'.scheme.pfx = t.scheme.pfx)
    (hproper : ¬ (PassesThrough t.scheme h ∧ InPrefix t.scheme.pfx h.src))
    (hproper' : ¬ (PassesThrough t'.scheme h' ∧ InPrefix t'.scheme.pfx h'.src)) :
    ((Config.ofRaw ⟨[(format (synthesize t.scheme h)).text], none⟩).rules.expand
        (some t')).permits [] (toU128 (synthesize t'.scheme h')) = true ↔
      (∃ id, t'.scheme.addrSite (toU128 (synthesize t.scheme h)) = some id ∧
          ∃ m, siteOf t'.scheme h' = some m ∧ m.id = id) ∨
        (t'.scheme.addrSite (toU128 (synthesize t.scheme h)) = none ∧
          Principal.of t'.scheme h' = Principal.of t.scheme h) := by
  rw [format_text, permits_addrBytes_iff (addrByte_displayIpv6 _) hproper',
    covers_displayIpv6_iff]
  exact or_congr Iff.rfl (and_congr_right fun _ =>
    synthesize_eq_iff hpfx.symm hproper' hproper)

end Rule

namespace LoggedWitness

open MeetingWitness (endpointDigest ownSource)

def onboarded : Table := ⟨MeetingWitness.table, Graph.default⟩

/-- The logged identity of a stranger, pasted into the rules. -/
theorem logged_identity_permits_own :
    (@Rules.expand endpointDigest (Config.ofRaw
        ⟨[(format (@synthesize endpointDigest onboarded.scheme ownSource)).text], none⟩).rules
      (some onboarded)).permits [] (toU128 (@synthesize endpointDigest onboarded.scheme
        ownSource)) = true :=
  (@logged_identity_permits endpointDigest onboarded onboarded ownSource ownSource rfl
    (by decide +kernel) (by decide +kernel)).mpr (Or.inr ⟨by decide +kernel, rfl⟩)

end LoggedWitness

end Ppv2Auth
