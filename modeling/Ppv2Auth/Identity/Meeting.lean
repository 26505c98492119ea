/-
Where the two encoders meet.  The packet path has four ordered cases and the
config path four meanings; the kind group keeps the synthesized cases apart,
and a passed-through client stays clear of them as long as its source is not
inside the /48 itself.
-/
import Ppv2Auth.Identity.Members

namespace Ppv2Auth

namespace Identity

open Rust BigEndian BitPrefix

/-- A header is a site's, a stranger's, a real IPv6 client or a plain IPv4
client. -/
theorem header_cases (sch : Scheme) (h : Ppv2.Header) :
    (∃ m, siteOf sch h = some m) ∨
      (siteOf sch h = none ∧ h.vpce ≠ []) ∨
        PassesThrough sch h ∨
          (siteOf sch h = none ∧ h.vpce = [] ∧ h.isV6 = false) := by
  cases hsite : siteOf sch h with
  | some m => exact Or.inl ⟨m, rfl⟩
  | none =>
      by_cases hvpce : h.vpce = []
      · cases hv6 : h.isV6 with
        | true => exact Or.inr (Or.inr (Or.inl ⟨hsite, hvpce, hv6⟩))
        | false => exact Or.inr (Or.inr (Or.inr ⟨rfl, hvpce, rfl⟩))
      · exact Or.inr (Or.inl ⟨rfl, hvpce⟩)

section Cases

variable [Sha256] {sch : Scheme} {h : Ppv2.Header}

theorem synthesize_of_site {m : SiteMatch} (hsite : siteOf sch h = some m) :
    synthesize sch h = assemble sch.pfx kindSite (siteBody m.id)
      (if m.inner then clientQuad h else zeroQuad) := by
  simp [synthesize, hsite]

theorem synthesize_of_label (hsite : siteOf sch h = none) (hvpce : h.vpce ≠ []) :
    synthesize sch h =
      assemble sch.pfx kindVpce (hashBody h.vpce) (clientQuad h) := by
  simp [synthesize, hsite, hvpce]

theorem synthesize_of_passesThrough (hpass : PassesThrough sch h) :
    synthesize sch h = h.src := by
  obtain ⟨hsite, hvpce, hv6⟩ := hpass
  simp [synthesize, hsite, hvpce, hv6]

theorem synthesize_of_v4 (hsite : siteOf sch h = none) (hvpce : h.vpce = [])
    (hv4 : h.isV6 = false) :
    synthesize sch h = assemble sch.pfx kindAddr zeroQuad (v4Of h.src) := by
  simp [synthesize, hsite, hvpce, hv4]

/-- Whatever is assembled is inside the /48; a passed-through client is there
only by its own source. -/
theorem inPrefix_synthesize_iff :
    InPrefix sch.pfx (synthesize sch h) ↔
      ¬ PassesThrough sch h ∨ InPrefix sch.pfx h.src := by
  rcases header_cases sch h with ⟨m, hsite⟩ | ⟨hsite, hvpce⟩ | hpass |
    ⟨hsite, hvpce, hv4⟩
  · simp [synthesize_of_site hsite, PassesThrough, hsite]
  · simp [synthesize_of_label hsite hvpce, PassesThrough, hvpce]
  · simp [synthesize_of_passesThrough hpass, hpass]
  · simp [synthesize_of_v4 hsite hvpce hv4, PassesThrough, hv4]

end Cases

theorem siteBody_inj {id id' : UInt16} : siteBody id = siteBody id' ↔ id = id' := by
  constructor
  · intro heq
    have hbytes := congrArg Octets.bytes heq
    simp only [siteBody, List.cons.injEq, true_and] at hbytes
    exact bytesOfWord_inj.mp hbytes
  · rintro rfl
    rfl

theorem kinds_apart : kindSite ≠ kindVpce ∧ kindSite ≠ kindAddr ∧
    kindVpce ≠ kindAddr := by decide

theorem siteOf_none_of_vpce_nil {sch : Scheme} {h : Ppv2.Header}
    (hvpce : h.vpce = []) :
    siteOf sch h = (sch.addrSite (mapped h)).map fun id => ⟨id, false⟩ := by
  simp [siteOf, hvpce]

section Meeting

variable [Sha256] {sch : Scheme} {h : Ppv2.Header}

/-- A real client outside the /48 agrees with nothing assembled there. -/
theorem not_agree_of_passesThrough (hpass : PassesThrough sch h)
    (hout : ¬ InPrefix sch.pfx h.src) {k : UInt16} {body low : Octets 4}
    {width : Nat} (hwidth : width ≤ 32) :
    ¬ Agree (96 + width) (toU128 (synthesize sch h))
      (toU128 (assemble sch.pfx k body low)) := by
  rw [synthesize_of_passesThrough hpass]
  exact fun hagree => hout (InPrefix.of_agree hwidth hagree)

theorem agree_site_iff (hin : PassesThrough sch h → ¬ InPrefix sch.pfx h.src)
    (id : UInt16) (low : Octets 4) :
    Agree 96 (toU128 (synthesize sch h))
        (toU128 (assemble sch.pfx kindSite (siteBody id) low)) ↔
      ∃ m, siteOf sch h = some m ∧ m.id = id := by
  obtain ⟨hsv, hsa, -⟩ := kinds_apart
  rcases header_cases sch h with ⟨m, hsite⟩ | ⟨hsite, hvpce⟩ | hpass |
    ⟨hsite, hvpce, hv4⟩
  · simp [synthesize_of_site hsite, agree_96_assemble_iff, siteBody_inj, hsite]
  · simp [synthesize_of_label hsite hvpce, agree_96_assemble_iff, hsite,
      hsv.symm]
  · simp [not_agree_of_passesThrough hpass (hin hpass) (Nat.zero_le 32), hpass.1]
  · simp [synthesize_of_v4 hsite hvpce hv4, agree_96_assemble_iff, hsite,
      hsa.symm]

theorem agree_v4_iff (hin : PassesThrough sch h → ¬ InPrefix sch.pfx h.src)
    (base : Octets 4) {width : Nat} (hwidth : width ≤ 32) :
    Agree (96 + width) (toU128 (synthesize sch h))
        (toU128 (assemble sch.pfx kindAddr zeroQuad base)) ↔
      h.isV6 = false ∧ h.vpce = [] ∧ siteOf sch h = none ∧
        Agree width (quad (v4Of h.src)) (quad base) := by
  obtain ⟨-, hsa, hva⟩ := kinds_apart
  rcases header_cases sch h with ⟨m, hsite⟩ | ⟨hsite, hvpce⟩ | hpass |
    ⟨hsite, hvpce, hv4⟩
  · simp [synthesize_of_site hsite, agree_assemble_iff hwidth, hsite, hsa]
  · simp [synthesize_of_label hsite hvpce, agree_assemble_iff hwidth, hvpce, hva]
  · simp [not_agree_of_passesThrough hpass (hin hpass) hwidth, hpass.2.2]
  · simp [synthesize_of_v4 hsite hvpce hv4, agree_assemble_iff hwidth, hsite,
      hvpce, hv4]

theorem agree_label_iff (hin : PassesThrough sch h → ¬ InPrefix sch.pfx h.src)
    (text : Bytes) (low : Octets 4) :
    Agree 96 (toU128 (synthesize sch h))
        (toU128 (assemble sch.pfx kindVpce (hashBody text) low)) ↔
      siteOf sch h = none ∧ h.vpce ≠ [] ∧ hashBody h.vpce = hashBody text := by
  obtain ⟨hsv, -, hva⟩ := kinds_apart
  rcases header_cases sch h with ⟨m, hsite⟩ | ⟨hsite, hvpce⟩ | hpass |
    ⟨hsite, hvpce, hv4⟩
  · simp [synthesize_of_site hsite, agree_96_assemble_iff, hsite, hsv]
  · simp [synthesize_of_label hsite hvpce, agree_96_assemble_iff, hsite, hvpce]
  · simp [not_agree_of_passesThrough hpass (hin hpass) (Nat.zero_le 32),
      hpass.2.1]
  · simp [synthesize_of_v4 hsite hvpce hv4, agree_96_assemble_iff, hvpce,
      hva.symm]

/-- The packet path lands in the space of a meaning exactly on the headers the
meaning holds of. -/
theorem agree_space_iff_holds {member : Bytes} {m : Meaning}
    (hreads : Reads sch member m)
    (hin : PassesThrough sch h → ¬ InPrefix sch.pfx h.src) :
    Agree (m.space sch.pfx).2 (toU128 (synthesize sch h))
        (toU128 (m.space sch.pfx).1) ↔
      m.Holds sch h := by
  cases hreads with
  | siteRef | v4Owned | v6Owned | listed => exact agree_site_iff hin _ zeroQuad
  | v4 hv4 => exact agree_v4_iff hin _ (v4Member_width_le hv4)
  | v6 => exact Iff.rfl
  | label => exact agree_label_iff hin _ zeroQuad

/-- The set a member compiles to, by its meaning. -/
theorem build_encodeMember {member : Bytes} {m : Meaning}
    (hreads : Reads sch member m) :
    ∃ set, Cidr.build (encodeMember sch member) = .ok set ∧
      ∀ a, set.contains a = true ↔
        Agree (m.space sch.pfx).2 a (toU128 (m.space sch.pfx).1) :=
  ⟨_, encodeMember_of_reads hreads ▸ build_cidrText _ (space_width_le hreads),
    fun a => contains_ofPrefix _ a _⟩

end Meeting

/-- A bare source inside a range one site owns resolves to that site. -/
theorem siteOf_of_sourceIn {sch : Scheme} {member : Bytes} {id : UInt16}
    (hreads : Reads sch member (.site id)) {h : Ppv2.Header}
    (hvpce : h.vpce = []) (hsource : SourceIn member h) :
    siteOf sch h = some ⟨id, false⟩ := by
  have howned : sch.addrSite (mapped h) = some id := by
    rcases hsource with ⟨base, width, hv4, hagree⟩ | ⟨base, width, hv6, hagree⟩
    · cases hreads with
      | siteRef href => simp [(addr_none_of_siteRef href).1] at hv4
      | v4Owned hv4' howns =>
          rw [hv4, Option.some.injEq, Prod.mk.injEq] at hv4'
          obtain ⟨rfl, rfl⟩ := hv4'
          exact howns _ hagree
      | v6Owned hv6 => simp [v4Member_of_v6Member hv6] at hv4
      | listed _ hnone => simp [hnone] at hv4
    · cases hreads with
      | siteRef href => simp [(addr_none_of_siteRef href).2] at hv6
      | v4Owned hv4 => simp [v6Member_of_v4Member hv4] at hv6
      | v6Owned hv6' howns =>
          rw [hv6, Option.some.injEq, Prod.mk.injEq] at hv6'
          obtain ⟨rfl, rfl⟩ := hv6'
          exact howns _ hagree
      | listed _ _ hnone => simp [hnone] at hv6
  simp [siteOf_none_of_vpce_nil hvpce, howned]

/-- Config-time and packet-time identity agree: the set a member compiles to
contains a synthesized address exactly when the member's meaning holds of the
header, and an address member of one site covers every bare source in it. -/
theorem encodeMember_meets_synthesize [Sha256] (sch : Scheme) (member : Bytes) :
    ∃ set, Cidr.build (encodeMember sch member) = .ok set ∧
      (∃ m, Reads sch member m) ∧
      (∀ m, Reads sch member m → ∀ h,
        (PassesThrough sch h → ¬ InPrefix sch.pfx h.src) →
        (set.contains (toU128 (synthesize sch h)) = true ↔ m.Holds sch h)) ∧
      ∀ id, Reads sch member (.site id) → ∀ h, h.vpce = [] →
        SourceIn member h →
        siteOf sch h = some ⟨id, false⟩ ∧
          set.contains (toU128 (synthesize sch h)) = true := by
  obtain ⟨m₀, hreads₀⟩ := reads_exists sch member
  obtain ⟨set, hbuild, hset₀⟩ := build_encodeMember hreads₀
  have hset : ∀ m, Reads sch member m → ∀ a, set.contains a = true ↔
      Agree (m.space sch.pfx).2 a (toU128 (m.space sch.pfx).1) := by
    intro m hreads a
    obtain ⟨set', hbuild', hset'⟩ := build_encodeMember hreads
    rw [hbuild, Except.ok.injEq] at hbuild'
    exact hbuild' ▸ hset' a
  refine ⟨set, hbuild, ⟨m₀, hreads₀⟩, ?_, ?_⟩
  · intro m hreads h hin
    exact (hset m hreads _).trans (agree_space_iff_holds hreads hin)
  · intro id hreads h hvpce hsource
    have hsite := siteOf_of_sourceIn hreads hvpce hsource
    have hin : PassesThrough sch h → ¬ InPrefix sch.pfx h.src := fun hpass =>
      absurd hpass.1 (by simp [hsite])
    exact ⟨hsite, (hset _ hreads _).mpr
      ((agree_space_iff_holds hreads hin).mpr ⟨_, hsite, rfl⟩)⟩

/-- Prefix, kind and body: everything but the client bits. -/
def tenantHalf (addr : Octets 16) : Bytes := addr.bytes.take 12

@[simp] theorem tenantHalf_assemble (p : Prefix) (k : UInt16)
    (body low : Octets 4) :
    tenantHalf (assemble p k body low) = p.bytes ++ bytesOfWord k ++ body.bytes := by
  have hlength : (p.bytes ++ bytesOfWord k ++ body.bytes).length = 12 := by simp
  rw [tenantHalf, assemble, List.take_append_of_le_length hlength.ge, ← hlength,
    List.take_length]

/-- The endpoint id fixes the tenant half exactly when a site lists it or no
site claims either source: an unlisted id falls through to the address. -/
theorem tenantHalf_fixed_iff [Sha256] (sch : Scheme) (h₁ h₂ : Ppv2.Header)
    (hvpce : h₁.vpce ≠ []) (hsame : h₁.vpce = h₂.vpce) :
    (tenantHalf (synthesize sch h₁) = tenantHalf (synthesize sch h₂) ∧
        (sch.labelSite h₁.vpce = none →
          siteOf sch h₁ = none ∧ siteOf sch h₂ = none)) ↔
      sch.labelSite h₁.vpce ≠ none ∨
        (sch.addrSite (mapped h₁) = none ∧ sch.addrSite (mapped h₂) = none) := by
  have hvpce₂ : h₂.vpce ≠ [] := hsame ▸ hvpce
  cases hlabel : sch.labelSite h₁.vpce with
  | some id =>
      have hsite₁ : siteOf sch h₁ = some ⟨id, true⟩ := by
        simp [siteOf, hvpce, hlabel]
      have hsite₂ : siteOf sch h₂ = some ⟨id, true⟩ := by
        simp [siteOf, ← hsame, hvpce, hlabel]
      simp [synthesize_of_site hsite₁, synthesize_of_site hsite₂]
  | none =>
      have hsite : ∀ h : Ppv2.Header, h₁.vpce = h.vpce →
          (siteOf sch h = none ↔ sch.addrSite (mapped h) = none) := by
        intro h heq
        simp [siteOf, ← heq, hvpce, hlabel]
      rw [← hsite h₁ rfl, ← hsite h₂ hsame]
      simp only [true_implies, ne_eq, not_true_eq_false, false_or,
        and_iff_right_iff_imp]
      rintro ⟨hnone₁, hnone₂⟩
      simp [synthesize_of_label hnone₁ hvpce, synthesize_of_label hnone₂ hvpce₂,
        hsame]

/-- Inside the /48 means synthesized, and no written space but an IPv6 one
covers a real client, exactly when the client does not itself state a source
inside the /48. -/
theorem inside_iff_synthesized_iff [Sha256] (sch : Scheme) (h : Ppv2.Header) :
    ((InPrefix sch.pfx (synthesize sch h) ↔
          siteOf sch h ≠ none ∨ h.vpce ≠ [] ∨ h.isV6 = false) ∧
        (PassesThrough sch h → ∀ member, v6Member member = none →
          ∀ set, Cidr.build (encodeMember sch member) = .ok set →
            set.contains (toU128 (synthesize sch h)) = false)) ↔
      ¬ (PassesThrough sch h ∧ InPrefix sch.pfx h.src) := by
  have hcases : (siteOf sch h ≠ none ∨ h.vpce ≠ [] ∨ h.isV6 = false) ↔
      ¬ PassesThrough sch h := by
    simp only [PassesThrough, not_and_or, Bool.not_eq_true, ne_eq]
  rw [hcases, inPrefix_synthesize_iff]
  constructor
  · rintro ⟨hiff, -⟩ ⟨hpass, hinside⟩
    exact hiff.mp (Or.inr hinside) hpass
  · intro hout
    have hin : PassesThrough sch h → ¬ InPrefix sch.pfx h.src := fun hpass hinside =>
      hout ⟨hpass, hinside⟩
    refine ⟨⟨?_, Or.inl⟩, ?_⟩
    · rintro (hnot | hinside)
      · exact hnot
      · exact fun hpass => hin hpass hinside
    · intro hpass member hv6 set hbuild
      obtain ⟨m, hreads⟩ := reads_exists sch member
      obtain ⟨set', hbuild', hset⟩ := build_encodeMember hreads
      rw [hbuild, Except.ok.injEq] at hbuild'
      subst hbuild'
      rw [← Bool.not_eq_true, hset, agree_space_iff_holds hreads hin]
      cases hreads with
      | siteRef | v4Owned | listed => simp [Meaning.Holds, hpass.1]
      | v4 => simp [Meaning.Holds, hpass.2.2]
      | v6Owned hv6' | v6 hv6' => simp [hv6] at hv6'
      | label => simp [Meaning.Holds, hpass.2.1]

namespace MeetingWitness

/-- The digest of `vpce-0123456789abcdef0`, the one endpoint id hashed here. -/
@[reducible] def endpointDigest : Sha256 :=
  ⟨fun _ => ⟨[0x7b, 0x53, 0xe7, 0x5b, 0x6e, 0x3d, 0xcf, 0xdb, 0x4b, 0xd6, 0xb1,
    0x39, 0x01, 0x8d, 0xfb, 0xd0, 0x79, 0xd1, 0x6d, 0xc0, 0x6f, 0x41, 0x23,
    0xab, 0x57, 0x42, 0xbb, 0x8d, 0x96, 0x15, 0x9f, 0x85], rfl⟩⟩

def endpoint : Bytes := ascii "vpce-0123456789abcdef0"

/-- Site 2 owns 203.0.113.0/24 and lists no endpoint id. -/
def natSite : Site where
  id := 2
  vpce := []
  cidrs := Cidr.Set.ofRanges
    [Cidr.Range.ofPrefix (toU128 (mappedV4 ⟨[203, 0, 113, 0], rfl⟩)) 120]

def pfx : Prefix := ⟨[0xfd, 0x00, 0xde, 0xad, 0xbe, 0xef], rfl⟩

def table : Scheme := Scheme.new pfx [natSite]

def v4Header (quad : Octets 4) (vpce : Bytes) : Ppv2.Header where
  len := 28
  src := Octets.fill 16 quad.bytes
  srcPort := 1000
  isV6 := false
  vpce := vpce

def office : Ppv2.Header := v4Header ⟨[10, 0, 0, 1], rfl⟩ []

/-- Such a header in bytes; the family is 0x11 over TCP and 0x12 over UDP. -/
def wire (family a b c d : UInt8) : Bytes :=
  Ppv2.signature ++
    [Ppv2.v2Proxy, family, 0, 12, a, b, c, d, 10, 0, 0, 2, 3, 232, 31, 144]

/-- An unowned IPv4 range covers a plain client inside it. -/
theorem encodeMember_meets_office :
    ∃ set, Cidr.build (@encodeMember endpointDigest table
        (ascii "10.0.0.0/8")) = .ok set ∧
      set.contains (toU128 (@synthesize endpointDigest table office)) = true := by
  obtain ⟨set, hbuild, -, hmeet, -⟩ :=
    @encodeMember_meets_synthesize endpointDigest table (ascii "10.0.0.0/8")
  have hreads : Reads table (ascii "10.0.0.0/8")
      (.v4 ⟨[10, 0, 0, 0], rfl⟩ 8) := by
    refine .v4 (by decide +kernel) fun id howns => ?_
    have hnone : table.rangeSite
        (rangeOf (toU128 (mappedV4 ⟨[10, 0, 0, 0], rfl⟩)) (96 + 8)).1
        (rangeOf (toU128 (mappedV4 ⟨[10, 0, 0, 0], rfl⟩)) (96 + 8)).2 = none := by
      decide +kernel
    rw [(rangeSite_rangeOf table _ _ id).mpr howns] at hnone
    cases hnone
  refine ⟨set, hbuild, (hmeet _ hreads office ?_).mpr ?_⟩
  · exact fun hpass => absurd hpass.2.2 (by decide)
  · refine ⟨rfl, rfl, ?_, ?_⟩
    · decide +kernel
    · decide +kernel

def claimedSource : Ppv2.Header := v4Header ⟨[203, 0, 113, 7], rfl⟩ endpoint

def ownSource : Ppv2.Header := v4Header ⟨[10, 0, 0, 1], rfl⟩ endpoint

theorem tenantHalf_fixed_own :
    tenantHalf (@synthesize endpointDigest table ownSource) =
      tenantHalf (@synthesize endpointDigest table
        (v4Header ⟨[10, 9, 9, 9], rfl⟩ endpoint)) :=
  ((@tenantHalf_fixed_iff endpointDigest table ownSource
    (v4Header ⟨[10, 9, 9, 9], rfl⟩ endpoint) (by decide) rfl).mpr
      (Or.inr ⟨by decide +kernel, by decide +kernel⟩)).1

/-- One endpoint id that no site lists, two sources, two tenant halves: the
claimed source makes the caller site 2. -/
theorem tenantHalf_chosen :
    table.labelSite endpoint = none ∧
      claimedSource.vpce = endpoint ∧ ownSource.vpce = endpoint ∧
      siteOf table claimedSource = some ⟨2, false⟩ ∧
      tenantHalf (@synthesize endpointDigest table claimedSource) ≠
        tenantHalf (@synthesize endpointDigest table ownSource) := by
  decide +kernel

/-- A client whose own address spells site 0's space. -/
def insideClient : Ppv2.Header where
  len := 52
  src := ⟨[0xfd, 0x00, 0xde, 0xad, 0xbe, 0xef, 0x0b, 0x1a, 0, 0, 0, 0, 0, 0, 0,
    1], rfl⟩
  srcPort := 1000
  isV6 := true
  vpce := []

/-- A passed-through client inside the /48, covered by the encoding of `!0`. -/
theorem inside_not_synthesized :
    parsePrefix (ascii "fd00:dead:beef::/48") = .ok table.pfx ∧
      InPrefix table.pfx (@synthesize endpointDigest table insideClient) ∧
      ¬ (siteOf table insideClient ≠ none ∨ insideClient.vpce ≠ [] ∨
        insideClient.isV6 = false) ∧
      (Cidr.build (@encodeMember endpointDigest table (ascii "!0"))).map
          (·.contains (toU128 (@synthesize endpointDigest table insideClient))) =
        .ok true := by
  decide +kernel

end MeetingWitness

end Identity

end Ppv2Auth
