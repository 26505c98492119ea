/-
What loading a table makes of the sites map.  An entry keeps its sources
trimmed and without the empty ones; each is an endpoint id or a range of
addresses, read the way the encoder reads a member, and the site gets exactly
those.
-/
import Ppv2Auth.Cidr.Membership
import Ppv2Auth.Config
import Ppv2Auth.Identity.Members

namespace Ppv2Auth

namespace Loading

open Rust Identity BitPrefix

/-- The sources of an entry that count. -/
def kept (sources : List Bytes) : List Bytes :=
  (sources.map trim).filter (· ≠ [])

/-- An endpoint id: neither kind of address. -/
def IsLabel (source : Bytes) : Prop :=
  v4Member source = none ∧ v6Member source = none

instance decidableIsLabel (source : Bytes) : Decidable (IsLabel source) :=
  inferInstanceAs (Decidable (_ ∧ _))

/-- What an entry of the sites map becomes. -/
structure Onboards (key : Bytes) (sources : List Bytes) (site : Site) : Prop where
  id : parseU16 key = some site.id
  declared : site.id ≠ siteContested
  vpce : site.vpce = (kept sources).filter (IsLabel ·)
  cidrs : ∀ a, site.cidrs.contains a = true ↔ ∃ s ∈ kept sources, InSource s a

/-- An address behind a slash and a width its family does not have. -/
def BadWidth (source : Bytes) : Prop :=
  ∃ addr width, splitOnce 47 source = some (addr, width) ∧
    ((∃ v4, parseIpv4 addr = some v4) ∧ (∀ b, parseU8 width = some b → 32 < b) ∨
      (∃ v6, parseIpv6 addr = some v6) ∧ ∀ b, parseU8 width = some b → 128 < b)

/-- The width as both readers see it: absent, or an integer of eight bits. -/
def ReadsWidth (text : Option Bytes) (width : Option Nat) : Prop :=
  text.map parseU8 = width.map some

theorem bitsOf_of_readsWidth {text : Option Bytes} {width : Option Nat}
    (h : ReadsWidth text width) (max : Nat) :
    bitsOf text max = (some (width.getD max)).filter (· ≤ max) := by
  cases text with
  | none =>
      cases width with
      | none => simp [bitsOf, Option.filter]
      | some b => simp [ReadsWidth] at h
  | some w =>
      cases width with
      | none => simp [ReadsWidth] at h
      | some b =>
          simp only [ReadsWidth, Option.map_some, Option.some.injEq] at h
          simp [bitsOf, h]

/-- The classifier once the width is read. -/
def classifyAddr (source addr : Bytes) (width : Option Nat) :
    Except TableError (Option Bytes) :=
  match parseIpv4 addr with
  | some v4 =>
      if width.getD 32 > 32 then .error (.lengthAbove32 source)
      else .ok (some (cidrText (mappedV4 v4) (96 + width.getD 32)))
  | none =>
      match parseIpv6 addr with
      | some v6 => .ok (some (cidrText v6 (width.getD 128)))
      | none => .ok none

theorem cidrText_mappedV4 (v4 : Octets 4) (width : Nat) :
    cidrText (mappedV4 v4) width =
      ascii "::ffff:" ++ displayIpv4 v4 ++ 47 :: decimal width := by
  simp [cidrText, displayIpv6, mappedV4, mappedPrefix, displayIpv4]

theorem exists_classifyAddr {source : Bytes} {c : Option Bytes}
    (h : classify source = .ok c) :
    ∃ width, ReadsWidth (addrAndWidth source).2 width ∧
      classifyAddr source (addrAndWidth source).1 width = .ok c := by
  unfold classify at h
  unfold addrAndWidth classifyAddr
  simp only [cidrText_mappedV4]
  cases hcut : splitOnce 47 source with
  | none =>
      simp only [hcut] at h
      exact ⟨none, rfl, h⟩
  | some parts =>
      obtain ⟨addr, w⟩ := parts
      cases hbits : parseU8 w with
      | none =>
          simp only [hcut, hbits] at h
          cases h
      | some bits =>
          simp only [hcut, hbits] at h
          exact ⟨some bits, by simp [ReadsWidth, hbits], h⟩

/-- The three ways to be classified: an IPv4 prefix, an IPv6 prefix, no address. -/
theorem classifyAddr_cases {source addr : Bytes} {width : Option Nat}
    {c : Option Bytes} (h : classifyAddr source addr width = .ok c) :
    (∃ v4, parseIpv4 addr = some v4 ∧ width.getD 32 ≤ 32 ∧
      c = some (cidrText (mappedV4 v4) (96 + width.getD 32))) ∨
    (∃ v6, parseIpv4 addr = none ∧ parseIpv6 addr = some v6 ∧
      c = some (cidrText v6 (width.getD 128))) ∨
    (parseIpv4 addr = none ∧ parseIpv6 addr = none ∧ c = none) := by
  unfold classifyAddr at h
  cases hv4 : parseIpv4 addr with
  | some v4 =>
      simp only [hv4] at h
      split_ifs at h with hover
      exact Or.inl ⟨v4, rfl, not_lt.mp hover, (Except.ok.inj h).symm⟩
  | none =>
      cases hv6 : parseIpv6 addr with
      | some v6 =>
          simp only [hv4, hv6] at h
          exact Or.inr (Or.inl ⟨v6, rfl, rfl, (Except.ok.inj h).symm⟩)
      | none =>
          simp only [hv4, hv6] at h
          exact Or.inr (Or.inr ⟨rfl, rfl, (Except.ok.inj h).symm⟩)

theorem bitsOf_eq_some {text : Option Bytes} {width : Option Nat}
    (h : ReadsWidth text width) {max : Nat} (hle : width.getD max ≤ max) :
    bitsOf text max = some (width.getD max) := by
  rw [bitsOf_of_readsWidth h]
  simp [Option.filter, hle]

theorem readsWidth_le {text : Option Bytes} {width : Option Nat}
    (h : ReadsWidth text width) : width.getD 128 ≤ 255 := by
  cases width with
  | none => simp
  | some b =>
      cases text with
      | none => simp [ReadsWidth] at h
      | some w =>
          simp only [ReadsWidth, Option.map_some, Option.some.injEq, parseU8,
            parseUnsigned] at h
          split_ifs at h with hdigits
          exact of_decide_eq_true (Option.filter_eq_some_iff.mp h).2

theorem v4Member_of_parts {source : Bytes} {v4 : Octets 4} {b : Nat}
    (hv4 : parseIpv4 (addrAndWidth source).1 = some v4)
    (hbits : bitsOf (addrAndWidth source).2 32 = some b) :
    v4Member source = some (v4, b) := by
  simp [v4Member, hv4, hbits]

theorem v6Member_of_parts {source : Bytes} {v6 : Octets 16} {b : Nat}
    (hv6 : parseIpv6 (addrAndWidth source).1 = some v6)
    (hbits : bitsOf (addrAndWidth source).2 128 = some b) :
    v6Member source = some (v6, b) := by
  simp [v6Member, hv6, hbits]

theorem inSource_of_v4Member {source : Bytes} {base : Octets 4} {width : Nat}
    (h : v4Member source = some (base, width)) (a : U128) :
    InSource source a ↔ Agree (96 + width) a (toU128 (mappedV4 base)) := by
  simp [InSource, h, v6Member_of_v4Member h]

theorem inSource_of_v6Member {source : Bytes} {base : Octets 16} {width : Nat}
    (h : v6Member source = some (base, width)) (a : U128) :
    InSource source a ↔ Agree width a (toU128 base) := by
  simp [InSource, h, v4Member_of_v6Member h]

theorem parseCidr_cidrText_eq_ok {addr : Octets 16} {width : Nat}
    (hsmall : width ≤ 255) {r : Cidr.Range}
    (h : Cidr.parseCidr (cidrText addr width) = .ok r) :
    width ≤ 128 ∧ r = Cidr.Range.ofPrefix (toU128 addr) width := by
  rw [parseCidr_cidrText_eq addr hsmall] at h
  split_ifs at h with hover
  cases h
  exact ⟨not_lt.mp hover, rfl⟩

/-- A source without a text is an endpoint id to the encoder too. -/
theorem isLabel_of_classify {source : Bytes} (h : classify source = .ok none) :
    IsLabel source := by
  obtain ⟨width, -, haddr⟩ := exists_classifyAddr h
  rcases classifyAddr_cases haddr with ⟨v4, -, -, hc⟩ | ⟨v6, -, -, hc⟩ | ⟨hv4, hv6, -⟩
  · cases hc
  · cases hc
  · constructor
    · simp [v4Member, hv4]
    · simp [v6Member, hv6]

/-- The range of a source's text is what the encoder reads in the source. -/
theorem inSource_of_classify {source text : Bytes} {r : Cidr.Range}
    (h : classify source = .ok (some text)) (hr : Cidr.parseCidr text = .ok r) :
    ¬ IsLabel source ∧ ∀ a, InSource source a ↔ r.start ≤ a ∧ a ≤ r.stop := by
  obtain ⟨width, hwidth, haddr⟩ := exists_classifyAddr h
  rcases classifyAddr_cases haddr with ⟨v4, hv4, hle, hc⟩ | ⟨v6, -, hv6, hc⟩ | ⟨-, -, hc⟩
  · cases hc
    have hmember := v4Member_of_parts hv4 (bitsOf_eq_some hwidth hle)
    obtain ⟨-, rfl⟩ := parseCidr_cidrText_eq_ok (by omega) hr
    constructor
    · simp [IsLabel, hmember]
    · intro a
      rw [inSource_of_v4Member hmember, Cidr.Range.mem_ofPrefix]
  · cases hc
    obtain ⟨hle, rfl⟩ := parseCidr_cidrText_eq_ok (readsWidth_le hwidth) hr
    have hmember := v6Member_of_parts hv6 (bitsOf_eq_some hwidth hle)
    constructor
    · simp [IsLabel, hmember]
    · intro a
      rw [inSource_of_v6Member hmember, Cidr.Range.mem_ofPrefix]
  · cases hc

/-- The texts handed to the set builder come back as they are. -/
theorem tokens_of_classify {source text : Bytes}
    (h : classify source = .ok (some text)) : Cidr.tokens text = [text] := by
  obtain ⟨width, -, haddr⟩ := exists_classifyAddr h
  rcases classifyAddr_cases haddr with ⟨v4, -, -, hc⟩ | ⟨v6, -, -, hc⟩ | ⟨-, -, hc⟩
  · cases hc
    exact tokens_cidrText _ _
  · cases hc
    exact tokens_cidrText _ _
  · cases hc

theorem buildSite_eq_ok_iff {key : Bytes} {sources : List Bytes} {site : Site} :
    buildSite key sources = .ok site ↔
      ∃ id classified cidrs, parseU16 key = some id ∧ id ≠ siteContested ∧
        ((kept sources).mapM fun m => (classify m).map fun c => (m, c)) =
          .ok classified ∧
        Cidr.buildFrom (classified.filterMap Prod.snd) = .ok cidrs ∧
        ⟨id, (classified.filter (·.2 = none)).map Prod.fst, cidrs⟩ = site := by
  have hfilter : ∀ id, (parseU16 key).filter (· ≠ 0) = some id ↔
      parseU16 key = some id ∧ id ≠ siteContested := by
    intro id
    rw [Option.filter_eq_some_iff]
    simp [siteContested]
  unfold buildSite
  cases hkey : (parseU16 key).filter (· ≠ 0) with
  | none =>
      constructor
      · intro h
        cases h
      · rintro ⟨id, -, -, hid, hne, -⟩
        rw [(hfilter id).mpr ⟨hid, hne⟩] at hkey
        cases hkey
  | some id =>
      obtain ⟨hid, hne⟩ := (hfilter id).mp hkey
      simp only [bind_eq_ok_iff, mapError_eq_ok_iff, hid, Option.some.injEq,
        Except.ok.injEq, exists_eq_left']
      constructor
      · rintro ⟨classified, hclassified, cidrs, hcidrs, hsite⟩
        exact ⟨id, classified, cidrs, rfl, hne, hclassified, hcidrs,
          Except.ok.inj hsite⟩
      · rintro ⟨_, classified, cidrs, rfl, -, hclassified, hcidrs, rfl⟩
        exact ⟨classified, hclassified, cidrs, hcidrs, rfl⟩

theorem mem_classified {sources : List Bytes} {classified : List (Bytes × Option Bytes)}
    (h : ((kept sources).mapM fun m => (classify m).map fun c => (m, c)) =
      .ok classified) {p : Bytes × Option Bytes} :
    p ∈ classified ↔ p.1 ∈ kept sources ∧ classify p.1 = .ok p.2 := by
  rw [mem_of_mapM h]
  simp only [map_eq_ok_iff]
  constructor
  · rintro ⟨m, hm, c, hc, rfl⟩
    exact ⟨hm, hc⟩
  · rintro ⟨hm, hc⟩
    exact ⟨p.1, hm, p.2, hc, rfl⟩

/-- The endpoint ids are the kept sources that are labels, in their order. -/
theorem labels_of_classified {sources : List Bytes}
    {classified : List (Bytes × Option Bytes)}
    (hall : ∀ p ∈ classified, (p.2 = none ↔ IsLabel p.1))
    (h : (sources.mapM fun m => (classify m).map fun c => (m, c)) = .ok classified) :
    (classified.filter (·.2 = none)).map Prod.fst = sources.filter (IsLabel ·) := by
  rw [mapM_eq_ok_iff] at h
  induction h with
  | nil => rfl
  | @cons m p rest classified hp _ ih =>
      obtain ⟨c, -, rfl⟩ := map_eq_ok_iff.mp hp
      have hiff := hall (m, c) List.mem_cons_self
      have htail := ih fun q hq => hall q (List.mem_cons_of_mem _ hq)
      simp only at hiff
      by_cases hc : c = none
      · rw [List.filter_cons_of_pos (by simp [hc]),
          List.filter_cons_of_pos (by simpa using hiff.mp hc), List.map_cons, htail]
      · rw [List.filter_cons_of_neg (by simp [hc]),
          List.filter_cons_of_neg (by simpa using fun h => hc (hiff.mpr h)), htail]

/-- Every text is one token, so the set builder reads the sources' texts. -/
theorem mem_texts {sources : List Bytes} {classified : List (Bytes × Option Bytes)}
    (h : ((kept sources).mapM fun m => (classify m).map fun c => (m, c)) =
      .ok classified) {tok : Bytes} :
    tok ∈ (classified.filterMap Prod.snd).flatMap Cidr.tokens ↔
      ∃ s ∈ kept sources, classify s = .ok (some tok) := by
  simp only [List.mem_flatMap, List.mem_filterMap]
  constructor
  · rintro ⟨text, ⟨p, hp, htext⟩, htok⟩
    obtain ⟨hs, hc⟩ := (mem_classified h).mp hp
    rw [htext] at hc
    rw [tokens_of_classify hc, List.mem_singleton] at htok
    exact ⟨p.1, hs, htok ▸ hc⟩
  · rintro ⟨s, hs, hc⟩
    refine ⟨tok, ⟨(s, some tok), (mem_classified h).mpr ⟨hs, hc⟩, rfl⟩, ?_⟩
    rw [tokens_of_classify hc]
    exact List.mem_singleton.mpr rfl

/-- A source is either a label, or its text is the range it spells. -/
inductive ReadsAs (source : Bytes) : Option Bytes → Prop where
  | label (hlabel : IsLabel source) : ReadsAs source none
  | range {text : Bytes} {r : Cidr.Range} (hr : Cidr.parseCidr text = .ok r)
      (hrange : ¬ IsLabel source)
      (hin : ∀ a, InSource source a ↔ r.start ≤ a ∧ a ≤ r.stop) :
      ReadsAs source (some text)

/-- Every kept source of an accepted entry is classified as what it is. -/
theorem readsAs_of_classified {sources : List Bytes}
    {classified : List (Bytes × Option Bytes)}
    (h : ((kept sources).mapM fun m => (classify m).map fun c => (m, c)) =
      .ok classified) {raw : List Cidr.Range}
    (hraw : ((classified.filterMap Prod.snd).flatMap Cidr.tokens).mapM
      Cidr.parseCidr = .ok raw) {s : Bytes} (hs : s ∈ kept sources) :
    ∃ c, classify s = .ok c ∧ ReadsAs s c := by
  obtain ⟨p, hp⟩ := exists_mapM_iff.mp ⟨classified, h⟩ s hs
  obtain ⟨c, hc, -⟩ := map_eq_ok_iff.mp hp
  refine ⟨c, hc, ?_⟩
  cases c with
  | none => exact .label (isLabel_of_classify hc)
  | some text =>
      obtain ⟨r, hr⟩ := exists_mapM_iff.mp ⟨raw, hraw⟩ text
        ((mem_texts h).mpr ⟨s, hs, hc⟩)
      obtain ⟨hrange, hin⟩ := inSource_of_classify hc hr
      exact .range hr hrange hin

/-- An accepted entry gives its site exactly its sources. -/
theorem onboards_of_buildSite {key : Bytes} {sources : List Bytes} {site : Site}
    (h : buildSite key sources = .ok site) :
    Onboards key sources site ∧
      ∀ s ∈ kept sources, ∃ c, classify s = .ok c ∧ ReadsAs s c := by
  obtain ⟨id, classified, cidrs, hid, hne, hclassified, hcidrs, rfl⟩ :=
    buildSite_eq_ok_iff.mp h
  obtain ⟨raw, hraw, rfl⟩ := Cidr.buildFrom_eq_ok_iff.mp hcidrs
  have hreads : ∀ s ∈ kept sources, ∃ c, classify s = .ok c ∧ ReadsAs s c :=
    fun s hs => readsAs_of_classified hclassified hraw hs
  refine ⟨⟨hid, hne, ?_, ?_⟩, hreads⟩
  · apply labels_of_classified _ hclassified
    intro p hp
    obtain ⟨hs, hc⟩ := (mem_classified hclassified).mp hp
    obtain ⟨c, hc', hread⟩ := hreads p.1 hs
    rw [hc, Except.ok.injEq] at hc'
    rw [hc']
    cases hread with
    | label hlabel => simp [hlabel]
    | range _ hrange _ => simp [hrange]
  · intro a
    rw [Cidr.Set.contains_ofRanges]
    simp only [mem_of_mapM hraw, mem_texts hclassified]
    constructor
    · rintro ⟨r, ⟨text, ⟨s, hs, hc⟩, hr⟩, hin⟩
      exact ⟨s, hs, ((inSource_of_classify hc hr).2 a).mpr hin⟩
    · rintro ⟨s, hs, hin⟩
      obtain ⟨c, hc, hread⟩ := hreads s hs
      cases hread with
      | label hlabel => simp [InSource, hlabel.1, hlabel.2] at hin
      | @range text r hr _ hrange => exact ⟨r, ⟨text, ⟨s, hs, hc⟩, hr⟩, (hrange a).mp hin⟩

theorem not_badWidth_of_classify {source : Bytes} {c : Option Bytes}
    (hc : classify source = .ok c)
    (hreads : ReadsAs source c) : ¬ BadWidth source := by
  rintro ⟨addr, w, hsplit, hbad⟩
  have hparts : addrAndWidth source = (addr, some w) := by
    simp [addrAndWidth, hsplit]
  obtain ⟨width, hwidth, haddr⟩ := exists_classifyAddr hc
  rw [hparts] at hwidth haddr
  obtain ⟨b, rfl, hb⟩ : ∃ b, width = some b ∧ parseU8 w = some b := by
    cases width with
    | none => simp [ReadsWidth] at hwidth
    | some b => exact ⟨b, rfl, by simpa [ReadsWidth] using hwidth⟩
  rcases hbad with ⟨⟨v4, hv4⟩, hover⟩ | ⟨⟨v6, hv6⟩, hover⟩
  · have hmore := hover b hb
    simp [classifyAddr, hv4, hmore] at haddr
  · have hmore := hover b hb
    have hv4 : parseIpv4 addr = none := by
      rw [Option.eq_none_iff_forall_ne_some]
      intro v4 hv4
      simp [parseIpv6_of_parseIpv4 hv4] at hv6
    simp only [classifyAddr, hv4, hv6, Except.ok.injEq] at haddr
    subst haddr
    cases hreads with
    | range hr _ _ =>
        have hle := (parseCidr_cidrText_eq_ok (readsWidth_le hwidth) hr).1
        simp only [Option.getD_some] at hle
        omega

/-- An integer in decimal, with or without a plus sign. -/
def IsDecimal (text : Bytes) (n : Nat) : Prop :=
  ∃ digits, digits ≠ [] ∧ (∀ c ∈ digits, (Radix.toDigit 10 c).isSome) ∧
    (text = digits ∨ text = 43 :: digits) ∧ Radix.valueOf 10 digits = n

theorem isDecimal_of_parseUnsigned {max n : Nat} {text : Bytes}
    (h : parseUnsigned max text = some n) : IsDecimal text n ∧ n ≤ max := by
  have hread : ∀ digits, (if digits ≠ [] ∧
        digits.all (fun c => (Radix.toDigit 10 c).isSome) then
        (some (Radix.valueOf 10 digits)).filter (· ≤ max) else none) = some n →
      (text = digits ∨ text = 43 :: digits) → IsDecimal text n ∧ n ≤ max := by
    intro digits hsome htext
    split_ifs at hsome with hdigits
    simp only [Option.filter, decide_eq_true_eq, Option.ite_none_right_eq_some,
      Option.some.injEq] at hsome
    obtain ⟨hle, rfl⟩ := hsome
    exact ⟨⟨digits, hdigits.1, List.all_eq_true.mp hdigits.2, htext, rfl⟩, hle⟩
  cases text with
  | nil => simp [parseUnsigned] at h
  | cons c rest =>
      by_cases hplus : c = 43 ∧ rest ≠ []
      · apply hread rest
        · simpa only [parseUnsigned, if_pos hplus] using h
        · exact Or.inr (by rw [hplus.1])
      · apply hread (c :: rest)
        · simpa only [parseUnsigned, if_neg hplus] using h
        · exact Or.inl rfl

/-- The id of an accepted entry is the integer its key spells. -/
theorem isDecimal_of_parseU16 {key : Bytes} {id : UInt16}
    (h : parseU16 key = some id) : IsDecimal key id.toNat := by
  obtain ⟨n, hn, rfl⟩ := Option.map_eq_some_iff.mp h
  obtain ⟨hdecimal, hle⟩ := isDecimal_of_parseUnsigned hn
  rwa [UInt16.toNat_ofNat_of_lt' (by simp only [UInt16.size]; omega)]

theorem parseTable_eq_ok_iff {fromStr : Bytes → Except String RawTable}
    {text : Bytes} {t : Table} :
    parseTable fromStr text = .ok t ↔
      ∃ raw pfx sites, fromStr text = .ok raw ∧ parsePrefix raw.ula = .ok pfx ∧
        buildSites raw.sites = .ok sites ∧
        ⟨Scheme.new pfx sites, raw.groups.foldl Graph.upsert Graph.default⟩ = t := by
  simp only [parseTable, bind_eq_ok_iff, mapError_eq_ok_iff, pure, Except.pure,
    Except.ok.injEq]
  constructor
  · rintro ⟨raw, hraw, pfx, hpfx, sites, hsites, ht⟩
    exact ⟨raw, pfx, sites, hraw, hpfx, hsites, ht⟩
  · rintro ⟨raw, pfx, sites, hraw, hpfx, hsites, ht⟩
    exact ⟨raw, hraw, pfx, hpfx, sites, hsites, ht⟩

/-- One site for every entry of the map, in the order of the keys. -/
theorem onboards_of_buildSites {raw : Std.TreeMap Bytes (List Bytes)}
    {sites : List Site} (h : buildSites raw = .ok sites) :
    List.Forall₂ (fun entry site => Onboards entry.1 entry.2 site) raw.toList
      sites := by
  rw [buildSites, mapM_eq_ok_iff] at h
  exact h.imp fun _ _ hsite => (onboards_of_buildSite hsite).1

theorem mem_new_sites {pfx : Prefix} {sites : List Site} {site : Site} :
    site ∈ (Scheme.new pfx sites).sites ↔ site ∈ sites :=
  (List.perm_insertionSort _ sites).mem_iff

/-- No site of a loaded table has the id of the quarantine. -/
theorem declared_of_parseTable {fromStr : Bytes → Except String RawTable}
    {text : Bytes} {t : Table} (h : parseTable fromStr text = .ok t) :
    ∀ site ∈ t.scheme.sites, site.id ≠ siteContested := by
  obtain ⟨raw, pfx, sites, -, -, hsites, rfl⟩ := parseTable_eq_ok_iff.mp h
  intro site hsite
  rw [mem_new_sites] at hsite
  obtain ⟨entry, -, hentry⟩ := (mem_of_mapM hsites).mp hsite
  exact (onboards_of_buildSite hentry).1.declared

end Loading

end Ppv2Auth
