/-
What an authored member means, said once and without encodings: a site, a set
of IPv4 clients, a set of addresses, or an endpoint id.  The config-time
encoder writes the space of a meaning and the packet path lands in that space
exactly on the headers the meaning holds of.
-/
import Ppv2Auth.Identity.Spaces

namespace Ppv2Auth

namespace Identity

open Rust BigEndian BitPrefix

/-- What a member stands for. -/
inductive Meaning where
  | site (id : UInt16)
  | v4 (base : Octets 4) (width : Nat)
  | v6 (base : Octets 16) (width : Nat)
  | label (text : Bytes)
deriving DecidableEq

/-- Every address of a range is the one site's. -/
def OwnsRange (sch : Scheme) (id : UInt16) (width : Nat) (base : U128) : Prop :=
  ∀ a, Agree width a base → sch.addrSite a = some id

/-- A site reference names its site, and so does an address range one site
owns whole and a listed label; what is left stands for itself. -/
inductive Reads (sch : Scheme) (member : Bytes) : Meaning → Prop where
  | siteRef {id : UInt16} (href : siteRef sch member = some id) :
      Reads sch member (.site id)
  | v4Owned {base : Octets 4} {width : Nat} {id : UInt16}
      (hv4 : v4Member member = some (base, width))
      (howns : OwnsRange sch id (96 + width) (toU128 (mappedV4 base))) :
      Reads sch member (.site id)
  | v4 {base : Octets 4} {width : Nat}
      (hv4 : v4Member member = some (base, width))
      (hopen : ∀ id, ¬ OwnsRange sch id (96 + width) (toU128 (mappedV4 base))) :
      Reads sch member (.v4 base width)
  | v6Owned {base : Octets 16} {width : Nat} {id : UInt16}
      (hv6 : v6Member member = some (base, width))
      (howns : OwnsRange sch id width (toU128 base)) :
      Reads sch member (.site id)
  | v6 {base : Octets 16} {width : Nat}
      (hv6 : v6Member member = some (base, width))
      (hopen : ∀ id, ¬ OwnsRange sch id width (toU128 base)) :
      Reads sch member (.v6 base width)
  | listed {id : UInt16} (href : siteRef sch member = none)
      (hv4 : v4Member member = none) (hv6 : v6Member member = none)
      (hlisted : sch.labelSite member = some id) : Reads sch member (.site id)
  | label (href : siteRef sch member = none)
      (hv4 : v4Member member = none) (hv6 : v6Member member = none)
      (hlisted : sch.labelSite member = none) :
      Reads sch member (.label member)

/-- The headers a meaning admits. -/
def Meaning.Holds [Sha256] (sch : Scheme) (h : Ppv2.Header) : Meaning → Prop
  | .site id => ∃ m, siteOf sch h = some m ∧ m.id = id
  | .v4 base width =>
      h.isV6 = false ∧ h.vpce = [] ∧ siteOf sch h = none ∧
        Agree width (quad (v4Of h.src)) (quad base)
  | .v6 base width => Agree width (toU128 (synthesize sch h)) (toU128 base)
  | .label text =>
      siteOf sch h = none ∧ h.vpce ≠ [] ∧ hashBody h.vpce = hashBody text

/-- A real IPv6 client, copied as it is. -/
def PassesThrough (sch : Scheme) (h : Ppv2.Header) : Prop :=
  siteOf sch h = none ∧ h.vpce = [] ∧ h.isV6 = true

instance (sch : Scheme) (h : Ppv2.Header) : Decidable (PassesThrough sch h) :=
  inferInstanceAs (Decidable (_ ∧ _ ∧ _))

/-- An address of the range a member spells, IPv4 in its mapped form. -/
def InSource (member : Bytes) (a : U128) : Prop :=
  (∃ base width, v4Member member = some (base, width) ∧
      Agree (96 + width) a (toU128 (mappedV4 base))) ∨
    ∃ base width, v6Member member = some (base, width) ∧
      Agree width a (toU128 base)

/-- The source of a header lies in the range a member spells. -/
def SourceIn (member : Bytes) (h : Ppv2.Header) : Prop := InSource member (mapped h)

/-- A reference is `!` and the number of a declared site or of the quarantine. -/
theorem siteRef_eq_some_iff {sch : Scheme} {member : Bytes} {id : UInt16} :
    siteRef sch member = some id ↔ ∃ number, member = 33 :: number ∧
      parseU16 number = some id ∧ (id = siteContested ∨ ∃ s ∈ sch.sites, s.id = id) := by
  rw [siteRef, Option.filter_eq_some_iff]
  simp only [decide_eq_true_eq, List.any_eq_true, Option.bind_eq_some_iff, stripPrefix,
    Option.ite_none_right_eq_some, Option.some.injEq, List.isPrefixOf_iff_prefix]
  constructor
  · rintro ⟨⟨number, ⟨⟨rest, rfl⟩, rfl⟩, hid⟩, hknown⟩
    exact ⟨rest, rfl, hid, hknown⟩
  · rintro ⟨number, rfl, hid, hknown⟩
    exact ⟨⟨number, ⟨⟨number, rfl⟩, rfl⟩, hid⟩, hknown⟩

/-- An address text alone, of the full width, or with a slash and a width of at
most `max` behind it. -/
def WithWidth (max : Nat) (member addr : Bytes) (width : Nat) : Prop :=
  47 ∉ addr ∧ ((member = addr ∧ width = max) ∨
    ∃ bits, member = addr ++ 47 :: bits ∧ parseU8 bits = some width ∧ width ≤ max)

theorem read_iff_withWidth {max : Nat} {member : Bytes} {width : Nat} {α : Type}
    {parse : Bytes → Option α} {base : α} :
    (parse (addrAndWidth member).1 = some base ∧
        bitsOf (addrAndWidth member).2 max = some width) ↔
      ∃ addr, WithWidth max member addr width ∧ parse addr = some base := by
  cases hsplit : splitOnce 47 member with
  | none =>
      have hslash := splitOnce_eq_none_iff.mp hsplit
      simp only [addrAndWidth, hsplit, bitsOf, Option.some.injEq]
      constructor
      · rintro ⟨hbase, rfl⟩
        exact ⟨member, ⟨hslash, Or.inl ⟨rfl, rfl⟩⟩, hbase⟩
      · rintro ⟨addr, ⟨-, ⟨rfl, rfl⟩ | ⟨bits, rfl, -⟩⟩, hbase⟩
        · exact ⟨hbase, rfl⟩
        · exact absurd (by simp) hslash
  | some parts =>
      obtain ⟨addr, bits⟩ := parts
      obtain ⟨rfl, hslash⟩ := splitOnce_eq_some_iff.mp hsplit
      simp only [addrAndWidth, hsplit, bitsOf, Option.filter_eq_some_iff, decide_eq_true_eq]
      constructor
      · rintro ⟨hbase, hbits, hle⟩
        exact ⟨addr, ⟨hslash, Or.inr ⟨bits, rfl, hbits, hle⟩⟩, hbase⟩
      · rintro ⟨addr', ⟨hslash', ⟨rfl, -⟩ | ⟨bits', htext, hbits, hle⟩⟩, hbase⟩
        · exact absurd (by simp) hslash'
        · have hsplit' : splitOnce 47 (addr' ++ 47 :: bits') = some (addr', bits') :=
            splitOnce_append hslash'
          rw [← htext, hsplit, Option.some.injEq, Prod.mk.injEq] at hsplit'
          obtain ⟨rfl, rfl⟩ := hsplit'
          exact ⟨hbase, hbits, hle⟩

/-- An IPv4 member is an address, with a width of at most 32 if any. -/
theorem v4Member_eq_some_iff {member : Bytes} {base : Octets 4} {width : Nat} :
    v4Member member = some (base, width) ↔
      ∃ addr, WithWidth 32 member addr width ∧ parseIpv4 addr = some base := by
  rw [← read_iff_withWidth]
  cases haddr : parseIpv4 (addrAndWidth member).1 with
  | none => simp [v4Member, haddr]
  | some v4 =>
      cases hbits : bitsOf (addrAndWidth member).2 32 with
      | none => simp [v4Member, haddr, hbits]
      | some bits => simp [v4Member, haddr, hbits]

/-- An IPv6 member is an address, with a width of at most 128 if any. -/
theorem v6Member_eq_some_iff {member : Bytes} {base : Octets 16} {width : Nat} :
    v6Member member = some (base, width) ↔
      ∃ addr, WithWidth 128 member addr width ∧ parseIpv6 addr = some base := by
  rw [← read_iff_withWidth]
  cases haddr : parseIpv6 (addrAndWidth member).1 with
  | none => simp [v6Member, haddr]
  | some v6 =>
      cases hbits : bitsOf (addrAndWidth member).2 128 with
      | none => simp [v6Member, haddr, hbits]
      | some bits => simp [v6Member, haddr, hbits]

theorem parseIpv4_bang (rest : Bytes) : parseIpv4 (33 :: rest) = none := by
  have hread : readIpv4 (33 :: rest) = none :=
    readIpv4_eq_none [] (by simp)
      (by simp [Radix.Stops, Radix.toDigit]) (by simp)
  simp [parseIpv4, parseWith, hread]

theorem parseIpv6_bang (rest : Bytes) : parseIpv6 (33 :: rest) = none := by
  have hv4 : readIpv4 (33 :: rest) = none :=
    readIpv4_eq_none [] (by simp)
      (by simp [Radix.Stops, Radix.toDigit]) (by simp)
  have hgroup : readGroup (33 :: rest) = none :=
    readGroup_eq_none (by simp [Radix.Stops, Radix.toDigit])
  simp [parseIpv6, parseWith, readIpv6, readGroups, readSeparator, readChar,
    hv4, hgroup]

theorem WithWidth.bang {max width : Nat} {rest addr : Bytes}
    (h : WithWidth max (33 :: rest) addr width) : ∃ tail, addr = 33 :: tail := by
  obtain ⟨-, ⟨haddr, -⟩ | ⟨bits, htext, -⟩⟩ := h
  · exact ⟨rest, haddr.symm⟩
  · cases addr with
    | nil => simp at htext
    | cons c addr =>
        simp only [List.cons_append, List.cons.injEq] at htext
        exact ⟨addr, by rw [htext.1]⟩

/-- No address starts like a site reference. -/
theorem addr_none_of_siteRef {sch : Scheme} {member : Bytes} {id : UInt16}
    (href : siteRef sch member = some id) :
    v4Member member = none ∧ v6Member member = none := by
  obtain ⟨rest, rfl, -⟩ := siteRef_eq_some_iff.mp href
  constructor
  · rw [Option.eq_none_iff_forall_ne_some]
    rintro ⟨base, width⟩ hv4
    obtain ⟨addr, hwidth, hparse⟩ := v4Member_eq_some_iff.mp hv4
    obtain ⟨tail, rfl⟩ := hwidth.bang
    rw [parseIpv4_bang] at hparse
    cases hparse
  · rw [Option.eq_none_iff_forall_ne_some]
    rintro ⟨base, width⟩ hv6
    obtain ⟨addr, hwidth, hparse⟩ := v6Member_eq_some_iff.mp hv6
    obtain ⟨tail, rfl⟩ := hwidth.bang
    rw [parseIpv6_bang] at hparse
    cases hparse

/-- A dotted quad alone is no IPv6 address. -/
theorem parseIpv6_of_parseIpv4 {text : Bytes} {ip : Ipv4Addr}
    (h : parseIpv4 text = some ip) : parseIpv6 text = none := by
  have hread : ∃ rest, readIpv4 text = some (ip, rest) := by
    unfold parseIpv4 parseWith at h
    split at h
    · cases h
    · cases hread : readIpv4 text with
      | none => simp [hread] at h
      | some result =>
          obtain ⟨value, rest⟩ := result
          rw [hread] at h
          cases rest with
          | nil => exact ⟨[], by rw [Option.some.inj h]⟩
          | cons c rest => cases h
  obtain ⟨rest, hread⟩ := hread
  obtain ⟨a, b, c, d, hbytes⟩ : ∃ a b c d, ip.bytes = [a, b, c, d] := by
    have hlength := ip.length_eq
    match hip : ip.bytes with
    | [a, b, c, d] => exact ⟨a, b, c, d, rfl⟩
    | [] | [_] | [_, _] | [_, _, _] | _ :: _ :: _ :: _ :: _ :: _ =>
        simp [hip] at hlength
  simp [parseIpv6, parseWith, readIpv6, readGroups, readSeparator, hread,
    hbytes, groupsOf]

theorem v6Member_of_v4Member {member : Bytes} {parts : Octets 4 × Nat}
    (h : v4Member member = some parts) : v6Member member = none := by
  unfold v4Member at h
  cases hparse : parseIpv4 (addrAndWidth member).1 with
  | none => simp [hparse] at h
  | some ip => simp [v6Member, parseIpv6_of_parseIpv4 hparse]

theorem v4Member_of_v6Member {member : Bytes} {parts : Octets 16 × Nat}
    (h : v6Member member = some parts) : v4Member member = none := by
  cases hv4 : v4Member member with
  | none => rfl
  | some v4 => simp [v6Member_of_v4Member hv4] at h

theorem siteRef_of_v4Member {sch : Scheme} {member : Bytes}
    {parts : Octets 4 × Nat} (h : v4Member member = some parts) :
    siteRef sch member = none := by
  cases href : siteRef sch member with
  | none => rfl
  | some id => simp [(addr_none_of_siteRef href).1] at h

theorem siteRef_of_v6Member {sch : Scheme} {member : Bytes}
    {parts : Octets 16 × Nat} (h : v6Member member = some parts) :
    siteRef sch member = none := by
  cases href : siteRef sch member with
  | none => rfl
  | some id => simp [(addr_none_of_siteRef href).2] at h

theorem bitsOf_le {width : Option Bytes} {max b : Nat}
    (h : bitsOf width max = some b) : b ≤ max := by
  cases width with
  | none => simp_all [bitsOf]
  | some w =>
      simp only [bitsOf, Option.filter_eq_some_iff, decide_eq_true_eq] at h
      exact h.2

theorem v4Member_width_le {member : Bytes} {base : Octets 4} {width : Nat}
    (h : v4Member member = some (base, width)) : width ≤ 32 := by
  unfold v4Member at h
  cases hbits : bitsOf (addrAndWidth member).2 32 with
  | none => simp [hbits] at h
  | some b =>
      cases hparse : parseIpv4 (addrAndWidth member).1 with
      | none => simp [hbits, hparse] at h
      | some ip =>
          simp only [hbits, hparse, Option.some.injEq, Prod.mk.injEq] at h
          exact h.2 ▸ bitsOf_le hbits

theorem v6Member_width_le {member : Bytes} {base : Octets 16} {width : Nat}
    (h : v6Member member = some (base, width)) : width ≤ 128 := by
  unfold v6Member at h
  cases hbits : bitsOf (addrAndWidth member).2 128 with
  | none => simp [hbits] at h
  | some b =>
      cases hparse : parseIpv6 (addrAndWidth member).1 with
      | none => simp [hbits, hparse] at h
      | some ip =>
          simp only [hbits, hparse, Option.some.injEq, Prod.mk.injEq] at h
          exact h.2 ▸ bitsOf_le hbits

theorem reads_exists (sch : Scheme) (member : Bytes) :
    ∃ m, Reads sch member m := by
  cases href : siteRef sch member with
  | some id => exact ⟨_, .siteRef href⟩
  | none =>
      cases hv4 : v4Member member with
      | some parts =>
          by_cases howns : ∃ id, OwnsRange sch id (96 + parts.2)
              (toU128 (mappedV4 parts.1))
          · obtain ⟨id, howns⟩ := howns
            exact ⟨_, .v4Owned hv4 howns⟩
          · exact ⟨_, .v4 hv4 (not_exists.mp howns)⟩
      | none =>
          cases hv6 : v6Member member with
          | some parts =>
              by_cases howns : ∃ id, OwnsRange sch id parts.2 (toU128 parts.1)
              · obtain ⟨id, howns⟩ := howns
                exact ⟨_, .v6Owned hv6 howns⟩
              · exact ⟨_, .v6 hv6 (not_exists.mp howns)⟩
          | none =>
              cases hlisted : sch.labelSite member with
              | some id => exact ⟨_, .listed href hv4 hv6 hlisted⟩
              | none => exact ⟨_, .label href hv4 hv6 hlisted⟩

/-- The space of a meaning: an address and a width. -/
def Meaning.space [Sha256] (pfx : Prefix) : Meaning → Octets 16 × Nat
  | .site id => (assemble pfx kindSite (siteBody id) zeroQuad, 96)
  | .v4 base width => (assemble pfx kindAddr zeroQuad base, 96 + width)
  | .v6 base width => (base, width)
  | .label text => (assemble pfx kindVpce (hashBody text) zeroQuad, 96)

theorem rangeSite_rangeOf (sch : Scheme) (base : U128) (width : Nat)
    (id : UInt16) :
    sch.rangeSite (rangeOf base width).1 (rangeOf base width).2 = some id ↔
      OwnsRange sch id width base := by
  rw [rangeOf_eq]
  rw [sch.rangeSite_iff_forall_addrSite
    (Cidr.Range.ofPrefix base width).start_le_stop]
  constructor
  · intro hall a hagree
    obtain ⟨hlo, hhi⟩ := (Cidr.Range.mem_ofPrefix base width a).mpr hagree
    exact hall a hlo hhi
  · intro howns a hlo hhi
    exact howns a ((Cidr.Range.mem_ofPrefix base width a).mp ⟨hlo, hhi⟩)

theorem rangeSite_rangeOf_none {sch : Scheme} {base : U128} {width : Nat}
    (hopen : ∀ id, ¬ OwnsRange sch id width base) :
    sch.rangeSite (rangeOf base width).1 (rangeOf base width).2 = none := by
  rw [Option.eq_none_iff_forall_ne_some]
  exact fun id hsome => hopen id ((rangeSite_rangeOf sch base width id).mp hsome)

/-- One case per rule of the reading. -/
theorem encodeMember_of_reads [Sha256] {sch : Scheme} {member : Bytes}
    {m : Meaning} (hreads : Reads sch member m) :
    encodeMember sch member =
      cidrText (m.space sch.pfx).1 (m.space sch.pfx).2 := by
  cases hreads with
  | siteRef href =>
      simp [encodeMember, href, siteSpace, cidrText, Meaning.space]
  | v4Owned hv4 howns =>
      have href : siteRef sch member = none := siteRef_of_v4Member hv4
      have hrange := (rangeSite_rangeOf sch _ _ _).mpr howns
      simp [encodeMember, href, hv4, mappedBase_eq, hrange, siteSpace, cidrText,
        Meaning.space]
  | v4 hv4 hopen =>
      have href : siteRef sch member = none := siteRef_of_v4Member hv4
      have hrange := rangeSite_rangeOf_none hopen
      simp [encodeMember, href, hv4, mappedBase_eq, hrange, cidrText,
        Meaning.space]
  | v6Owned hv6 howns =>
      have href : siteRef sch member = none := siteRef_of_v6Member hv6
      have hv4 : v4Member member = none := v4Member_of_v6Member hv6
      have hrange := (rangeSite_rangeOf sch _ _ _).mpr howns
      simp [encodeMember, href, hv4, hv6, hrange, siteSpace, cidrText,
        Meaning.space]
  | v6 hv6 hopen =>
      have href : siteRef sch member = none := siteRef_of_v6Member hv6
      have hv4 : v4Member member = none := v4Member_of_v6Member hv6
      have hrange := rangeSite_rangeOf_none hopen
      simp [encodeMember, href, hv4, hv6, hrange, cidrText, Meaning.space]
  | listed href hv4 hv6 hlisted =>
      simp [encodeMember, href, hv4, hv6, hlisted, siteSpace, cidrText,
        Meaning.space]
  | label href hv4 hv6 hlisted =>
      simp [encodeMember, href, hv4, hv6, hlisted, cidrText, Meaning.space]

theorem space_width_le [Sha256] {sch : Scheme} {member : Bytes} {m : Meaning}
    (hreads : Reads sch member m) : (m.space sch.pfx).2 ≤ 128 := by
  cases hreads with
  | siteRef | v4Owned | v6Owned | listed | label => simp [Meaning.space]
  | v4 hv4 =>
      have := v4Member_width_le hv4
      simp only [Meaning.space]
      omega
  | v6 hv6 => exact v6Member_width_le hv6

end Identity

end Ppv2Auth
