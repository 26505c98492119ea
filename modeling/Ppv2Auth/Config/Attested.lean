/-
What the metadata of a connection shows, beside its label.  The endpoint id and
the source read back, so a log line names the caller whatever table it was
judged under; and the source, written as a rule, admits the site that claims it
or else the bare connections from it.
-/
import Ppv2Auth.Config.Logged
import Ppv2Auth.Filters.Conversation

namespace Ppv2Auth

open Rust Identity BitPrefix Expansion Filters

section Source

variable (h : Ppv2.Header)

theorem srcText_eq : (Attested.of h).srcText =
    if h.isV6 then displayIpv6 h.src else displayIpv4 (v4Of h.src) := by
  have hv6 := displayIpv6_length_le h.src
  have hv4 : (displayIpv4 (v4Of h.src)).length ≤ 46 :=
    (displayIpv4_length_le _).trans (by omega)
  cases hfamily : h.isV6 <;>
    simp [Attested.srcText, Attested.of, formatSrc, hfamily, AddrText.writeStr, AddrText.empty,
      hv4, hv6]

theorem addrByte_srcText : ∀ c ∈ (Attested.of h).srcText, AddrByte c := by
  rw [srcText_eq]
  split
  · exact addrByte_displayIpv6 h.src
  · exact addrByte_dotted _

/-- No text is an address of both families. -/
theorem parseIpv4_displayIpv6 (addr : Octets 16) : parseIpv4 (displayIpv6 addr) = none := by
  cases hparse : parseIpv4 (displayIpv6 addr) with
  | none => rfl
  | some v4 =>
      have hv6 := parseIpv6_of_parseIpv4 hparse
      rw [parseIpv6_displayIpv6] at hv6
      cases hv6

end Source

section Member

variable {addr : Octets 4} {sch : Scheme} {meaning : Meaning}

theorem mappedV4_inj {x y : Octets 4} : toU128 (mappedV4 x) = toU128 (mappedV4 y) ↔ x = y := by
  rw [toU128_inj]
  constructor
  · intro heq
    exact Octets.ext_bytes (List.append_cancel_left (congrArg Octets.bytes heq))
  · rintro rfl
    rfl

theorem agree_quad_iff {x y : Octets 4} : Agree 32 (quad x) (quad y) ↔ x = y := by
  rw [agree_iff_div]
  simp only [quad_toNat, Nat.sub_self, pow_zero, Nat.div_one]
  constructor
  · intro heq
    exact Octets.ext_bytes (BigEndian.value_injective (by simp) heq)
  · rintro rfl
    rfl

theorem v4Member_displayIpv4 (addr : Octets 4) :
    v4Member (displayIpv4 addr) = some (addr, 32) := by
  have hbytes : ∀ c ∈ displayIpv4 addr, AddrByte c := addrByte_dotted addr.bytes
  simp [v4Member, addrAndWidth_of_addrBytes hbytes, parseIpv4_displayIpv4, bitsOf]

/-- What the text of an IPv4 address means: the site that claims it, or itself. -/
theorem reads_displayIpv4_iff :
    Reads sch (displayIpv4 addr) meaning ↔
      (∃ id, sch.addrSite (toU128 (mappedV4 addr)) = some id ∧ meaning = .site id) ∨
        (sch.addrSite (toU128 (mappedV4 addr)) = none ∧ meaning = .v4 addr 32) := by
  have hv4 := v4Member_displayIpv4 addr
  have hv6 := v6Member_of_v4Member hv4
  constructor
  · intro hreads
    cases hreads with
    | siteRef href => simp [(addr_none_of_siteRef href).1] at hv4
    | v4Owned hv4' howns =>
        rw [hv4, Option.some.injEq, Prod.mk.injEq] at hv4'
        obtain ⟨rfl, rfl⟩ := hv4'
        exact Or.inl ⟨_, ownsRange_128_iff.mp howns, rfl⟩
    | v4 hv4' hopen =>
        rw [hv4, Option.some.injEq, Prod.mk.injEq] at hv4'
        obtain ⟨rfl, rfl⟩ := hv4'
        refine Or.inr ⟨?_, rfl⟩
        rw [Option.eq_none_iff_forall_ne_some]
        exact fun id howned => hopen id (ownsRange_128_iff.mpr howned)
    | v6Owned hv6' => simp [hv6] at hv6'
    | v6 hv6' => simp [hv6] at hv6'
    | listed _ hnone => simp [hv4] at hnone
    | label _ hnone => simp [hv4] at hnone
  · rintro (⟨id, howned, rfl⟩ | ⟨hnone, rfl⟩)
    · exact .v4Owned hv4 (ownsRange_128_iff.mpr howned)
    · refine .v4 hv4 fun id howns => ?_
      have howned : sch.addrSite (toU128 (mappedV4 addr)) = some id := ownsRange_128_iff.mp howns
      rw [hnone] at howned
      cases howned

end Member

section Covers

variable [Sha256] {t : Table} {h h' : Ppv2.Header}

/-- What the text of an IPv4 address admits. -/
theorem covers_displayIpv4_iff {addr : Octets 4} :
    Covers t (displayIpv4 addr) h ↔
      (∃ id, t.scheme.addrSite (toU128 (mappedV4 addr)) = some id ∧
          ∃ m, siteOf t.scheme h = some m ∧ m.id = id) ∨
        (t.scheme.addrSite (toU128 (mappedV4 addr)) = none ∧ h.vpce = [] ∧ h.isV6 = false ∧
          v4Of h.src = addr) := by
  have hbytes : ∀ c ∈ displayIpv4 addr, AddrByte c := addrByte_dotted addr.bytes
  simp only [Covers, ne_all_of_addrBytes hbytes, false_and, false_or, ne_eq,
    not_false_eq_true, true_and, reads_displayIpv4_iff, or_and_right, exists_or]
  refine or_congr ?_ ?_
  · constructor
    · rintro ⟨meaning, ⟨id, howned, rfl⟩, hholds⟩
      exact ⟨id, howned, hholds⟩
    · rintro ⟨id, howned, hholds⟩
      exact ⟨.site id, ⟨id, howned, rfl⟩, hholds⟩
  · constructor
    · rintro ⟨meaning, ⟨hnone, rfl⟩, hfamily, hvpce, -, hagree⟩
      exact ⟨hnone, hvpce, hfamily, agree_quad_iff.mp hagree⟩
    · rintro ⟨hnone, hvpce, hfamily, rfl⟩
      have hsite : siteOf t.scheme h = none := by
        rw [siteOf_none_of_vpce_nil hvpce, mapped, if_neg (by simp [hfamily]), hnone]
        rfl
      exact ⟨.v4 (v4Of h.src) 32, ⟨hnone, rfl⟩, hfamily, hvpce, hsite,
        agree_quad_iff.mpr rfl⟩

/-- Outside the /48 an identity is an address only by passing it through. -/
theorem synthesize_eq_src_iff (hout : ¬ InPrefix t.scheme.pfx h.src)
    (hnone : t.scheme.addrSite (toU128 h.src) = none) :
    synthesize t.scheme h' = h.src ↔ h'.vpce = [] ∧ h'.isV6 = true ∧ h'.src = h.src := by
  constructor
  · intro hsame
    have hpass : PassesThrough t.scheme h' := by
      by_contra hpass
      exact hout (hsame ▸ inPrefix_synthesize_iff.mpr (Or.inl hpass))
    rw [synthesize_of_passesThrough hpass] at hsame
    exact ⟨hpass.2.1, hpass.2.2, hsame⟩
  · rintro ⟨hvpce, hfamily, hsrc⟩
    have hsite : siteOf t.scheme h' = none := by
      rw [siteOf_none_of_vpce_nil hvpce, mapped, if_pos hfamily, hsrc, hnone]
      rfl
    rw [synthesize_of_passesThrough ⟨hsite, hvpce, hfamily⟩, hsrc]

/-- What the text of a source admits. -/
theorem covers_srcText_iff (hout : h.isV6 = true → ¬ InPrefix t.scheme.pfx h.src) :
    Covers t (Attested.of h).srcText h' ↔
      (∃ id, t.scheme.addrSite (mapped h) = some id ∧
          ∃ m, siteOf t.scheme h' = some m ∧ m.id = id) ∨
        (t.scheme.addrSite (mapped h) = none ∧ h'.vpce = [] ∧ h'.isV6 = h.isV6 ∧
          mapped h' = mapped h) := by
  rw [srcText_eq]
  cases hfamily : h.isV6 with
  | false =>
      have hmapped : mapped h = toU128 (mappedV4 (v4Of h.src)) := by simp [mapped, hfamily]
      rw [if_neg Bool.false_ne_true, covers_displayIpv4_iff, hmapped]
      refine or_congr Iff.rfl (and_congr_right fun _ => and_congr_right fun _ =>
        and_congr_right fun hfamily' => ?_)
      rw [mapped, if_neg (by simp [hfamily']), mappedV4_inj]
  | true =>
      have hmapped : mapped h = toU128 h.src := by simp [mapped, hfamily]
      rw [if_pos rfl, covers_displayIpv6_iff, hmapped]
      refine or_congr Iff.rfl (and_congr_right fun hnone => ?_)
      rw [synthesize_eq_src_iff (hout hfamily) hnone]
      refine and_congr_right fun _ => and_congr_right fun hfamily' => ?_
      rw [mapped, if_pos hfamily', toU128_inj]

/-- The logged source of a connection as a rule.  As the one entry of a flat
list it permits the site that claims the source; where no site does, it permits
the connections from that source that carry no endpoint id.  IPv6 sources inside
the /48 are left out, logged or of an unclaimed client. -/
theorem logged_source_permits (hout : h.isV6 = true → ¬ InPrefix t.scheme.pfx h.src)
    (hproper : ¬ (PassesThrough t.scheme h' ∧ InPrefix t.scheme.pfx h'.src)) :
    ((Config.ofRaw ⟨[(Attested.of h).srcText], none⟩).rules.expand (some t)).permits []
        (toU128 (synthesize t.scheme h')) = true ↔
      (∃ id, t.scheme.addrSite (mapped h) = some id ∧
          ∃ m, siteOf t.scheme h' = some m ∧ m.id = id) ∨
        (t.scheme.addrSite (mapped h) = none ∧ h'.vpce = [] ∧ h'.isV6 = h.isV6 ∧
          mapped h' = mapped h) := by
  rw [permits_addrBytes_iff (addrByte_srcText h) hproper]
  exact covers_srcText_iff hout

end Covers

/-- The endpoint id is logged whole. -/
structure LogsWhole (h : Ppv2.Header) : Prop where
  short : h.vpce.length ≤ 32
  valid : (ByteArray.mk h.vpce.toArray).validateUTF8 = true

theorem vpceText_eq {h : Ppv2.Header} (hwhole : LogsWhole h) :
    (Attested.of h).vpceText = h.vpce := by
  simp [Attested.vpceText, Attested.of, List.take_of_length_le hwhole.short, hwhole.valid]

/-- The caller a log line speaks of, as a header without a port. -/
def callerOf (vpceText srcText : Bytes) : Option Ppv2.Header :=
  match parseIpv4 srcText with
  | some v4 => some ⟨0, Octets.fill 16 v4.bytes, 0, false, vpceText⟩
  | none => (parseIpv6 srcText).map fun v6 => ⟨0, v6, 0, true, vpceText⟩

/-- Port and length aside, the identity is one of endpoint id and source. -/
theorem synthesize_congr [Sha256] {h c : Ppv2.Header} (hvpce : c.vpce = h.vpce)
    (hfamily : c.isV6 = h.isV6) (hv4 : h.isV6 = false → v4Of c.src = v4Of h.src)
    (hv6 : h.isV6 = true → c.src = h.src) (sch : Scheme) :
    synthesize sch c = synthesize sch h := by
  have hmapped : mapped c = mapped h := by
    cases hcase : h.isV6 with
    | false => simp [mapped, hfamily, hcase, hv4 hcase]
    | true => simp [mapped, hfamily, hcase, hv6 hcase]
  have hquad : clientQuad c = clientQuad h := by
    cases hcase : h.isV6 with
    | false => simp [clientQuad, hfamily, hcase, hv4 hcase]
    | true => simp [clientQuad, hfamily, hcase]
  have hsite : siteOf sch c = siteOf sch h := by simp [siteOf, hvpce, hmapped]
  cases hcase : h.isV6 with
  | false => simp [synthesize, hsite, hquad, hvpce, hfamily, hcase, hv4 hcase]
  | true => simp [synthesize, hsite, hquad, hvpce, hfamily, hcase, hv6 hcase]

theorem v4Of_fill (v4 : Octets 4) : v4Of (Octets.fill 16 v4.bytes) = v4 := by
  apply Octets.ext_bytes
  simp [v4Of, Octets.fill, List.take_take]

/-- A log line recalls its caller. -/
theorem callerOf_attested [Sha256] {h : Ppv2.Header} (hwhole : LogsWhole h) :
    ∃ c, callerOf (Attested.of h).vpceText (Attested.of h).srcText = some c ∧
      ∀ sch, synthesize sch c = synthesize sch h := by
  rw [vpceText_eq hwhole, srcText_eq, callerOf]
  cases hfamily : h.isV6 with
  | false =>
      simp only [Bool.false_eq_true, ↓reduceIte, parseIpv4_displayIpv4]
      exact ⟨_, rfl, synthesize_congr rfl hfamily.symm (fun _ => v4Of_fill _)
        (by simp [hfamily])⟩
  | true =>
      have hv4 : parseIpv4 (displayIpv6 h.src) = none := parseIpv4_displayIpv6 h.src
      simp only [↓reduceIte, hv4, parseIpv6_displayIpv6, Option.map_some]
      exact ⟨_, rfl, synthesize_congr rfl hfamily.symm (by simp [hfamily]) fun _ => rfl⟩

section Log

variable [Sha256] {f : Ppv2Filter} {host : TcpHost} {permits : U128 → Bool}

omit [Sha256] in
/-- A refusal for want of a table, a header or a label is not a judgement. -/
theorem not_judged_tell {calls : List EnvoyCall} (hquiet : Quiet calls) {reason : String}
    (hreason : reason ≠ "denied_by_allowlist") :
    ¬ ((f.tell calls (.refused reason)).verdict.fate = some .admitted ∨
      (f.tell calls (.refused reason)).verdict.fate =
        some (.refused "denied_by_allowlist")) := by
  simp [fate_tell f _ hquiet, hreason]

/-- What is asked for once a header is admitted or denied. -/
theorem calls_of_fate (hfresh : f.Fresh)
    (hfate : (f.onData host permits).verdict.fate = some .admitted ∨
      (f.onData host permits).verdict.fate = some (.refused "denied_by_allowlist")) :
    ∃ table h rest, host.table = some table ∧ Ppv2.parse (host.buffer.getD []) = .ok h ∧
      (f.onData host permits).calls = labelCalls table.scheme h ++ rest := by
  cases htable : host.table with
  | none =>
      have htell : f.onData host permits = f.tell [] (.refused "no_identity_table") := by
        simp [onData_no_table permits hfresh htable, Ppv2Filter.tell, Counters.of, bump]
      exact absurd (htell ▸ hfate) (not_judged_tell quiet_nil (by decide))
  | some table =>
      cases hparse : Ppv2.parse (host.buffer.getD []) with
      | error e =>
          cases e with
          | need n =>
              rw [onData_need permits hfresh htable hparse] at hfate
              simp [Outcome.verdict, Verdict.fate] at hfate
          | invalid =>
              have htell : f.onData host permits =
                  f.tell [] (.refused "not_proxy_protocol") := by
                simp [onData_invalid permits hfresh htable hparse, Ppv2Filter.tell, Counters.of]
              exact absurd (htell ▸ hfate) (not_judged_tell quiet_nil (by decide))
      | ok h =>
          have hquiet := quiet_labelCalls table.scheme h
          have hok := onData_ok permits hfresh htable hparse
          split_ifs at hok with hlabel
          · have htell : f.onData host permits = f.tell ((labelCalls table.scheme h).take 1)
                (.refused "set_remote_address_failed") := by
              simp [hok, Ppv2Filter.tell, Counters.of, bump]
            have hfirst : Quiet ((labelCalls table.scheme h).take 1) :=
              fun call hcall => hquiet call (List.mem_of_mem_take hcall)
            exact absurd (htell ▸ hfate) (not_judged_tell hfirst (by decide))
          · rw [hok, conclude_eq_tell]
            refine ⟨table, h, ?_⟩
            split_ifs with hpermitted
            · exact ⟨bump f.counters.allowed, rfl, rfl, rfl⟩
            · exact ⟨bump f.counters.denied ++ [.setDownstreamTransportFailureReason
                "denied_by_allowlist", .continueFilterChain false], rfl, rfl,
                by simp [Ppv2Filter.tell, Ppv2Filter.refuse, Counters.of]⟩

/-- The log of a judged connection attests what was judged.  Whether admitted
or denied, before the verdict the label reads back as the identity, and the
endpoint id and the source, where the id is logged whole, recall a caller with
the same identity under every table. -/
theorem log_recalls_judged (hfresh : f.Fresh)
    (hfate : (f.onData host permits).verdict.fate = some .admitted ∨
      (f.onData host permits).verdict.fate = some (.refused "denied_by_allowlist")) :
    ∃ table h label vpceText srcText rest, host.table = some table ∧
      Ppv2.parse (host.buffer.getD []) = .ok h ∧
      (f.onData host permits).calls =
        .setRemoteAddress label h.srcPort.toUInt32 true ::
          .setDynamicMetadataString "ppv2_auth" "vpce_id" vpceText ::
          .setDynamicMetadataString "ppv2_auth" "src" srcText :: .drainBuffer h.len :: rest ∧
      parseIpv6 label = some (synthesize table.scheme h) ∧
      (LogsWhole h → ∃ c, callerOf vpceText srcText = some c ∧
        ∀ sch, synthesize sch c = synthesize sch h) := by
  obtain ⟨table, h, rest, htable, hparse, hcalls⟩ := calls_of_fate hfresh hfate
  refine ⟨table, h, (format (synthesize table.scheme h)).text, (Attested.of h).vpceText,
    (Attested.of h).srcText, rest, htable, hparse, hcalls, ?_, callerOf_attested⟩
  rw [format_text, parseIpv6_displayIpv6]

end Log

namespace AttestedWitness

attribute [local instance] MeetingWitness.endpointDigest

open MeetingWitness (office)
open LoggedWitness (onboarded)

/-- The logged source of a bare client, pasted into the rules. -/
theorem logged_source_permits_office :
    ((Config.ofRaw ⟨[(Attested.of office).srcText], none⟩).rules.expand
      (some onboarded)).permits [] (toU128 (synthesize onboarded.scheme office)) = true :=
  (@logged_source_permits _ onboarded office office nofun
    (fun hin => absurd hin.1.2.2 (by decide))).mpr
    (Or.inr ⟨by decide +kernel, rfl, rfl, rfl⟩)

/-- A connection that is denied, under a table of one site. -/
def denied : TcpHost := ⟨some AccountingWitness.office, some onboarded, true⟩

theorem log_recalls_judged_denied :
    ∃ table h label vpceText srcText rest, denied.table = some table ∧
      Ppv2.parse (denied.buffer.getD []) = .ok h ∧
      ((Ppv2Filter.new true ⟨none, none, none⟩).onData denied fun _ => false).calls =
        .setRemoteAddress label h.srcPort.toUInt32 true ::
          .setDynamicMetadataString "ppv2_auth" "vpce_id" vpceText ::
          .setDynamicMetadataString "ppv2_auth" "src" srcText :: .drainBuffer h.len :: rest ∧
      parseIpv6 label = some (synthesize table.scheme h) ∧
      (LogsWhole h → ∃ c, callerOf vpceText srcText = some c ∧
        ∀ sch, synthesize sch c = synthesize sch h) :=
  log_recalls_judged (f := .new true ⟨none, none, none⟩) ⟨rfl, rfl⟩
    (Or.inr (by decide +kernel))

end AttestedWitness

end Ppv2Auth
