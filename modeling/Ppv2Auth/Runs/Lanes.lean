/-
What a lane asks `permits` about.  Whichever filters read the header, the
identity is the one synthesized from it under the table read, and they admit
exactly when the rules permit that identity.
-/
import Ppv2Auth.Rust.NetText
import Ppv2Auth.Runs.World

namespace Ppv2Auth

namespace Runs

open Rust Identity Filters

theorem fresh_new (enforce : Bool) (counters : Counters) :
    (Ppv2Filter.new enforce counters).Fresh := ⟨rfl, rfl⟩

theorem conclude_status (f : Ppv2Filter) (calls : List EnvoyCall)
    (permitted : Bool) :
    (f.conclude calls permitted).status = .continueIteration ↔
      permitted = true := by
  cases permitted <;>
    simp [Ppv2Filter.conclude, Ppv2Filter.accept, Ppv2Filter.refuse]

/-- `auth` admits what it reads as a label and its rules permit. -/
theorem onAccept_continue_iff (f : AuthFilter) (remote : Option (Bytes × UInt32))
    (serverName : Option Bytes) (permits : Bytes → U128 → Bool) :
    (f.onAccept remote serverName permits).status = .continueIteration ↔
      ∃ id, labelledIdentity remote = some id ∧
        permits (serverName.getD []) id = true := by
  cases hremote : labelledIdentity remote with
  | none => simp [AuthFilter.onAccept, AuthFilter.examine, hremote, AuthFilter.refuse]
  | some id =>
      cases hpermits : permits (serverName.getD []) id <;>
        simp [AuthFilter.onAccept, AuthFilter.examine, hremote, AuthFilter.conclude,
          AuthFilter.refuse, hpermits]

/-- The header a lane labels by.  A stream whose label the host rejects has
none; a datagram is never labelled. -/
def Traffic.header (x : Traffic) : Option Ppv2.Header :=
  if x.lane = .udp ∨ x.setsRemoteAddress = true then (Ppv2.parse x.bytes).toOption
  else none

theorem parse_of_header {x : Traffic} {h : Ppv2.Header}
    (hheader : x.header = some h) :
    Ppv2.parse x.bytes = .ok h := by
  unfold Traffic.header at hheader
  split at hheader
  · cases hparse : Ppv2.parse x.bytes with
    | ok h' => simpa [hparse, Except.toOption] using hheader
    | error e => simp [hparse, Except.toOption] at hheader
  · cases hheader

section Callbacks

variable [Sha256]

/-- The callbacks of a lane to their end, with `t` published and the answers
`permits` gives; a datagram's payload is accepted. -/
def Traffic.admitted (x : Traffic) (t : Table) (sni : Bytes)
    (permits : Bytes → U128 → Bool) : Bool :=
  match x.lane with
  | .tcp =>
      ((Ppv2Filter.new true noCounters).onData
        ⟨some x.bytes, some t, x.setsRemoteAddress⟩ (permits sni)).status =
          .continueIteration
  | .udp =>
      ((Ppv2AuthFilter.new noCounters).onData
        ⟨[x.bytes], some t, true⟩ (permits sni)).status = .continueIteration
  | .tls =>
      let outcome := (Ppv2Filter.new false noCounters).onData
        ⟨some x.bytes, some t, x.setsRemoteAddress⟩ fun _ => false
      outcome.status = .continueIteration ∧
        ((⟨noCounters, false⟩ : AuthFilter).onAccept (labelOf outcome.calls)
          (some sni) permits).status = .continueIteration

/-- The text written onto the socket reads back as the identity. -/
theorem labelledIdentity_labelCalls (scheme : Scheme) (h : Ppv2.Header)
    (calls : List EnvoyCall) :
    labelledIdentity (labelOf (labelCalls scheme h ++ calls)) =
      some (toU128 (synthesize scheme h)) := by
  simp [labelOf, labelCalls, labelledIdentity, parseIpv6_displayIpv6]

variable {x : Traffic} {t : Table} (permits : U128 → Bool)

theorem onData_of_no_header (hlane : x.lane ≠ .udp) (hheader : x.header = none)
    (enforce : Bool) :
    ((Ppv2Filter.new enforce noCounters).onData
      ⟨some x.bytes, some t, x.setsRemoteAddress⟩ permits).status =
        .stopIteration := by
  have hfresh := fresh_new enforce noCounters
  cases hparse : Ppv2.parse x.bytes with
  | ok h =>
      have hlabel : x.setsRemoteAddress = false := by
        simpa [Traffic.header, hlane, hparse, Except.toOption] using hheader
      have hok : (Ppv2Filter.new enforce noCounters).onData
          ⟨some x.bytes, some t, x.setsRemoteAddress⟩ permits = _ :=
        onData_ok permits hfresh rfl hparse
      rw [hok, if_pos hlabel]
      rfl
  | error e =>
      cases e with
      | need n =>
          have hneed : (Ppv2Filter.new enforce noCounters).onData
              ⟨some x.bytes, some t, x.setsRemoteAddress⟩ permits = _ :=
            onData_need permits hfresh rfl hparse
          rw [hneed]
      | invalid =>
          have hinvalid : (Ppv2Filter.new enforce noCounters).onData
              ⟨some x.bytes, some t, x.setsRemoteAddress⟩ permits = _ :=
            onData_invalid permits hfresh rfl hparse
          rw [hinvalid]
          rfl

theorem onData_of_header (hlane : x.lane ≠ .udp) {h : Ppv2.Header}
    (hheader : x.header = some h) (enforce : Bool) :
    (Ppv2Filter.new enforce noCounters).onData
        ⟨some x.bytes, some t, x.setsRemoteAddress⟩ permits =
      (Ppv2Filter.new enforce noCounters).conclude (labelCalls t.scheme h)
        (!enforce || permits (toU128 (synthesize t.scheme h))) := by
  have hlabel : ¬ x.setsRemoteAddress = false := by
    intro hfalse
    simp [Traffic.header, hlane, hfalse] at hheader
  have hok : (Ppv2Filter.new enforce noCounters).onData
      ⟨some x.bytes, some t, x.setsRemoteAddress⟩ permits = _ :=
    onData_ok permits (fresh_new enforce noCounters) rfl (parse_of_header hheader)
  rw [hok, if_neg hlabel]
  rfl

/-- On every lane: the identity synthesized from the header. -/
theorem Traffic.identity_eq (x : Traffic) (t : Table) :
    x.identity t = x.header.map fun h => toU128 (synthesize t.scheme h) := by
  obtain ⟨lane, bytes, setsRemoteAddress⟩ := x
  cases lane with
  | tcp =>
      cases hparse : Ppv2.parse bytes with
      | error e =>
          cases e <;>
            simp [Traffic.identity, Traffic.header, Ppv2Filter.examine,
              Ppv2Filter.new, inspect, hparse, Except.toOption]
      | ok h =>
          cases setsRemoteAddress <;>
            simp [Traffic.identity, Traffic.header, Ppv2Filter.examine,
              Ppv2Filter.new, inspect, hparse, Except.toOption]
  | udp =>
      cases hparse : Ppv2.parse bytes <;>
        simp [Traffic.identity, Traffic.header, readDatagram, hparse,
          Except.toOption]
  | tls =>
      cases hheader : (⟨.tls, bytes, setsRemoteAddress⟩ : Traffic).header with
      | none => simp [Traffic.identity, onData_of_no_header _ _ hheader]
      | some h =>
          simp [Traffic.identity, onData_of_header _ _ hheader,
            Ppv2Filter.conclude, Ppv2Filter.accept, labelledIdentity_labelCalls,
            AuthFilter.examine, -List.append_nil]

/-- On every lane: the filters admit what the rules permit. -/
theorem Traffic.admitted_iff (x : Traffic) (t : Table) (sni : Bytes)
    (permits : Bytes → U128 → Bool) :
    x.admitted t sni permits = true ↔
      ∃ h, x.header = some h ∧
        permits sni (toU128 (synthesize t.scheme h)) = true := by
  obtain ⟨lane, bytes, setsRemoteAddress⟩ := x
  cases lane with
  | tcp =>
      cases hheader : (⟨.tcp, bytes, setsRemoteAddress⟩ : Traffic).header with
      | none => simp [Traffic.admitted, onData_of_no_header _ _ hheader]
      | some h =>
          simp [Traffic.admitted, onData_of_header _ _ hheader, conclude_status]
  | udp =>
      cases hparse : Ppv2.parse bytes with
      | error e =>
          simp [Traffic.admitted, Traffic.header, Ppv2AuthFilter.onData, datagram,
            readDatagram, hparse, Ppv2AuthFilter.settle, Except.toOption]
      | ok h =>
          cases hpermits : permits sni (toU128 (synthesize t.scheme h)) <;>
            simp [Traffic.admitted, Traffic.header, Ppv2AuthFilter.onData,
              datagram, readDatagram, hparse, Ppv2AuthFilter.settle,
              Ppv2AuthFilter.stage, Except.toOption, hpermits]
  | tls =>
      cases hheader : (⟨.tls, bytes, setsRemoteAddress⟩ : Traffic).header with
      | none => simp [Traffic.admitted, onData_of_no_header _ _ hheader]
      | some h =>
          simp [Traffic.admitted, onData_of_header _ _ hheader,
            Ppv2Filter.conclude, Ppv2Filter.accept, onAccept_continue_iff,
            labelledIdentity_labelCalls t.scheme h]

end Callbacks

end Runs

end Ppv2Auth
