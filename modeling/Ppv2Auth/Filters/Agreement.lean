/-
UDP and TCP enforcement agree.  Joining chunks is flattening them, so a
datagram is its bytes; both filters then ask the same question of the same
header, and what one strips is what the other drains.
-/
import Ppv2Auth.Filters.Segmentation
import Ppv2Auth.Filters.Udp

namespace Ppv2Auth

namespace Filters

open Rust Identity

/-- The borrowed single chunk and the joined copy are one thing. -/
theorem datagram_eq_flatten (chunks : List Bytes) :
    datagram chunks = chunks.flatten := by
  have hjoin : ∀ acc : Bytes,
      chunks.foldl (fun v c => v ++ c) acc = acc ++ chunks.flatten := by
    induction chunks with
    | nil => simp
    | cons c rest ih =>
        intro acc
        rw [List.foldl_cons, ih, List.flatten_cons, List.append_assoc]
  unfold datagram
  split
  · next hone =>
      obtain ⟨c, rfl⟩ := List.length_eq_one_iff.mp hone
      simp
  · simpa using hjoin []

section Agreement

variable [Sha256]

/-- What makes both filters let traffic through. -/
def Passes (table : Option Table) (permits : U128 → Bool) (s : Bytes)
    (h : Ppv2.Header) : Prop :=
  ∃ t, table = some t ∧ Ppv2.parse s = .ok h ∧
    permits (toU128 (synthesize t.scheme h)) = true

/-- Everything `on_data` can come to. -/
inductive UdpReacts (f : Ppv2AuthFilter) (host : UdpHost)
    (permits : U128 → Bool) : Outcome Ppv2AuthFilter → Prop where
  | unready (htable : host.table = none) :
      UdpReacts f host permits ⟨f, [], .stopIteration⟩
  | notPpv2 {t : Table} {e : Ppv2.Error} (htable : host.table = some t)
      (hparse : Ppv2.parse host.chunks.flatten = .error e) :
      UdpReacts f host permits ⟨f, bump f.counters.notPpv2, .stopIteration⟩
  | denied {t : Table} {h : Ppv2.Header} (htable : host.table = some t)
      (hparse : Ppv2.parse host.chunks.flatten = .ok h)
      (hpermits : permits (toU128 (synthesize t.scheme h)) = false) :
      UdpReacts f host permits ⟨f, bump f.counters.denied, .stopIteration⟩
  | passes {h : Ppv2.Header} (hpasses : Passes host.table permits host.chunks.flatten h) :
      UdpReacts f host permits
        ⟨{ f with payload := host.chunks.flatten.drop h.len },
          bump f.counters.allowed ++ [.setDatagramData (host.chunks.flatten.drop h.len)],
          if host.setsDatagramData then .continueIteration else .stopIteration⟩

theorem udp_onData_reacts (f : Ppv2AuthFilter) (host : UdpHost)
    (permits : U128 → Bool) : UdpReacts f host permits (f.onData host permits) := by
  cases htable : host.table with
  | none =>
      have hout : f.onData host permits = ⟨f, [], .stopIteration⟩ := by
        simp [Ppv2AuthFilter.onData, htable]
      exact hout ▸ .unready htable
  | some t =>
      cases hparse : Ppv2.parse host.chunks.flatten with
      | error e =>
          have hout : f.onData host permits =
              ⟨f, bump f.counters.notPpv2, .stopIteration⟩ := by
            simp [Ppv2AuthFilter.onData, datagram_eq_flatten, htable, readDatagram,
              hparse, Ppv2AuthFilter.settle]
          exact hout ▸ .notPpv2 htable hparse
      | ok h =>
          cases hpermits : permits (toU128 (synthesize t.scheme h)) with
          | false =>
              have hout : f.onData host permits =
                  ⟨f, bump f.counters.denied, .stopIteration⟩ := by
                simp [Ppv2AuthFilter.onData, datagram_eq_flatten, htable,
                  readDatagram, hparse, Ppv2AuthFilter.stage, hpermits,
                  Ppv2AuthFilter.settle]
              exact hout ▸ .denied htable hparse hpermits
          | true =>
              have hout : f.onData host permits =
                  ⟨{ f with payload := host.chunks.flatten.drop h.len },
                    bump f.counters.allowed ++
                      [.setDatagramData (host.chunks.flatten.drop h.len)],
                    if host.setsDatagramData then .continueIteration
                    else .stopIteration⟩ := by
                simp [Ppv2AuthFilter.onData, datagram_eq_flatten, htable,
                  readDatagram, hparse, Ppv2AuthFilter.stage, hpermits,
                  Ppv2AuthFilter.settle]
              exact hout ▸ .passes ⟨t, htable, hparse, hpermits⟩

variable {table : Option Table} {permits : U128 → Bool} {s : Bytes}

/-- The outcome of a datagram is a function of its bytes. -/
theorem udp_onData_congr (f : Ppv2AuthFilter) {chunks chunks' : List Bytes}
    (hflatten : chunks.flatten = chunks'.flatten) (setsDatagramData : Bool) :
    f.onData ⟨chunks, table, setsDatagramData⟩ permits =
      f.onData ⟨chunks', table, setsDatagramData⟩ permits := by
  simp only [Ppv2AuthFilter.onData, datagram_eq_flatten, hflatten]

theorem udp_onData_of_passes (f : Ppv2AuthFilter) {chunks : List Bytes}
    {h : Ppv2.Header} (hpasses : Passes table permits chunks.flatten h) :
    f.onData ⟨chunks, table, true⟩ permits =
      ⟨{ f with payload := chunks.flatten.drop h.len },
        bump f.counters.allowed ++ [.setDatagramData (chunks.flatten.drop h.len)],
        .continueIteration⟩ := by
  obtain ⟨t, rfl, hparse, hpermits⟩ := hpasses
  simp [Ppv2AuthFilter.onData, datagram_eq_flatten, readDatagram, hparse,
    Ppv2AuthFilter.stage, hpermits, Ppv2AuthFilter.settle]

/-- A dropped datagram leaves the buffer as it was and stages nothing. -/
theorem udp_onData_of_not_passes (f : Ppv2AuthFilter) {chunks : List Bytes}
    (hstops : ∀ h, ¬ Passes table permits chunks.flatten h)
    (setsDatagramData : Bool) :
    ∃ counter, f.onData ⟨chunks, table, setsDatagramData⟩ permits =
      ⟨f, bump counter, .stopIteration⟩ := by
  have hreacts := udp_onData_reacts f ⟨chunks, table, setsDatagramData⟩ permits
  generalize f.onData ⟨chunks, table, setsDatagramData⟩ permits = outcome at hreacts
  cases hreacts with
  | unready => exact ⟨none, rfl⟩
  | notPpv2 => exact ⟨f.counters.notPpv2, rfl⟩
  | denied => exact ⟨f.counters.denied, rfl⟩
  | passes hpasses => exact absurd hpasses (hstops _)

/-- The enforcing TCP filter shown a stream. -/
def tcpAnswer (counters : Counters) (table : Option Table)
    (permits : U128 → Bool) (shown : Bytes) : Outcome Ppv2Filter :=
  (Ppv2Filter.new true counters).onData ⟨some shown, table, true⟩ permits

theorem tcpAnswer_of_passes (counters : Counters) {h : Ppv2.Header}
    (hpasses : Passes table permits s h) :
    (tcpAnswer counters table permits s).status = .continueIteration ∧
      (tcpAnswer counters table permits s).calls.filter EnvoyCall.isDrain =
        [.drainBuffer h.len] := by
  obtain ⟨t, rfl, hparse, hpermits⟩ := hpasses
  have hfresh : (Ppv2Filter.new true counters).Fresh := ⟨rfl, rfl⟩
  have hout : (Ppv2Filter.new true counters).onData ⟨some s, some t, true⟩
      permits = _ := onData_ok permits hfresh rfl hparse
  rw [if_neg (by simp)] at hout
  have hanswer : (!(Ppv2Filter.new true counters).enforce ||
      permits (toU128 (synthesize t.scheme h))) = true := by simp [hpermits]
  rw [hanswer, Ppv2Filter.conclude, if_pos rfl] at hout
  rw [tcpAnswer, hout]
  refine ⟨rfl, ?_⟩
  rw [Ppv2Filter.accept, List.filter_append, filter_isDrain_bump]
  rfl

theorem passes_of_tcpAnswer {counters : Counters}
    (hcontinue : (tcpAnswer counters table permits s).status =
      .continueIteration) : ∃ h, Passes table permits s h := by
  have hreacts := onData_reacts (Ppv2Filter.new true counters)
    ⟨⟨some s, table, true⟩, permits⟩
  rw [tcpAnswer] at hcontinue
  generalize (Ppv2Filter.new true counters).onData ⟨some s, table, true⟩ permits =
    outcome at hreacts hcontinue
  cases hreacts with
  | refused | waits | refuses => cases hcontinue
  | done _ hdone => cases hdone
  | admits _ _ hadmits =>
      obtain ⟨t, h, htable, hparse, -, -, -, hpermits⟩ := hadmits
      exact ⟨h, t, htable, hparse, hpermits rfl⟩

/-- The filter after a sequence of datagrams. -/
def Ppv2AuthFilter.after (f : Ppv2AuthFilter)
    (datagrams : List (UdpHost × (U128 → Bool))) : Ppv2AuthFilter :=
  datagrams.foldl (fun f d => (f.onData d.1 d.2).filter) f

theorem udp_onData_counters (f : Ppv2AuthFilter) (host : UdpHost)
    (permits : U128 → Bool) :
    (f.onData host permits).filter.counters = f.counters := by
  have hreacts := udp_onData_reacts f host permits
  generalize f.onData host permits = outcome at hreacts
  cases hreacts with
  | unready | notPpv2 | denied | passes => rfl

theorem after_counters (f : Ppv2AuthFilter)
    (datagrams : List (UdpHost × (U128 → Bool))) :
    (f.after datagrams).counters = f.counters := by
  induction datagrams generalizing f with
  | nil => rfl
  | cons d rest ih => exact (ih _).trans (udp_onData_counters f d.1 d.2)

/-- What is asked of the host does not depend on what the buffer held. -/
theorem udp_onData_calls {f f' : Ppv2AuthFilter}
    (hcounters : f.counters = f'.counters) (host : UdpHost)
    (permits : U128 → Bool) :
    (f.onData host permits).calls = (f'.onData host permits).calls := by
  cases htable : host.table with
  | none => simp [Ppv2AuthFilter.onData, htable]
  | some t =>
      cases hread : readDatagram t.scheme (datagram host.chunks) with
      | none =>
          simp [Ppv2AuthFilter.onData, htable, hread, Ppv2AuthFilter.settle,
            hcounters]
      | some parts =>
          cases hanswer : permits parts.1 <;>
            simp [Ppv2AuthFilter.onData, htable, hread, Ppv2AuthFilter.stage,
              hanswer, Ppv2AuthFilter.settle, hcounters]

/-- Enforcement agrees on every byte string and every way of cutting it into
chunks: the outcome depends on the bytes alone, UDP forwards exactly what TCP
admits when shown all of it or up to the ceiling, the forwarded payload is what
TCP leaves in the stream, and nothing staged earlier is ever sent. -/
theorem udp_tcp_agree (table : Option Table) (permits : U128 → Bool)
    (s : Bytes) (counters : Counters) :
    (∀ (f : Ppv2AuthFilter) chunks chunks' setsDatagramData,
        chunks.flatten = s → chunks'.flatten = s →
        f.onData ⟨chunks, table, setsDatagramData⟩ permits =
          f.onData ⟨chunks', table, setsDatagramData⟩ permits) ∧
      (∀ (f : Ppv2AuthFilter) chunks, chunks.flatten = s →
        ∀ shown ∈ [s, s.take Ppv2.maxHeader],
          ((f.onData ⟨chunks, table, true⟩ permits).status = .continueIteration ↔
            (tcpAnswer counters table permits shown).status =
              .continueIteration) ∧
          ((f.onData ⟨chunks, table, true⟩ permits).status = .continueIteration →
            ∃ len, (tcpAnswer counters table permits shown).calls.filter
                EnvoyCall.isDrain = [.drainBuffer len] ∧
              (f.onData ⟨chunks, table, true⟩ permits).calls =
                bump f.counters.allowed ++ [.setDatagramData (s.drop len)])) ∧
      ∀ (f : Ppv2AuthFilter) earlier chunks setsDatagramData,
        ((f.after earlier).onData ⟨chunks, table, setsDatagramData⟩
            permits).calls =
          (f.onData ⟨chunks, table, setsDatagramData⟩ permits).calls := by
  refine ⟨?_, ?_, ?_⟩
  · rintro f chunks chunks' setsDatagramData rfl hflatten
    exact udp_onData_congr f hflatten.symm setsDatagramData
  · rintro f chunks rfl shown hshown
    have hparse : Ppv2.parse shown = Ppv2.parse chunks.flatten := by
      rcases List.mem_cons.mp hshown with rfl | hpeek
      · rfl
      · rw [List.mem_singleton.mp hpeek]
        exact Ppv2.parse_take_of_shown (Nat.min_le_right _ _)
    have hpasses : ∀ h, Passes table permits shown h ↔
        Passes table permits chunks.flatten h := fun h => by
      simp only [Passes, hparse]
    by_cases hsome : ∃ h, Passes table permits chunks.flatten h
    · obtain ⟨h, hh⟩ := hsome
      obtain ⟨hcontinue, hdrain⟩ :=
        tcpAnswer_of_passes counters ((hpasses h).mpr hh)
      have hout := udp_onData_of_passes f hh
      exact ⟨⟨fun _ => hcontinue, fun _ => by rw [hout]⟩, fun _ =>
        ⟨h.len, hdrain, by rw [hout]⟩⟩
    · obtain ⟨counter, hout⟩ :=
        udp_onData_of_not_passes f (not_exists.mp hsome) true
      have hstop : (f.onData ⟨chunks, table, true⟩ permits).status ≠
          .continueIteration := by simp [hout]
      refine ⟨⟨fun hcontinue => absurd hcontinue hstop, fun hcontinue => ?_⟩,
        fun hcontinue => absurd hcontinue hstop⟩
      obtain ⟨h, hh⟩ := passes_of_tcpAnswer hcontinue
      exact absurd ⟨h, (hpasses h).mp hh⟩ hsome
  · intro f earlier chunks setsDatagramData
    exact udp_onData_calls (after_counters f earlier) _ permits

end Agreement

end Filters

end Ppv2Auth
