/-
The UDP listener filter: parse, enforce, strip.  A datagram is self-contained,
so one that is short is simply not PPv2.
-/
import Ppv2Auth.Filters.Envoy

namespace Ppv2Auth

namespace Filters

open Rust Identity

structure Ppv2AuthFilter where
  counters : Counters
  /-- Reused across datagrams. -/
  payload : Bytes
deriving DecidableEq

def Ppv2AuthFilter.new (counters : Counters) : Ppv2AuthFilter := ⟨counters, []⟩

/-- What one datagram brings. -/
structure UdpHost where
  /-- `get_datagram_data` -/
  chunks : List Bytes
  table : Option Table
  /-- What `set_datagram_data` returns. -/
  setsDatagramData : Bool

/-- One chunk is borrowed in place, several are joined. -/
def datagram (chunks : List Bytes) : Bytes :=
  if chunks.length = 1 then chunks.headD []
  else chunks.foldl (fun v c => v ++ c) []

inductive UdpDecision where
  /-- The stripped payload is staged in the filter. -/
  | forward
  | denied
  | notPpv2
deriving Repr, DecidableEq

/-- The datagram up to the judgement: the header and the bytes it heads. -/
def readDatagram [Sha256] (scheme : Scheme) (buf : Bytes) :
    Option (U128 × Bytes) :=
  match Ppv2.parse buf with
  | .ok h => some (toU128 (synthesize scheme h), buf.drop h.len)
  | .error _ => none

/-- The judgement stages the payload when it allows the datagram. -/
def Ppv2AuthFilter.stage (f : Ppv2AuthFilter) (payload : Bytes)
    (permitted : Bool) : Ppv2AuthFilter × UdpDecision :=
  if permitted then ({ f with payload }, .forward) else (f, .denied)

def Ppv2AuthFilter.settle (f : Ppv2AuthFilter) (decision : UdpDecision)
    (setsDatagramData : Bool) : Outcome Ppv2AuthFilter :=
  match decision with
  | .forward =>
      ⟨f, bump f.counters.allowed ++ [.setDatagramData f.payload],
        if setsDatagramData then .continueIteration else .stopIteration⟩
  | .denied => ⟨f, bump f.counters.denied, .stopIteration⟩
  | .notPpv2 => ⟨f, bump f.counters.notPpv2, .stopIteration⟩

/-- `on_data`, with the answers `permits_unscoped` gives. -/
def Ppv2AuthFilter.onData [Sha256] (f : Ppv2AuthFilter) (host : UdpHost)
    (permits : U128 → Bool) : Outcome Ppv2AuthFilter :=
  match host.table with
  | none => ⟨f, [], .stopIteration⟩
  | some table =>
      match readDatagram table.scheme (datagram host.chunks) with
      | some (id, payload) =>
          let (f, decision) := f.stage payload (permits id)
          f.settle decision host.setsDatagramData
      | none => f.settle .notPpv2 host.setsDatagramData

end Filters

end Ppv2Auth
