/-
The TCP listener filters.  `ppv2` and `ppv2_auth` parse the header, synthesize
the identity, label the socket and strip the header; `ppv2_auth` also judges.
`auth` reads the label a `ppv2` filter left and scopes it by server name.
-/
import Ppv2Auth.Filters.Envoy

namespace Ppv2Auth

namespace Filters

open Rust Identity

/-- What the load balancer attested, for the log; the endpoint id is truncated
to its buffer. -/
structure Attested where
  vpce : Bytes
  src : Octets 16
  isV6 : Bool
deriving DecidableEq

def Attested.of (h : Ppv2.Header) : Attested := ⟨h.vpce.take 32, h.src, h.isV6⟩

/-- Text only, or nothing. -/
def Attested.vpceText (a : Attested) : Bytes :=
  if (ByteArray.mk a.vpce.toArray).validateUTF8 then a.vpce else []

def Attested.srcText (a : Attested) : Bytes := (formatSrc a.src a.isV6).text

inductive Decision where
  | label (id : U128) (text : AddrText) (port : UInt32) (len : Nat)
      (said : Attested)
  /-- Total bytes wanted, not the remainder. -/
  | need (total : Nat)
  | notProxyProtocol

/-- Read the buffer, parse, synthesize. -/
def inspect [Sha256] (scheme : Scheme) (buffer : Option Bytes) : Decision :=
  match Ppv2.parse (buffer.getD []) with
  | .ok h =>
      let addr := synthesize scheme h
      .label (toU128 addr) (format addr) h.srcPort.toUInt32 h.len (.of h)
  | .error (.need n) => .need n
  | .error .invalid => .notProxyProtocol

/-- The shared rules are the host's side; the filter keeps its own flags. -/
structure Ppv2Filter where
  enforce : Bool
  counters : Counters
  /-- Total bytes from the start of the connection. -/
  want : Nat
  /-- Terminal and asymmetric: `done` admits, `refused` can never admit. -/
  done : Bool
  refused : Bool
deriving DecidableEq

/-- The ceiling up front. -/
def Ppv2Filter.new (enforce : Bool) (counters : Counters) : Ppv2Filter where
  enforce := enforce
  counters := counters
  want := Ppv2.maxHeader
  done := false
  refused := false

/-- Close the socket; the flag is set here so that no caller forgets it. -/
def Ppv2Filter.refuse (f : Ppv2Filter) (calls : List EnvoyCall)
    (reason : String) : Outcome Ppv2Filter where
  filter := { f with refused := true }
  calls := calls ++
    [.setDownstreamTransportFailureReason reason, .continueFilterChain false]
  status := .stopIteration

def Ppv2Filter.maxReadBytes (f : Ppv2Filter) : Nat := f.want

/-- What one callback finds. -/
structure TcpHost where
  /-- `get_buffer_chunk` -/
  buffer : Option Bytes
  /-- The table in `published()`. -/
  table : Option Table
  /-- What `set_remote_address` returns. -/
  setsRemoteAddress : Bool

def Ppv2Filter.accept (f : Ppv2Filter) (calls : List EnvoyCall) :
    Outcome Ppv2Filter where
  filter := { f with done := true }
  calls := calls ++ bump f.counters.allowed
  status := .continueIteration

/-- `on_data` up to the judgement.  Refusal wins over everything. -/
def Ppv2Filter.examine [Sha256] (f : Ppv2Filter) (host : TcpHost) :
    Examined Ppv2Filter :=
  if f.refused then .settled ⟨f, [], .stopIteration⟩
  else if f.done then .settled ⟨f, [], .continueIteration⟩
  else
    match host.table with
    | none => .settled (f.refuse [] "no_identity_table")
    | some table =>
        match inspect table.scheme host.buffer with
        | .need n => .settled ⟨{ f with want := n }, [], .stopIteration⟩
        | .notProxyProtocol =>
            .settled (f.refuse (bump f.counters.notPpv2) "not_proxy_protocol")
        | .label id text port len said =>
            let labelled := [.setRemoteAddress text.text port true]
            if ¬ host.setsRemoteAddress then
              .settled (f.refuse labelled "set_remote_address_failed")
            else
              -- Labelled and stripped before judging, so the log shows what
              -- was judged.
              let calls := labelled ++
                [.setDynamicMetadataString "ppv2_auth" "vpce_id" said.vpceText,
                  .setDynamicMetadataString "ppv2_auth" "src" said.srcText,
                  .drainBuffer len]
              if f.enforce then .judge id calls else .settled (f.accept calls)

/-- `on_data` after the judgement. -/
def Ppv2Filter.conclude (f : Ppv2Filter) (calls : List EnvoyCall)
    (permitted : Bool) : Outcome Ppv2Filter :=
  if permitted then f.accept calls
  else f.refuse (calls ++ bump f.counters.denied) "denied_by_allowlist"

/-- One callback, with the answers `permits_unscoped` gives. -/
def Ppv2Filter.onData [Sha256] (f : Ppv2Filter) (host : TcpHost)
    (permits : U128 → Bool) : Outcome Ppv2Filter :=
  match f.examine host with
  | .settled outcome => outcome
  | .judge id calls => f.conclude calls (permits id)

/-- Neither terminal flag is set. -/
structure Ppv2Filter.Fresh (f : Ppv2Filter) : Prop where
  refused : f.refused = false
  done : f.done = false

/-- What is asked of the host for a parsed header whose label it takes. -/
def labelCalls [Sha256] (scheme : Scheme) (h : Ppv2.Header) : List EnvoyCall :=
  [.setRemoteAddress (format (synthesize scheme h)).text h.srcPort.toUInt32 true,
    .setDynamicMetadataString "ppv2_auth" "vpce_id" (Attested.of h).vpceText,
    .setDynamicMetadataString "ppv2_auth" "src" (Attested.of h).srcText,
    .drainBuffer h.len]

section Equations

variable [Sha256] {f : Ppv2Filter} {host : TcpHost} (permits : U128 → Bool)

theorem onData_of_refused (hrefused : f.refused = true) :
    f.onData host permits = ⟨f, [], .stopIteration⟩ := by
  simp [Ppv2Filter.onData, Ppv2Filter.examine, hrefused]

theorem onData_of_done (hrefused : f.refused = false) (hdone : f.done = true) :
    f.onData host permits = ⟨f, [], .continueIteration⟩ := by
  simp [Ppv2Filter.onData, Ppv2Filter.examine, hrefused, hdone]

theorem onData_no_table (hfresh : f.Fresh) (htable : host.table = none) :
    f.onData host permits = f.refuse [] "no_identity_table" := by
  simp [Ppv2Filter.onData, Ppv2Filter.examine, hfresh.refused, hfresh.done,
    htable]

variable {table : Table}

theorem onData_need (hfresh : f.Fresh) (htable : host.table = some table)
    {n : Nat} (hparse : Ppv2.parse (host.buffer.getD []) = .error (.need n)) :
    f.onData host permits = ⟨{ f with want := n }, [], .stopIteration⟩ := by
  simp [Ppv2Filter.onData, Ppv2Filter.examine, hfresh.refused, hfresh.done,
    htable, inspect, hparse]

theorem onData_invalid (hfresh : f.Fresh) (htable : host.table = some table)
    (hparse : Ppv2.parse (host.buffer.getD []) = .error .invalid) :
    f.onData host permits =
      f.refuse (bump f.counters.notPpv2) "not_proxy_protocol" := by
  simp [Ppv2Filter.onData, Ppv2Filter.examine, hfresh.refused, hfresh.done,
    htable, inspect, hparse]

/-- A parsed header: the label may be rejected; otherwise an enforcing filter
asks about the identity and a labelling one admits. -/
theorem onData_ok (hfresh : f.Fresh) (htable : host.table = some table)
    {h : Ppv2.Header} (hparse : Ppv2.parse (host.buffer.getD []) = .ok h) :
    f.onData host permits =
      if host.setsRemoteAddress = false then
        f.refuse ((labelCalls table.scheme h).take 1) "set_remote_address_failed"
      else
        f.conclude (labelCalls table.scheme h)
          (!f.enforce || permits (toU128 (synthesize table.scheme h))) := by
  cases hlabel : host.setsRemoteAddress with
  | false =>
      simp [Ppv2Filter.onData, Ppv2Filter.examine, hfresh.refused, hfresh.done,
        htable, inspect, hparse, hlabel, labelCalls]
  | true =>
      cases henforce : f.enforce with
      | false =>
          simp [Ppv2Filter.onData, Ppv2Filter.examine, hfresh.refused,
            hfresh.done, htable, inspect, hparse, hlabel, henforce, labelCalls,
            Ppv2Filter.conclude]
      | true =>
          simp [Ppv2Filter.onData, Ppv2Filter.examine, hfresh.refused,
            hfresh.done, htable, inspect, hparse, hlabel, henforce, labelCalls]

end Equations

structure AuthFilter where
  counters : Counters
  /-- Terminal either way. -/
  settled : Bool
deriving DecidableEq

def AuthFilter.refuse (f : AuthFilter) (calls : List EnvoyCall)
    (reason : String) : Outcome AuthFilter where
  filter := { f with settled := true }
  calls := calls ++
    [.setDownstreamTransportFailureReason reason, .continueFilterChain false]
  status := .stopIteration

/-- The address a preceding `ppv2` filter wrote onto the socket. -/
def labelledIdentity (remote : Option (Bytes × UInt32)) : Option U128 :=
  remote.bind fun (text, _) => (parseIpv6 text).map toU128

/-- `on_accept` up to the judgement: the server name and the identity asked
about, when there is a label. -/
def AuthFilter.examine (f : AuthFilter) (remote : Option (Bytes × UInt32)) :
    Examined AuthFilter :=
  match labelledIdentity remote with
  | none => .settled (f.refuse (bump f.counters.denied) "no_identity_label")
  | some id => .judge id []

def AuthFilter.conclude (f : AuthFilter) (permitted : Bool) :
    Outcome AuthFilter :=
  if permitted then
    ⟨{ f with settled := true }, bump f.counters.allowed, .continueIteration⟩
  else f.refuse (bump f.counters.denied) "denied_by_allowlist"

/-- `on_accept`: the label, the server name and the answers `permits`
gives. -/
def AuthFilter.onAccept (f : AuthFilter) (remote : Option (Bytes × UInt32))
    (serverName : Option Bytes) (permits : Bytes → U128 → Bool) :
    Outcome AuthFilter :=
  match f.examine remote with
  | .settled outcome => outcome
  | .judge id _ => f.conclude (permits (serverName.getD []) id)

/-- Never called while `max_read_bytes` is zero; fails closed. -/
def AuthFilter.onData (f : AuthFilter) : Outcome AuthFilter :=
  if f.settled then ⟨f, [], .stopIteration⟩ else f.refuse [] "unexpected_on_data"

end Filters

end Ppv2Auth
