/-
The split TLS chain.  The identity crosses from `ppv2` to `auth` as the text of
the remote address, and while nobody has written that it is the peer's own
text; so `auth` judges a label exactly as long as an unlabelled peer is not an
IPv6 address its scopes permit.
-/
import Ppv2Auth.Runs.Judgements
import Ppv2Auth.Runs.Lanes

namespace Ppv2Auth

namespace Runs

open Rust Identity Filters

/-- What the socket says of the peer before anything is written there. -/
inductive Peer where
  | unknown
  | v4 (text : Bytes) (port : UInt32) (ip : Ipv4Addr)
      (spells : parseIpv4 text = some ip)
  | v6 (text : Bytes) (port : UInt32) (ip : Ipv6Addr)
      (spells : parseIpv6 text = some ip)

def Peer.address : Peer → Option (Bytes × UInt32)
  | .unknown => none
  | .v4 text port _ _ => some (text, port)
  | .v6 text port _ _ => some (text, port)

/-- The address of an IPv6 peer. -/
def Peer.ipv6 : Peer → Option U128
  | .v6 _ _ ip _ => some (toU128 ip)
  | _ => none

inductive ChainFilter where
  /-- `ppv2`, or `ppv2_auth`, which labels as well -/
  | ppv2 (filter : Ppv2Filter)
  | auth (filter : AuthFilter)
  /-- Any filter that leaves the remote address alone. -/
  | passive
deriving DecidableEq

/-- One connection on its way through a chain. -/
structure Connection where
  peer : Peer
  /-- What was last given to `set_remote_address`. -/
  label : Option (Bytes × UInt32)
  /-- The header that label was made of. -/
  header : Option Ppv2.Header
  /-- The filters that have not let it through; the first one has it. -/
  waiting : List ChainFilter
  closed : Bool

def Connection.start (peer : Peer) (chain : List ChainFilter) : Connection where
  peer := peer
  label := none
  header := none
  waiting := chain
  closed := false

/-- `get_remote_address` -/
def Connection.remote (c : Connection) : Option (Bytes × UInt32) :=
  c.label.or c.peer.address

inductive ChainAct where
  /-- `on_data` of a filter that reads the header, with what it finds and the
  answers its rules give. -/
  | data (buffer : Option Bytes) (setsRemoteAddress : Bool) (permits : U128 → Bool)
  /-- `on_accept` of an `auth` filter with others behind it. -/
  | accept (serverName : Option Bytes) (permits : Bytes → U128 → Bool)
  | pass

/-- A label the host accepted is the remote address from now on. -/
def Connection.relabel (c : Connection) (buffer : Option Bytes)
    (setsRemoteAddress : Bool) (calls : List EnvoyCall) : Connection :=
  match labelOf calls with
  | some label =>
      if setsRemoteAddress then
        { c with
          label := some label
          header := (Ppv2.parse (buffer.getD [])).toOption }
      else c
  | none => c

/-- The filter in front has answered. -/
def Connection.answer (c : Connection) (filter : ChainFilter) (behind : List ChainFilter)
    (calls : List EnvoyCall) (status : Status) : Connection :=
  { c with
    waiting := if status = .continueIteration then behind else filter :: behind
    closed := calls.any EnvoyCall.isClose }

section Step

variable [Sha256]

/-- One callback, with `t` published. -/
def Connection.step (t : Table) (c : Connection) (act : ChainAct) : Option Connection :=
  if c.closed then none
  else
    match c.waiting, act with
    | .ppv2 f :: behind, .data buffer setsRemoteAddress permits =>
        let outcome := f.onData ⟨buffer, some t, setsRemoteAddress⟩ permits
        some ((c.relabel buffer setsRemoteAddress outcome.calls).answer
          (.ppv2 outcome.filter) behind outcome.calls outcome.status)
    | .auth f :: next :: behind, .accept serverName permits =>
        let outcome := f.onAccept c.remote serverName permits
        some (c.answer (.auth outcome.filter) (next :: behind) outcome.calls
          outcome.status)
    | .passive :: behind, .pass => some { c with waiting := behind }
    | _, _ => none

/-- What the `auth` filter at the end answers, once it has the connection. -/
def Connection.verdict (c : Connection) (serverName : Option Bytes)
    (permits : Bytes → U128 → Bool) : Option Status :=
  match c.closed, c.waiting with
  | false, [.auth f] => some (f.onAccept c.remote serverName permits).status
  | _, _ => none

/-- The rules of an `auth` filter while `cell` is what is published: as parsed,
or after calls from any connection. -/
inductive Served (raw : RawRules) (cell : Published) : Config → Prop where
  | parsed : Served raw cell (.ofRaw raw)
  | call {c : Config} (h : Served raw cell c) (sni : Bytes) (addr : U128) :
      Served raw cell (c.permits cell sni addr).1

/-- The one table published throughout. -/
def onlyTable (t : Table) : Published := Published.initial.publish t

/-- What the scopes say, expanded against a table. -/
def scopesPermit (raw : RawRules) (t : Table) (serverName : Option Bytes)
    (addr : U128) : Bool :=
  ((Config.ofRaw raw).rules.expand (some t)).permits (serverName.getD []) addr

end Step

section Rules

variable [Sha256] {raw : RawRules} {t : Table} {c : Config} {cell : Published}

theorem permits_of_fresh (h : c.cache.1 = cell.generation) (sni : Bytes) (addr : U128) :
    c.permits cell sni addr = (c, c.judge sni addr) := by
  simp [Config.permits, Config.isStale, h]

theorem permits_of_stale (h : c.cache.1 ≠ cell.generation) (sni : Bytes) (addr : U128) :
    c.permits cell sni addr =
      ({ c with cache := (cell.generation, c.rules.expand cell.table) },
        (c.rules.expand cell.table).permits sni addr) := by
  simp [Config.permits, Config.isStale, Config.rebuild, h, Config.judge]

/-- A cache of the one generation is the expansion of its table. -/
theorem Served.cached (h : Served raw (onlyTable t) c) :
    c.rules = (Config.ofRaw raw).rules ∧
      (c.cache.1 = (onlyTable t).generation →
        c.cache.2 = (Config.ofRaw raw).rules.expand (some t)) := by
  induction h with
  | parsed =>
      constructor
      · rfl
      · intro hgeneration
        have hinitial : noGeneration ≠ 0 + 1 := by decide
        exact absurd hgeneration hinitial
  | @call c _ sni addr ih =>
      obtain ⟨hrules, hcache⟩ := ih
      by_cases hsame : c.cache.1 = (onlyTable t).generation
      · rw [permits_of_fresh hsame]
        exact ⟨hrules, hcache⟩
      · rw [permits_of_stale hsame]
        exact ⟨hrules, fun _ => by rw [hrules]; rfl⟩

theorem Served.permits (h : Served raw (onlyTable t) c) (serverName : Option Bytes)
    (addr : U128) :
    (c.permits (onlyTable t) (serverName.getD []) addr).2 =
      scopesPermit raw t serverName addr := by
  obtain ⟨hrules, hcache⟩ := h.cached
  by_cases hsame : c.cache.1 = (onlyTable t).generation
  · rw [permits_of_fresh hsame, Config.judge, hcache hsame]
    rfl
  · rw [permits_of_stale hsame, hrules]
    rfl

end Rules

section Label

variable [Sha256] {t : Table} {c c' : Connection} {act : ChainAct}

omit [Sha256] in
theorem labelOf_bump (id : Option Nat) (calls : List EnvoyCall) :
    labelOf (bump id ++ calls) = labelOf calls := by
  cases id <;> rfl

/-- The label of an accepted header is its identity as a text. -/
def labelFor (t : Table) (h : Ppv2.Header) : Bytes × UInt32 :=
  ((format (synthesize t.scheme h)).text, h.srcPort.toUInt32)

theorem labelOf_labelCalls (h : Ppv2.Header) (calls : List EnvoyCall) :
    labelOf (labelCalls t.scheme h ++ calls) = some (labelFor t h) := rfl

/-- A callback that labels has parsed the header it labels by. -/
theorem labelOf_onData (f : Ppv2Filter) (buffer : Option Bytes) (permits : U128 → Bool) :
    labelOf (f.onData ⟨buffer, some t, true⟩ permits).calls = none ∨
      ∃ h, Ppv2.parse (buffer.getD []) = .ok h ∧
        labelOf (f.onData ⟨buffer, some t, true⟩ permits).calls = some (labelFor t h) := by
  cases hrefused : f.refused with
  | true =>
      left
      rw [onData_of_refused permits hrefused]
      rfl
  | false =>
      cases hdone : f.done with
      | true =>
          left
          rw [onData_of_done permits hrefused hdone]
          rfl
      | false =>
          have hfresh : f.Fresh := ⟨hrefused, hdone⟩
          cases hparse : Ppv2.parse (buffer.getD []) with
          | ok h =>
              right
              refine ⟨h, rfl, ?_⟩
              rw [onData_ok permits hfresh rfl hparse, if_neg (by simp)]
              cases hanswer : !f.enforce || permits (toU128 (synthesize t.scheme h)) with
              | true => exact labelOf_labelCalls h _
              | false =>
                  rw [Ppv2Filter.conclude, if_neg (by simp), Ppv2Filter.refuse,
                    List.append_assoc]
                  exact labelOf_labelCalls h _
          | error e =>
              left
              cases e with
              | need n =>
                  rw [onData_need permits hfresh rfl hparse]
                  rfl
              | invalid =>
                  rw [onData_invalid permits hfresh rfl hparse, Ppv2Filter.refuse,
                    labelOf_bump]
                  rfl

/-- The label is the identity of the header it was made of. -/
structure Labelled (t : Table) (peer : Peer) (c : Connection) : Prop where
  peer : c.peer = peer
  label : c.label = c.header.map (labelFor t)

theorem labelled_start (peer : Peer) (chain : List ChainFilter) :
    Labelled t peer (.start peer chain) := ⟨rfl, rfl⟩

theorem Labelled.relabel {peer : Peer} (h : Labelled t peer c) (f : Ppv2Filter)
    (buffer : Option Bytes) (setsRemoteAddress : Bool) (permits : U128 → Bool) :
    Labelled t peer (c.relabel buffer setsRemoteAddress
      (f.onData ⟨buffer, some t, setsRemoteAddress⟩ permits).calls) := by
  cases setsRemoteAddress with
  | false =>
      unfold Connection.relabel
      split <;> exact h
  | true =>
      rcases labelOf_onData f buffer permits with hnone | ⟨header, hparse, hlabel⟩
      · rw [Connection.relabel, hnone]
        exact h
      · rw [Connection.relabel, hlabel, hparse]
        exact ⟨h.peer, rfl⟩

theorem Labelled.step {peer : Peer} (h : Labelled t peer c)
    (hstep : c.step t act = some c') : Labelled t peer c' := by
  unfold Connection.step at hstep
  split_ifs at hstep with hclosed
  split at hstep
  · next f behind buffer setsRemoteAddress permits hwaiting =>
      cases hstep
      have hrelabelled := h.relabel f buffer setsRemoteAddress permits
      exact ⟨hrelabelled.peer, hrelabelled.label⟩
  · cases hstep
    exact ⟨h.peer, h.label⟩
  · cases hstep
    exact ⟨h.peer, h.label⟩
  · cases hstep

/-- The run lemma of `Labelled.step`. -/
theorem labelled_of_exec {peer : Peer} {chain : List ChainFilter} {acts : List ChainAct}
    (hrun : Transition.exec (Connection.step t) (.start peer chain) acts = some c) :
    Labelled t peer c :=
  Transition.exec_invariant (fun _ _ _ h _ hstep => Labelled.step h hstep)
    (labelled_start peer chain) (Transition.meets_of_forall (fun _ _ _ => trivial) _) hrun

/-- What `auth` reads: the last label, or the address of an IPv6 peer. -/
theorem labelledIdentity_remote {peer : Peer} (h : Labelled t peer c) :
    labelledIdentity c.remote =
      (c.header.map fun header => toU128 (synthesize t.scheme header)).or peer.ipv6 := by
  obtain ⟨hpeer, hlabel⟩ := h
  rw [Connection.remote, hlabel]
  cases c.header with
  | some header => simp [labelFor, labelledIdentity, parseIpv6_displayIpv6]
  | none =>
      subst hpeer
      cases c.peer with
      | unknown => rfl
      | v4 text port ip spells =>
          simp [Peer.address, Peer.ipv6, labelledIdentity, parseIpv6_of_parseIpv4 spells]
      | v6 text port ip spells => simp [Peer.address, Peer.ipv6, labelledIdentity, spells]

end Label

section Verdict

theorem stop_iff {status : Status} :
    status = .stopIteration ↔ ¬ status = .continueIteration := by
  cases status <;> decide

variable [Sha256] {t : Table} {c : Connection}

/-- Wherever a chain hands over to the `auth` filter at its end, that judges
what was labelled and refuses the rest, exactly when a filter did label the
connection or the peer is no IPv6 address the scopes permit. -/
theorem auth_judges_label_iff {peer : Peer} {chain : List ChainFilter}
    {acts : List ChainAct} {f : AuthFilter} {raw : RawRules} {cfg : Config}
    (hrun : Transition.exec (Connection.step t) (.start peer chain) acts = some c)
    (hopen : c.closed = false) (hlast : c.waiting = [.auth f])
    (hserved : Served raw (onlyTable t) cfg) (serverName : Option Bytes) :
    ((c.verdict serverName (fun sni addr => (cfg.permits (onlyTable t) sni addr).2) =
          some .continueIteration ↔
        ∃ h, c.header = some h ∧
          scopesPermit raw t serverName (toU128 (synthesize t.scheme h)) = true) ∧
      (c.header = none →
        c.verdict serverName (fun sni addr => (cfg.permits (onlyTable t) sni addr).2) =
          some .stopIteration)) ↔
      c.header ≠ none ∨
        ∀ addr, peer.ipv6 = some addr → scopesPermit raw t serverName addr = false := by
  have hlabelled := labelled_of_exec hrun
  simp only [Connection.verdict, hopen, hlast, Option.some.injEq]
  rw [stop_iff, onAccept_continue_iff, labelledIdentity_remote hlabelled]
  simp only [hserved.permits]
  cases c.header with
  | some h => simp
  | none =>
      cases peer.ipv6 with
      | none => simp
      | some addr => simp

end Verdict

namespace ChainWitness

attribute [local instance] MeetingWitness.endpointDigest

open JudgementsWitness (bare)

/-- One server name, for the clients of one network. -/
def sniRules : RawRules where
  allow := []
  scopes := some [⟨[ascii "example.com"], [ascii "2001:db8::/32", ascii "10.0.0.0/8"]⟩]

/-- A header for 10.0.0.1. -/
def office : Bytes := MeetingWitness.wire 0x11 10 0 0 1

def officeHeader : Ppv2.Header := MeetingWitness.office

def balancer : Peer :=
  .v4 (ascii "10.1.2.3") 40000 ⟨[10, 1, 2, 3], rfl⟩ (by decide +kernel)

def arrived : Connection :=
  .start balancer [.ppv2 (.new false noCounters), .auth ⟨noCounters, false⟩]

def delivered : Connection :=
  (arrived.step bare (.data (some office) true fun _ => false)).getD arrived

/-- The chain as it is meant to run: labelled by `ppv2`, judged by `auth`. -/
theorem auth_judges_label_office :
    delivered.verdict (some (ascii "example.com")) (fun sni addr =>
      ((Config.ofRaw sniRules).permits (onlyTable bare) sni addr).2) =
        some .continueIteration := by
  have hstep : (arrived.step bare (.data (some office) true fun _ => false)).isSome =
      true := by decide +kernel
  have hrun : Transition.exec (Connection.step bare) arrived
      [.data (some office) true fun _ => false] = some delivered := by
    obtain ⟨c, hc⟩ := Option.isSome_iff_exists.mp hstep
    simp [Transition.exec, delivered, hc]
  have hheader : delivered.header = some officeHeader := by decide +kernel
  have hlast : delivered.waiting = [.auth ⟨noCounters, false⟩] := by decide +kernel
  have hserved : Served sniRules (onlyTable bare) (.ofRaw sniRules) := .parsed
  have hjudges := (auth_judges_label_iff hrun (by decide +kernel) hlast hserved
    (some (ascii "example.com"))).mpr (Or.inl (by simp [hheader]))
  exact hjudges.1.mpr ⟨officeHeader, hheader, by decide +kernel⟩

def stranger : Peer :=
  .v6 (ascii "2001:db8::1") 40000
    ⟨[0x20, 0x01, 0x0d, 0xb8, 0, 0, 0, 0, 0, 0, 0, 0, 0, 0, 0, 1], rfl⟩
    (by decide +kernel)

def unlabelled : Connection := .start stranger [.auth ⟨noCounters, false⟩]

/-- No `ppv2` filter ran, and an IPv6 peer is judged by its own address. -/
theorem stranger_admitted :
    validateAuth (Config.ofRaw sniRules).rules = .ok () ∧ unlabelled.header = none ∧
      unlabelled.verdict (some (ascii "example.com")) (fun sni addr =>
        ((Config.ofRaw sniRules).permits (onlyTable bare) sni addr).2) =
          some .continueIteration := by
  decide +kernel

end ChainWitness

end Runs

end Ppv2Auth
