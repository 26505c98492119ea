/-
A whole pod: the published cell, every filter config the host has handed over
and every filter made from one.  A callback is two steps, what it does up to
its judgement and the judgement itself, since a table may land in between; a
call of `permits` is one step here, its sections interleave in `Runs.World`.
The rules are held with their cache or without.
-/
import Ppv2Auth.Filters.Factory
import Ppv2Auth.Support.Reactive

namespace Ppv2Auth

namespace Pods

open Rust Identity Filters

variable {γ δ : Type}

/-- A config the host has accepted. -/
inductive Hosted (γ : Type) where
  | tcp (config : ListenerFilterConfig γ)
  | udp (config : UdpListenerFilterConfig γ)

/-- The rules a config shares with its filters. -/
def Hosted.cfg : Hosted γ → Option γ
  | .tcp (.ppv2 cfg _ _) => some cfg
  | .tcp (.auth cfg _) => some cfg
  | .tcp .table => none
  | .udp (.ppv2Auth cfg _) => some cfg
  | .udp .table => none
  | .udp .denyAll => none

def Hosted.map (f : γ → δ) : Hosted γ → Hosted δ
  | .tcp (.ppv2 cfg enforce counters) => .tcp (.ppv2 (f cfg) enforce counters)
  | .tcp (.auth cfg counters) => .tcp (.auth (f cfg) counters)
  | .tcp .table => .tcp .table
  | .udp (.ppv2Auth cfg counters) => .udp (.ppv2Auth (f cfg) counters)
  | .udp .table => .udp .table
  | .udp .denyAll => .udp .denyAll

@[simp] theorem Hosted.cfg_map (f : γ → δ) (config : Hosted γ) :
    (config.map f).cfg = config.cfg.map f := by
  cases config with
  | tcp config => cases config <;> rfl
  | udp config => cases config <;> rfl

@[simp] theorem Hosted.map_id (config : Hosted γ) : config.map id = config := by
  cases config with
  | tcp config => cases config <;> rfl
  | udp config => cases config <;> rfl

@[simp] theorem Hosted.map_map {ε : Type} (f : γ → δ) (g : δ → ε) (config : Hosted γ) :
    (config.map f).map g = config.map (g ∘ f) := by
  cases config with
  | tcp config => cases config <;> rfl
  | udp config => cases config <;> rfl

/-- A filter of either protocol. -/
inductive Filter where
  | tcp (filter : ListenerFilter)
  | udp (filter : UdpListenerFilter)
deriving DecidableEq

def Hosted.newFilter : Hosted γ → Filter
  | .tcp config => .tcp config.newListenerFilter
  | .udp config => .udp config.newUdpListenerFilter

@[simp] theorem Hosted.newFilter_map (f : γ → δ) (config : Hosted γ) :
    (config.map f).newFilter = config.newFilter := by
  cases config with
  | tcp config => cases config <;> rfl
  | udp config => cases config <;> rfl

/-- A callback, with what the host shows and answers. -/
inductive Callback where
  | onAccept (remote : Option (Bytes × UInt32)) (serverName : Option Bytes)
  | onData (buffer : Option Bytes) (setsRemoteAddress : Bool)
  | onDatagram (chunks : List Bytes) (setsDatagramData : Bool)

/-- A judgement that is due, with what the callback has done so far. -/
inductive Pending where
  | ppv2 (id : U128) (calls : List EnvoyCall)
  | auth (serverName : Bytes) (id : U128)
  | datagram (id : U128) (payload : Bytes) (setsDatagramData : Bool)
deriving DecidableEq

/-- What `permits` is asked about; unscoped is the empty server name. -/
def Pending.serverName : Pending → Bytes
  | .ppv2 _ _ => []
  | .auth serverName _ => serverName
  | .datagram _ _ _ => []

def Pending.id : Pending → U128
  | .ppv2 id _ => id
  | .auth _ id => id
  | .datagram id _ _ => id

def lift {σ τ : Type} (f : σ → τ) (outcome : Outcome σ) : Outcome τ :=
  ⟨f outcome.filter, outcome.calls, outcome.status⟩

/-- Where the first half of a callback ends. -/
inductive Begun where
  | settled (outcome : Outcome Filter)
  | pending (due : Pending)

section Callbacks

variable [Sha256]

def beginData (table : Option Table) (f : Ppv2Filter) (buffer : Option Bytes)
    (setsRemoteAddress : Bool) : Begun :=
  match f.examine ⟨buffer, table, setsRemoteAddress⟩ with
  | .settled outcome => .settled (lift (fun f => .tcp (.ppv2 f)) outcome)
  | .judge id calls => .pending (.ppv2 id calls)

def beginAccept (f : AuthFilter) (remote : Option (Bytes × UInt32))
    (serverName : Option Bytes) : Begun :=
  match f.examine remote with
  | .settled outcome => .settled (lift (fun f => .tcp (.auth f)) outcome)
  | .judge id _ => .pending (.auth (serverName.getD []) id)

def beginDatagram (table : Option Table) (f : Ppv2AuthFilter) (chunks : List Bytes)
    (setsDatagramData : Bool) : Begun :=
  match table with
  | none => .settled ⟨.udp (.ppv2Auth f), [], .stopIteration⟩
  | some table =>
      match readDatagram table.scheme (datagram chunks) with
      | some (id, payload) => .pending (.datagram id payload setsDatagramData)
      | none =>
          .settled (lift (fun f => .udp (.ppv2Auth f)) (f.settle .notPpv2 setsDatagramData))

/-- A callback up to its judgement; the table is the published one. -/
def Filter.begin (table : Option Table) : Filter → Callback → Option Begun
  -- Always inspect bytes; never admit straight from accept.
  | .tcp (.ppv2 f), .onAccept _ _ => some (.settled ⟨.tcp (.ppv2 f), [], .stopIteration⟩)
  | .tcp (.ppv2 f), .onData buffer setsRemoteAddress =>
      some (beginData table f buffer setsRemoteAddress)
  | .tcp (.auth f), .onAccept remote serverName => some (beginAccept f remote serverName)
  | .tcp (.auth f), .onData _ _ => some (.settled (lift (fun f => .tcp (.auth f)) f.onData))
  | .tcp .table, .onAccept _ _ => some (.settled ⟨.tcp .table, [], .continueIteration⟩)
  | .tcp .table, .onData _ _ => some (.settled ⟨.tcp .table, [], .continueIteration⟩)
  | .udp (.ppv2Auth f), .onDatagram chunks setsDatagramData =>
      some (beginDatagram table f chunks setsDatagramData)
  | .udp .table, .onDatagram _ _ => some (.settled ⟨.udp .table, [], .continueIteration⟩)
  | .udp .denyAll, .onDatagram _ _ => some (.settled ⟨.udp .denyAll, [], .stopIteration⟩)
  | _, _ => none

omit [Sha256] in
/-- The rest of the callback once `permits` has answered. -/
def Filter.finish (permitted : Bool) : Filter → Pending → Option (Outcome Filter)
  | .tcp (.ppv2 f), .ppv2 _ calls =>
      some (lift (fun f => .tcp (.ppv2 f)) (f.conclude calls permitted))
  | .tcp (.auth f), .auth _ _ => some (lift (fun f => .tcp (.auth f)) (f.conclude permitted))
  | .udp (.ppv2Auth f), .datagram _ payload setsDatagramData =>
      let (f, decision) := f.stage payload permitted
      some (lift (fun f => .udp (.ppv2Auth f)) (f.settle decision setsDatagramData))
  | _, _ => none

end Callbacks

/-- A filter, the config it was made from and the judgement it waits for. -/
structure Live where
  owner : Nat
  filter : Filter
  due : Option Pending
deriving DecidableEq

structure Pod (γ : Type) where
  cell : Published
  configs : List (Hosted γ)
  live : List Live

/-- Nothing published, nothing loaded. -/
def Pod.initial : Pod γ := ⟨.initial, [], []⟩

inductive Act where
  | load (name bytes : Bytes) (define : Bytes → Option Nat)
  | loadUdp (name bytes : Bytes) (define : Bytes → Option Nat)
  /-- The host makes a filter from a config. -/
  | newFilter (config : Nat)
  | call (filter : Nat) (callback : Callback)
  /-- One call of `permits`, all of its sections, and what follows it. -/
  | judge (filter : Nat)

inductive Reply where
  | loaded (accepted : Bool)
  | created
  /-- The callback is at its judgement. -/
  | judging
  | answered (calls : List EnvoyCall) (status : Status)
deriving DecidableEq

/-- How rules are held: made from a config, and asked about an identity while
something is published. -/
structure Holding (γ : Type) where
  hold : Config → γ
  permits : γ → Published → Bytes → U128 → γ × Bool

/-- With the cache, as they are. -/
def Holding.cached [Sha256] : Holding Config := ⟨id, Config.permits⟩

def Pod.loaded (p : Pod γ) (cell : Published) (config : Option (Hosted γ)) : Pod γ :=
  { p with cell, configs := p.configs ++ config.toList }

def Pod.setLive (p : Pod γ) (k : Nat) (live : Live) : Pod γ :=
  { p with live := p.live.set k live }

/-- Every filter of a config sees the cache one of them has rebuilt. -/
def Pod.setCfg (p : Pod γ) (owner : Nat) (cfg : γ) : Pod γ :=
  { p with configs := p.configs.modify owner (Hosted.map fun _ => cfg) }

section Step

variable [Sha256] (readers : Readers) (holding : Holding γ)

def Pod.load (p : Pod γ) (name bytes : Bytes) (define : Bytes → Option Nat) :
    Pod γ × Reply :=
  let (cell, config) := newListenerFilterConfig readers define p.cell name bytes
  (p.loaded cell (config.map fun config => (Hosted.tcp config).map holding.hold),
    .loaded config.isSome)

def Pod.loadUdp (p : Pod γ) (name bytes : Bytes) (define : Bytes → Option Nat) :
    Pod γ × Reply :=
  let (cell, config) := newUdpListenerFilterConfig readers define p.cell name bytes
  (p.loaded cell (some ((Hosted.udp config).map holding.hold)), .loaded true)

def Pod.call (p : Pod γ) (k : Nat) (live : Live) (callback : Callback) :
    Option (Pod γ × Reply) :=
  match live.due with
  | some _ => none
  | none =>
      (live.filter.begin p.cell.table callback).map fun
        | .settled outcome =>
            (p.setLive k { live with filter := outcome.filter },
              .answered outcome.calls outcome.status)
        | .pending due => (p.setLive k { live with due := some due }, .judging)

omit [Sha256] in
def Pod.judge (p : Pod γ) (k : Nat) (live : Live) (cfg : γ) (due : Pending) :
    Option (Pod γ × Reply) :=
  let (cfg, permitted) := holding.permits cfg p.cell due.serverName due.id
  (live.filter.finish permitted due).map fun outcome =>
    ((p.setCfg live.owner cfg).setLive k ⟨live.owner, outcome.filter, none⟩,
      .answered outcome.calls outcome.status)

def Pod.step (p : Pod γ) : Act → Option (Pod γ × Reply)
  | .load name bytes define => some (p.load readers holding name bytes define)
  | .loadUdp name bytes define => some (p.loadUdp readers holding name bytes define)
  | .newFilter config =>
      p.configs[config]?.map fun hosted =>
        ({ p with live := p.live ++ [⟨config, hosted.newFilter, none⟩] }, .created)
  | .call k callback => p.live[k]?.bind fun live => p.call k live callback
  | .judge k =>
      p.live[k]?.bind fun live =>
        (p.configs[live.owner]?.bind Hosted.cfg).bind fun cfg =>
          live.due.bind fun due => p.judge holding k live cfg due

/-- A run from the start, with its replies. -/
def Pod.run (acts : List Act) : Option (Pod γ × List Reply) :=
  Reactive.run (Pod.step readers holding) Pod.initial acts

end Step

/-- What the configs loaded so far have published. -/
def Act.publication (readers : Readers) : Act → Option Table
  | .load name bytes _ => Filters.publication readers name bytes
  | .loadUdp name bytes _ => Filters.publication readers name bytes
  | .newFilter _ => none
  | .call _ _ => none
  | .judge _ => none

def publications (readers : Readers) (acts : List Act) : List Table :=
  acts.filterMap (Act.publication readers)

/-- The rules of an accepted config passed the check of its filter. -/
def Hosted.Checked : Hosted Config → Prop
  | .tcp config => config.Checked
  | .udp config => config.Checked

theorem Hosted.Checked.ofRaw {hosted : Hosted Config} (h : hosted.Checked) {cfg : Config}
    (hcfg : hosted.cfg = some cfg) : ∃ raw, cfg = .ofRaw raw := by
  cases hosted with
  | tcp config =>
      cases config with
      | ppv2 cfg' enforce counters =>
          cases hcfg
          cases enforce with
          | true => exact h.2
          | false => exact h.2
      | auth cfg' counters =>
          cases hcfg
          exact h.2
      | table => cases hcfg
  | udp config =>
      cases config with
      | ppv2Auth cfg' counters =>
          cases hcfg
          exact h.2
      | table | denyAll => cases hcfg

/-- The config a load is accepted as. -/
def Act.config (readers : Readers) : Act → Option (Hosted Config)
  | .load name bytes define =>
      (newListenerFilterConfig readers define .initial name bytes).2.map .tcp
  | .loadUdp name bytes define =>
      some (.udp (newUdpListenerFilterConfig readers define .initial name bytes).2)
  | .newFilter _ => none
  | .call _ _ => none
  | .judge _ => none

def loads (readers : Readers) (acts : List Act) : List (Hosted Config) :=
  acts.filterMap (Act.config readers)

theorem Act.config_checked {readers : Readers} {act : Act} {hosted : Hosted Config}
    (h : act.config readers = some hosted) : hosted.Checked := by
  cases act with
  | load name bytes define =>
      obtain ⟨config, hconfig, rfl⟩ := Option.map_eq_some_iff.mp h
      exact newListenerFilterConfig_checked hconfig
  | loadUdp name bytes define =>
      cases h
      exact newUdpListenerFilterConfig_checked
  | newFilter | call | judge => cases h

def Act.IsLoad : Act → Prop
  | .load _ _ _ => True
  | .loadUdp _ _ _ => True
  | .newFilter _ => False
  | .call _ _ => False
  | .judge _ => False

/-- Everything an action can do, and its reply. -/
inductive Steps [Sha256] (readers : Readers) (holding : Holding γ) (p : Pod γ) :
    Act → Pod γ → Reply → Prop where
  | loaded {act : Act} {accepted : Bool} (hload : act.IsLoad) :
      Steps readers holding p act
        (p.loaded (landOn p.cell (act.publication readers))
          ((act.config readers).map (Hosted.map holding.hold))) (.loaded accepted)
  | created {config : Nat} {hosted : Hosted γ}
      (hconfig : p.configs[config]? = some hosted) :
      Steps readers holding p (.newFilter config)
        { p with live := p.live ++ [⟨config, hosted.newFilter, none⟩] } .created
  | settled {k : Nat} {live : Live} {callback : Callback} {outcome : Outcome Filter}
      (hlive : p.live[k]? = some live) (hdue : live.due = none)
      (hbegin : live.filter.begin p.cell.table callback = some (.settled outcome)) :
      Steps readers holding p (.call k callback)
        (p.setLive k ⟨live.owner, outcome.filter, none⟩)
        (.answered outcome.calls outcome.status)
  | judging {k : Nat} {live : Live} {callback : Callback} {due : Pending}
      (hlive : p.live[k]? = some live) (hdue : live.due = none)
      (hbegin : live.filter.begin p.cell.table callback = some (.pending due)) :
      Steps readers holding p (.call k callback)
        (p.setLive k { live with due := some due }) .judging
  | judged {k : Nat} {live : Live} {hosted : Hosted γ} {cfg cfg' : γ} {due : Pending}
      {permitted : Bool} {outcome : Outcome Filter} (hlive : p.live[k]? = some live)
      (hconfig : p.configs[live.owner]? = some hosted) (hcfg : hosted.cfg = some cfg)
      (hdue : live.due = some due)
      (hpermits : holding.permits cfg p.cell due.serverName due.id = (cfg', permitted))
      (hfinish : live.filter.finish permitted due = some outcome) :
      Steps readers holding p (.judge k)
        ((p.setCfg live.owner cfg').setLive k ⟨live.owner, outcome.filter, none⟩)
        (.answered outcome.calls outcome.status)

section Inversion

variable [Sha256] {readers : Readers} {holding : Holding γ} {p p' : Pod γ} {act : Act}
  {reply : Reply}

theorem steps_of_load (name bytes : Bytes) (define : Bytes → Option Nat) :
    Steps readers holding p (.load name bytes define)
      (p.load readers holding name bytes define).1
      (p.load readers holding name bytes define).2 := by
  have hcell : (newListenerFilterConfig readers define p.cell name bytes).1 =
      landOn p.cell ((Act.load name bytes define).publication readers) :=
    newListenerFilterConfig_fst
  have hconfig : (newListenerFilterConfig readers define p.cell name bytes).2.map
        (fun config => (Hosted.tcp config).map holding.hold) =
      ((Act.load name bytes define).config readers).map (Hosted.map holding.hold) := by
    rw [newListenerFilterConfig_snd .initial, Act.config, Option.map_map]
    rfl
  simp only [Pod.load, hcell, hconfig]
  exact .loaded trivial

theorem steps_of_loadUdp (name bytes : Bytes) (define : Bytes → Option Nat) :
    Steps readers holding p (.loadUdp name bytes define)
      (p.loadUdp readers holding name bytes define).1
      (p.loadUdp readers holding name bytes define).2 := by
  have hcell : (newUdpListenerFilterConfig readers define p.cell name bytes).1 =
      landOn p.cell ((Act.loadUdp name bytes define).publication readers) :=
    newUdpListenerFilterConfig_fst
  have hconfig : some ((Hosted.udp
        (newUdpListenerFilterConfig readers define p.cell name bytes).2).map holding.hold) =
      ((Act.loadUdp name bytes define).config readers).map (Hosted.map holding.hold) := by
    rw [newUdpListenerFilterConfig_snd .initial]
    rfl
  simp only [Pod.loadUdp, hcell, hconfig]
  exact .loaded trivial

theorem steps_of_step (hstep : p.step readers holding act = some (p', reply)) :
    Steps readers holding p act p' reply := by
  cases act with
  | load name bytes define =>
      simp only [Pod.step, Option.some.injEq] at hstep
      have hsteps : Steps readers holding p (.load name bytes define) _ _ :=
        steps_of_load name bytes define
      rwa [hstep] at hsteps
  | loadUdp name bytes define =>
      simp only [Pod.step, Option.some.injEq] at hstep
      have hsteps : Steps readers holding p (.loadUdp name bytes define) _ _ :=
        steps_of_loadUdp name bytes define
      rwa [hstep] at hsteps
  | newFilter config =>
      obtain ⟨hosted, hconfig, heq⟩ := Option.map_eq_some_iff.mp hstep
      cases heq
      exact .created hconfig
  | call k callback =>
      obtain ⟨live, hlive, hcall⟩ := Option.bind_eq_some_iff.mp hstep
      unfold Pod.call at hcall
      cases hdue : live.due with
      | some due => simp [hdue] at hcall
      | none =>
          rw [hdue] at hcall
          obtain ⟨begun, hbegin, heq⟩ := Option.map_eq_some_iff.mp hcall
          cases begun with
          | settled outcome =>
              cases heq
              exact .settled hlive hdue hbegin
          | pending due =>
              cases heq
              exact .judging hlive hdue hbegin
  | judge k =>
      obtain ⟨live, hlive, hrest⟩ := Option.bind_eq_some_iff.mp hstep
      obtain ⟨cfg, hconfig, hrest⟩ := Option.bind_eq_some_iff.mp hrest
      obtain ⟨hosted, hhosted, hcfg⟩ := Option.bind_eq_some_iff.mp hconfig
      obtain ⟨due, hdue, hjudge⟩ := Option.bind_eq_some_iff.mp hrest
      obtain ⟨outcome, hfinish, heq⟩ := Option.map_eq_some_iff.mp hjudge
      cases heq
      exact .judged hlive hhosted hcfg hdue rfl hfinish

end Inversion

end Pods

end Ppv2Auth
