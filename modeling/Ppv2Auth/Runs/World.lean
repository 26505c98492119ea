/-
One process with its published cell, any number of enforcing configs and any
number of workers.  An action is one lock-protected section: a publish, the
read of the table a filter labels against, and the four sections of `permits`.
Ghost fields record what was published and how each answer came about.
-/
import Ppv2Auth.Filters.Tcp
import Ppv2Auth.Filters.Udp
import Ppv2Auth.Support.Transition

namespace Ppv2Auth

namespace Runs

open Rust Identity Filters

/-- Which filters judge a connection or datagram. -/
inductive Lane where
  /-- `ppv2_auth` on TCP -/
  | tcp
  /-- `ppv2_auth` on UDP -/
  | udp
  /-- `ppv2`, and later `auth` -/
  | tls
deriving Repr, DecidableEq

/-- What arrives, and whether the host accepts the label. -/
structure Traffic where
  lane : Lane
  bytes : Bytes
  setsRemoteAddress : Bool
deriving DecidableEq

def noCounters : Counters := ⟨none, none, none⟩

/-- The text and port of the label among a filter's calls. -/
def labelOf (calls : List EnvoyCall) : Option (Bytes × UInt32) :=
  calls.findSome? fun
    | .setRemoteAddress text port _ => some (text, port)
    | _ => none

/-- The identity a lane asks `permits` about when `t` is the published table:
the filters up to their judgement.  On TLS the label passes through the text
of the remote address. -/
def Traffic.identity [Sha256] (x : Traffic) (t : Table) : Option U128 :=
  match x.lane with
  | .tcp =>
      match (Ppv2Filter.new true noCounters).examine
          ⟨some x.bytes, some t, x.setsRemoteAddress⟩ with
      | .judge id _ => some id
      | .settled _ => none
  | .udp => (readDatagram t.scheme x.bytes).map Prod.fst
  | .tls =>
      let outcome := (Ppv2Filter.new false noCounters).onData
        ⟨some x.bytes, some t, x.setsRemoteAddress⟩ fun _ => false
      if outcome.status = .continueIteration then
        match (⟨noCounters, false⟩ : AuthFilter).examine
            (labelOf outcome.calls) with
        | .judge id _ => some id
        | .settled _ => none
      else none

/-- The table with a generation number: nothing before the first. -/
def tableAt (log : List Table) (generation : Nat) : Option Table :=
  if generation = 0 then none else log[generation - 1]?

variable {ι κ : Type}

/-- A call of `permits` in progress, with what it read. -/
structure Call (ι : Type) where
  config : ι
  sni : Bytes
  addr : U128
  /-- The traffic it judges and how many tables were published when that was
  labelled; `none` for a bare call. -/
  origin : Option (Traffic × Nat)
  /-- How many publishes had completed at its first read. -/
  started : Nat
  generation : UInt64
  table : Option Table

/-- Where a worker stands. -/
inductive Phase (ι : Type) where
  | idle
  /-- The traffic was labelled, `permits` has not started. -/
  | labelled (traffic : Traffic) (generation : Nat) (id : U128)
  | fetched (call : Call ι)
  /-- The cache did not match; the write lock comes next. -/
  | stale (call : Call ι)
  /-- The cache was matched or rebuilt; judging comes next. -/
  | ready (call : Call ι)

/-- A call that has answered, and the generation of the cache it judged by. -/
structure Answer (ι : Type) where
  call : Call ι
  used : UInt64
  permitted : Bool

structure World (ι κ : Type) where
  cell : Published
  log : List Table
  configs : ι → Config
  workers : κ → Phase ι
  answers : List (Answer ι)

/-- Nothing published, every config as parsed. -/
def World.initial (raw : ι → RawRules) : World ι κ where
  cell := .initial
  log := []
  configs i := .ofRaw (raw i)
  workers _ := .idle
  answers := []

inductive Act (ι κ : Type) where
  | publish (table : Table)
  /-- The first read of a filter, which synthesizes the identity. -/
  | label (k : κ) (traffic : Traffic)
  /-- A filter whose traffic was labelled calls `permits`. -/
  | fetchLabel (k : κ) (config : ι) (sni : Bytes)
  /-- Any other call of `permits`. -/
  | fetch (k : κ) (config : ι) (sni : Bytes) (addr : U128)
  | compare (k : κ)
  | rebuild (k : κ)
  | judge (k : κ)

section Step

variable [Sha256] [DecidableEq ι] [DecidableEq κ]

def World.setWorker (w : World ι κ) (k : κ) (phase : Phase ι) : World ι κ :=
  { w with workers := Function.update w.workers k phase }

/-- The first section of `permits`. -/
def World.fetched (w : World ι κ) (config : ι) (sni : Bytes) (addr : U128)
    (origin : Option (Traffic × Nat)) : Phase ι :=
  .fetched {
    config
    sni
    addr
    origin
    started := w.log.length
    generation := w.cell.generation
    table := w.cell.table }

/-- The last section: what the cache says now. -/
def World.answer (w : World ι κ) (c : Call ι) : Answer ι where
  call := c
  used := (w.configs c.config).cache.1
  permitted := (w.configs c.config).judge c.sni c.addr

def World.answered (w : World ι κ) (c : Call ι) : World ι κ :=
  { w with answers := w.answers ++ [w.answer c] }

/-- The section under the write lock. -/
def World.rebuilt (w : World ι κ) (c : Call ι) : World ι κ :=
  { w with
    configs := Function.update w.configs c.config
      ((w.configs c.config).rebuild c.generation c.table) }

def World.published (w : World ι κ) (t : Table) : World ι κ :=
  { w with cell := w.cell.publish t, log := w.log ++ [t] }

def World.step (w : World ι κ) : Act ι κ → Option (World ι κ)
  | .publish t => some (w.published t)
  | .label k x =>
      match w.workers k with
      | .idle =>
          match w.cell.table.bind x.identity with
          | some id => some (w.setWorker k (.labelled x w.log.length id))
          | none => some w
      | _ => none
  | .fetchLabel k i sni =>
      match w.workers k with
      | .labelled x generation id =>
          some (w.setWorker k (w.fetched i sni id (some (x, generation))))
      | _ => none
  | .fetch k i sni addr =>
      match w.workers k with
      | .idle => some (w.setWorker k (w.fetched i sni addr none))
      | _ => none
  | .compare k =>
      match w.workers k with
      | .fetched c =>
          if (w.configs c.config).isStale c.generation then
            some (w.setWorker k (.stale c))
          else some (w.setWorker k (.ready c))
      | _ => none
  | .rebuild k =>
      match w.workers k with
      | .stale c =>
          some ((w.rebuilt c).setWorker k (.ready c))
      | _ => none
  | .judge k =>
      match w.workers k with
      | .ready c =>
          some ((w.answered c).setWorker k .idle)
      | _ => none

/-- A run from the state a process starts in. -/
def Reaches (raw : ι → RawRules) (acts : List (Act ι κ)) (w : World ι κ) : Prop :=
  Transition.exec World.step (World.initial raw) acts = some w

end Step

/-- Everything an action can do, and when. -/
inductive Steps [Sha256] [DecidableEq ι] [DecidableEq κ] (w : World ι κ) :
    Act ι κ → World ι κ → Prop where
  | publish (t : Table) :
      Steps w (.publish t) (w.published t)
  | labelled {k : κ} {x : Traffic} {id : U128}
      (hid : w.cell.table.bind x.identity = some id) :
      Steps w (.label k x) (w.setWorker k (.labelled x w.log.length id))
  | unlabelled {k : κ} {x : Traffic} : Steps w (.label k x) w
  | fetchLabel {k : κ} {i : ι} {sni : Bytes} {x : Traffic} {generation : Nat}
      {id : U128} (hphase : w.workers k = .labelled x generation id) :
      Steps w (.fetchLabel k i sni)
        (w.setWorker k (w.fetched i sni id (some (x, generation))))
  | fetch {k : κ} {i : ι} {sni : Bytes} {addr : U128} :
      Steps w (.fetch k i sni addr) (w.setWorker k (w.fetched i sni addr none))
  | mismatch {k : κ} {c : Call ι} (hphase : w.workers k = .fetched c)
      (hstale : (w.configs c.config).cache.1 ≠ c.generation) :
      Steps w (.compare k) (w.setWorker k (.stale c))
  | isMatch {k : κ} {c : Call ι} (hphase : w.workers k = .fetched c)
      (hfresh : (w.configs c.config).cache.1 = c.generation) :
      Steps w (.compare k) (w.setWorker k (.ready c))
  | rebuild {k : κ} {c : Call ι} (hphase : w.workers k = .stale c) :
      Steps w (.rebuild k) ((w.rebuilt c).setWorker k (.ready c))
  | judge {k : κ} {c : Call ι} (hphase : w.workers k = .ready c) :
      Steps w (.judge k) ((w.answered c).setWorker k .idle)

theorem steps_of_step [Sha256] [DecidableEq ι] [DecidableEq κ] {w w' : World ι κ}
    {act : Act ι κ} (hstep : w.step act = some w') : Steps w act w' := by
  cases act with
  | publish t =>
      cases hstep
      exact .publish t
  | label k x =>
      simp only [World.step] at hstep
      split at hstep
      · split at hstep
        · next hid =>
            cases hstep
            exact .labelled hid
        · cases hstep
          exact .unlabelled
      · cases hstep
  | fetchLabel k i sni =>
      simp only [World.step] at hstep
      split at hstep
      · next hphase =>
          cases hstep
          exact .fetchLabel hphase
      · cases hstep
  | fetch k i sni addr =>
      simp only [World.step] at hstep
      split at hstep
      · cases hstep
        exact .fetch
      · cases hstep
  | compare k =>
      simp only [World.step] at hstep
      split at hstep
      · next hphase =>
          split at hstep
          · next hstale =>
              cases hstep
              exact .mismatch hphase (by simpa [Config.isStale] using hstale)
          · next hfresh =>
              cases hstep
              exact .isMatch hphase (by simpa [Config.isStale] using hfresh)
      · cases hstep
  | rebuild k =>
      simp only [World.step] at hstep
      split at hstep
      · next hphase =>
          cases hstep
          exact .rebuild hphase
      · cases hstep
  | judge k =>
      simp only [World.step] at hstep
      split at hstep
      · next hphase =>
          cases hstep
          exact .judge hphase
      · cases hstep

def Act.isPublish : Act ι κ → Bool
  | .publish _ => true
  | _ => false

/-- How many tables a run publishes. -/
def publishes (acts : List (Act ι κ)) : Nat := acts.countP Act.isPublish

end Runs

end Ppv2Auth
