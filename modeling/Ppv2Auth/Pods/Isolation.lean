/-
What the others cannot touch.  A connection by itself is a small machine that
is asked callbacks and judgements, each with the table in force, and a pod gives
it that machine's replies.  So its replies depend on its config, on what it is
asked and on what the tables show its rules, and on nothing else.
-/
import Ppv2Auth.Config.Edits
import Ppv2Auth.Pods.Mediation

namespace Ppv2Auth

namespace Pods

open Rust Identity Filters Runs Edits

inductive Ask where
  | callback (callback : Callback)
  | judge

/-- What an action asks connection `k`. -/
def Act.ask (k : Nat) : Act → Option Ask
  | .load _ _ _ => none
  | .loadUdp _ _ _ => none
  | .newFilter _ => none
  | .call j callback => if j = k then some (.callback callback) else none
  | .judge j => if j = k then some .judge else none

/-- The same with the table in force. -/
def asks (readers : Readers) (k : Nat) (past : List Act) (act : Act) :
    Option (Ask × Option Table) :=
  (act.ask k).map fun ask => (ask, landed readers past)

/-- What connection `k` is asked in a run, in order. -/
def asked (readers : Readers) (k : Nat) (acts : List Act) : List (Ask × Option Table) :=
  Reactive.asked (asks readers k) [] acts

/-- What it replies. -/
def told (readers : Readers) (k : Nat) (acts : List Act) (replies : List Reply) : List Reply :=
  Reactive.told (asks readers k) [] acts replies

/-- A connection by itself: its filter and the judgement it waits for. -/
structure Alone where
  filter : Filter
  due : Option Pending

def Live.alone (live : Live) : Alone := ⟨live.filter, live.due⟩

/-- Connection `k` of a pod, if there is one. -/
def connection {γ : Type} (k : Nat) (p : Pod γ) : Option Alone := p.live[k]?.map Live.alone

/-- A connection no one has asked anything. -/
def Hosted.alone {γ : Type} (hosted : Hosted γ) : Alone := ⟨hosted.newFilter, none⟩

section Machine

variable [Sha256]

def Alone.begun (c : Alone) : Begun → Alone × Reply
  | .settled outcome => (⟨outcome.filter, none⟩, .answered outcome.calls outcome.status)
  | .pending due => (⟨c.filter, some due⟩, .judging)

def Alone.judged (c : Alone) (r : Rules) (table : Option Table) (due : Pending) :
    Option (Alone × Reply) :=
  (c.filter.finish ((r.expand table).permits due.serverName due.id) due).map fun outcome =>
    (⟨outcome.filter, none⟩, .answered outcome.calls outcome.status)

/-- One step of it, under the rules of its config. -/
def Alone.step (rules : Option Rules) (c : Alone) (asked : Ask × Option Table) :
    Option (Alone × Reply) :=
  match asked.1 with
  | .callback callback =>
      if c.due = none then (c.filter.begin asked.2 callback).map c.begun else none
  | .judge => rules.bind fun r => c.due.bind (c.judged r asked.2)

end Machine

section Parts

variable [Sha256] {readers : Readers} {past acts : List Act} {act : Act} {m n : Pod Rules}
  {reply : Reply} {i j k : Nat} {live new : Live} {hosted : Hosted Config} {start : Alone}
  {rules : Option Rules}

/-- Config `i` is the one the whole run loads in that place. -/
theorem History.config_eq (h : History readers past m) (hpre : past <+: acts)
    (hloaded : (loads readers acts)[i]? = some hosted) {held : Hosted Rules}
    (hheld : m.configs[i]? = some held) : held = hosted.map Config.rules := by
  obtain ⟨rest, rfl⟩ := hpre
  rw [h.configs, List.getElem?_map] at hheld
  obtain ⟨config, hload, rfl⟩ := Option.map_eq_some_iff.mp hheld
  obtain ⟨hlt, -⟩ := List.getElem?_eq_some_iff.mp hload
  rw [loads, List.filterMap_append, ← loads, List.getElem?_append_left hlt, hload] at hloaded
  rw [Option.some.inj hloaded]

/-- A connection belongs to the config the whole run makes it from. -/
theorem History.owner_eq (h : History readers past m) (hpre : past <+: acts) {k : Nat}
    {live : Live} (hlive : m.live[k]? = some live) : (owners acts)[k]? = some live.owner := by
  obtain ⟨rest, rfl⟩ := hpre
  have howner : (owners past)[k]? = some live.owner := by simp [← h.made, hlive]
  obtain ⟨hlt, -⟩ := List.getElem?_eq_some_iff.mp howner
  rw [owners, List.filterMap_append, ← owners, List.getElem?_append_left hlt, howner]

/-- What a connection's config is held as. -/
theorem History.held_eq (h : History readers past m) (hpre : past <+: acts)
    (hconfig : configOf readers acts k = some hosted) (howner : (owners acts)[k]? = some i)
    {held : Hosted Rules} (hheld : m.configs[i]? = some held) :
    held = hosted.map Config.rules := by
  rw [configOf, howner, Option.bind_some] at hconfig
  exact h.config_eq hpre hconfig hheld

/-- Filter `j` is asked and changes; connection `k` sees it if it is `j`. -/
theorem sees_setLive {ask : Ask} (hask : act.ask k = if j = k then some ask else none)
    (hlive : m.live[j]? = some live)
    (hstep : j = k →
      live.alone.step rules (ask, landed readers past) = some (new.alone, reply)) :
    Reactive.Sees (Alone.step rules) start reply (asks readers k past act)
      (connection k m) (connection k (m.setLive j new)) := by
  rw [asks, hask, connection, connection, Pod.setLive]
  by_cases hj : j = k
  · subst hj
    have hlt : j < m.live.length := (List.getElem?_eq_some_iff.mp hlive).1
    rw [if_pos rfl, hlive, List.getElem?_set_self hlt]
    exact .asked (hstep rfl)
  · rw [if_neg hj, List.getElem?_set_ne hj]
    exact .alone _

/-- A filter is made, and connection `k` sees it if it is the one. -/
theorem sees_created (hnew : k = m.live.length → new.alone = start) :
    Reactive.Sees (Alone.step rules) start reply none (connection k m)
      (connection k { m with live := m.live ++ [new] }) := by
  rw [connection, connection]
  rcases Nat.lt_trichotomy k m.live.length with hlt | heq | hgt
  · rw [List.getElem?_append_left hlt]
    exact .alone _
  · rw [heq, List.getElem?_eq_none le_rfl, List.getElem?_concat_length, Option.map_some,
      hnew heq]
    exact .made
  · rw [List.getElem?_eq_none hgt.le, List.getElem?_eq_none (by simpa using hgt)]
    exact .alone _

/-- Every step is seen by every connection. -/
theorem Steps.sees (hsteps : Steps readers .cacheless m act n reply)
    (h : History readers past m) (hpre : past ++ [act] <+: acts)
    (hconfig : configOf readers acts k = some hosted) :
    Reactive.Sees (Alone.step (hosted.cfg.map Config.rules)) hosted.alone reply
      (asks readers k past act) (connection k m) (connection k n) := by
  have hshort : past <+: acts := (List.prefix_append past [act]).trans hpre
  cases hsteps with
  | loaded hload =>
      have hnone : asks readers k past act = none := by
        cases act with
        | load | loadUdp => rfl
        | newFilter | call | judge => exact hload.elim
      rw [hnone]
      exact .alone _
  | @created config held hheld =>
      apply sees_created
      intro hk
      have howner : (owners acts)[k]? = some config := by
        obtain ⟨rest, rfl⟩ := hpre
        have hlength : (owners past).length = k := by simp [← h.made, hk]
        simp [owners, Act.owner, ← hlength]
      rw [h.held_eq hshort hconfig howner hheld]
      exact congrArg (Alone.mk · none) (Hosted.newFilter_map _ _)
  | @settled _ live callback outcome hlive hdue hbegin =>
      refine sees_setLive rfl hlive fun _ => ?_
      rw [h.table] at hbegin
      simp [Alone.step, Live.alone, hdue, hbegin, Alone.begun]
  | @judging _ live callback due hlive hdue hbegin =>
      refine sees_setLive rfl hlive fun _ => ?_
      rw [h.table] at hbegin
      simp [Alone.step, Live.alone, hdue, hbegin, Alone.begun]
  | @judged _ live held r _ due permitted outcome hlive hheld hcfg hdue hpermits hfinish =>
      refine sees_setLive (m := m.setCfg live.owner _) rfl hlive fun hk => ?_
      have howner : (owners acts)[k]? = some live.owner :=
        h.owner_eq hshort (hk ▸ hlive)
      rw [h.held_eq hshort hconfig howner hheld, Hosted.cfg_map] at hcfg
      have hanswer : (r.expand m.cell.table).permits due.serverName due.id = permitted :=
        congrArg Prod.snd hpermits
      rw [h.table] at hanswer
      simp [Alone.step, Live.alone, hcfg, hdue, Alone.judged, hanswer, hfinish]

/-- A pod gives a connection the replies it gives by itself. -/
theorem alone_of_run {p : Pod Config} {replies : List Reply}
    (hrun : Pod.run readers .cached acts = some (p, replies))
    (hfew : (publications readers acts).length < 2 ^ 64 - 1)
    (hconfig : configOf readers acts k = some hosted) :
    ∃ c, Reactive.run (Alone.step (hosted.cfg.map Config.rules)) hosted.alone
      (asked readers k acts) = some (c, told readers k acts replies) := by
  have hcacheless : Pod.run readers .cacheless acts = some (p.forget, replies) := by
    rw [forget_run acts hfew, hrun]
    rfl
  have hfollows : Reactive.Follows (Alone.step (hosted.cfg.map Config.rules)) hosted.alone
      (asked readers k acts) (told readers k acts replies) (connection k p.forget) := by
    refine Reactive.part_of_run (P := History readers) ?_ (history_initial readers) rfl hcacheless
    intro past m act n reply hpre h hstep
    have hsteps := steps_of_step hstep
    exact ⟨(h.step hsteps).1, hsteps.sees h hpre hconfig⟩
  cases hpart : connection k p.forget with
  | none =>
      rw [hpart] at hfollows
      obtain ⟨hasked, htold⟩ := hfollows
      exact ⟨hosted.alone, by rw [hasked, htold, Reactive.run]⟩
  | some c =>
      rw [hpart] at hfollows
      exact ⟨c, hfollows⟩

end Parts

section Same

variable [Sha256] {raw : RawRules} {table table' : Option Table}

/-- Up to its judgement a callback reads the scheme only. -/
theorem begin_of_sameView (h : Option.Rel (SameView raw) table table') (filter : Filter)
    (callback : Callback) : filter.begin table' callback = filter.begin table callback := by
  cases h with
  | none => rfl
  | @some t t' hview =>
      have hscheme : t'.scheme = t.scheme := hview.scheme
      cases filter with
      | tcp filter =>
          cases filter with
          | ppv2 f =>
              cases callback <;>
                simp [Filter.begin, beginData, Ppv2Filter.examine, hscheme]
          | auth f => cases callback <;> rfl
          | table => cases callback <;> rfl
      | udp filter =>
          cases filter with
          | ppv2Auth f =>
              cases callback <;> simp [Filter.begin, beginDatagram, hscheme]
          | table => cases callback <;> rfl
          | denyAll => cases callback <;> rfl

theorem answer_of_sameView (h : Option.Rel (SameView raw) table table') (sni : Bytes)
    (a : U128) : ((Config.ofRaw raw).rules.expand table').permits sni a =
      ((Config.ofRaw raw).rules.expand table).permits sni a := by
  cases h with
  | none => rfl
  | some hview => exact permits_of_sameView hview sni a

end Same

/-- The same ask, with tables that show the rules the same. -/
def Alike (raw : RawRules) (a a' : Ask × Option Table) : Prop :=
  a'.1 = a.1 ∧ Option.Rel (SameView raw) a.2 a'.2

theorem step_of_alike [Sha256] {raw : RawRules} (c : Alone) {a a' : Ask × Option Table}
    (h : Alike raw a a') :
    c.step (some (Config.ofRaw raw).rules) a' = c.step (some (Config.ofRaw raw).rules) a := by
  obtain ⟨ask, table⟩ := a
  obtain ⟨ask', table'⟩ := a'
  obtain ⟨rfl, hview⟩ : ask' = ask ∧ Option.Rel (SameView raw) table table' := h
  cases ask' with
  | callback callback => simp only [Alone.step, begin_of_sameView hview]
  | judge =>
      have hjudged : c.judged (Config.ofRaw raw).rules table' =
          c.judged (Config.ofRaw raw).rules table := by
        funext due
        simp only [Alone.judged, answer_of_sameView hview]
      simp only [Alone.step, Option.bind_some, hjudged]

/-- Connections are isolated.  Two connections of any two runs, made from one
config, get the same replies when they are asked the same, in order, under
tables that show their rules the same; whatever else is loaded, made and asked
in either run, and wherever. -/
theorem connections_are_isolated [Sha256] {readers readers' : Readers} {raw : RawRules}
    {acts acts' : List Act} {p p' : Pod Config} {replies replies' : List Reply} {k k' : Nat}
    {hosted : Hosted Config} (hrun : Pod.run readers .cached acts = some (p, replies))
    (hrun' : Pod.run readers' .cached acts' = some (p', replies'))
    (hfew : (publications readers acts).length < 2 ^ 64 - 1)
    (hfew' : (publications readers' acts').length < 2 ^ 64 - 1)
    (hconfig : configOf readers acts k = some hosted)
    (hconfig' : configOf readers' acts' k' = some hosted)
    (hcfg : hosted.cfg = some (.ofRaw raw))
    (hasked : List.Forall₂ (Alike raw) (asked readers k acts) (asked readers' k' acts')) :
    told readers' k' acts' replies' = told readers k acts replies := by
  obtain ⟨c, halone⟩ := alone_of_run hrun hfew hconfig
  obtain ⟨c', halone'⟩ := alone_of_run hrun' hfew' hconfig'
  rw [hcfg, Option.map_some] at halone halone'
  rw [Reactive.run_congr (A := Alike raw) (fun c _ _ h => step_of_alike c h) hasked, halone,
    Option.some.injEq, Prod.mk.injEq] at halone'
  exact halone'.2.symm

namespace IsolationWitness

attribute [local instance] MeetingWitness.endpointDigest

def rules : RawRules := ⟨[ascii "10.0.0.0/8"], none⟩

def groupsOf (bytes : Bytes) : Std.TreeMap Bytes (List Bytes) :=
  if bytes = ascii "1" then ∅ else (∅ : Std.TreeMap Bytes (List Bytes)).insert (ascii "guests") []

/-- The rules and the groups depend on the text, the sites do not. -/
def readers : Readers where
  rules bytes := .ok (if bytes = ascii "office" then rules else ⟨[bytes], none⟩)
  table bytes := .ok ⟨ascii "fd00:dead:beef::/48", ∅, groupsOf bytes⟩

def tableOf (bytes : Bytes) : Table :=
  ⟨Scheme.new MeetingWitness.pfx [], (groupsOf bytes).foldl Graph.upsert Graph.default⟩

def few : List Act :=
  [.load (ascii "ppv2_auth") (ascii "office") (fun _ => none),
    .load (ascii "table") (ascii "1") (fun _ => none), .newFilter 0,
    .call 0 (.onData (some ChainWitness.office) true), .judge 0]

/-- The office's listener comes third, another has a connection. -/
def more : List Act :=
  [.load (ascii "ppv2_auth") (ascii "!2") (fun _ => none),
    .load (ascii "table") (ascii "2") (fun _ => none), .newFilter 0,
    .call 0 (.onData none true),
    .load (ascii "ppv2_auth") (ascii "office") (fun _ => none), .newFilter 2,
    .call 1 (.onData (some ChainWitness.office) true),
    .call 0 (.onData (some ChainWitness.office) true), .judge 1]

theorem publication_table {bytes : Bytes} (htext : textOf bytes = .ok bytes) :
    publication readers (ascii "table") bytes = some (tableOf bytes) := by
  have hsites : buildSites ∅ = .ok [] := by
    have hlist : (∅ : Std.TreeMap Bytes (List Bytes)).toList = [] := by decide +kernel
    rw [buildSites, hlist]
    rfl
  have hula : parsePrefix (ascii "fd00:dead:beef::/48") = .ok MeetingWitness.pfx := by
    decide +kernel
  have hload : parseTable readers.table bytes = .ok (tableOf bytes) :=
    Loading.parseTable_eq_ok_iff.mpr ⟨⟨ascii "fd00:dead:beef::/48", ∅, groupsOf bytes⟩,
      MeetingWitness.pfx, [], rfl, hula, hsites, rfl⟩
  have hread : readTable readers bytes = .ok (tableOf bytes) :=
    bind_eq_ok_iff.mpr ⟨bytes, mapError_eq_ok_iff.mpr htext, mapError_eq_ok_iff.mpr hload⟩
  rw [publication, if_pos rfl, hread]
  rfl

theorem sameView_rules (bytes bytes' : Bytes) :
    SameView rules (tableOf bytes) (tableOf bytes') where
  scheme := rfl
  groups list hlist := by
    have hlist : list = [ascii "10.0.0.0/8"] := by simpa [listsOf, rules] using hlist
    subst hlist
    exact Traversal.agrees_of_literals (by decide)

theorem publication_rules (bytes : Bytes) :
    publication readers (ascii "ppv2_auth") bytes = none :=
  if_neg (by decide +kernel)

theorem alike_office : List.Forall₂ (Alike rules) (asked readers 0 few) (asked readers 1 more) := by
  have hfew : publication readers (ascii "table") (ascii "1") = some (tableOf (ascii "1")) :=
    publication_table rfl
  have hmore : publication readers (ascii "table") (ascii "2") = some (tableOf (ascii "2")) :=
    publication_table rfl
  refine .cons ⟨rfl, ?_⟩ (.cons ⟨rfl, ?_⟩ .nil)
  all_goals
    simp only [landed, publications, List.nil_append, List.cons_append, List.filterMap_cons,
      List.filterMap_nil, Act.publication, publication_rules, hfew, hmore,
      List.getLast?_singleton]
    exact .some (sameView_rules _ _)

/-- The office's client is answered as before, twice. -/
theorem connections_are_isolated_office : ∃ p p' replies replies',
    Pod.run readers .cached few = some (p, replies) ∧
      Pod.run readers .cached more = some (p', replies') ∧
      told readers 1 more replies' = told readers 0 few replies ∧
      (told readers 0 few replies).length = 2 := by
  obtain ⟨⟨p, replies⟩, hrun⟩ : ∃ last, Pod.run readers .cached few = some last :=
    Option.isSome_iff_exists.mp (by decide +kernel)
  obtain ⟨⟨p', replies'⟩, hrun'⟩ : ∃ last, Pod.run readers .cached more = some last :=
    Option.isSome_iff_exists.mp (by decide +kernel)
  have hone : (publications readers few).length = 1 := by decide +kernel
  have hone' : (publications readers more).length = 1 := by decide +kernel
  have hconfig : configOf readers few 0 =
      some (.tcp (.ppv2 (.ofRaw rules) true ⟨none, none, none⟩)) := rfl
  have htwice : (Pod.run readers .cached few).map
      (fun last => (told readers 0 few last.2).length) = some 2 := by
    decide +kernel
  rw [hrun, Option.map_some, Option.some.injEq] at htwice
  exact ⟨p, p', replies, replies', hrun, hrun',
    connections_are_isolated hrun hrun' (by omega) (by omega) hconfig rfl rfl alike_office,
    htwice⟩

end IsolationWitness

end Pods

end Ppv2Auth
