/-
What a pod's counters say about its connections.  Each header filter says
everything in one answer, so the counters of a config are the numbers of its
connections by what became of them, and what they leave out is known.
-/
import Ppv2Auth.Filters.Conversation
import Ppv2Auth.Pods.Mediation

namespace Ppv2Auth

namespace Pods

open Rust Identity Filters

variable {γ : Type}

def Reply.answer : Reply → Option Verdict
  | .loaded _ => none
  | .created => none
  | .judging => none
  | .answered calls status => some ⟨calls, status⟩

/-- The answers to the callbacks of filter `k`. -/
def heard (log : List (Act × Reply)) (k : Nat) : List Verdict :=
  log.filterMap fun e => if e.1.filter = some k then e.2.answer else none

def fate (log : List (Act × Reply)) (k : Nat) : Option Fate := fateOf (heard log k)

/-- The counters of a host that starts from zero. -/
def values (replies : List Reply) : Nat → Nat :=
  (said (replies.filterMap Reply.answer)).foldl EnvoyCall.count fun _ => 0

/-- The filters made from a config. -/
def connections (p : Pod γ) (config : Nat) : Finset Nat :=
  (Finset.range p.live.length).filter fun k => p.live[k]?.map Live.owner = some config

theorem mem_connections {p : Pod γ} {config k : Nat} :
    k ∈ connections p config ↔ ∃ live, p.live[k]? = some live ∧ live.owner = config := by
  rw [connections, Finset.mem_filter, Finset.mem_range, Option.map_eq_some_iff]
  constructor
  · rintro ⟨-, live, hlive, howner⟩
    exact ⟨live, hlive, howner⟩
  · rintro ⟨live, hlive, howner⟩
    exact ⟨(List.getElem?_eq_some_iff.mp hlive).1, live, hlive, howner⟩

theorem heard_concat (log : List (Act × Reply)) (act : Act) (reply : Reply) (k : Nat) :
    heard (log ++ [(act, reply)]) k =
      heard log k ++ if act.filter = some k then reply.answer.toList else [] := by
  by_cases hact : act.filter = some k
  · cases hreply : reply.answer <;> simp [heard, hact, hreply]
  · simp [heard, hact]

/-- Every answer is one to some filter below the bound. -/
def Addressed (n : Nat) (log : List (Act × Reply)) : Prop :=
  ∀ e ∈ log, e.2.answer = none ∨ ∃ k < n, e.1.filter = some k

theorem Addressed.mono {n n' : Nat} {log : List (Act × Reply)} (h : Addressed n log)
    (hn : n ≤ n') : Addressed n' log := by
  intro e he
  rcases h e he with hnone | ⟨k, hk, hact⟩
  · exact Or.inl hnone
  · exact Or.inr ⟨k, hk.trans_le hn, hact⟩

theorem Addressed.concat {n : Nat} {log : List (Act × Reply)} (h : Addressed n log)
    {act : Act} {reply : Reply}
    (hlast : reply.answer = none ∨ ∃ k < n, act.filter = some k) :
    Addressed n (log ++ [(act, reply)]) := by
  intro e he
  rcases List.mem_append.mp he with hold | hnew
  · exact h e hold
  · cases List.mem_singleton.mp hnew
    exact hlast

/-- A filter that is not made yet has heard nothing. -/
theorem heard_eq_nil {n : Nat} {log : List (Act × Reply)} (h : Addressed n log) :
    heard log n = [] := by
  rw [heard, List.filterMap_eq_nil_iff]
  intro e he
  rcases h e he with hnone | ⟨k, hk, hact⟩
  · rw [hnone, ite_self]
  · rw [hact, if_neg fun heq => hk.ne (Option.some.inj heq)]

/-- What all filters said is what each of them said. -/
theorem tally_heard {n : Nat} {log : List (Act × Reply)} (h : Addressed n log) (id : Nat) :
    tally id (said (log.filterMap fun e => e.2.answer)) =
      ∑ k ∈ Finset.range n, tally id (said (heard log k)) := by
  induction log using List.reverseRecOn with
  | nil => simp [said, heard]
  | append_singleton log e ih =>
      obtain ⟨act, reply⟩ := e
      have hlog : Addressed n log := fun e he => h e (List.mem_append_left _ he)
      simp only [heard_concat, said_append, tally_append, Finset.sum_add_distrib, ← ih hlog,
        List.filterMap_append, Nat.add_left_cancel_iff]
      rcases h (act, reply) (by simp) with hnone | ⟨k, hk, hact⟩
      · have hnone : reply.answer = none := hnone
        simp [hnone, said]
      · have hact : act.filter = some k := hact
        rw [Finset.sum_eq_single_of_mem k (Finset.mem_range.mpr hk)]
        · cases hreply : reply.answer <;> simp [hact, hreply]
        · intro j _ hj
          simp [hact, Ne.symm hj, said]

theorem values_eq_sum {acts : List Act} {replies : List Reply} {n : Nat}
    (hlength : replies.length = acts.length) (h : Addressed n (acts.zip replies)) (id : Nat) :
    values replies id =
      ∑ k ∈ Finset.range n, tally id (said (heard (acts.zip replies) k)) := by
  have hreplies : (acts.zip replies).filterMap (fun e => e.2.answer) =
      replies.filterMap Reply.answer := by
    conv_rhs => rw [← List.map_snd_zip hlength.le, List.filterMap_map]
    rfl
  rw [values, foldl_count, Nat.zero_add, ← hreplies, tally_heard h]

/-- A filter as its config made it. -/
def Filter.asMade : Filter → Filter
  | .tcp (.ppv2 f) => .tcp (.ppv2 (.new f.enforce f.counters))
  | .tcp (.auth f) => .tcp (.auth ⟨f.counters, false⟩)
  | .tcp .table => .tcp .table
  | .udp (.ppv2Auth f) => .udp (.ppv2Auth (.new f.counters))
  | .udp .table => .udp .table
  | .udp .denyAll => .udp .denyAll

def Filter.counters : Filter → Counters
  | .tcp (.ppv2 f) => f.counters
  | .tcp (.auth f) => f.counters
  | .udp (.ppv2Auth f) => f.counters
  | .tcp .table => ⟨none, none, none⟩
  | .udp .table => ⟨none, none, none⟩
  | .udp .denyAll => ⟨none, none, none⟩

@[simp] theorem counters_asMade (filter : Filter) :
    filter.asMade.counters = filter.counters := by
  cases filter with
  | tcp filter => cases filter <;> rfl
  | udp filter => cases filter <;> rfl

@[simp] theorem asMade_newFilter (hosted : Hosted γ) :
    hosted.newFilter.asMade = hosted.newFilter := by
  cases hosted with
  | tcp config => cases config <;> rfl
  | udp config => cases config <;> rfl

/-- Only a header config makes a header filter. -/
theorem exists_of_newFilter {hosted : Hosted γ} {enforce : Bool} {counters : Counters}
    (h : hosted.newFilter = .tcp (.ppv2 (.new enforce counters))) :
    ∃ cfg, hosted = .tcp (.ppv2 cfg enforce counters) := by
  cases hosted with
  | tcp config =>
      cases config with
      | ppv2 cfg enforce' counters' =>
          cases h
          exact ⟨cfg, rfl⟩
      | auth | table => cases h
  | udp config => cases config <;> cases h

theorem exists_of_asMade {filter : Filter} {enforce : Bool} {counters : Counters}
    (h : filter.asMade = .tcp (.ppv2 (.new enforce counters))) :
    ∃ f : Ppv2Filter, filter = .tcp (.ppv2 f) ∧ f.counters = counters := by
  cases filter with
  | tcp filter =>
      cases filter with
      | ppv2 f => exact ⟨f, rfl, congrArg Filter.counters h⟩
      | auth | table => cases h
  | udp filter => cases filter <;> cases h

/-- What a callback that settles leaves as it was. -/
structure Filter.Keeps (filter : Filter) (outcome : Outcome Filter) : Prop where
  asMade : outcome.filter.asMade = filter.asMade
  covers : filter.counters.Covers outcome.calls

theorem Filter.Keeps.refl {filter : Filter} {status : Status} :
    filter.Keeps ⟨filter, [], status⟩ := ⟨rfl, fun _ _ => rfl⟩

theorem keeps_ppv2 {f : Ppv2Filter} {outcome : Outcome Ppv2Filter}
    (hexamines : Examines f (.settled outcome)) :
    (Filter.tcp (.ppv2 f)).Keeps (lift (fun f => .tcp (.ppv2 f)) outcome) := by
  cases hexamines with
  | refused | done => exact .refl
  | waits => exact ⟨rfl, fun _ _ => rfl⟩
  | @tells hfresh calls hquiet v hv =>
      exact ⟨by cases v <;> rfl, covers_tell f v hquiet⟩

theorem keeps_auth {f : AuthFilter} {calls : List EnvoyCall} {status : Status}
    (hcovers : f.counters.Covers calls) :
    (Filter.tcp (.auth f)).Keeps
      ⟨.tcp (.auth { f with settled := true }), calls, status⟩ := ⟨rfl, hcovers⟩

theorem keeps_udp (f : Ppv2AuthFilter) (payload : Bytes) (decision : UdpDecision)
    (sets : Bool) :
    (Filter.udp (.ppv2Auth f)).Keeps
      (lift (fun f => .udp (.ppv2Auth f)) ({ f with payload }.settle decision sets)) := by
  cases decision with
  | forward => exact ⟨rfl, (covers_bump (by simp [Filter.counters])).append fun _ _ => rfl⟩
  | denied | notPpv2 => exact ⟨rfl, covers_bump (by simp [Filter.counters])⟩

section Callbacks

variable [Sha256] {table : Option Table} {filter : Filter} {callback : Callback}

/-- A header filter ignores the accept; its bytes are examined. -/
theorem begin_ppv2 {f : Ppv2Filter} {begun : Begun}
    (hbegin : (Filter.tcp (.ppv2 f)).begin table callback = some begun) :
    begun = .settled ⟨.tcp (.ppv2 f), [], .stopIteration⟩ ∨
      (∃ outcome, Examines f (.settled outcome) ∧
        begun = .settled (lift (fun f => .tcp (.ppv2 f)) outcome)) ∨
      ∃ id calls, Examines f (.judge id calls) ∧ begun = .pending (.ppv2 id calls) := by
  cases callback with
  | onAccept remote serverName =>
      cases hbegin
      exact Or.inl rfl
  | onData buffer sets =>
      have hdata : beginData table f buffer sets = begun := Option.some.inj hbegin
      have hexamines := examines_examine f ⟨buffer, table, sets⟩
      subst hdata
      unfold beginData
      generalize f.examine ⟨buffer, table, sets⟩ = examined at hexamines
      cases examined with
      | settled outcome => exact Or.inr (Or.inl ⟨outcome, hexamines, rfl⟩)
      | judge id calls => exact Or.inr (Or.inr ⟨id, calls, hexamines, rfl⟩)
  | onDatagram chunks sets => cases hbegin

theorem keeps_begin_ppv2 {f : Ppv2Filter} {outcome : Outcome Filter}
    (hbegin : (Filter.tcp (.ppv2 f)).begin table callback = some (.settled outcome)) :
    (Filter.tcp (.ppv2 f)).Keeps outcome := by
  rcases begin_ppv2 hbegin with hwait | ⟨outcome', hexamines, hsettled⟩ | ⟨id, calls, -, hasks⟩
  · cases hwait
    exact .refl
  · cases hsettled
    exact keeps_ppv2 hexamines
  · cases hasks

omit [Sha256] in
theorem keeps_beginAccept {f : AuthFilter} {remote : Option (Bytes × UInt32)}
    {serverName : Option Bytes} {outcome : Outcome Filter}
    (hbegin : beginAccept f remote serverName = .settled outcome) :
    (Filter.tcp (.auth f)).Keeps outcome := by
  unfold beginAccept AuthFilter.examine at hbegin
  cases hlabel : labelledIdentity remote with
  | none =>
      rw [hlabel] at hbegin
      cases hbegin
      exact keeps_auth ((covers_bump (by simp)).append fun _ _ => rfl)
  | some id =>
      rw [hlabel] at hbegin
      cases hbegin

theorem keeps_beginDatagram {f : Ppv2AuthFilter} {chunks : List Bytes} {sets : Bool}
    {outcome : Outcome Filter}
    (hbegin : beginDatagram table f chunks sets = .settled outcome) :
    (Filter.udp (.ppv2Auth f)).Keeps outcome := by
  unfold beginDatagram at hbegin
  cases table with
  | none =>
      cases hbegin
      exact .refl
  | some table =>
      dsimp only at hbegin
      cases hread : readDatagram table.scheme (datagram chunks) with
      | none =>
          rw [hread] at hbegin
          cases hbegin
          exact keeps_udp f f.payload .notPpv2 sets
      | some found =>
          rw [hread] at hbegin
          cases hbegin

theorem keeps_begin {outcome : Outcome Filter}
    (hbegin : filter.begin table callback = some (.settled outcome)) :
    filter.Keeps outcome := by
  cases filter with
  | tcp filter =>
      cases filter with
      | ppv2 f => exact keeps_begin_ppv2 hbegin
      | auth f =>
          cases callback with
          | onAccept remote serverName => exact keeps_beginAccept (Option.some.inj hbegin)
          | onData buffer sets =>
              cases hbegin
              unfold AuthFilter.onData
              split
              · exact .refl
              · exact keeps_auth fun _ _ => rfl
          | onDatagram chunks sets => cases hbegin
      | table =>
          cases callback with
          | onAccept | onData =>
              cases hbegin
              exact .refl
          | onDatagram chunks sets => cases hbegin
  | udp filter =>
      cases callback with
      | onAccept | onData => cases filter <;> cases hbegin
      | onDatagram chunks sets =>
          cases filter with
          | ppv2Auth f => exact keeps_beginDatagram (Option.some.inj hbegin)
          | table | denyAll =>
              cases hbegin
              exact .refl

/-- Only a header filter asks with calls made, and none of them counts. -/
theorem quiet_of_begin {id : U128} {calls : List EnvoyCall}
    (hbegin : filter.begin table callback = some (.pending (.ppv2 id calls))) :
    Quiet calls := by
  have hasks : Asks table filter callback (.ppv2 id calls) := sound_begin hbegin
  cases hasks with
  | header =>
      rcases begin_ppv2 hbegin with hwait | ⟨outcome, -, hsettled⟩ | ⟨id', calls', hexamines, heq⟩
      · cases hwait
      · cases hsettled
      · cases heq
        cases hexamines with
        | asks hfresh hquiet id => exact hquiet

omit [Sha256] in
theorem keeps_finish {due : Pending} {permitted : Bool} {outcome : Outcome Filter}
    (hquiet : ∀ id calls, due = .ppv2 id calls → Quiet calls)
    (hfinish : filter.finish permitted due = some outcome) : filter.Keeps outcome := by
  unfold Filter.finish at hfinish
  split at hfinish
  · next f id calls =>
      cases hfinish
      rw [conclude_eq_tell]
      refine ⟨?_, covers_tell f _ (hquiet id calls rfl)⟩
      cases permitted <;> rfl
  · next f serverName id =>
      cases hfinish
      cases permitted with
      | true => exact keeps_auth (covers_bump (by simp))
      | false => exact keeps_auth ((covers_bump (by simp)).append fun _ _ => rfl)
  · next f id payload sets =>
      cases hfinish
      cases permitted with
      | true => exact keeps_udp f payload .forward sets
      | false => exact keeps_udp f f.payload .denied sets
  · cases hfinish

end Callbacks

/-- A filter and everything it has answered. -/
structure Account (live : Live) (answers : List Verdict) : Prop where
  covers : live.filter.counters.Covers (said answers)
  quiet : ∀ id calls, live.due = some (.ppv2 id calls) → Quiet calls
  recorded : ∀ f, live.filter = .tcp (.ppv2 f) → Recorded f live.due.isSome answers

theorem account_newFilter (hosted : Hosted γ) (owner : Nat) :
    Account ⟨owner, hosted.newFilter, none⟩ [] where
  covers _ _ := rfl
  quiet := nofun
  recorded f hf := by
    cases hosted with
    | tcp config =>
        cases config with
        | ppv2 cfg enforce counters =>
            cases hf
            exact recorded_new enforce counters
        | auth | table => cases hf
    | udp config => cases config <;> cases hf

section Steps

variable {live : Live} {answers : List Verdict}

theorem Account.covers_concat (h : Account live answers) {outcome : Outcome Filter}
    (hkeeps : live.filter.Keeps outcome) :
    outcome.filter.counters.Covers (said (answers ++ [outcome.verdict])) := by
  have hcounters : outcome.filter.counters = live.filter.counters := by
    rw [← counters_asMade, hkeeps.asMade, counters_asMade]
  rw [hcounters, said_append, said_singleton]
  exact h.covers.append hkeeps.covers

/-- What has become a header filter was one. -/
theorem exists_of_keeps {filter : Filter} {outcome : Outcome Filter}
    (hkeeps : filter.Keeps outcome) {f : Ppv2Filter} (hf : outcome.filter = .tcp (.ppv2 f)) :
    ∃ f₀ : Ppv2Filter, filter = .tcp (.ppv2 f₀) := by
  have hmade := hkeeps.asMade
  rw [hf] at hmade
  obtain ⟨f₀, hfilter, -⟩ := exists_of_asMade hmade.symm
  exact ⟨f₀, hfilter⟩

theorem Account.settled [Sha256] (h : Account live answers) (hdue : live.due = none)
    {table : Option Table} {callback : Callback} {outcome : Outcome Filter}
    (hbegin : live.filter.begin table callback = some (.settled outcome)) :
    Account ⟨live.owner, outcome.filter, none⟩ (answers ++ [outcome.verdict]) where
  covers := h.covers_concat (keeps_begin hbegin)
  quiet := nofun
  recorded f hf := by
    obtain ⟨f₀, hfilter⟩ := exists_of_keeps (keeps_begin hbegin) hf
    have hbefore := h.recorded f₀ hfilter
    rw [hdue] at hbefore
    rw [hfilter] at hbegin
    rcases begin_ppv2 hbegin with hwait | ⟨outcome', hexamines, hsettled⟩ | ⟨id, calls, -, hasks⟩
    · cases hwait
      cases hf
      exact hbefore.silent hbefore.stands rfl nofun
    · cases hsettled
      cases hf
      exact hbefore.settled hexamines
    · cases hasks

theorem Account.judging [Sha256] (h : Account live answers) (hdue : live.due = none)
    {table : Option Table} {callback : Callback} {due : Pending}
    (hbegin : live.filter.begin table callback = some (.pending due)) :
    Account { live with due := some due } answers where
  covers := h.covers
  quiet id calls hpending := by
    cases hpending
    exact quiet_of_begin hbegin
  recorded f hf := by
    have hbefore := h.recorded f hf
    have hfilter : live.filter = .tcp (.ppv2 f) := hf
    rw [hdue] at hbefore
    rw [hfilter] at hbegin
    rcases begin_ppv2 hbegin with hwait | ⟨outcome, -, hsettled⟩ | ⟨id, calls, hexamines, -⟩
    · cases hwait
    · cases hsettled
    · cases hexamines with
      | asks hfresh hquiet id => exact hbefore.asks hfresh

theorem Account.judged (h : Account live answers) {due : Pending} (hdue : live.due = some due)
    {permitted : Bool} {outcome : Outcome Filter}
    (hfinish : live.filter.finish permitted due = some outcome) :
    Account ⟨live.owner, outcome.filter, none⟩ (answers ++ [outcome.verdict]) := by
  have hquiet : ∀ id calls, due = .ppv2 id calls → Quiet calls :=
    fun id calls heq => h.quiet id calls (heq ▸ hdue)
  have hkeeps := keeps_finish hquiet hfinish
  refine ⟨h.covers_concat hkeeps, nofun, fun f hf => ?_⟩
  obtain ⟨f₀, hfilter⟩ := exists_of_keeps hkeeps hf
  have hbefore := h.recorded f₀ hfilter
  rw [hdue] at hbefore
  rw [hfilter] at hfinish
  cases due with
  | ppv2 id calls =>
      cases hfinish
      cases hf
      rw [lift, conclude_eq_tell]
      exact hbefore.tell (hbefore.awaits rfl) (hquiet id calls rfl)
        (by cases permitted <;> decide)
  | auth | datagram => cases hfinish

end Steps

/-- The filters of a pod, their configs and everything they have answered. -/
structure Ledger (log : List (Act × Reply)) (p : Pod γ) : Prop where
  addressed : Addressed p.live.length log
  made : ∀ (k : Nat) (live : Live), p.live[k]? = some live →
    ∃ hosted, p.configs[live.owner]? = some hosted ∧ live.filter.asMade = hosted.newFilter
  account : ∀ (k : Nat) (live : Live), p.live[k]? = some live → Account live (heard log k)

theorem ledger_initial : Ledger [] (Pod.initial : Pod γ) where
  addressed := nofun
  made k live hlive := by simp [Pod.initial] at hlive
  account k live hlive := by simp [Pod.initial] at hlive

section Ledger

variable {log : List (Act × Reply)} {act : Act} {reply : Reply} {p : Pod γ}

/-- Only filter `k` changes, and its answer is noted. -/
theorem Ledger.setLive (h : Ledger log p) {k : Nat} (hact : act.filter = some k)
    {live live' : Live} (hlive : p.live[k]? = some live) (howner : live'.owner = live.owner)
    (hmade : live'.filter.asMade = live.filter.asMade)
    (haccount : Account live' (heard log k ++ reply.answer.toList)) :
    Ledger (log ++ [(act, reply)]) (p.setLive k live') where
  addressed := by
    have hk : k < p.live.length := (List.getElem?_eq_some_iff.mp hlive).1
    rw [Pod.setLive, List.length_set]
    exact h.addressed.concat (Or.inr ⟨k, hk, hact⟩)
  made j l hl := by
    rcases setLive_cases hl with ⟨rfl, rfl⟩ | ⟨-, hl⟩
    · rw [howner, hmade]
      exact h.made j live hlive
    · exact h.made j l hl
  account j l hl := by
    rw [heard_concat, hact]
    rcases setLive_cases hl with ⟨rfl, rfl⟩ | ⟨hne, hl⟩
    · rw [if_pos rfl]
      exact haccount
    · rw [if_neg fun heq => hne (Option.some.inj heq).symm, List.append_nil]
      exact h.account j l hl

theorem Ledger.setCfg (h : Ledger log p) (owner : Nat) (cfg : γ) :
    Ledger log (p.setCfg owner cfg) where
  addressed := h.addressed
  made k live hlive := by
    obtain ⟨hosted, hconfig, hmade⟩ := h.made k live hlive
    by_cases howner : owner = live.owner
    · exact ⟨hosted.map fun _ => cfg, by simp [Pod.setCfg, howner, hconfig], by simpa using hmade⟩
    · exact ⟨hosted, by simp [Pod.setCfg, howner, hconfig], hmade⟩
  account := h.account

theorem Ledger.created (h : Ledger log p) {config : Nat} {hosted : Hosted γ}
    (hconfig : p.configs[config]? = some hosted) :
    Ledger (log ++ [(.newFilter config, .created)])
      { p with live := p.live ++ [⟨config, hosted.newFilter, none⟩] } where
  addressed := (h.addressed.mono (by simp)).concat (Or.inl rfl)
  made k live hlive := by
    rcases concat_cases hlive with hold | ⟨rfl, rfl⟩
    · exact h.made k live hold
    · exact ⟨hosted, hconfig, asMade_newFilter hosted⟩
  account k live hlive := by
    rw [heard_concat, if_neg nofun, List.append_nil]
    rcases concat_cases hlive with hold | ⟨rfl, rfl⟩
    · exact h.account k live hold
    · rw [heard_eq_nil h.addressed]
      exact account_newFilter hosted config

theorem Ledger.loaded (h : Ledger log p) (hload : act.IsLoad) (accepted : Bool)
    (cell : Published) (config : Option (Hosted γ)) :
    Ledger (log ++ [(act, .loaded accepted)]) (p.loaded cell config) where
  addressed := h.addressed.concat (Or.inl rfl)
  made k live hlive := by
    obtain ⟨hosted, hconfig, hmade⟩ := h.made k live hlive
    have hlt : live.owner < p.configs.length := (List.getElem?_eq_some_iff.mp hconfig).1
    exact ⟨hosted, by rw [Pod.loaded, List.getElem?_append_left hlt, hconfig], hmade⟩
  account k live hlive := by
    have hother : act.filter ≠ some k := by
      cases act with
      | load | loadUdp => simp [Act.filter]
      | newFilter | call | judge => exact hload.elim
    rw [heard_concat, if_neg hother, List.append_nil]
    exact h.account k live hlive

/-- One step keeps the books. -/
theorem Ledger.step [Sha256] {readers : Readers} {holding : Holding γ} {p' : Pod γ}
    (h : Ledger log p) (hsteps : Steps readers holding p act p' reply) :
    Ledger (log ++ [(act, reply)]) p' := by
  cases hsteps with
  | loaded hload => exact h.loaded hload _ _ _
  | created hconfig => exact h.created hconfig
  | @settled k live callback outcome hlive hdue hbegin =>
      exact h.setLive rfl hlive rfl (keeps_begin hbegin).asMade
        ((h.account k live hlive).settled hdue hbegin)
  | @judging k live callback due hlive hdue hbegin =>
      refine h.setLive rfl hlive rfl rfl ?_
      have haccount := (h.account k live hlive).judging hdue hbegin
      simpa [Reply.answer] using haccount
  | @judged k live hosted cfg cfg' due permitted outcome hlive hconfig hcfg hdue hpermits hfinish =>
      have haccount := h.account k live hlive
      have hquiet : ∀ id calls, due = .ppv2 id calls → Quiet calls :=
        fun id calls heq => haccount.quiet id calls (heq ▸ hdue)
      exact (h.setCfg live.owner cfg').setLive rfl hlive rfl (keeps_finish hquiet hfinish).asMade
        (haccount.judged hdue hfinish)

end Ledger

section Runs

variable [Sha256] {readers : Readers} {holding : Holding γ} {acts : List Act} {p : Pod γ}
  {replies : List Reply}

/-- The run lemma of `Ledger.step`. -/
theorem ledger_of_run (hrun : Pod.run readers holding acts = some (p, replies)) :
    Ledger (acts.zip replies) p :=
  Reactive.log_of_run ledger_initial
    (fun _ _ _ _ _ hledger hstep => hledger.step (steps_of_step hstep)) hrun

omit [Sha256] in
/-- What a connection of a header config heard. -/
theorem Ledger.recorded {log : List (Act × Reply)} (h : Ledger log p) {i k : Nat} {cfg : γ}
    {enforce : Bool} {counters : Counters}
    (hconfig : p.configs[i]? = some (.tcp (.ppv2 cfg enforce counters)))
    (hk : k ∈ connections p i) :
    ∃ f busy, f.counters = counters ∧ Recorded f busy (heard log k) := by
  obtain ⟨live, hlive, rfl⟩ := mem_connections.mp hk
  obtain ⟨hosted, hhosted, hmade⟩ := h.made k live hlive
  rw [hconfig] at hhosted
  cases hhosted
  obtain ⟨f, hfilter, hcounters⟩ := exists_of_asMade hmade
  exact ⟨f, live.due.isSome, hcounters, (h.account k live hlive).recorded f hfilter⟩

omit [Sha256] in
/-- A counter that only one config has moves with its connections. -/
theorem Ledger.tally_eq {log : List (Act × Reply)} (h : Ledger log p) {i : Nat} {cfg : γ}
    {enforce : Bool} {counters : Counters}
    (hconfig : p.configs[i]? = some (.tcp (.ppv2 cfg enforce counters))) {id : Nat}
    (hapart : ∀ j hosted, j ≠ i → p.configs[j]? = some hosted →
      some id ∉ [hosted.newFilter.counters.allowed, hosted.newFilter.counters.denied,
        hosted.newFilter.counters.notPpv2]) :
    ∑ k ∈ Finset.range p.live.length, tally id (said (heard log k)) =
      ((connections p i).filter fun k => (fate log k).bind counters.of = some id).card := by
  have hothers : ∀ k ∈ Finset.range p.live.length, k ∉ connections p i →
      tally id (said (heard log k)) = 0 := by
    intro k hk hother
    obtain ⟨live, hlive⟩ : ∃ live, p.live[k]? = some live :=
      ⟨_, List.getElem?_eq_getElem (Finset.mem_range.mp hk)⟩
    obtain ⟨hosted, hhosted, hmade⟩ := h.made k live hlive
    have hne : live.owner ≠ i := fun howner => hother (mem_connections.mpr ⟨live, hlive, howner⟩)
    apply (h.account k live hlive).covers
    rw [← counters_asMade, hmade]
    exact hapart live.owner hosted hne hhosted
  rw [← Finset.sum_subset (Finset.filter_subset _ _) hothers, Finset.card_filter]
  apply Finset.sum_congr rfl
  intro k hk
  obtain ⟨f, busy, rfl, hrecorded⟩ := h.recorded hconfig hk
  exact hrecorded.tallied id

omit [Sha256] in
/-- Five verdicts, or none yet. -/
theorem card_by_fate {log : List (Act × Reply)} {s : Finset Nat}
    (hknown : ∀ k ∈ s, ∀ v, fate log k = some v → v ∈ fates) :
    (s.filter fun k => fate log k = some .admitted).card +
        (s.filter fun k => fate log k = some (.refused "denied_by_allowlist")).card +
        (s.filter fun k => fate log k = some (.refused "not_proxy_protocol")).card +
        (s.filter fun k => fate log k = none ∨
          fate log k = some (.refused "no_identity_table") ∨
          fate log k = some (.refused "set_remote_address_failed")).card = s.card := by
  simp only [Finset.card_filter, ← Finset.sum_add_distrib]
  rw [Finset.card_eq_sum_ones]
  apply Finset.sum_congr rfl
  intro k hk
  cases hfate : fate log k with
  | none => simp
  | some v =>
      have hv := hknown k hk v hfate
      simp only [fates, List.mem_cons, List.not_mem_nil, or_false] at hv
      rcases hv with rfl | rfl | rfl | rfl | rfl <;> simp

/-- The counters of a header config count its connections.  Each connection
hears of everything in one answer at most, and what became of it is one of
five.  Where the three counters are registered and no other config has them,
`allowed` is the number admitted, `denied` the number the rules refused and
`not_ppv2` the number that did not start with a header.  What they leave out
are the connections that still wait, met no table or could not be labelled. -/
theorem counters_count_connections
    (hrun : Pod.run readers holding acts = some (p, replies)) {i : Nat} {cfg : γ}
    {enforce : Bool} {counters : Counters}
    (hconfig : p.configs[i]? = some (.tcp (.ppv2 cfg enforce counters))) :
    let log := acts.zip replies
    let counted := values replies
    (∀ k ∈ connections p i, (spoken (heard log k)).length ≤ 1 ∧
        ∀ v, fate log k = some v → v ∈ fates) ∧
      ∀ ids : CounterIds, counters = ids.counters →
        (∀ j hosted, j ≠ i → p.configs[j]? = some hosted →
          ∀ id ∈ [ids.allowed, ids.denied, ids.notPpv2],
            some id ∉ [hosted.newFilter.counters.allowed, hosted.newFilter.counters.denied,
              hosted.newFilter.counters.notPpv2]) →
        counted ids.allowed =
            ((connections p i).filter fun k => fate log k = some .admitted).card ∧
          counted ids.denied = ((connections p i).filter fun k =>
            fate log k = some (.refused "denied_by_allowlist")).card ∧
          counted ids.notPpv2 = ((connections p i).filter fun k =>
            fate log k = some (.refused "not_proxy_protocol")).card ∧
          counted ids.allowed + counted ids.denied + counted ids.notPpv2 +
              ((connections p i).filter fun k => fate log k = none ∨
                fate log k = some (.refused "no_identity_table") ∨
                fate log k = some (.refused "set_remote_address_failed")).card =
            (connections p i).card := by
  intro log counted
  have hledger : Ledger log p := ledger_of_run hrun
  have hknown : ∀ k ∈ connections p i, ∀ v, fate log k = some v → v ∈ fates := by
    intro k hk
    obtain ⟨f, busy, -, hrecorded⟩ := hledger.recorded hconfig hk
    exact hrecorded.known
  constructor
  · intro k hk
    obtain ⟨f, busy, -, hrecorded⟩ := hledger.recorded hconfig hk
    exact ⟨hrecorded.once.trans (by split <;> omega), hknown k hk⟩
  · rintro ids rfl hapart
    have hcounted : ∀ v ∈ fates, ∀ id ∈ [ids.allowed, ids.denied, ids.notPpv2],
        ids.counters.of v = some id →
        counted id = ((connections p i).filter fun k => fate log k = some v).card := by
      intro v hv id hid hof
      have hlength : replies.length = acts.length := Reactive.length_of_run hrun
      have hvalues : counted id = _ := values_eq_sum hlength hledger.addressed id
      rw [hvalues, hledger.tally_eq hconfig fun j hosted hj hhosted =>
        hapart j hosted hj hhosted id hid]
      congr 1
      apply Finset.filter_congr
      intro k hk
      exact bind_of_iff (hknown k hk) hv hof
    have hallowed := hcounted .admitted (by decide) ids.allowed (by simp) rfl
    have hdenied := hcounted (.refused "denied_by_allowlist") (by decide) ids.denied (by simp)
      rfl
    have hnotPpv2 := hcounted (.refused "not_proxy_protocol") (by decide) ids.notPpv2 (by simp)
      rfl
    refine ⟨hallowed, hdenied, hnotPpv2, ?_⟩
    rw [hallowed, hdenied, hnotPpv2]
    exact card_by_fate hknown

end Runs

namespace PodWitness

attribute [local instance] MeetingWitness.endpointDigest

open AccountingWitness (ids office)

/-- The host numbers the counters of the first listener. -/
def define (name : Bytes) : Option Nat :=
  if name = ascii "ppv2_auth_allowed" then some ids.allowed
  else if name = ascii "ppv2_auth_denied" then some ids.denied
  else if name = ascii "ppv2_auth_not_ppv2" then some ids.notPpv2
  else none

/-- One connection before the table lands, one that is admitted, one that
speaks HTTP and one that has said nothing. -/
def fourConnections : List Act :=
  [.load (ascii "ppv2_auth") (ascii "{}") define, .newFilter 0,
    .call 0 (.onData (some office) true),
    .load (ascii "table") (ascii "{}") define, .newFilter 0, .newFilter 0, .newFilter 0,
    .call 1 (.onData (some office) true),
    .call 2 (.onData (some (ascii "GET / HTTP/1.1")) true),
    .call 3 (.onData none true), .judge 1]

theorem fourConnections_run : ∃ p replies,
    Pod.run readers .cached fourConnections = some (p, replies) ∧
      p.configs.map Hosted.newFilter = [.tcp (.ppv2 (.new true ids.counters)), .tcp .table] := by
  obtain ⟨⟨p, replies⟩, hrun⟩ : ∃ last, Pod.run readers .cached fourConnections = some last :=
    Option.isSome_iff_exists.mp (by decide +kernel)
  have hconfigs : (Pod.run readers .cached fourConnections).map
      (fun last => last.1.configs.map Hosted.newFilter) =
      some [.tcp (.ppv2 (.new true ids.counters)), .tcp .table] := by
    decide +kernel
  rw [hrun] at hconfigs
  exact ⟨p, replies, hrun, Option.some.inj hconfigs⟩

theorem counters_count_connections_four : ∃ p replies,
    Pod.run readers .cached fourConnections = some (p, replies) ∧
      values replies ids.allowed = ((connections p 0).filter fun k =>
        fate (fourConnections.zip replies) k = some .admitted).card := by
  obtain ⟨p, replies, hrun, hfilters⟩ := fourConnections_run
  obtain ⟨hosted, carrier, hconfigs, hmade, hcarrier⟩ :
      ∃ hosted carrier, p.configs = [hosted, carrier] ∧
        hosted.newFilter = .tcp (.ppv2 (.new true ids.counters)) ∧
        carrier.newFilter = .tcp .table := by
    simpa [List.map_eq_cons_iff] using hfilters
  obtain ⟨cfg, rfl⟩ := exists_of_newFilter hmade
  have hconfig : p.configs[0]? = some (.tcp (.ppv2 cfg true ids.counters)) := by
    rw [hconfigs]
    rfl
  refine ⟨p, replies, hrun, ((counters_count_connections hrun hconfig).2 ids rfl ?_).1⟩
  intro j other hj hother id _
  rw [hconfigs] at hother
  match j, hj with
  | 1, _ =>
      cases hother
      rw [hcarrier]
      simp [Filter.counters]
  | j + 2, _ => simp at hother

end PodWitness

end Pods

end Ppv2Auth
