/-
Complete mediation.  Whatever a filter lets through in a run of a pod has an
explanation in the actions before it: it is the carrier's own traffic, it
repeats an admission of the same filter, it was labelled under a landed table,
or the rules of its own config, expanded against the last table, permit the
identity a callback asked about.
-/
import Ppv2Auth.Filters.Admission
import Ppv2Auth.Pods.Cacheless

namespace Ppv2Auth

namespace Pods

open Rust Identity Filters

/-- The same kind of filter, as far as it has admitted. -/
def Filter.Like : Filter → Filter → Prop
  | .tcp (.ppv2 f), .tcp (.ppv2 g) => f.enforce = g.enforce ∧ (f.done = true → g.done = true)
  | .tcp (.auth _), .tcp (.auth _) => True
  | .tcp .table, .tcp .table => True
  | .udp (.ppv2Auth _), .udp (.ppv2Auth _) => True
  | .udp .table, .udp .table => True
  | .udp .denyAll, .udp .denyAll => True
  | _, _ => False

/-- What a callback that needs no judgement can do. -/
inductive Settles (table : Option Table) : Filter → Callback → Filter → Status → Prop where
  | stops {filter filter' : Filter} {callback : Callback} (hlike : filter'.Like filter) :
      Settles table filter callback filter' .stopIteration
  | again {f : Ppv2Filter} {callback : Callback} (hdone : f.done = true) :
      Settles table (.tcp (.ppv2 f)) callback (.tcp (.ppv2 f)) .continueIteration
  | labels {f : Ppv2Filter} {buffer : Option Bytes} {t : Table} {h : Ppv2.Header}
      (henforce : f.enforce = false) (htable : table = some t)
      (hparse : Ppv2.parse (buffer.getD []) = .ok h) :
      Settles table (.tcp (.ppv2 f)) (.onData buffer true)
        (.tcp (.ppv2 { f with done := true })) .continueIteration
  | tcpCarrier {callback : Callback} :
      Settles table (.tcp .table) callback (.tcp .table) .continueIteration
  | udpCarrier {callback : Callback} :
      Settles table (.udp .table) callback (.udp .table) .continueIteration

/-- What a callback asks about, and of what. -/
inductive Asks [Sha256] (table : Option Table) : Filter → Callback → Pending → Prop where
  | header {f : Ppv2Filter} {buffer : Option Bytes} {t : Table} {h : Ppv2.Header}
      {calls : List EnvoyCall} (henforce : f.enforce = true) (htable : table = some t)
      (hparse : Ppv2.parse (buffer.getD []) = .ok h) :
      Asks table (.tcp (.ppv2 f)) (.onData buffer true)
        (.ppv2 (toU128 (synthesize t.scheme h)) calls)
  | label {f : AuthFilter} {remote : Option (Bytes × UInt32)} {serverName : Option Bytes}
      {id : U128} (hlabel : labelledIdentity remote = some id) :
      Asks table (.tcp (.auth f)) (.onAccept remote serverName)
        (.auth (serverName.getD []) id)
  | datagram {f : Ppv2AuthFilter} {chunks : List Bytes} {setsDatagramData : Bool} {t : Table}
      {h : Ppv2.Header} (htable : table = some t)
      (hparse : Ppv2.parse (Filters.datagram chunks) = .ok h) :
      Asks table (.udp (.ppv2Auth f)) (.onDatagram chunks setsDatagramData)
        (.datagram (toU128 (synthesize t.scheme h)) ((Filters.datagram chunks).drop h.len)
          setsDatagramData)

section Callbacks

variable [Sha256] {table : Option Table}

/-- A callback either settles or asks. -/
def Begun.Sound (table : Option Table) (filter : Filter) (callback : Callback) :
    Begun → Prop
  | .settled outcome => Settles table filter callback outcome.filter outcome.status
  | .pending due => Asks table filter callback due

/-- The examination of a header filter, by what one callback can do. -/
theorem settles_of_examine {f : Ppv2Filter} {buffer : Option Bytes} {sets : Bool}
    {outcome : Outcome Ppv2Filter}
    (hexamine : f.examine ⟨buffer, table, sets⟩ = .settled outcome) :
    Settles table (.tcp (.ppv2 f)) (.onData buffer sets) (.tcp (.ppv2 outcome.filter))
      outcome.status := by
  -- Whatever is settled is settled whatever judging would answer.
  have hreacts := onData_reacts f ⟨⟨buffer, table, sets⟩, fun _ => false⟩
  have hsettled : f.onData ⟨buffer, table, sets⟩ (fun _ => false) = outcome := by
    simp [Ppv2Filter.onData, hexamine]
  rw [hsettled] at hreacts
  cases hreacts with
  | refused => exact .stops ⟨rfl, id⟩
  | done hrefused hdone => exact .again hdone
  | waits => exact .stops ⟨rfl, id⟩
  | refuses => exact .stops ⟨rfl, id⟩
  | admits hfresh calls hadmits =>
      obtain ⟨t, h, htable, hparse, hsets, -, -, henforce⟩ := hadmits
      have hlabelling : f.enforce = false := by
        cases henf : f.enforce with
        | true => exact absurd (henforce henf) Bool.false_ne_true
        | false => rfl
      have hsets : sets = true := hsets
      subst hsets
      have htable : table = some t := htable
      exact .labels hlabelling htable hparse

theorem asks_of_examine {f : Ppv2Filter} {buffer : Option Bytes} {sets : Bool} {id : U128}
    {calls : List EnvoyCall} (hexamine : f.examine ⟨buffer, table, sets⟩ = .judge id calls) :
    Asks table (.tcp (.ppv2 f)) (.onData buffer sets) (.ppv2 id calls) := by
  cases hrefused : f.refused with
  | true => simp [Ppv2Filter.examine, hrefused] at hexamine
  | false =>
      cases hdone : f.done with
      | true => simp [Ppv2Filter.examine, hrefused, hdone] at hexamine
      | false =>
          simp only [Ppv2Filter.examine, hrefused, hdone, Bool.false_eq_true, ↓reduceIte]
            at hexamine
          cases htable : table with
          | none => simp [htable] at hexamine
          | some t =>
              cases hparse : Ppv2.parse (buffer.getD []) with
              | error e => cases e <;> simp [htable, inspect, hparse] at hexamine
              | ok h =>
                  simp only [htable, inspect, hparse] at hexamine
                  split_ifs at hexamine with hsets henforce
                  cases hexamine
                  have hsets : sets = true := by simpa using hsets
                  subst hsets
                  exact .header henforce rfl hparse

theorem sound_beginData (f : Ppv2Filter) (buffer : Option Bytes) (sets : Bool) :
    (beginData table f buffer sets).Sound table (.tcp (.ppv2 f)) (.onData buffer sets) := by
  unfold beginData
  cases hexamine : f.examine ⟨buffer, table, sets⟩ with
  | settled outcome => exact settles_of_examine hexamine
  | judge id calls => exact asks_of_examine hexamine

theorem sound_beginAccept (f : AuthFilter) (remote : Option (Bytes × UInt32))
    (serverName : Option Bytes) :
    (beginAccept f remote serverName).Sound table (.tcp (.auth f))
      (.onAccept remote serverName) := by
  unfold beginAccept AuthFilter.examine
  cases hlabel : labelledIdentity remote with
  | none => exact Settles.stops trivial
  | some id => exact Asks.label hlabel

theorem sound_beginDatagram (f : Ppv2AuthFilter) (chunks : List Bytes) (sets : Bool) :
    (beginDatagram table f chunks sets).Sound table (.udp (.ppv2Auth f))
      (.onDatagram chunks sets) := by
  unfold beginDatagram
  cases htable : table with
  | none => exact Settles.stops trivial
  | some t =>
      unfold readDatagram
      cases hparse : Ppv2.parse (Filters.datagram chunks) with
      | ok h => exact Asks.datagram rfl hparse
      | error e => exact Settles.stops trivial

theorem sound_begin {filter : Filter} {callback : Callback} {begun : Begun}
    (hbegin : filter.begin table callback = some begun) :
    begun.Sound table filter callback := by
  unfold Filter.begin at hbegin
  split at hbegin <;> cases hbegin
  · exact Settles.stops ⟨rfl, id⟩
  · exact sound_beginData _ _ _
  · exact sound_beginAccept _ _ _
  · next f buffer sets =>
      unfold AuthFilter.onData
      split <;> exact Settles.stops trivial
  · exact Settles.tcpCarrier
  · exact Settles.tcpCarrier
  · exact sound_beginDatagram _ _ _
  · exact Settles.udpCarrier
  · exact Settles.stops trivial

omit [Sha256] in
/-- Only a permitted judgement continues, and only it admits. -/
theorem finish_cases {filter : Filter} {due : Pending} {permitted : Bool}
    {outcome : Outcome Filter} (hfinish : filter.finish permitted due = some outcome) :
    (outcome.filter.Like filter ∨ permitted = true ∧ ∃ f : Ppv2Filter,
        filter = .tcp (.ppv2 f) ∧ outcome.filter = .tcp (.ppv2 { f with done := true })) ∧
      (outcome.status = .continueIteration → permitted = true) := by
  unfold Filter.finish at hfinish
  split at hfinish <;> cases hfinish
  · next f id calls =>
      cases permitted with
      | true => exact ⟨Or.inr ⟨rfl, f, rfl, rfl⟩, fun _ => rfl⟩
      | false =>
          exact ⟨Or.inl ⟨rfl, fun hdone => hdone⟩, fun hstatus => by cases hstatus⟩
  · next f serverName id =>
      cases permitted with
      | true => exact ⟨Or.inl trivial, fun _ => rfl⟩
      | false => exact ⟨Or.inl trivial, fun hstatus => by cases hstatus⟩
  · next f id payload sets =>
      cases permitted with
      | true => exact ⟨Or.inl trivial, fun _ => rfl⟩
      | false => exact ⟨Or.inl trivial, fun hstatus => by cases hstatus⟩

end Callbacks

/-- The filter an action is a callback of. -/
def Act.filter : Act → Option Nat
  | .load _ _ _ => none
  | .loadUdp _ _ _ => none
  | .newFilter _ => none
  | .call k _ => some k
  | .judge k => some k

/-- The config an action makes a filter from. -/
def Act.owner : Act → Option Nat
  | .load _ _ _ => none
  | .loadUdp _ _ _ => none
  | .newFilter config => some config
  | .call _ _ => none
  | .judge _ => none

/-- The config of each filter, in the order they were made. -/
def owners (acts : List Act) : List Nat := acts.filterMap Act.owner

def configOf (readers : Readers) (acts : List Act) (k : Nat) : Option (Hosted Config) :=
  (owners acts)[k]?.bind fun i => (loads readers acts)[i]?

/-- The last table. -/
def landed (readers : Readers) (acts : List Act) : Option Table :=
  (publications readers acts).getLast?

def Hosted.IsCarrier : Hosted Config → Prop
  | .tcp .table => True
  | .udp .table => True
  | _ => False

/-- A filter is of its config's kind. -/
def Hosted.Fits : Hosted Config → Filter → Prop
  | .tcp (.ppv2 _ enforce _), .tcp (.ppv2 f) => f.enforce = enforce
  | .tcp (.auth _ _), .tcp (.auth _) => True
  | .tcp .table, .tcp .table => True
  | .udp (.ppv2Auth _ _), .udp (.ppv2Auth _) => True
  | .udp .table, .udp .table => True
  | .udp .denyAll, .udp .denyAll => True
  | _, _ => False

section Past

variable [Sha256] (readers : Readers)

/-- A callback of filter `k` asked, and nothing of that filter came after. -/
def DueSince (past : List Act) (k : Nat) (due : Pending) : Prop :=
  ∃ mid callback rest hosted filter, past = mid ++ .call k callback :: rest ∧
    (∀ act ∈ rest, act.filter ≠ some k) ∧ configOf readers mid k = some hosted ∧
    hosted.Fits filter ∧ Asks (landed readers mid) filter callback due

/-- Why an action lets its filter's traffic through. -/
inductive Explained : List Act → Act → Prop where
  | carrier {past : List Act} {k : Nat} {callback : Callback} {hosted : Hosted Config}
      (hconfig : configOf readers past k = some hosted) (hcarrier : hosted.IsCarrier) :
      Explained past (.call k callback)
  | labels {past : List Act} {k : Nat} {buffer : Option Bytes} {cfg : Config}
      {counters : Counters} {t : Table} {h : Ppv2.Header}
      (hconfig : configOf readers past k = some (.tcp (.ppv2 cfg false counters)))
      (htable : landed readers past = some t)
      (hparse : Ppv2.parse (buffer.getD []) = .ok h) :
      Explained past (.call k (.onData buffer true))
  | judged {past : List Act} {k : Nat} {hosted : Hosted Config} {cfg : Config} {t : Table}
      {due : Pending} (hconfig : configOf readers past k = some hosted)
      (hcfg : hosted.cfg = some cfg) (htable : landed readers past = some t)
      (hdue : DueSince readers past k due)
      (hpermits : (cfg.rules.expand (some t)).permits due.serverName due.id = true) :
      Explained past (.judge k)
  | again {mid rest : List Act} {act : Act} {k : Nat} {callback : Callback}
      (hfirst : Explained mid act) (hsame : act.filter = some k) :
      Explained (mid ++ act :: rest) (.call k callback)

/-- What the past says about a pod without a cache. -/
structure History (past : List Act) (m : Pod Rules) : Prop where
  table : m.cell.table = landed readers past
  configs : m.configs = (loads readers past).map (Hosted.map Config.rules)
  made : m.live.map Live.owner = owners past
  fits : ∀ (k : Nat) (live : Live), m.live[k]? = some live →
    ∃ hosted, configOf readers past k = some hosted ∧ hosted.Fits live.filter
  due : ∀ (k : Nat) (live : Live) (due : Pending), m.live[k]? = some live →
    live.due = some due → DueSince readers past k due
  done : ∀ (k : Nat) (live : Live) (f : Ppv2Filter), m.live[k]? = some live →
    live.filter = .tcp (.ppv2 f) → f.done = true →
    ∃ mid act rest, past = mid ++ act :: rest ∧ act.filter = some k ∧ Explained readers mid act

theorem history_initial : History readers [] Pod.initial where
  table := rfl
  configs := rfl
  made := rfl
  fits k live hlive := by simp [Pod.initial] at hlive
  due k live due hlive := by simp [Pod.initial] at hlive
  done k live f hlive := by simp [Pod.initial] at hlive

end Past

section Concat

variable [Sha256] {readers : Readers} {past : List Act} {act : Act} {k : Nat}

omit [Sha256] in
theorem loads_concat :
    loads readers (past ++ [act]) = loads readers past ++ (act.config readers).toList := by
  cases hact : act.config readers <;> simp [loads, hact]

omit [Sha256] in
theorem owners_concat : owners (past ++ [act]) = owners past ++ act.owner.toList := by
  cases hact : act.owner <;> simp [owners, hact]

omit [Sha256] in
theorem configOf_concat {hosted : Hosted Config} (h : configOf readers past k = some hosted) :
    configOf readers (past ++ [act]) k = some hosted := by
  obtain ⟨i, hi, hload⟩ := Option.bind_eq_some_iff.mp h
  obtain ⟨hk, -⟩ := List.getElem?_eq_some_iff.mp hi
  obtain ⟨hlt, -⟩ := List.getElem?_eq_some_iff.mp hload
  rw [configOf, owners_concat, loads_concat, List.getElem?_append_left hk, hi, Option.bind_some,
    List.getElem?_append_left hlt, hload]

omit [Sha256] in
theorem configOf_append {hosted : Hosted Config} (h : configOf readers past k = some hosted)
    (more : List Act) : configOf readers (past ++ more) k = some hosted := by
  induction more using List.reverseRecOn with
  | nil => simpa using h
  | append_singleton more act ih =>
      rw [← List.append_assoc]
      exact configOf_concat ih

omit [Sha256] in
theorem landed_concat : landed readers (past ++ [act]) =
    (act.publication readers).or (landed readers past) := by
  rw [landed, publications_concat]
  cases act.publication readers with
  | none => simp [landed]
  | some table => simp

theorem DueSince.concat {due : Pending} (h : DueSince readers past k due)
    (hother : act.filter ≠ some k) : DueSince readers (past ++ [act]) k due := by
  obtain ⟨mid, callback, rest, hosted, filter, rfl, hquiet, hrest⟩ := h
  refine ⟨mid, callback, rest ++ [act], hosted, filter, by simp, ?_, hrest⟩
  intro act' hmem
  rcases List.mem_append.mp hmem with hold | hnew
  · exact hquiet act' hold
  · rw [List.mem_singleton.mp hnew]
    exact hother

omit [Sha256] in
theorem setLive_cases {γ : Type} {p : Pod γ} {j : Nat} {live l : Live}
    (h : (p.setLive k live).live[j]? = some l) :
    j = k ∧ l = live ∨ j ≠ k ∧ p.live[j]? = some l := by
  by_cases hj : k = j
  · subst hj
    rw [Pod.setLive, List.getElem?_set_self'] at h
    obtain ⟨-, -, rfl⟩ := Option.map_eq_some_iff.mp h
    exact Or.inl ⟨rfl, rfl⟩
  · rw [Pod.setLive, List.getElem?_set_ne hj] at h
    exact Or.inr ⟨Ne.symm hj, h⟩

omit [Sha256] in
theorem owners_setLive {γ : Type} {p : Pod γ} {live live' : Live}
    (hlive : p.live[k]? = some live) (howner : live'.owner = live.owner) :
    (p.setLive k live').live.map Live.owner = p.live.map Live.owner := by
  apply List.ext_getElem?
  intro j
  simp only [Pod.setLive, List.getElem?_map, List.getElem?_set]
  split_ifs with hj hlt
  · subst hj
    simp [hlive, howner]
  · subst hj
    simp [List.getElem?_eq_none (Nat.le_of_not_lt hlt)]
  · rfl

omit [Sha256] in
theorem Hosted.Fits.like {hosted : Hosted Config} {filter filter' : Filter}
    (h : hosted.Fits filter) (hlike : filter'.Like filter) : hosted.Fits filter' := by
  unfold Filter.Like at hlike
  split at hlike
  case h_7 => exact hlike.elim
  all_goals
    cases hosted with
    | tcp config => cases config <;> simp_all [Hosted.Fits]
    | udp config => cases config <;> simp_all [Hosted.Fits]

/-- An action of filter `k` that loads nothing and makes nothing. -/
structure Act.Touches (act : Act) (k : Nat) : Prop where
  filter : act.filter = some k
  owner : act.owner = none
  config : ∀ readers, act.config readers = none
  publication : ∀ readers, act.publication readers = none

omit [Sha256] in
theorem touches_call (callback : Callback) : (Act.call k callback).Touches k :=
  ⟨rfl, rfl, fun _ => rfl, fun _ => rfl⟩

omit [Sha256] in
theorem touches_judge : (Act.judge k).Touches k := ⟨rfl, rfl, fun _ => rfl, fun _ => rfl⟩

/-- Only filter `k` changes: what is to be shown is about its new state. -/
theorem History.setLive {m : Pod Rules} (h : History readers past m)
    (htouches : act.Touches k) {live live' : Live} (hlive : m.live[k]? = some live)
    (howner : live'.owner = live.owner)
    (hfits : ∀ hosted : Hosted Config, hosted.Fits live.filter → hosted.Fits live'.filter)
    (hdue : ∀ due, live'.due = some due → DueSince readers (past ++ [act]) k due)
    (hdone : ∀ f : Ppv2Filter, live'.filter = .tcp (.ppv2 f) → f.done = true →
      ∃ mid act' rest, past ++ [act] = mid ++ act' :: rest ∧ act'.filter = some k ∧
        Explained readers mid act') :
    History readers (past ++ [act]) (m.setLive k live') where
  table := by
    rw [landed_concat, htouches.publication]
    exact h.table
  configs := by
    rw [loads_concat, htouches.config, Option.toList_none, List.append_nil]
    exact h.configs
  made := by
    rw [owners_concat, htouches.owner, owners_setLive hlive howner, h.made]
    simp
  fits j l hl := by
    rcases setLive_cases hl with ⟨rfl, rfl⟩ | ⟨-, hl⟩
    · obtain ⟨hosted, hconfig, hfit⟩ := h.fits j live hlive
      exact ⟨hosted, configOf_concat hconfig, hfits hosted hfit⟩
    · obtain ⟨hosted, hconfig, hfit⟩ := h.fits j l hl
      exact ⟨hosted, configOf_concat hconfig, hfit⟩
  due j l due hl hdue' := by
    rcases setLive_cases hl with ⟨rfl, rfl⟩ | ⟨hne, hl⟩
    · exact hdue due hdue'
    · refine (h.due j l due hl hdue').concat ?_
      rw [htouches.filter]
      exact fun heq => hne (Option.some.inj heq).symm
  done j l f hl hf hfdone := by
    rcases setLive_cases hl with ⟨rfl, rfl⟩ | ⟨-, hl⟩
    · exact hdone f hf hfdone
    · obtain ⟨mid, act', rest, rfl, hact, hexplained⟩ := h.done j l f hl hf hfdone
      exact ⟨mid, act', rest ++ [act], by simp, hact, hexplained⟩

/-- An admission made earlier is still one. -/
theorem History.done_concat {m : Pod Rules} (h : History readers past m) {live : Live}
    (hlive : m.live[k]? = some live) {f : Ppv2Filter} (hfilter : live.filter = .tcp (.ppv2 f))
    (hdone : f.done = true) (act : Act) :
    ∃ mid act' rest, past ++ [act] = mid ++ act' :: rest ∧ act'.filter = some k ∧
      Explained readers mid act' := by
  obtain ⟨mid, act', rest, rfl, hact, hexplained⟩ := h.done k live f hlive hfilter hdone
  exact ⟨mid, act', rest ++ [act], by simp, hact, hexplained⟩

theorem History.loaded {m : Pod Rules} (h : History readers past m) (hload : act.IsLoad) :
    History readers (past ++ [act])
      (m.loaded (landOn m.cell (act.publication readers))
        ((act.config readers).map (Hosted.map Config.rules))) := by
  have howner : act.owner = none := by
    cases act <;> first | rfl | exact hload.elim
  have hfilter : ∀ k, act.filter ≠ some k := by
    intro k
    cases act with
    | load | loadUdp => exact nofun
    | newFilter | call | judge => exact hload.elim
  constructor
  · rw [landed_concat]
    cases act.publication readers with
    | none => exact h.table
    | some table => rfl
  · rw [loads_concat, List.map_append, ← h.configs]
    cases act.config readers <;> rfl
  · rw [owners_concat, howner]
    simpa [Pod.loaded] using h.made
  · intro k live hlive
    obtain ⟨hosted, hconfig, hfit⟩ := h.fits k live hlive
    exact ⟨hosted, configOf_concat hconfig, hfit⟩
  · intro k live due hlive hdue
    exact (h.due k live due hlive hdue).concat (hfilter k)
  · intro k live f hlive hf hdone
    exact h.done_concat hlive hf hdone act

omit [Sha256] in
theorem fits_newFilter (hosted : Hosted Config) : hosted.Fits hosted.newFilter := by
  cases hosted with
  | tcp config => cases config <;> first | rfl | trivial
  | udp config => cases config <;> trivial

omit [Sha256] in
theorem newFilter_done {γ : Type} {hosted : Hosted γ} {f : Ppv2Filter}
    (h : hosted.newFilter = .tcp (.ppv2 f)) : f.done = false := by
  cases hosted with
  | tcp config =>
      cases config with
      | ppv2 cfg enforce counters =>
          cases h
          rfl
      | auth | table => cases h
  | udp config => cases h

omit [Sha256] in
/-- A filter is one of those there were or the new one. -/
theorem concat_cases {before : List Live} {new live : Live}
    (h : (before ++ [new])[k]? = some live) :
    before[k]? = some live ∨ k = before.length ∧ live = new := by
  rcases Nat.lt_trichotomy k before.length with hlt | rfl | hgt
  · rw [List.getElem?_append_left hlt] at h
    exact Or.inl h
  · rw [List.getElem?_concat_length, Option.some.injEq] at h
    exact Or.inr ⟨rfl, h.symm⟩
  · rw [List.getElem?_eq_none (by simp; omega)] at h
    cases h

/-- A filter just made is the last one. -/
theorem History.created {m : Pod Rules} (h : History readers past m) {i : Nat}
    {hosted : Hosted Rules} (hconfig : m.configs[i]? = some hosted) :
    History readers (past ++ [.newFilter i])
      { m with live := m.live ++ [⟨i, hosted.newFilter, none⟩] } := by
  have hlength : (owners past).length = m.live.length := by
    rw [← h.made, List.length_map]
  obtain ⟨loaded, hload, rfl⟩ : ∃ loaded, (loads readers past)[i]? = some loaded ∧
      loaded.map Config.rules = hosted := by
    rw [h.configs, List.getElem?_map] at hconfig
    exact Option.map_eq_some_iff.mp hconfig
  have hloads : loads readers (past ++ [.newFilter i]) = loads readers past := by
    simp [loads_concat, Act.config]
  constructor
  · rw [landed_concat]
    exact h.table
  · rw [hloads]
    exact h.configs
  · rw [owners_concat]
    simp [h.made, Act.owner]
  · intro k live hlive
    rcases concat_cases hlive with hold | ⟨rfl, rfl⟩
    · obtain ⟨hosted, hconfig, hfit⟩ := h.fits k live hold
      exact ⟨hosted, configOf_concat hconfig, hfit⟩
    · refine ⟨loaded, ?_, ?_⟩
      · rw [configOf, owners_concat, hloads, ← hlength]
        simp [Act.owner, hload]
      · rw [Hosted.newFilter_map]
        exact fits_newFilter loaded
  · intro k live due hlive hdue
    rcases concat_cases hlive with hold | ⟨rfl, rfl⟩
    · exact (h.due k live due hold hdue).concat (by simp [Act.filter])
    · cases hdue
  · intro k live f hlive hf hdone
    rcases concat_cases hlive with hold | ⟨rfl, rfl⟩
    · exact h.done_concat hold hf hdone _
    · exact absurd (newFilter_done hf) (by simp [hdone])

omit [Sha256] in
theorem Hosted.Fits.ppv2 {hosted : Hosted Config} {f g : Ppv2Filter}
    (h : hosted.Fits (.tcp (.ppv2 f))) (henforce : g.enforce = f.enforce) :
    hosted.Fits (.tcp (.ppv2 g)) := by
  cases hosted with
  | tcp config =>
      cases config with
      | ppv2 cfg enforce counters => exact henforce.trans h
      | auth | table => exact h.elim
  | udp config => cases config <;> exact h.elim

end Concat

section Step

variable [Sha256] {readers : Readers} {past : List Act} {act : Act} {m m' : Pod Rules}
  {reply : Reply}

omit [Sha256] in
theorem Filter.Like.done {filter : Filter} {f' : Ppv2Filter}
    (hlike : (Filter.tcp (.ppv2 f')).Like filter) (hdone : f'.done = true) :
    ∃ f : Ppv2Filter, filter = .tcp (.ppv2 f) ∧ f.done = true := by
  cases filter with
  | tcp filter =>
      cases filter with
      | ppv2 f => exact ⟨f, rfl, hlike.2 hdone⟩
      | auth | table => exact hlike.elim
  | udp filter => exact hlike.elim

/-- What was said of the past before the action explains it afterwards. -/
theorem exists_of_explained {k : Nat} (hfilter : act.filter = some k)
    (h : Explained readers past act) :
    ∃ mid act' rest, past ++ [act] = mid ++ act' :: rest ∧ act'.filter = some k ∧
      Explained readers mid act' :=
  ⟨past, act, [], rfl, hfilter, h⟩

theorem explained_of_settles (h : History readers past m) {k : Nat} {live : Live}
    (hlive : m.live[k]? = some live) {callback : Callback} {filter' : Filter}
    {status : Status} (hsettles : Settles m.cell.table live.filter callback filter' status)
    (hcontinue : status = .continueIteration) :
    Explained readers past (.call k callback) := by
  obtain ⟨hosted, hconfig, hfit⟩ := h.fits k live hlive
  obtain ⟨owner, filter, due⟩ := live
  cases hsettles with
  | stops => cases hcontinue
  | again hdone =>
      obtain ⟨mid, act', rest, rfl, hact, hexplained⟩ := h.done k _ _ hlive rfl hdone
      exact .again hexplained hact
  | @labels f buffer t header henforce htable hparse =>
      obtain ⟨cfg, counters, rfl⟩ : ∃ cfg counters,
          hosted = .tcp (.ppv2 cfg false counters) := by
        cases hosted with
        | tcp config =>
            cases config with
            | ppv2 cfg enforce counters =>
                have henforces : f.enforce = enforce := hfit
                exact ⟨cfg, counters, by rw [← henforces, henforce]⟩
            | auth | table => exact hfit.elim
        | udp config => cases config <;> exact hfit.elim
      exact .labels hconfig (h.table.symm.trans htable) hparse
  | tcpCarrier =>
      refine .carrier hconfig ?_
      cases hosted with
      | tcp config => cases config <;> trivial
      | udp config => cases config <;> trivial
  | udpCarrier =>
      refine .carrier hconfig ?_
      cases hosted with
      | tcp config => cases config <;> trivial
      | udp config => cases config <;> trivial

/-- A callback that settles keeps what is said of its filter. -/
theorem History.settled (h : History readers past m) {k : Nat} {live : Live}
    {callback : Callback} {outcome : Outcome Filter} (hlive : m.live[k]? = some live)
    (hsettles : Settles m.cell.table live.filter callback outcome.filter outcome.status) :
    History readers (past ++ [.call k callback])
      (m.setLive k ⟨live.owner, outcome.filter, none⟩) := by
  have hexplained := explained_of_settles h hlive hsettles
  refine h.setLive (touches_call callback) hlive rfl ?_ nofun ?_
  · intro hosted hfit
    generalize live.filter = filter, outcome.filter = filter', outcome.status = status
      at hsettles hfit ⊢
    cases hsettles with
    | stops hlike => exact hfit.like hlike
    | again => exact hfit
    | labels => exact hfit.ppv2 rfl
    | tcpCarrier | udpCarrier => exact hfit
  · intro f hf hdone
    obtain ⟨owner, filter, due⟩ := live
    obtain ⟨filter', calls, status⟩ := outcome
    cases hsettles with
    | stops hlike =>
        cases hf
        obtain ⟨f₀, hfilter, hdone₀⟩ := hlike.done hdone
        exact h.done_concat hlive hfilter hdone₀ _
    | again hbefore => exact exists_of_explained rfl (hexplained rfl)
    | labels => exact exists_of_explained rfl (hexplained rfl)
    | tcpCarrier | udpCarrier => cases hf

theorem History.judging (h : History readers past m) {k : Nat} {live : Live}
    {callback : Callback} {due : Pending} (hlive : m.live[k]? = some live)
    (hasks : Asks m.cell.table live.filter callback due) :
    History readers (past ++ [.call k callback])
      (m.setLive k { live with due := some due }) := by
  obtain ⟨hosted, hconfig, hfit⟩ := h.fits k live hlive
  refine h.setLive (touches_call callback) hlive rfl (fun _ hfit => hfit) ?_ ?_
  · intro due' hdue'
    cases hdue'
    exact ⟨past, callback, [], hosted, live.filter, rfl, by simp, hconfig, hfit,
      h.table ▸ hasks⟩
  · intro f hf hdone
    exact h.done_concat hlive hf hdone _

omit [Sha256] in
theorem setCfg_same {γ : Type} {p : Pod γ} {i : Nat} {hosted : Hosted γ} {cfg : γ}
    (hconfig : p.configs[i]? = some hosted) (hcfg : hosted.cfg = some cfg) :
    p.setCfg i cfg = p := by
  have hsame : hosted.map (fun _ => cfg) = hosted := by
    cases hosted with
    | tcp config =>
        cases config <;> cases hcfg
        · rfl
        · rfl
    | udp config =>
        cases config <;> cases hcfg
        rfl
  have hconfigs : p.configs.modify i (Hosted.map fun _ => cfg) = p.configs := by
    apply List.ext_getElem?
    intro j
    rw [List.getElem?_modify]
    by_cases hij : i = j
    · subst hij
      simp [hconfig, hsame]
    · simp [hij]
  rw [Pod.setCfg, hconfigs]

/-- The rules a filter is judged by are those of the config it was made
from. -/
theorem History.judgedBy (h : History readers past m) {k : Nat} {live : Live}
    {hosted : Hosted Rules} {r : Rules} (hlive : m.live[k]? = some live)
    (hconfig : m.configs[live.owner]? = some hosted) (hcfg : hosted.cfg = some r) :
    ∃ loaded cfg, configOf readers past k = some loaded ∧ loaded.cfg = some cfg ∧
      cfg.rules = r ∧ loaded.Fits live.filter := by
  obtain ⟨loaded, hkind, hfit⟩ := h.fits k live hlive
  obtain ⟨i, howner, hload⟩ := Option.bind_eq_some_iff.mp hkind
  have hi : i = live.owner := by
    rw [← h.made, List.getElem?_map, hlive] at howner
    exact (Option.some.inj howner).symm
  subst hi
  have hrules : loaded.map Config.rules = hosted := by
    rw [h.configs, List.getElem?_map, hload] at hconfig
    exact Option.some.inj hconfig
  rw [← hrules, Hosted.cfg_map] at hcfg
  obtain ⟨cfg, hcfg', hr⟩ := Option.map_eq_some_iff.mp hcfg
  exact ⟨loaded, cfg, hkind, hcfg', hr, hfit⟩

theorem explained_of_judged (h : History readers past m) {k : Nat} {live : Live}
    {hosted : Hosted Rules} {r r' : Rules} {due : Pending}
    (hlive : m.live[k]? = some live) (hconfig : m.configs[live.owner]? = some hosted)
    (hcfg : hosted.cfg = some r) (hdue : live.due = some due)
    (hpermits : Holding.cacheless.permits r m.cell due.serverName due.id = (r', true)) :
    Explained readers past (.judge k) := by
  obtain ⟨loaded, cfg, hkind, hcfg', rfl, -⟩ := h.judgedBy hlive hconfig hcfg
  have hanswer : (cfg.rules.expand m.cell.table).permits due.serverName due.id = true :=
    congrArg Prod.snd hpermits
  rw [h.table] at hanswer
  cases htable : landed readers past with
  | none =>
      rw [htable, Rules.expand, Runs.permits_denyAll] at hanswer
      cases hanswer
  | some t =>
      rw [htable] at hanswer
      exact .judged hkind hcfg' htable (h.due k live due hlive hdue) hanswer

/-- One step keeps what is said of the past, and what it lets through is
explained. -/
theorem History.step (h : History readers past m)
    (hsteps : Steps readers .cacheless m act m' reply) :
    History readers (past ++ [act]) m' ∧
      ∀ calls, reply = .answered calls .continueIteration → Explained readers past act := by
  cases hsteps with
  | loaded hload => exact ⟨h.loaded hload, nofun⟩
  | created hconfig => exact ⟨h.created hconfig, nofun⟩
  | @settled k live callback outcome hlive hdue hbegin =>
      have hsettles : Settles m.cell.table live.filter callback outcome.filter
        outcome.status := sound_begin hbegin
      refine ⟨h.settled hlive hsettles, fun calls hreply => ?_⟩
      exact explained_of_settles h hlive hsettles (Reply.answered.inj hreply).2
  | judging hlive hdue hbegin =>
      have hasks : Asks m.cell.table _ _ _ := sound_begin hbegin
      exact ⟨h.judging hlive hasks, nofun⟩
  | @judged k live hosted r r' due permitted outcome hlive hconfig hcfg hdue hpermits hfinish =>
      obtain ⟨hfilter, hstatus⟩ := finish_cases hfinish
      have hr : r' = r := congrArg Prod.fst hpermits.symm
      subst hr
      have hexplained : permitted = true → Explained readers past (.judge k) := by
        rintro rfl
        exact explained_of_judged h hlive hconfig hcfg hdue hpermits
      rw [setCfg_same hconfig hcfg]
      constructor
      · refine h.setLive touches_judge hlive rfl ?_ nofun ?_
        · intro loaded hfit
          rcases hfilter with hlike | ⟨-, f, hold, hnew⟩
          · exact hfit.like hlike
          · rw [hold] at hfit
            exact hnew ▸ hfit.ppv2 rfl
        · intro f hf hdone
          rcases hfilter with hlike | ⟨hpermitted, -⟩
          · have hf : outcome.filter = .tcp (.ppv2 f) := hf
            rw [hf] at hlike
            obtain ⟨f₀, hfilter, hdone₀⟩ := hlike.done hdone
            exact h.done_concat hlive hfilter hdone₀ _
          · exact exists_of_explained rfl (hexplained hpermitted)
      · intro calls hreply
        exact hexplained (hstatus (Reply.answered.inj hreply).2)

end Step

section Runs

variable [Sha256] {readers : Readers}

/-- The run lemma of `History.step`. -/
theorem history_of_ends {acts : List Act} {m : Pod Rules}
    (hends : Reactive.Ends (Pod.step readers .cacheless) Pod.initial acts m) :
    History readers acts m :=
  Reactive.history_of_ends (history_initial readers)
    (fun _ _ _ _ _ hpast hstep => (hpast.step (steps_of_step hstep)).1) hends

/-- What is let through is explained by the run without a cache. -/
theorem explained_of_reply {acts past rest : List Act} {act : Act} {p : Pod Config}
    {replies : List Reply} {calls : List EnvoyCall}
    (hrun : Pod.run readers .cached acts = some (p, replies))
    (hfew : (publications readers acts).length < 2 ^ 64 - 1)
    (hacts : acts = past ++ act :: rest)
    (hreply : replies[past.length]? = some (.answered calls .continueIteration)) :
    Explained readers past act := by
  have hcacheless : Pod.run readers .cacheless acts = some (p.forget, replies) := by
    rw [forget_run acts hfew, hrun]
    rfl
  subst hacts
  obtain ⟨m, before, next, reply, after, hpast, hstep, -, rfl⟩ :=
    Reactive.run_split hcacheless
  have hlength : before.length = past.length := Reactive.length_of_run hpast
  have hhere : reply = .answered calls .continueIteration := by
    rw [← hlength] at hreply
    simpa using hreply
  have hhistory : History readers past m := history_of_ends ⟨before, hpast⟩
  exact (hhistory.step (steps_of_step hstep)).2 calls hhere

omit [Sha256] in
theorem publication_of_carrier {act : Act} {hosted : Hosted Config}
    (hconfig : act.config readers = some hosted) (hcarrier : hosted.IsCarrier) :
    (act.publication readers).isSome := by
  cases act with
  | load name bytes define =>
      obtain ⟨config, hbuilt, rfl⟩ := Option.map_eq_some_iff.mp hconfig
      cases config with
      | ppv2 | auth => exact hcarrier.elim
      | table => exact publication_of_table hbuilt
  | loadUdp name bytes define =>
      cases hconfig
      cases hbuilt : (newUdpListenerFilterConfig readers define .initial name bytes).2 with
      | ppv2Auth => exact (hbuilt ▸ hcarrier).elim
      | table => exact publication_of_udp_table hbuilt
      | denyAll => exact (hbuilt ▸ hcarrier).elim
  | newFilter | call | judge => cases hconfig

/-- Everything that explains an admission needs a table. -/
theorem Explained.exists_table {past : List Act} {act : Act} (h : Explained readers past act) :
    publications readers past ≠ [] := by
  induction h with
  | carrier hconfig hcarrier =>
      obtain ⟨i, -, hload⟩ := Option.bind_eq_some_iff.mp hconfig
      obtain ⟨act, hmem, hact⟩ := List.mem_filterMap.mp (List.mem_of_getElem? hload)
      obtain ⟨table, htable⟩ := Option.isSome_iff_exists.mp (publication_of_carrier hact hcarrier)
      exact List.ne_nil_of_mem (List.mem_filterMap.mpr ⟨act, hmem, htable⟩)
  | labels _ htable =>
      rintro hnone
      rw [landed, hnone] at htable
      cases htable
  | judged _ _ htable =>
      rintro hnone
      rw [landed, hnone] at htable
      cases htable
  | again hfirst _ ih =>
      intro hnone
      apply ih
      rw [publications, List.filterMap_append, List.append_eq_nil_iff] at hnone
      exact hnone.1

/-- Complete mediation: every reply of a run that lets traffic through has its
explanation in the actions before it, and until a carrier lands there is
none. -/
theorem complete_mediation {acts : List Act} {p : Pod Config} {replies : List Reply}
    (hrun : Pod.run readers .cached acts = some (p, replies))
    (hfew : (publications readers acts).length < 2 ^ 64 - 1) :
    (∀ past act rest calls, acts = past ++ act :: rest →
      replies[past.length]? = some (.answered calls .continueIteration) →
        Explained readers past act) ∧
      (publications readers acts = [] →
        ∀ calls, .answered calls .continueIteration ∉ replies) := by
  constructor
  · intro past act rest calls hacts hreply
    exact explained_of_reply hrun hfew hacts hreply
  · intro hnone calls hmem
    obtain ⟨i, hi⟩ := List.mem_iff_getElem?.mp hmem
    have hlength : replies.length = acts.length := Reactive.length_of_run hrun
    obtain ⟨hlt, -⟩ := List.getElem?_eq_some_iff.mp hi
    obtain ⟨past, act, rest, hacts, hpast⟩ : ∃ past act rest,
        acts = past ++ act :: rest ∧ past.length = i :=
      ⟨acts.take i, acts[i], acts.drop (i + 1), by simp, by simp; omega⟩
    subst hpast
    apply (explained_of_reply hrun hfew hacts hi).exists_table
    rw [hacts, publications, List.filterMap_append, List.append_eq_nil_iff] at hnone
    exact hnone.1

end Runs

namespace PodWitness

attribute [local instance] MeetingWitness.endpointDigest

/-- The second connection is let through. -/
theorem second_admitted :
    ∃ p replies calls, Pod.run readers .cached twoConnections = some (p, replies) ∧
      replies[6]? = some (.answered calls .continueIteration) := by
  obtain ⟨⟨p, replies⟩, hrun⟩ : ∃ last, Pod.run readers .cached twoConnections = some last :=
    Option.isSome_iff_exists.mp (by decide +kernel)
  have hlast : ((Pod.run readers .cached twoConnections).bind fun last => last.2[6]?).bind
      (fun | .answered _ status => some status | _ => none) = some .continueIteration := by
    decide +kernel
  rw [hrun] at hlast
  obtain ⟨reply, hreply, hstatus⟩ := Option.bind_eq_some_iff.mp hlast
  cases reply with
  | answered calls status =>
      cases hstatus
      exact ⟨p, replies, calls, hrun, hreply⟩
  | loaded | created | judging => cases hstatus

theorem few_tables : (publications readers twoConnections).length < 2 ^ 64 - 1 := by
  have hone : (publications readers twoConnections).length = 1 := by decide +kernel
  omega

theorem complete_mediation_two : Explained readers (twoConnections.take 6) (.judge 1) := by
  obtain ⟨p, replies, calls, hrun, hreply⟩ := second_admitted
  exact (complete_mediation hrun few_tables).1 (twoConnections.take 6) (.judge 1) [] calls rfl
    hreply

end PodWitness

end Pods

end Ppv2Auth
