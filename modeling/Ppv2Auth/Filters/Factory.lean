/-
The entry points of the module: one shared object, chosen by filter name.  A
rejected TCP config rejects its listener; a rejected UDP config becomes a
filter that drops every datagram.  A carrier's config publishes its table.
-/
import Ppv2Auth.Filters.Tcp
import Ppv2Auth.Filters.Udp

namespace Ppv2Auth

namespace Filters

open Rust Identity

/-- The JSON reader, for each of the two shapes. -/
structure Readers where
  rules : Bytes → Except String RawRules
  table : Bytes → Except String RawTable

def textOf (bytes : Bytes) : Except String Bytes :=
  if ¬ (ByteArray.mk bytes.toArray).validateUTF8 then
    .error "filter_config is not valid UTF-8"
  else if trim bytes = [] then .error "filter_config is missing"
  else .ok bytes

/-- The one place where a bad rules config is told from a good one. -/
def load (readers : Readers) (check : Rules → Except String Unit) (bytes : Bytes) :
    Except String Config := do
  let text ← textOf bytes
  let cfg ← Config.parse readers.rules text
  check cfg.rules
  return cfg

/-- Why a carrier's config is rejected. -/
inductive CarrierError where
  | text (message : String)
  | table (error : TableError)
deriving DecidableEq

/-- What `load_table` is about to publish. -/
def readTable (readers : Readers) (bytes : Bytes) : Except CarrierError Table := do
  let text ← (textOf bytes).mapError .text
  (parseTable readers.table text).mapError .table

/-- Parse the table and publish it: the whole job of a carrier. -/
def loadTable (readers : Readers) (cell : Published) (bytes : Bytes) : Published × Bool :=
  match readTable readers bytes with
  | .ok table => (cell.publish table, true)
  | .error _ => (cell, false)

/-- What a TCP listener is built with; `γ` is how the shared rules are held. -/
inductive ListenerFilterConfig (γ : Type) where
  /-- `ppv2_auth` enforces, `ppv2` labels only. -/
  | ppv2 (cfg : γ) (enforce : Bool) (counters : Counters)
  | auth (cfg : γ) (counters : Counters)
  | table

/-- A listener's filter config; none rejects the listener. -/
def newListenerFilterConfig (readers : Readers) (define : Bytes → Option Nat)
    (cell : Published) (name bytes : Bytes) :
    Published × Option (ListenerFilterConfig Config) :=
  if name = ascii "ppv2_auth" then
    (cell, (load readers validatePpv2Auth bytes).toOption.map fun cfg =>
      .ppv2 cfg true (Counters.register name define))
  else if name = ascii "ppv2" then
    (cell, (load readers validatePpv2 bytes).toOption.map fun cfg =>
      .ppv2 cfg false (Counters.register name define))
  else if name = ascii "auth" then
    (cell, (load readers validateAuth bytes).toOption.map fun cfg =>
      .auth cfg (Counters.register name define))
  else if name = ascii "table" then
    let (cell, landed) := loadTable readers cell bytes
    (cell, if landed then some .table else none)
  else (cell, none)

/-- The filter of one connection. -/
inductive ListenerFilter where
  | ppv2 (filter : Ppv2Filter)
  | auth (filter : AuthFilter)
  | table
deriving DecidableEq

def ListenerFilterConfig.newListenerFilter {γ : Type} :
    ListenerFilterConfig γ → ListenerFilter
  | .ppv2 _ enforce counters => .ppv2 (.new enforce counters)
  | .auth _ counters => .auth ⟨counters, false⟩
  | .table => .table

/-- How many bytes the host shows; with none it never calls `on_data`. -/
def ListenerFilter.maxReadBytes : ListenerFilter → Nat
  | .ppv2 f => f.maxReadBytes
  | .auth _ => 0
  | .table => 0

inductive UdpListenerFilterConfig (γ : Type) where
  | ppv2Auth (cfg : γ) (counters : Counters)
  | table
  /-- What a rejected config becomes: a missing one crashes the host. -/
  | denyAll

/-- Never none on UDP. -/
def newUdpListenerFilterConfig (readers : Readers) (define : Bytes → Option Nat)
    (cell : Published) (name bytes : Bytes) :
    Published × UdpListenerFilterConfig Config :=
  let (cell, built) :=
    if name = ascii "ppv2_auth" then
      (cell, (load readers validatePpv2Auth bytes).toOption.map fun cfg =>
        UdpListenerFilterConfig.ppv2Auth cfg (Counters.register name define))
    else if name = ascii "table" then
      let (cell, landed) := loadTable readers cell bytes
      (cell, if landed then some .table else none)
    else (cell, none)
  (cell, built.getD .denyAll)

/-- The filter of one listener on one worker. -/
inductive UdpListenerFilter where
  | ppv2Auth (filter : Ppv2AuthFilter)
  | table
  | denyAll
deriving DecidableEq

def UdpListenerFilterConfig.newUdpListenerFilter {γ : Type} :
    UdpListenerFilterConfig γ → UdpListenerFilter
  | .ppv2Auth _ counters => .ppv2Auth (.new counters)
  | .table => .table
  | .denyAll => .denyAll

section Loaded

variable {readers : Readers} {check : Rules → Except String Unit} {bytes : Bytes}
  {cfg : Config}

/-- An accepted config passed its check and is stale on arrival. -/
theorem load_eq_ok (hload : load readers check bytes = .ok cfg) :
    check cfg.rules = .ok () ∧ ∃ raw, cfg = .ofRaw raw := by
  unfold load at hload
  obtain ⟨text, -, hload⟩ := bind_eq_ok_iff.mp hload
  obtain ⟨parsed, hparsed, hload⟩ := bind_eq_ok_iff.mp hload
  obtain ⟨⟨⟩, hcheck, hreturn⟩ := bind_eq_ok_iff.mp hload
  cases hreturn
  refine ⟨hcheck, ?_⟩
  unfold Config.parse at hparsed
  cases hread : readers.rules text with
  | error e =>
      rw [hread] at hparsed
      cases hparsed
  | ok raw =>
      rw [hread] at hparsed
      cases hparsed
      exact ⟨raw, rfl⟩

end Loaded

/-- What loading a config publishes, whatever the protocol. -/
def publication (readers : Readers) (name bytes : Bytes) : Option Table :=
  if name = ascii "table" then (readTable readers bytes).toOption else none

def landOn (cell : Published) : Option Table → Published
  | some table => cell.publish table
  | none => cell

theorem loadTable_eq (readers : Readers) (cell : Published) (bytes : Bytes) :
    loadTable readers cell bytes =
      (landOn cell (readTable readers bytes).toOption,
        (readTable readers bytes).toOption.isSome) := by
  cases hread : readTable readers bytes with
  | ok table => simp [loadTable, hread, landOn, Except.toOption]
  | error e => simp [loadTable, hread, landOn, Except.toOption]

/-- The rules a filter name takes. -/
def ListenerFilterConfig.Checked : ListenerFilterConfig Config → Prop
  | .ppv2 cfg true _ => validatePpv2Auth cfg.rules = .ok () ∧ ∃ raw, cfg = .ofRaw raw
  | .ppv2 cfg false _ => validatePpv2 cfg.rules = .ok () ∧ ∃ raw, cfg = .ofRaw raw
  | .auth cfg _ => validateAuth cfg.rules = .ok () ∧ ∃ raw, cfg = .ofRaw raw
  | .table => True

def UdpListenerFilterConfig.Checked : UdpListenerFilterConfig Config → Prop
  | .ppv2Auth cfg _ => validatePpv2Auth cfg.rules = .ok () ∧ ∃ raw, cfg = .ofRaw raw
  | .table => True
  | .denyAll => True

section Factories

variable {readers : Readers} {define : Bytes → Option Nat} {cell : Published}
  {name bytes : Bytes}

/-- Of the four names one publishes, and only a table it could read. -/
theorem newListenerFilterConfig_fst :
    (newListenerFilterConfig readers define cell name bytes).1 =
      landOn cell (publication readers name bytes) := by
  have hauth : ascii "ppv2_auth" ≠ ascii "table" := by decide
  have hppv2 : ascii "ppv2" ≠ ascii "table" := by decide
  have hscoped : ascii "auth" ≠ ascii "table" := by decide
  unfold newListenerFilterConfig publication
  split_ifs with h₁ h₂ h₃ h₄
  all_goals first | rfl | simp_all [landOn, loadTable_eq]

theorem newUdpListenerFilterConfig_fst :
    (newUdpListenerFilterConfig readers define cell name bytes).1 =
      landOn cell (publication readers name bytes) := by
  have hauth : ascii "ppv2_auth" ≠ ascii "table" := by decide
  unfold newUdpListenerFilterConfig publication
  split_ifs with h₁ h₂
  all_goals first | rfl | simp_all [landOn, loadTable_eq]

/-- What is built does not depend on what is published. -/
theorem newListenerFilterConfig_snd (cell' : Published) :
    (newListenerFilterConfig readers define cell name bytes).2 =
      (newListenerFilterConfig readers define cell' name bytes).2 := by
  unfold newListenerFilterConfig
  split_ifs
  all_goals first | rfl | simp only [loadTable_eq]

theorem newUdpListenerFilterConfig_snd (cell' : Published) :
    (newUdpListenerFilterConfig readers define cell name bytes).2 =
      (newUdpListenerFilterConfig readers define cell' name bytes).2 := by
  unfold newUdpListenerFilterConfig
  split_ifs
  all_goals first | rfl | simp only [loadTable_eq]

theorem checked_of_load {check : Rules → Except String Unit} {α : Type} {make : Config → α}
    {config : α} (h : (load readers check bytes).toOption.map make = some config) :
    ∃ cfg, make cfg = config ∧ check cfg.rules = .ok () ∧ ∃ raw, cfg = .ofRaw raw := by
  obtain ⟨cfg, hcfg, hmake⟩ := Option.map_eq_some_iff.mp h
  cases hload : load readers check bytes with
  | error e =>
      rw [hload] at hcfg
      cases hcfg
  | ok loaded =>
      rw [hload] at hcfg
      cases hcfg
      exact ⟨cfg, hmake, load_eq_ok hload⟩

/-- Whatever is accepted passed the check of its name. -/
theorem newListenerFilterConfig_checked {config : ListenerFilterConfig Config}
    (h : (newListenerFilterConfig readers define cell name bytes).2 = some config) :
    config.Checked := by
  unfold newListenerFilterConfig at h
  split_ifs at h with h₁ h₂ h₃ h₄
  · obtain ⟨cfg, rfl, hchecked⟩ := checked_of_load h
    exact hchecked
  · obtain ⟨cfg, rfl, hchecked⟩ := checked_of_load h
    exact hchecked
  · obtain ⟨cfg, rfl, hchecked⟩ := checked_of_load h
    exact hchecked
  · dsimp only at h
    split_ifs at h
    cases h
    trivial

theorem newUdpListenerFilterConfig_checked :
    (newUdpListenerFilterConfig readers define cell name bytes).2.Checked := by
  unfold newUdpListenerFilterConfig
  split_ifs with h₁ h₂
  · dsimp only
    cases hload : (load readers validatePpv2Auth bytes).toOption.map fun cfg =>
        UdpListenerFilterConfig.ppv2Auth cfg (Counters.register name define) with
    | none => trivial
    | some config =>
        obtain ⟨cfg, rfl, hchecked⟩ := checked_of_load hload
        exact hchecked
  · dsimp only
    split_ifs <;> trivial
  · trivial

/-- A rejected config publishes nothing. -/
theorem publication_of_rejected
    (h : (newListenerFilterConfig readers define cell name bytes).2 = none) :
    publication readers name bytes = none := by
  unfold publication
  split_ifs with hname
  · subst hname
    have hauth : ascii "table" ≠ ascii "ppv2_auth" := by decide
    have hppv2 : ascii "table" ≠ ascii "ppv2" := by decide
    have hscoped : ascii "table" ≠ ascii "auth" := by decide
    rw [newListenerFilterConfig, if_neg hauth, if_neg hppv2, if_neg hscoped, if_pos rfl,
      loadTable_eq] at h
    dsimp only at h
    split_ifs at h with hlanded
    simpa using hlanded
  · rfl

/-- A carrier is accepted only with the table it publishes. -/
theorem publication_of_table
    (h : (newListenerFilterConfig readers define cell name bytes).2 = some .table) :
    (publication readers name bytes).isSome := by
  unfold newListenerFilterConfig at h
  split_ifs at h with h₁ h₂ h₃ h₄
  · obtain ⟨cfg, -, hmake⟩ := Option.map_eq_some_iff.mp h
    cases hmake
  · obtain ⟨cfg, -, hmake⟩ := Option.map_eq_some_iff.mp h
    cases hmake
  · obtain ⟨cfg, -, hmake⟩ := Option.map_eq_some_iff.mp h
    cases hmake
  · rw [loadTable_eq] at h
    dsimp only at h
    split_ifs at h with hlanded
    rwa [publication, if_pos h₄]

theorem publication_of_udp_table
    (h : (newUdpListenerFilterConfig readers define cell name bytes).2 = .table) :
    (publication readers name bytes).isSome := by
  unfold newUdpListenerFilterConfig at h
  split_ifs at h with h₁ h₂
  · dsimp only at h
    cases hload : (load readers validatePpv2Auth bytes).toOption with
    | none => simp [hload] at h
    | some cfg => simp [hload] at h
  · rw [loadTable_eq] at h
    dsimp only at h
    split_ifs at h with hlanded
    · rwa [publication, if_pos h₂]
    · cases h
  · cases h

end Factories

end Filters

end Ppv2Auth
