/-
The cache is invisible.  A pod that expands its rules again for every judgement
gives the same replies as one that keeps the expansion with the generation it
was made for, in every run that publishes fewer tables than the generation can
count.
-/
import Ppv2Auth.Pods.Pod
import Ppv2Auth.Runs.Chain

namespace Ppv2Auth

namespace Pods

open Rust Identity Filters Runs

variable {γ δ : Type}

/-- Without a cache: what is published is expanded for every judgement. -/
def Holding.cacheless [Sha256] : Holding Rules where
  hold := Config.rules
  permits r cell sni addr := (r, (r.expand cell.table).permits sni addr)

def Pod.forget (p : Pod Config) : Pod Rules where
  cell := p.cell
  configs := p.configs.map (Hosted.map Config.rules)
  live := p.live

theorem mem_modify_iff {α : Type} {l : List α} {i : Nat} {f : α → α} {x : α}
    (h : x ∈ l.modify i f) : x ∈ l ∨ ∃ y, l[i]? = some y ∧ x = f y := by
  obtain ⟨j, hj⟩ := List.mem_iff_getElem?.mp h
  rw [List.getElem?_modify] at hj
  obtain ⟨y, hy, hx⟩ := Option.map_eq_some_iff.mp hj
  by_cases hij : i = j
  · subst hij
    rw [if_pos rfl] at hx
    exact Or.inr ⟨y, hy, hx.symm⟩
  · rw [if_neg hij] at hx
    have hxy : y = x := hx
    exact Or.inl (hxy ▸ List.mem_of_getElem? hy)

theorem map_modify {α β : Type} {l : List α} {i : Nat} {f : α → α} {g : β → β} {m : α → β}
    (h : ∀ x, m (f x) = g (m x)) : (l.modify i f).map m = (l.map m).modify i g := by
  apply List.ext_getElem?
  intro j
  simp only [List.getElem?_map, List.getElem?_modify]
  cases l[j]? with
  | none => rfl
  | some x =>
      by_cases hij : i = j
      · simp [hij, h]
      · simp [hij]

section Coherence

variable [Sha256]

/-- The cell holds the last table and counts them all; a cache is as parsed or
one of the tables' expansion. -/
structure Coherent (log : List Table) (p : Pod Config) : Prop where
  generation : p.cell.generation.toNat = log.length
  table : p.cell.table = tableAt log log.length
  cached : ∀ hosted ∈ p.configs, ∀ cfg, hosted.cfg = some cfg →
    Cached cfg.rules log cfg.cache

theorem coherent_initial : Coherent [] Pod.initial where
  generation := rfl
  table := rfl
  cached hosted hmem := by cases hmem

variable {readers : Readers} {log : List Table} {p p' : Pod Config} {act : Act} {reply : Reply}

theorem Coherent.landOn (h : Coherent log p) (table : Option Table)
    (hroom : (log ++ table.toList).length < 2 ^ 64) :
    (landOn p.cell table).generation.toNat = (log ++ table.toList).length ∧
      (Filters.landOn p.cell table).table =
        tableAt (log ++ table.toList) (log ++ table.toList).length := by
  cases table with
  | none => simpa [Filters.landOn] using ⟨h.generation, h.table⟩
  | some table =>
      have hgeneration := h.generation
      have hone : (1 : UInt64).toNat = 1 := rfl
      simp only [Option.toList_some, List.length_append, List.length_cons,
        List.length_nil] at hroom ⊢
      refine ⟨?_, ?_⟩
      · simp only [Filters.landOn, Published.publish, UInt64.toNat_add, hone]
        omega
      · rw [tableAt_length_append]
        rfl

/-- One call of `permits`: the rules stay, the cache is one of the tables'. -/
theorem Coherent.permits (h : Coherent log p) {cfg : Config}
    (hcached : Cached cfg.rules log cfg.cache) (sni : Bytes) (addr : U128) :
    (cfg.permits p.cell sni addr).1.rules = cfg.rules ∧
      Cached cfg.rules log (cfg.permits p.cell sni addr).1.cache := by
  by_cases hsame : cfg.cache.1 = p.cell.generation
  · rw [permits_of_fresh hsame]
    exact ⟨rfl, hcached⟩
  · rw [permits_of_stale hsame]
    refine ⟨rfl, Or.inr ⟨h.generation.le, ?_⟩⟩
    rw [h.generation, ← h.table]

/-- Its answer is that of a fresh expansion, while the count has not reached
the number a parsed config carries. -/
theorem Coherent.answer (h : Coherent log p) (hfew : log.length < 2 ^ 64 - 1) {cfg : Config}
    (hcached : Cached cfg.rules log cfg.cache) (sni : Bytes) (addr : U128) :
    (cfg.permits p.cell sni addr).2 =
      (cfg.rules.expand p.cell.table).permits sni addr := by
  by_cases hsame : cfg.cache.1 = p.cell.generation
  · have hlatest : cfg.cache.2 = cfg.rules.expand (tableAt log log.length) :=
      hcached.latest hfew (by rw [hsame, h.generation])
    rw [permits_of_fresh hsame, Config.judge, hlatest, h.table]
  · rw [permits_of_stale hsame]

theorem Coherent.loaded (h : Coherent log p)
    (hroom : (log ++ (act.publication readers).toList).length < 2 ^ 64) :
    Coherent (log ++ (act.publication readers).toList)
      (p.loaded (Filters.landOn p.cell (act.publication readers)) (act.config readers)) where
  generation := (h.landOn _ hroom).1
  table := (h.landOn _ hroom).2
  cached hosted hmem cfg hcfg := by
    rcases List.mem_append.mp hmem with hold | hnew
    · have hcached := h.cached hosted hold cfg hcfg
      cases act.publication readers with
      | none => simpa using hcached
      | some table => exact hcached.append table
    · have hchecked : hosted.Checked := Act.config_checked (by simpa using hnew)
      obtain ⟨raw, rfl⟩ := hchecked.ofRaw hcfg
      exact Or.inl (by simp [Config.ofRaw])

/-- A judgement that replaces the rules of one config. -/
theorem Coherent.setCfg (h : Coherent log p) {owner : Nat} {cfg : Config}
    (hcached : Cached cfg.rules log cfg.cache) : Coherent log (p.setCfg owner cfg) where
  generation := h.generation
  table := h.table
  cached hosted hmem cfg' hcfg' := by
    rcases mem_modify_iff hmem with hold | ⟨hosted', -, rfl⟩
    · exact h.cached hosted hold cfg' hcfg'
    · rw [Hosted.cfg_map, Option.map_eq_some_iff] at hcfg'
      obtain ⟨-, -, rfl⟩ := hcfg'
      exact hcached

theorem Coherent.step (h : Coherent log p) (hsteps : Steps readers .cached p act p' reply)
    (hroom : (log ++ (act.publication readers).toList).length < 2 ^ 64) :
    Coherent (log ++ (act.publication readers).toList) p' := by
  cases hsteps with
  | loaded hload =>
      have hsame : (act.config readers).map (Hosted.map Holding.cached.hold) =
          act.config readers := by
        cases act.config readers <;> simp [Holding.cached]
      rw [hsame]
      exact h.loaded hroom
  | created | settled | judging => simpa [Act.publication] using ⟨h.generation, h.table, h.cached⟩
  | @judged k live hosted cfg cfg' due permitted outcome hlive hconfig hcfg hdue hpermits =>
      have hcached := h.cached hosted (List.mem_of_getElem? hconfig) cfg hcfg
      obtain ⟨hrules, hkeeps⟩ := h.permits hcached due.serverName due.id
      have heq : (cfg.permits p.cell due.serverName due.id).1 = cfg' := by
        rw [show cfg.permits p.cell due.serverName due.id = (cfg', permitted) from hpermits]
      rw [heq] at hrules hkeeps
      have hset : Coherent log (p.setCfg live.owner cfg') := h.setCfg (hrules.symm ▸ hkeeps)
      simpa [Act.publication] using
        (⟨hset.generation, hset.table, hset.cached⟩ : Coherent log
          ((p.setCfg live.owner cfg').setLive k ⟨live.owner, outcome.filter, none⟩))

end Coherence

section Forget

variable [Sha256] (readers : Readers) {log : List Table} (p : Pod Config)

omit [Sha256] in
@[simp] theorem forget_cell : p.forget.cell = p.cell := rfl

omit [Sha256] in
@[simp] theorem forget_live : p.forget.live = p.live := rfl

omit [Sha256] in
theorem forget_setLive (k : Nat) (live : Live) :
    (p.setLive k live).forget = p.forget.setLive k live := rfl

omit [Sha256] in
theorem forget_setCfg (owner : Nat) (cfg : Config) :
    (p.setCfg owner cfg).forget = p.forget.setCfg owner cfg.rules := by
  have hmap : ∀ hosted : Hosted Config,
      (hosted.map fun _ => cfg).map Config.rules =
        (hosted.map Config.rules).map fun _ => cfg.rules := fun hosted => by
    simp [Function.comp_def]
  simp [Pod.forget, Pod.setCfg, map_modify hmap]

omit [Sha256] in
theorem forget_loaded (cell : Published) (config : Option (Hosted Config)) :
    (p.loaded cell config).forget =
      p.forget.loaded cell (config.map (Hosted.map Config.rules)) := by
  cases config <;> simp [Pod.forget, Pod.loaded]

theorem forget_load (name bytes : Bytes) (define : Bytes → Option Nat) :
    p.forget.load readers .cacheless name bytes define =
      ((p.load readers .cached name bytes define).1.forget,
        (p.load readers .cached name bytes define).2) := by
  simp [Pod.load, forget_loaded, Holding.cached, Holding.cacheless, Function.comp_def]

theorem forget_loadUdp (name bytes : Bytes) (define : Bytes → Option Nat) :
    p.forget.loadUdp readers .cacheless name bytes define =
      ((p.loadUdp readers .cached name bytes define).1.forget,
        (p.loadUdp readers .cached name bytes define).2) := by
  simp [Pod.loadUdp, forget_loaded, Holding.cached, Holding.cacheless]

theorem forget_call (k : Nat) (live : Live) (callback : Callback) :
    p.forget.call k live callback =
      (p.call k live callback).map fun next => (next.1.forget, next.2) := by
  unfold Pod.call
  cases live.due with
  | some due => rfl
  | none =>
      simp only [Option.map_map]
      congr 1
      funext begun
      cases begun <;> rfl

variable {p}

omit [Sha256] in
/-- The rules of a filter's config, forgotten or not. -/
theorem forget_cfg (owner : Nat) :
    p.forget.configs[owner]?.bind Hosted.cfg =
      (p.configs[owner]?.bind Hosted.cfg).map Config.rules := by
  simp only [Pod.forget, List.getElem?_map]
  cases p.configs[owner]? <;> simp

theorem forget_judge (h : Coherent log p) (hfew : log.length < 2 ^ 64 - 1) (k : Nat)
    (live : Live) {cfg : Config} (hcached : Cached cfg.rules log cfg.cache) (due : Pending) :
    p.forget.judge .cacheless k live cfg.rules due =
      (p.judge .cached k live cfg due).map fun next => (next.1.forget, next.2) := by
  have hanswer := h.answer hfew hcached due.serverName due.id
  have hrules := (h.permits hcached due.serverName due.id).1
  simp only [Pod.judge, Holding.cached, Holding.cacheless, Option.map_map]
  rw [forget_cell, ← hanswer]
  congr 1
  funext outcome
  simp [forget_setLive, forget_setCfg, hrules]

/-- One step with the cache and one without reply the same. -/
theorem forget_step (h : Coherent log p) (hfew : log.length < 2 ^ 64 - 1) (act : Act) :
    p.forget.step readers .cacheless act =
      (p.step readers .cached act).map fun next => (next.1.forget, next.2) := by
  cases act with
  | load name bytes define => simp [Pod.step, forget_load]
  | loadUdp name bytes define => simp [Pod.step, forget_loadUdp]
  | newFilter config =>
      simp only [Pod.step, Pod.forget, List.getElem?_map, Option.map_map]
      cases p.configs[config]? <;> simp
  | call k callback =>
      simp only [Pod.step, forget_live]
      cases p.live[k]? with
      | none => rfl
      | some live => exact forget_call p k live callback
  | judge k =>
      simp only [Pod.step, forget_live, forget_cfg]
      cases p.live[k]? with
      | none => rfl
      | some live =>
          simp only [Option.bind_some]
          cases hcfg : p.configs[live.owner]?.bind Hosted.cfg with
          | none => rfl
          | some cfg =>
              obtain ⟨hosted, hconfig, hhosted⟩ := Option.bind_eq_some_iff.mp hcfg
              have hcached := h.cached hosted (List.mem_of_getElem? hconfig) cfg hhosted
              cases live.due with
              | none => rfl
              | some due => exact forget_judge h hfew k live hcached due

end Forget

section Runs

variable {readers : Readers}

theorem publications_concat (acts : List Act) (act : Act) :
    publications readers (acts ++ [act]) =
      publications readers acts ++ (act.publication readers).toList := by
  cases hact : act.publication readers <;> simp [publications, hact]

theorem length_publications_le {past acts : List Act} (h : past <+: acts) :
    (publications readers past).length ≤ (publications readers acts).length := by
  obtain ⟨rest, rfl⟩ := h
  simp [publications]

variable [Sha256]

theorem forget_run (acts : List Act)
    (hfew : (publications readers acts).length < 2 ^ 64 - 1) :
    Pod.run readers .cacheless acts =
      (Pod.run readers .cached acts).map fun last => (last.1.forget, last.2) := by
  refine Reactive.run_map (f := Pod.forget) (P := fun past m =>
    (publications readers past).length < 2 ^ 64 →
      Coherent (publications readers past) m) ?_ ?_ (fun _ => coherent_initial)
  · intro past m act next reply hm hstep hroom
    rw [publications_concat] at hroom ⊢
    have hpast : (publications readers past).length < 2 ^ 64 := by
      rw [List.length_append] at hroom
      omega
    exact (hm hpast).step (steps_of_step hstep) hroom
  · intro past m act hm hprefix
    have hle : (publications readers past).length ≤ _ :=
      length_publications_le ((List.prefix_append past [act]).trans hprefix)
    exact forget_step readers (hm (by omega)) (by omega) act

/-- Caching is invisible in whole runs: with any configs loaded, any filters
made and any callbacks answered, the replies are those without a cache. -/
theorem run_forgets_cache (acts : List Act)
    (hfew : (publications readers acts).length < 2 ^ 64 - 1) :
    (Pod.run readers .cached acts).map Prod.snd =
      (Pod.run readers .cacheless acts).map Prod.snd := by
  rw [forget_run acts hfew, Option.map_map]
  rfl

end Runs

namespace PodWitness

attribute [local instance] MeetingWitness.endpointDigest

/-- Every config reads as these rules or as a table of no sites. -/
def readers : Readers where
  rules := fun _ => .ok ⟨[ascii "10.0.0.0/8"], none⟩
  table := fun _ => .ok ⟨ascii "fd00:dead:beef::/48", ∅, ∅⟩

/-- A connection that arrives before a table lands and one that arrives
after. -/
def twoConnections : List Act :=
  [.load (ascii "ppv2_auth") (ascii "{}") (fun _ => none), .newFilter 0,
    .call 0 (.onData (some ChainWitness.office) true),
    .load (ascii "table") (ascii "{}") (fun _ => none), .newFilter 0,
    .call 1 (.onData (some ChainWitness.office) true), .judge 1]

theorem run_forgets_cache_two :
    (Pod.run readers .cached twoConnections).map Prod.snd =
        (Pod.run readers .cacheless twoConnections).map Prod.snd ∧
      (Pod.run readers .cached twoConnections).isSome = true := by
  refine ⟨run_forgets_cache twoConnections ?_, by decide +kernel⟩
  have hone : (publications readers twoConnections).length = 1 := by decide +kernel
  omega

end PodWitness

end Pods

end Ppv2Auth
