/-
Cache coherence.  A generation number and the table published under it never
part: a call carries the pair it read, a rebuild stores the expansion of that
pair, and the counter does not come round within 2^64 publishes.
-/
import Ppv2Auth.Runs.World

namespace Ppv2Auth

namespace Runs

open Rust Identity Filters

variable {ι κ : Type}

def rulesOf (raw : ι → RawRules) (i : ι) : Rules := (Config.ofRaw (raw i)).rules

theorem tableAt_append {log : List Table} {generation : Nat}
    (hle : generation ≤ log.length) (t : Table) :
    tableAt (log ++ [t]) generation = tableAt log generation := by
  unfold tableAt
  split
  · rfl
  · rw [List.getElem?_append_left (by omega)]

theorem tableAt_length_append (log : List Table) (t : Table) :
    tableAt (log ++ [t]) (log.length + 1) = some t := by
  simp [tableAt]

/-- The call a worker is in. -/
def Phase.call : Phase ι → Option (Call ι)
  | .idle => none
  | .labelled _ _ _ => none
  | .fetched c => some c
  | .stale c => some c
  | .ready c => some c

section Invariant

variable [Sha256]

/-- The initial pair, or a generation with the expansion of its table. -/
def Cached (r : Rules) (log : List Table) (cache : UInt64 × Judged) : Prop :=
  cache = (noGeneration, .denyAll r.rawScopes.isSome) ∨
    (cache.1.toNat ≤ log.length ∧ cache.2 = r.expand (tableAt log cache.1.toNat))

/-- The identity is the one the traffic has under a published table. -/
def LabelledAt (log : List Table) (x : Traffic) (generation : Nat) (id : U128) :
    Prop :=
  generation ≤ log.length ∧
    ∃ t, tableAt log generation = some t ∧ x.identity t = some id

/-- What a call carries is what was published when it started. -/
structure ReadAt (log : List Table) (c : Call ι) : Prop where
  generation : c.generation.toNat = c.started
  started : c.started ≤ log.length
  table : c.table = tableAt log c.started
  origin : ∀ x generation, c.origin = some (x, generation) →
    LabelledAt log x generation c.addr

structure Coherent (raw : ι → RawRules) (w : World ι κ) : Prop where
  generation : w.cell.generation.toNat = w.log.length
  table : w.cell.table = tableAt w.log w.log.length
  rules : ∀ i, (w.configs i).rules = rulesOf raw i
  cached : ∀ i, Cached (rulesOf raw i) w.log (w.configs i).cache
  calls : ∀ k c, (w.workers k).call = some c → ReadAt w.log c
  labels : ∀ k x generation id, w.workers k = .labelled x generation id →
    LabelledAt w.log x generation id
  answers : ∀ r ∈ w.answers, ReadAt w.log r.call ∧
    ∃ j, Cached (rulesOf raw r.call.config) w.log (r.used, j) ∧
      r.permitted = j.permits r.call.sni r.call.addr

theorem Cached.append {r : Rules} {log : List Table} {cache : UInt64 × Judged}
    (h : Cached r log cache) (t : Table) : Cached r (log ++ [t]) cache := by
  rcases h with hinitial | ⟨hle, hexpand⟩
  · exact Or.inl hinitial
  · refine Or.inr ⟨?_, ?_⟩
    · rw [List.length_append]
      omega
    · rw [tableAt_append hle, hexpand]

theorem LabelledAt.append {log : List Table} {x : Traffic} {generation : Nat}
    {id : U128} (h : LabelledAt log x generation id) (t : Table) :
    LabelledAt (log ++ [t]) x generation id := by
  obtain ⟨hle, table, htable, hid⟩ := h
  refine ⟨?_, table, ?_, hid⟩
  · rw [List.length_append]
    omega
  · rw [tableAt_append hle, htable]

theorem ReadAt.append {log : List Table} {c : Call ι} (h : ReadAt log c)
    (t : Table) : ReadAt (log ++ [t]) c where
  generation := h.generation
  started := by
    have := h.started
    rw [List.length_append]
    omega
  table := by rw [h.table, tableAt_append h.started]
  origin x generation horigin := (h.origin x generation horigin).append t

end Invariant

section Keeps

variable [Sha256] {raw : ι → RawRules} {w : World ι κ}

theorem coherent_initial (raw : ι → RawRules) :
    Coherent raw (World.initial raw : World ι κ) where
  generation := rfl
  table := rfl
  rules _ := rfl
  cached i := Or.inl (by
    simp [World.initial, Config.ofRaw, rulesOf])
  calls k c hcall := by cases hcall
  labels k x generation id hphase := by cases hphase
  answers r hr := by cases hr

/-- Moving a worker keeps coherence when what it now carries was published. -/
theorem Coherent.setWorker [DecidableEq κ] (h : Coherent raw w) (k : κ) {phase : Phase ι}
    (hcall : ∀ c, phase.call = some c → ReadAt w.log c)
    (hlabel : ∀ x generation id, phase = .labelled x generation id →
      LabelledAt w.log x generation id) : Coherent raw (w.setWorker k phase) where
  generation := h.generation
  table := h.table
  rules := h.rules
  cached := h.cached
  calls k' c hk' := by
    by_cases heq : k' = k
    · subst heq
      exact hcall c (by simpa [World.setWorker] using hk')
    · exact h.calls k' c (by simpa [World.setWorker, heq] using hk')
  labels k' x generation id hk' := by
    by_cases heq : k' = k
    · subst heq
      exact hlabel x generation id (by simpa [World.setWorker] using hk')
    · exact h.labels k' x generation id (by simpa [World.setWorker, heq] using hk')
  answers := h.answers

/-- A worker that moves on with the call it is in. -/
theorem Coherent.advance [DecidableEq κ] (h : Coherent raw w) {k : κ}
    {phase : Phase ι} {c : Call ι} (hnow : (w.workers k).call = some c)
    (hcall : phase.call = some c) :
    Coherent raw (w.setWorker k phase) := by
  refine h.setWorker k (fun c' hc' => ?_) fun x generation id hlabel => ?_
  · rw [hcall, Option.some.injEq] at hc'
    exact hc' ▸ h.calls k c hnow
  · rw [hlabel] at hcall
    cases hcall

theorem Coherent.fetched [DecidableEq κ] (h : Coherent raw w) (k : κ) (i : ι)
    (sni : Bytes) (addr : U128) (origin : Option (Traffic × Nat))
    (horigin : ∀ x generation, origin = some (x, generation) →
      LabelledAt w.log x generation addr) :
    Coherent raw (w.setWorker k (w.fetched i sni addr origin)) := by
  refine h.setWorker k (fun c hc => ?_) fun x generation id hlabel => by cases hlabel
  cases hc
  exact ⟨h.generation, le_rfl, h.table, horigin⟩

theorem Coherent.published (h : Coherent raw w) (t : Table)
    (hroom : w.log.length + 1 < 2 ^ 64) : Coherent raw (w.published t) where
  generation := by
    have hgeneration := h.generation
    have hone : (1 : UInt64).toNat = 1 := rfl
    simp only [World.published, Published.publish, UInt64.toNat_add, hone,
      List.length_append, List.length_cons, List.length_nil]
    omega
  table := by
    simp [World.published, Published.publish, tableAt_length_append]
  rules := h.rules
  cached i := (h.cached i).append t
  calls k c hcall := (h.calls k c hcall).append t
  labels k x generation id hphase := (h.labels k x generation id hphase).append t
  answers r hr := by
    obtain ⟨hread, j, hcached, hpermitted⟩ := h.answers r hr
    exact ⟨hread.append t, j, hcached.append t, hpermitted⟩

/-- The write section stores the pair the call read. -/
theorem Coherent.rebuilt [DecidableEq ι] (h : Coherent raw w) {c : Call ι}
    (hread : ReadAt w.log c) : Coherent raw (w.rebuilt c) where
  generation := h.generation
  table := h.table
  rules i := by
    by_cases hi : i = c.config
    · subst hi
      simp only [World.rebuilt, Function.update_self, Config.rebuild]
      split <;> exact h.rules c.config
    · simpa [World.rebuilt, hi] using h.rules i
  cached i := by
    by_cases hi : i = c.config
    · subst hi
      simp only [World.rebuilt, Function.update_self, Config.rebuild]
      split
      · refine Or.inr ⟨?_, ?_⟩
        · rw [hread.generation]
          exact hread.started
        · rw [hread.generation, h.rules, hread.table]
      · exact h.cached c.config
    · simpa [World.rebuilt, hi] using h.cached i
  calls := h.calls
  labels := h.labels
  answers := h.answers

theorem Coherent.answered (h : Coherent raw w) {c : Call ι} (hread : ReadAt w.log c) :
    Coherent raw (w.answered c) where
  generation := h.generation
  table := h.table
  rules := h.rules
  cached := h.cached
  calls := h.calls
  labels := h.labels
  answers r hr := by
    rcases List.mem_append.mp hr with hold | hnew
    · exact h.answers r hold
    · rw [List.mem_singleton.mp hnew]
      exact ⟨hread, (w.configs c.config).cache.2, h.cached c.config, rfl⟩

end Keeps

section Steps

variable [Sha256] [DecidableEq ι] [DecidableEq κ] {raw : ι → RawRules}
  {w w' : World ι κ}

/-- The counter has room for the publish. -/
def HasRoom (w : World ι κ) (act : Act ι κ) : Prop :=
  act.isPublish = true → w.log.length + 1 < 2 ^ 64

theorem Coherent.step (h : Coherent raw w) {act : Act ι κ} (hroom : HasRoom w act)
    (hsteps : Steps w act w') : Coherent raw w' := by
  cases hsteps with
  | publish t => exact h.published t (hroom rfl)
  | @labelled k x id hid =>
      refine h.setWorker k (fun c hc => by cases hc) fun x' generation id' heq => ?_
      cases heq
      obtain ⟨t, htable, hx⟩ := Option.bind_eq_some_iff.mp hid
      exact ⟨le_rfl, t, h.table ▸ htable, hx⟩
  | unlabelled => exact h
  | @fetchLabel k i sni x generation id hphase =>
      refine h.fetched k i sni id _ fun x' generation' heq => ?_
      cases heq
      exact h.labels k x generation id hphase
  | @fetch k i sni addr =>
      exact h.fetched k i sni addr none fun x generation hnone => by cases hnone
  | @mismatch k c hphase => exact h.advance (by rw [hphase]; rfl) rfl
  | @isMatch k c hphase => exact h.advance (by rw [hphase]; rfl) rfl
  | @rebuild k c hphase =>
      have hread := h.calls k c (by rw [hphase]; rfl)
      refine (h.rebuilt hread).advance (c := c) ?_ rfl
      show (w.workers k).call = some c
      rw [hphase]
      rfl
  | @judge k c hphase =>
      have hread := h.calls k c (by rw [hphase]; rfl)
      exact (h.answered hread).setWorker k (fun c' hc' => by cases hc')
        fun x generation id hlabel => by cases hlabel

theorem log_length_step {act : Act ι κ} (hsteps : Steps w act w') :
    w'.log.length = w.log.length + if act.isPublish then 1 else 0 := by
  cases hsteps with
  | publish t => simp [World.published, Act.isPublish]
  | labelled | unlabelled | fetchLabel | fetch | mismatch | isMatch | rebuild | judge =>
      rfl

theorem meets_hasRoom {acts : List (Act ι κ)}
    (hfew : w.log.length + publishes acts < 2 ^ 64) :
    Transition.Meets World.step HasRoom w acts := by
  induction acts generalizing w with
  | nil => trivial
  | cons act rest ih =>
      rw [publishes, List.countP_cons] at hfew
      refine ⟨fun hpublish => ?_, fun next hnext => ih ?_⟩
      · rw [hpublish] at hfew
        simp only [↓reduceIte] at hfew
        omega
      · rw [log_length_step (steps_of_step hnext), publishes]
        omega

theorem log_length_exec {acts : List (Act ι κ)}
    (hexec : Transition.exec World.step w acts = some w') :
    w'.log.length = w.log.length + publishes acts := by
  induction acts generalizing w with
  | nil =>
      cases hexec
      rfl
  | cons act rest ih =>
      obtain ⟨next, hnext, hrest⟩ := Transition.exec_cons_iff.mp hexec
      rw [ih hrest, log_length_step (steps_of_step hnext), publishes, publishes,
        List.countP_cons]
      omega

theorem Reaches.log_length {acts : List (Act ι κ)} (hreaches : Reaches raw acts w) :
    w.log.length = publishes acts := by
  simpa [World.initial] using log_length_exec hreaches

theorem Reaches.coherent {acts : List (Act ι κ)} (hreaches : Reaches raw acts w)
    (hfew : publishes acts < 2 ^ 64) : Coherent raw w :=
  Transition.exec_invariant
    (fun _ _ _ h hroom hstep => h.step hroom (steps_of_step hstep))
    (coherent_initial raw)
    (meets_hasRoom (by simpa [World.initial] using hfew)) hreaches

end Steps

end Runs

end Ppv2Auth
