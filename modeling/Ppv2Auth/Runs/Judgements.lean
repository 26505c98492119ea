/-
What an answer of `permits` is worth.  Every cached pair is a generation with
the expansion of its table, so an answer is the judgement against one
published table; where nothing else publishes or rebuilds during the call, it
is the latest.
-/
import Ppv2Auth.Identity.Meeting
import Ppv2Auth.Runs.Coherence

namespace Ppv2Auth

namespace Runs

open Rust Identity Filters

variable {ι κ : Type}

theorem matchSuffixes_nil (sni : Bytes) : matchSuffixes [] sni = none := by
  induction sni with
  | nil => rfl
  | cons b rest ih => simp [matchSuffixes, ih]

theorem permits_denyAll (hasScopes : Bool) (sni : Bytes) (addr : U128) :
    (Judged.denyAll hasScopes).permits sni addr = false := by
  cases hasScopes with
  | false => simp [Judged.denyAll, Judged.permits, Cidr.Set.contains_default]
  | true => simp [Judged.denyAll, Judged.permits, matchScopes, matchSuffixes_nil]

/-- Nothing published, or a generation before the first. -/
theorem tableAt_nil (generation : Nat) : tableAt [] generation = none := by
  simp [tableAt]

section Answers

variable [Sha256]

theorem rebuild_generation (c : Config) (generation : UInt64)
    (table : Option Table) : (c.rebuild generation table).cache.1 = generation := by
  unfold Config.rebuild
  split
  · rfl
  · next hsame => simpa using hsame

theorem Cached.judgement {r : Rules} {log : List Table} {cache : UInt64 × Judged}
    (h : Cached r log cache) :
    ∃ generation ≤ log.length, cache.2 = r.expand (tableAt log generation) := by
  rcases h with rfl | ⟨hle, hexpand⟩
  · exact ⟨0, Nat.zero_le _, rfl⟩
  · exact ⟨_, hle, hexpand⟩

/-- While fewer tables were published than the sentinel counts, a cache of the
latest generation is the expansion of the latest table. -/
theorem Cached.latest {r : Rules} {log : List Table} {cache : UInt64 × Judged}
    (h : Cached r log cache) (hfew : log.length < 2 ^ 64 - 1)
    (hgeneration : cache.1.toNat = log.length) :
    cache.2 = r.expand (tableAt log log.length) := by
  rcases h with rfl | ⟨hle, hexpand⟩
  · have hsentinel : noGeneration.toNat = log.length := hgeneration
    have hmax : noGeneration.toNat = 2 ^ 64 - 1 := by decide
    omega
  · rw [hexpand, hgeneration]

end Answers

/-- Publishes nothing, and rebuilds no cache for another worker than `k`. -/
def Act.Quiet (k : κ) : Act ι κ → Prop
  | .publish _ => False
  | .rebuild k' => k' = k
  | _ => True

theorem publishes_eq_zero {k : κ} {rest : List (Act ι κ)}
    (hquiet : ∀ act ∈ rest, act.Quiet k) : publishes rest = 0 := by
  refine List.countP_eq_zero.mpr fun act hact => ?_
  have := hquiet act hact
  cases act with
  | publish t => exact this.elim
  | label | fetchLabel | fetch | compare | rebuild | judge => simp [Act.isPublish]

/-- Worker `k` carries what is published, and a cache that matched still does. -/
def UpToDate (w : World ι κ) (k : κ) : Prop :=
  ∀ c, (w.workers k).call = some c → c.generation = w.cell.generation ∧
    (w.workers k = .ready c → (w.configs c.config).cache.1 = c.generation)

section Quiet

variable {w w' : World ι κ} {k : κ}

theorem UpToDate.setWorker [DecidableEq κ] (h : UpToDate w k) (k' : κ)
    {phase : Phase ι}
    (hphase : ∀ c, phase.call = some c → k = k' →
      c.generation = w.cell.generation ∧
        (phase = .ready c → (w.configs c.config).cache.1 = c.generation)) :
    UpToDate (w.setWorker k' phase) k := by
  intro c hc
  by_cases heq : k = k'
  · subst heq
    have hcall : phase.call = some c := by simpa [World.setWorker] using hc
    refine ⟨(hphase c hcall rfl).1, fun hready => (hphase c hcall rfl).2 ?_⟩
    simpa [World.setWorker] using hready
  · have hworker : (w.setWorker k' phase).workers k = w.workers k := by
      simp [World.setWorker, heq]
    rw [hworker] at hc ⊢
    exact h c hc

variable [Sha256] [DecidableEq ι] [DecidableEq κ]

theorem UpToDate.step {act : Act ι κ} (h : UpToDate w k) (hquiet : act.Quiet k)
    (hsteps : Steps w act w') : UpToDate w' k ∧ w'.cell = w.cell := by
  cases hsteps with
  | publish t => exact hquiet.elim
  | labelled | judge =>
      exact ⟨h.setWorker _ fun c hc => (by cases hc), rfl⟩
  | unlabelled => exact ⟨h, rfl⟩
  | fetchLabel | fetch =>
      refine ⟨h.setWorker _ fun c hc _ => ?_, rfl⟩
      cases hc
      exact ⟨rfl, fun hready => by cases hready⟩
  | @mismatch k' c hphase =>
      refine ⟨h.setWorker k' fun c' hc' heq => ?_, rfl⟩
      cases hc'
      subst heq
      exact ⟨(h c (by rw [hphase]; rfl)).1, fun hready => by cases hready⟩
  | @isMatch k' c hphase hfresh =>
      refine ⟨h.setWorker k' fun c' hc' heq => ?_, rfl⟩
      cases hc'
      subst heq
      exact ⟨(h c (by rw [hphase]; rfl)).1, fun _ => hfresh⟩
  | @rebuild k' c hphase =>
      cases hquiet
      refine ⟨fun c' hc' => ?_, rfl⟩
      have heq : c = c' := by simpa [World.setWorker, Phase.call] using hc'
      subst heq
      refine ⟨(h c (by rw [hphase]; rfl)).1, fun _ => ?_⟩
      simp [World.setWorker, World.rebuilt, rebuild_generation]

/-- The run lemma of `UpToDate.step`. -/
theorem UpToDate.exec {rest : List (Act ι κ)} (h : UpToDate w k)
    (hquiet : ∀ act ∈ rest, act.Quiet k)
    (hexec : Transition.exec World.step w rest = some w') :
    UpToDate w' k ∧ w'.cell = w.cell := by
  refine Transition.exec_invariant (P := fun m => UpToDate m k ∧ m.cell = w.cell)
    (fun s act s' hs hact hstep => ?_) ⟨h, rfl⟩
    (Transition.meets_of_forall (fun act hact _ => hquiet act hact) w) hexec
  obtain ⟨hkeep, hcell⟩ := hs.1.step hact (steps_of_step hstep)
  exact ⟨hkeep, hcell.trans hs.2⟩

end Quiet

section Whole

variable [Sha256] [DecidableEq ι] [DecidableEq κ] {raw : ι → RawRules}
  {acts : List (Act ι κ)} {w : World ι κ}

/-- The sections of a call after its first, the write section where the cache
is stale. -/
def World.sections (w : World ι κ) (k : κ) (i : ι) : List (Act ι κ) :=
  .compare k :: (if (w.configs i).isStale w.cell.generation then
    [.rebuild k, .judge k] else [.judge k])

/-- With nothing in between its sections, a call is `Config.permits`. -/
theorem exec_sections {k : κ} (hidle : w.workers k = .idle) (i : ι) (sni : Bytes)
    (addr : U128) :
    ∃ w' r, Transition.exec World.step w (.fetch k i sni addr :: w.sections k i) =
        some w' ∧
      w'.configs = Function.update w.configs i
        ((w.configs i).permits w.cell sni addr).1 ∧
      w'.answers = w.answers ++ [r] ∧
      r.permitted = ((w.configs i).permits w.cell sni addr).2 := by
  cases hstale : (w.configs i).isStale w.cell.generation with
  | false =>
      simp [World.sections, hstale, Transition.exec, World.step, hidle, World.setWorker,
        World.fetched, World.answered, World.answer, Config.permits]
  | true =>
      simp [World.sections, hstale, Transition.exec, World.step, hidle, World.setWorker,
        World.fetched, World.answered, World.answer, Config.permits, World.rebuilt]

/-- A call that read the latest table and that nothing interfered with is
judged against it. -/
theorem Reaches.judge_latest (hreaches : Reaches raw acts w)
    (hfew : publishes acts < 2 ^ 64 - 1) {k : κ} {c : Call ι}
    (hfetched : w.workers k = .fetched c) (hlatest : c.generation = w.cell.generation)
    {rest : List (Act ι κ)} (hquiet : ∀ act ∈ rest, act.Quiet k) {w' : World ι κ}
    (hexec : Transition.exec World.step w rest = some w')
    (hready : w'.workers k = .ready c) :
    w'.answer c = ⟨c, w.cell.generation,
      ((rulesOf raw c.config).expand w.cell.table).permits c.sni c.addr⟩ := by
  have hstart : UpToDate w k := fun c' hc' => by
    rw [hfetched] at hc' ⊢
    cases hc'
    exact ⟨hlatest, fun hready => by cases hready⟩
  obtain ⟨hend, hcell⟩ := hstart.exec hquiet hexec
  have hused : (w'.configs c.config).cache.1 = w.cell.generation :=
    ((hend c (by rw [hready]; rfl)).2 hready).trans hlatest
  have hlength : publishes (acts ++ rest) = publishes acts := by
    rw [publishes, List.countP_append]
    exact congrArg (publishes acts + ·) (publishes_eq_zero hquiet)
  have hreaches' : Reaches raw (acts ++ rest) w' := by
    rw [Reaches, Transition.exec_append, hreaches]
    exact hexec
  have hcoherent := hreaches'.coherent (by omega)
  have hcached := hcoherent.cached c.config
  have htable := hcached.latest
    (by rw [hreaches'.log_length]; omega)
    (by rw [hused, ← hcell]; exact hcoherent.generation)
  rw [← hcoherent.table, hcell] at htable
  simp [World.answer, Config.judge, hused, htable]

/-- Cache coherence.  Every cache is the initial pair or a generation with the
expansion of its table; so every answer is the judgement against one published
table, false while nothing is published, and against the latest where no
publish and no other rebuild falls within the call. -/
theorem cache_coherence (hreaches : Reaches raw acts w)
    (hfew : publishes acts < 2 ^ 64 - 1) :
    (∀ i, Cached (rulesOf raw i) w.log (w.configs i).cache) ∧
      (∀ r ∈ w.answers, ∃ generation ≤ w.log.length,
        r.permitted = ((rulesOf raw r.call.config).expand
          (tableAt w.log generation)).permits r.call.sni r.call.addr) ∧
      (publishes acts = 0 → ∀ r ∈ w.answers, r.permitted = false) ∧
      ∀ k c rest w' w'', w.workers k = .fetched c →
        c.generation = w.cell.generation → (∀ act ∈ rest, act.Quiet k) →
        Transition.exec World.step w rest = some w' →
        w'.workers k = .ready c → w'.step (.judge k) = some w'' →
        w''.answers = w'.answers ++ [⟨c, w.cell.generation,
          ((rulesOf raw c.config).expand w.cell.table).permits c.sni c.addr⟩] := by
  have hcoherent := hreaches.coherent (by omega)
  have hone : ∀ r ∈ w.answers, ∃ generation ≤ w.log.length,
      r.permitted = ((rulesOf raw r.call.config).expand
        (tableAt w.log generation)).permits r.call.sni r.call.addr := by
    intro r hr
    obtain ⟨_, j, hcached, hpermitted⟩ := hcoherent.answers r hr
    obtain ⟨generation, hle, hj⟩ := hcached.judgement
    exact ⟨generation, hle, by rw [hpermitted, ← hj]⟩
  refine ⟨hcoherent.cached, hone, fun hnone r hr => ?_, ?_⟩
  · obtain ⟨generation, -, hpermitted⟩ := hone r hr
    have hlog : w.log = [] := by
      rw [← List.length_eq_zero_iff, hreaches.log_length, hnone]
    rw [hpermitted, hlog, tableAt_nil]
    exact permits_denyAll _ _ _
  · intro k c rest w' w'' hfetched hlatest hquiet hexec hready hjudge
    rw [World.step, hready] at hjudge
    cases hjudge
    show w'.answers ++ [w'.answer c] = _
    rw [hreaches.judge_latest hfew hfetched hlatest hquiet hexec hready]

end Whole

namespace JudgementsWitness

attribute [local instance] MeetingWitness.endpointDigest

def bare : Table := ⟨Scheme.new MeetingWitness.pfx [], Graph.default⟩

def everything : Unit → RawRules := fun _ => ⟨[ascii "::/0"], none⟩

theorem everything_permits :
    ((rulesOf everything ()).expand (some bare)).permits [] 1 = true := by
  decide +kernel

def published : World Unit Unit := (World.initial everything).published bare

def call : Call Unit := ⟨(), [], 1, none, 1, 1, some bare⟩

def fetched : World Unit Unit := published.setWorker () (.fetched call)

/-- One publish, and one call on its own. -/
theorem cache_coherence_once :
    ∃ w w', Transition.exec World.step fetched [.compare (), .rebuild ()] = some w ∧
      w.step (.judge ()) = some w' ∧ w'.answers = [⟨call, 1, true⟩] := by
  have hreaches : Reaches everything [.publish bare, .fetch () () [] 1] fetched := rfl
  refine ⟨_, _, rfl, rfl, ?_⟩
  have hcall := (cache_coherence hreaches (by decide)).2.2.2 () call
    [.compare (), .rebuild ()] _ _ rfl rfl (by simp [Act.Quiet]) rfl rfl rfl
  rw [hcall, ← everything_permits]
  rfl

/-- What `n` publishes of one table leave. -/
def afterPublishes (w : World Unit Unit) (n : Nat) (t : Table) :
    World Unit Unit where
  cell := ⟨w.cell.generation + UInt64.ofNat n,
    if n = 0 then w.cell.table else some t⟩
  log := w.log ++ List.replicate n t
  configs := w.configs
  workers := w.workers
  answers := w.answers

theorem exec_replicate (n : Nat) (w : World Unit Unit) (t : Table) :
    Transition.exec World.step w (List.replicate n (.publish t)) =
      some (afterPublishes w n t) := by
  induction n generalizing w with
  | zero => simp [Transition.exec, afterPublishes]
  | succ n ih =>
      rw [List.replicate_succ, Transition.exec_cons_iff]
      refine ⟨w.published t, rfl, ?_⟩
      rw [ih]
      by_cases hn : n = 0 <;>
        simp [afterPublishes, World.published, Published.publish, hn,
          List.replicate_succ, UInt64.add_assoc, UInt64.add_comm 1]

/-- After as many publishes as the sentinel counts, a config never asked before
takes its initial cache for the latest. -/
theorem exec_sentinel {n : Nat} (hn : UInt64.ofNat n = noGeneration)
    (hpos : n ≠ 0) :
    ∃ (w w' : World Unit Unit) (c : Call Unit),
      Reaches everything (List.replicate n (.publish bare) ++
        [.fetch () () [] 1]) w ∧
      w.workers () = .fetched c ∧ c.generation = w.cell.generation ∧
      Transition.exec World.step w [.compare (), .judge ()] = some w' ∧
      w'.answers.map Answer.permitted = [false] ∧
      ((rulesOf everything ()).expand w.cell.table).permits c.sni c.addr = true := by
  let m := afterPublishes (World.initial everything) n bare
  let c : Call Unit :=
    ⟨(), [], 1, none, m.log.length, m.cell.generation, m.cell.table⟩
  let w := m.setWorker () (.fetched c)
  have hgeneration : m.cell.generation = noGeneration := by
    simp [m, afterPublishes, World.initial, Published.initial, hn]
  have hfresh : (w.configs ()).isStale c.generation = false := by
    rw [show c.generation = noGeneration from hgeneration]
    rfl
  have htable : w.cell.table = some bare := by
    simp [w, m, afterPublishes, World.setWorker, hpos]
  have hcompare : w.step (.compare ()) = some (w.setWorker () (.ready c)) := by
    show (if (w.configs ()).isStale c.generation then _ else _) = _
    rw [hfresh]
    rfl
  refine ⟨w, ((w.setWorker () (.ready c)).answered c).setWorker () .idle, c, ?_,
    rfl, rfl, ?_, ?_, ?_⟩
  · rw [Reaches, Transition.exec_concat (exec_replicate n _ bare)]
    rfl
  · rw [Transition.exec_cons_iff]
    exact ⟨_, hcompare, rfl⟩
  · exact congrArg (fun b => [b]) (permits_denyAll false [] 1)
  · rw [htable]
    exact everything_permits

/-- Published as often as the sentinel counts, the latest table is not the one
judged against. -/
theorem latest_denied :
    ∃ (acts : List (Act Unit Unit)) (w w' : World Unit Unit) (c : Call Unit),
      Reaches everything acts w ∧
      w.workers () = .fetched c ∧ c.generation = w.cell.generation ∧
      Transition.exec World.step w [.compare (), .judge ()] = some w' ∧
      w'.answers.map Answer.permitted = [false] ∧
      ((rulesOf everything ()).expand w.cell.table).permits c.sni c.addr = true :=
  ⟨_, exec_sentinel (n := 2 ^ 64 - 1) rfl (by decide)⟩

end JudgementsWitness

end Runs

end Ppv2Auth
