/-
How long a stale answer is possible.  A cache is put back to an older table
only by a call that read that table; once every such call has answered, and
nothing more is published, each call answers by the last table, in whatever
order the sections of all workers run.
-/
import Ppv2Auth.Runs.Freshness

namespace Ppv2Auth

namespace Runs

open Rust Identity Filters

variable {ι κ : Type}

/-- Every call in progress has read what is published. -/
def Settled (w : World ι κ) : Prop :=
  ∀ k c, (w.workers k).call = some c → c.generation = w.cell.generation

/-- Every call in progress has read what is published, or was in progress at
the start and has not answered yet. -/
structure Draining (start : World ι κ) (past : List (Act ι κ)) (w : World ι κ) : Prop where
  cell : w.cell = start.cell
  calls : ∀ k c, (w.workers k).call = some c → c.generation = w.cell.generation ∨
    (start.workers k).call = some c ∧ .judge k ∉ past

/-- A call that has compared finds the published generation in the cache, or
had compared before the start and has not answered yet. -/
structure Fresh (start : World ι κ) (past : List (Act ι κ)) (w : World ι κ) : Prop where
  cell : w.cell = start.cell
  settled : Settled w
  ready : ∀ k c, w.workers k = .ready c →
    (w.configs c.config).cache.1 = w.cell.generation ∨
      start.workers k = .ready c ∧ .judge k ∉ past

theorem isPublish_eq_false {later : List (Act ι κ)} (hquiet : publishes later = 0) :
    ∀ act ∈ later, act.isPublish = false := by
  intro act hact
  have hnot := List.countP_eq_zero.mp hquiet act hact
  simpa using hnot

section Steps

variable {start w w' : World ι κ} {past : List (Act ι κ)} {act : Act ι κ}

theorem draining_start : Draining w [] w where
  cell := rfl
  calls _ _ hcall := Or.inr ⟨hcall, List.not_mem_nil⟩

theorem fresh_start (hsettled : Settled w) : Fresh w [] w where
  cell := rfl
  settled := hsettled
  ready _ _ hready := Or.inr ⟨hready, List.not_mem_nil⟩

/-- A worker that is not judged stays where it was in that regard. -/
theorem not_mem_concat {k : κ} (h : .judge k ∉ past) (hact : act ≠ .judge k) :
    .judge k ∉ past ++ [act] := by
  rw [List.mem_append, List.mem_singleton, not_or]
  exact ⟨h, Ne.symm hact⟩

variable [DecidableEq κ]

/-- Only worker `k` moves, with a call that is as it should be. -/
theorem Draining.setWorker (h : Draining start past w) {k : κ} {phase : Phase ι}
    (hact : ∀ k', k' ≠ k → act ≠ .judge k')
    (hphase : ∀ c, phase.call = some c → c.generation = w.cell.generation ∨
      (start.workers k).call = some c ∧ .judge k ∉ past ++ [act]) :
    Draining start (past ++ [act]) (w.setWorker k phase) where
  cell := h.cell
  calls k' c hk' := by
    by_cases heq : k' = k
    · subst heq
      exact hphase c (by simpa [World.setWorker] using hk')
    · have hcall : (w.workers k').call = some c := by simpa [World.setWorker, heq] using hk'
      rcases h.calls k' c hcall with hread | ⟨hstart, hnot⟩
      · exact Or.inl hread
      · exact Or.inr ⟨hstart, not_mem_concat hnot (hact k' heq)⟩

theorem Fresh.setWorker (h : Fresh start past w) {k : κ} {phase : Phase ι}
    (hact : ∀ k', k' ≠ k → act ≠ .judge k')
    (hphase : ∀ c, phase.call = some c → c.generation = w.cell.generation)
    (hready : ∀ c, phase = .ready c → (w.configs c.config).cache.1 = w.cell.generation) :
    Fresh start (past ++ [act]) (w.setWorker k phase) where
  cell := h.cell
  settled k' c hk' := by
    by_cases heq : k' = k
    · subst heq
      exact hphase c (by simpa [World.setWorker] using hk')
    · exact h.settled k' c (by simpa [World.setWorker, heq] using hk')
  ready k' c hk' := by
    by_cases heq : k' = k
    · subst heq
      exact Or.inl (hready c (by simpa [World.setWorker] using hk'))
    · have hk' : w.workers k' = .ready c := by simpa [World.setWorker, heq] using hk'
      rcases h.ready k' c hk' with hcache | ⟨hstart, hnot⟩
      · exact Or.inl hcache
      · exact Or.inr ⟨hstart, not_mem_concat hnot (hact k' heq)⟩

/-- A call that goes on is the one it was. -/
theorem Draining.advance (h : Draining start past w) {k : κ} {c : Call ι}
    (hcall : (w.workers k).call = some c) {phase : Phase ι} (hphase : phase.call = some c)
    (hact : ∀ k', act ≠ .judge k') :
    Draining start (past ++ [act]) (w.setWorker k phase) := by
  refine h.setWorker (fun k' _ => hact k') fun c' hc' => ?_
  rw [hphase] at hc'
  cases hc'
  rcases h.calls k c hcall with hread | ⟨hstart, hnot⟩
  · exact Or.inl hread
  · exact Or.inr ⟨hstart, not_mem_concat hnot (hact k)⟩

variable [Sha256] [DecidableEq ι]

theorem Draining.step (h : Draining start past w) (hquiet : act.isPublish = false)
    (hsteps : Steps w act w') : Draining start (past ++ [act]) w' := by
  cases hsteps with
  | publish t => cases hquiet
  | unlabelled =>
      refine ⟨h.cell, fun k c hcall => ?_⟩
      rcases h.calls k c hcall with hread | ⟨hstart, hnot⟩
      · exact Or.inl hread
      · exact Or.inr ⟨hstart, not_mem_concat hnot nofun⟩
  | labelled => exact h.setWorker nofun nofun
  | fetchLabel | fetch =>
      refine h.setWorker nofun fun c hc => ?_
      cases hc
      exact Or.inl rfl
  | @mismatch k c hphase => exact h.advance (by rw [hphase]; rfl) rfl nofun
  | @isMatch k c hphase => exact h.advance (by rw [hphase]; rfl) rfl nofun
  | @rebuild k c hphase =>
      have hrebuilt : Draining start past (w.rebuilt c) := ⟨h.cell, h.calls⟩
      have hcall : ((w.rebuilt c).workers k).call = some c := by
        rw [show (w.rebuilt c).workers k = .stale c from hphase]
        rfl
      exact hrebuilt.advance hcall rfl nofun
  | @judge k c hphase =>
      have hanswered : Draining start past (w.answered c) := ⟨h.cell, h.calls⟩
      refine hanswered.setWorker (fun k' hk' heq => ?_) nofun
      cases heq
      exact hk' rfl

omit [DecidableEq κ] in
/-- The write section stores what is published. -/
theorem Fresh.rebuilt (h : Fresh start past w) {c : Call ι}
    (hread : c.generation = w.cell.generation) : Fresh start past (w.rebuilt c) where
  cell := h.cell
  settled := h.settled
  ready k c' hready := by
    by_cases hconfig : c'.config = c.config
    · left
      simp only [World.rebuilt, hconfig, Function.update_self, rebuild_generation]
      exact hread
    · rcases h.ready k c' hready with hcache | hstart
      · left
        simpa [World.rebuilt, hconfig] using hcache
      · exact Or.inr hstart

theorem Fresh.step (h : Fresh start past w) (hquiet : act.isPublish = false)
    (hsteps : Steps w act w') : Fresh start (past ++ [act]) w' := by
  cases hsteps with
  | publish t => cases hquiet
  | unlabelled =>
      refine ⟨h.cell, h.settled, fun k c hready => ?_⟩
      rcases h.ready k c hready with hcache | ⟨hstart, hnot⟩
      · exact Or.inl hcache
      · exact Or.inr ⟨hstart, not_mem_concat hnot (by simp)⟩
  | labelled => exact h.setWorker (by simp) (by simp [Phase.call]) (by simp)
  | fetchLabel | fetch =>
      refine h.setWorker (by simp) (fun c hc => ?_) fun c hc => ?_
      · cases hc
        rfl
      · cases hc
  | @mismatch k c hphase =>
      refine h.setWorker (by simp) (fun c' hc' => ?_) (by simp)
      cases hc'
      exact h.settled k c (by rw [hphase]; rfl)
  | @isMatch k c hphase hfresh =>
      have hread := h.settled k c (by rw [hphase]; rfl)
      refine h.setWorker (by simp) (fun c' hc' => ?_) fun c' hc' => ?_
      · cases hc'
        exact hread
      · cases hc'
        rw [hfresh, hread]
  | @rebuild k c hphase =>
      have hread := h.settled k c (by rw [hphase]; rfl)
      refine (h.rebuilt hread).setWorker (by simp) (fun c' hc' => ?_) fun c' hc' => ?_
      · cases hc'
        exact hread
      · cases hc'
        simp only [World.rebuilt, Function.update_self, rebuild_generation]
        exact hread
  | @judge k c hphase =>
      have hanswered : Fresh start past (w.answered c) := ⟨h.cell, h.settled, h.ready⟩
      refine hanswered.setWorker (fun k' hk' heq => ?_) (by simp [Phase.call]) (by simp)
      cases heq
      exact hk' rfl

end Steps

section Whole

variable [Sha256] [DecidableEq ι] [DecidableEq κ] {raw : ι → RawRules}
  {acts overlap later : List (Act ι κ)} {w m w' : World ι κ}

/-- Once every call that overlapped the last publish has answered, the calls in
progress have all read it. -/
theorem settled_of_drained (hquiet : publishes overlap = 0)
    (hexec : Transition.exec World.step w overlap = some m)
    (hover : ∀ k c, (w.workers k).call = some c → c.generation ≠ w.cell.generation →
      .judge k ∈ overlap) : Settled m ∧ m.cell = w.cell := by
  have hdraining : Draining w overlap m :=
    Transition.exec_history (fun past s act s' hact hs hstep =>
      hs.step (isPublish_eq_false hquiet act hact) (steps_of_step hstep)) draining_start hexec
  refine ⟨fun k c hcall => ?_, hdraining.cell⟩
  rcases hdraining.calls k c hcall with hread | ⟨hstart, hnot⟩
  · exact hread
  · by_contra hne
    exact hnot (hover k c hstart (hdraining.cell ▸ hne))

theorem fresh_of_settled (hsettled : Settled m) (hquiet : publishes later = 0)
    (hexec : Transition.exec World.step m later = some w') : Fresh m later w' :=
  Transition.exec_history (fun _ _ act _ hact hs hstep =>
    hs.step (isPublish_eq_false hquiet act hact) (steps_of_step hstep)) (fresh_start hsettled)
    hexec

theorem Reaches.append (hreaches : Reaches raw acts w)
    (hexec : Transition.exec World.step w later = some w') :
    Reaches raw (acts ++ later) w' := by
  rw [Reaches, Transition.exec_append, hreaches]
  exact hexec

/-- Staleness ends with the calls that overlapped the last publish.  When each
worker then in a call that had read an older table has answered, and nothing
more is published, every call that has not compared before, in any interleaving
with the others, is judged against the last table. -/
theorem staleness_ends (hreaches : Reaches raw acts w)
    (hfew : publishes acts < 2 ^ 64 - 1)
    (hoverlap : publishes overlap = 0)
    (hexec : Transition.exec World.step w overlap = some m)
    (hover : ∀ k c, (w.workers k).call = some c → c.generation ≠ w.cell.generation →
      .judge k ∈ overlap)
    (hlater : publishes later = 0) {k : κ}
    (hk : (∀ c, m.workers k ≠ .ready c) ∨ .judge k ∈ later)
    (hjudged : Transition.exec World.step m (later ++ [.judge k]) = some w') :
    ∃ m' c, Transition.exec World.step m later = some m' ∧ m'.workers k = .ready c ∧
      w'.answers = m'.answers ++ [⟨c, w.cell.generation,
        ((rulesOf raw c.config).expand w.cell.table).permits c.sni c.addr⟩] := by
  obtain ⟨hsettled, hcell⟩ := settled_of_drained hoverlap hexec hover
  rw [Transition.exec_append, Option.bind_eq_some_iff] at hjudged
  obtain ⟨m', hm', hlast⟩ := hjudged
  obtain ⟨next, hstep, hnext⟩ := Transition.exec_cons_iff.mp hlast
  cases hnext
  have hfresh := fresh_of_settled hsettled hlater hm'
  have hreaches' : Reaches raw ((acts ++ overlap) ++ later) m' :=
    (hreaches.append hexec).append hm'
  cases steps_of_step hstep with
  | @judge _ c hphase =>
      refine ⟨m', c, hm', hphase, ?_⟩
      have hused : (m'.configs c.config).cache.1 = w.cell.generation := by
        rcases hfresh.ready k c hphase with hcache | ⟨hstart, hnot⟩
        · rw [hcache, hfresh.cell, hcell]
        · rcases hk with hbefore | hmem
          · exact absurd hstart (hbefore c)
          · exact absurd hmem hnot
      have hcount : publishes ((acts ++ overlap) ++ later) = publishes acts := by
        rw [publishes, List.countP_append, List.countP_append]
        simp only [publishes] at hoverlap hlater
        rw [hoverlap, hlater]
        rfl
      have hcoherent := hreaches'.coherent (by omega)
      have htable := (hcoherent.cached c.config).latest
        (by rw [hreaches'.log_length]; omega)
        (by rw [hused, ← hcell, ← hfresh.cell]; exact hcoherent.generation)
      rw [← hcoherent.table, hfresh.cell, hcell] at htable
      show m'.answers ++ [m'.answer c] = _
      simp [World.answer, Config.judge, hused, htable]

end Whole

namespace SettlingWitness

attribute [local instance] MeetingWitness.endpointDigest

open FreshnessWitness (raw granted revoked)

/-- Worker `false` has read the table that is then replaced. -/
def begun : List (Act Unit Bool) :=
  [.publish granted, .fetch false () [] 1, .publish revoked]

/-- It puts the old table into the cache and answers. -/
def answered : List (Act Unit Bool) := [.compare false, .rebuild false, .judge false]

/-- Worker `true` calls after that. -/
def called : List (Act Unit Bool) := [.fetch true () [] 1, .compare true, .rebuild true]

theorem staleness_ends_revoked :
    ∃ w m w' m' : World Unit Bool, ∃ c, Reaches raw begun w ∧
      Transition.exec World.step w answered = some m ∧
      Transition.exec World.step m (called ++ [.judge true]) = some w' ∧
      w'.answers = m'.answers ++ [⟨c, w.cell.generation,
        ((rulesOf raw c.config).expand w.cell.table).permits c.sni c.addr⟩] := by
  obtain ⟨w, m, w', hw, hm, hw', hidle, hidle'⟩ : ∃ w m w' : World Unit Bool,
      Reaches raw begun w ∧ Transition.exec World.step w answered = some m ∧
        Transition.exec World.step m (called ++ [.judge true]) = some w' ∧
        (w.workers true).call = none ∧ (m.workers true).call = none :=
    ⟨_, _, _, rfl, rfl, rfl, rfl, rfl⟩
  have hover : ∀ k c, (w.workers k).call = some c → c.generation ≠ w.cell.generation →
      .judge k ∈ answered := by
    intro k c hcall _
    cases k with
    | false => simp [answered]
    | true => simp [hidle] at hcall
  have hbefore : ∀ c, m.workers true ≠ .ready c := by
    intro c hready
    rw [hready] at hidle'
    cases hidle'
  obtain ⟨m', c, -, -, hanswers⟩ :=
    staleness_ends hw (by decide) rfl hm hover rfl (Or.inl hbefore) hw'
  exact ⟨w, m, w', m', c, hw, hm, hw', hanswers⟩

end SettlingWitness

end Runs

end Ppv2Auth
