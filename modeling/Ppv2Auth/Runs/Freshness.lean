/-
Whether a call can be answered by a table older than it is.  The write section
compares generations for inequality only, so a worker that read an older table
puts it back over a newer one, and a call between its comparison and its
judgement is then judged by it.  Where no worker does, answers are never stale.
-/
import Ppv2Auth.Runs.Judgements

namespace Ppv2Auth

namespace Runs

open Rust Identity Filters

variable {ι κ : Type}

/-- No rebuild replaces a cache by a generation older than the one a call
about to be judged by that cache has read. -/
def Orderly [Sha256] (w : World ι κ) : Act ι κ → Prop
  | .rebuild k => ∀ c, w.workers k = .stale c →
      (w.configs c.config).cache.1 ≠ c.generation →
      ∀ k' c', w.workers k' = .ready c' → c'.config = c.config →
        c'.generation ≤ c.generation
  | _ => True

/-- A call about to be judged finds a cache at least as new as the table it
read, and so did every call judged before. -/
structure NeverStale (w : World ι κ) : Prop where
  ready : ∀ k c, w.workers k = .ready c →
    c.started ≤ (w.configs c.config).cache.1.toNat
  answers : ∀ r ∈ w.answers, r.call.started ≤ r.used.toNat

theorem neverStale_initial (raw : ι → RawRules) :
    NeverStale (World.initial raw : World ι κ) where
  ready k c hready := by cases hready
  answers r hr := by cases hr

section Keeps

variable {raw : ι → RawRules} {w w' : World ι κ}

theorem NeverStale.setWorker [DecidableEq κ] (h : NeverStale w) (k : κ)
    {phase : Phase ι}
    (hphase : ∀ c, phase = .ready c →
      c.started ≤ (w.configs c.config).cache.1.toNat) :
    NeverStale (w.setWorker k phase) where
  ready k' c hk' := by
    by_cases heq : k' = k
    · subst heq
      exact hphase c (by simpa [World.setWorker] using hk')
    · exact h.ready k' c (by simpa [World.setWorker, heq] using hk')
  answers := h.answers

theorem NeverStale.answered (h : NeverStale w) {k : κ} {c : Call ι}
    (hphase : w.workers k = .ready c) : NeverStale (w.answered c) where
  ready := h.ready
  answers r hr := by
    rcases List.mem_append.mp hr with hold | hnew
    · exact h.answers r hold
    · rw [List.mem_singleton.mp hnew]
      exact h.ready k c hphase

variable [Sha256]

theorem NeverStale.rebuilt [DecidableEq ι] (h : NeverStale w)
    (hcoherent : Coherent raw w) {k : κ} {c : Call ι}
    (hphase : w.workers k = .stale c) (horderly : Orderly w (.rebuild k)) :
    NeverStale (w.rebuilt c) where
  ready k' c' hready := by
    have hread := hcoherent.calls k c (by rw [hphase]; rfl)
    have hread' := hcoherent.calls k' c' (by
      rw [show w.workers k' = .ready c' from hready]
      rfl)
    by_cases hconfig : c'.config = c.config
    · simp only [World.rebuilt, hconfig, Function.update_self, rebuild_generation]
      by_cases hsame : (w.configs c.config).cache.1 = c.generation
      · rw [← hsame, ← hconfig]
        exact h.ready k' c' hready
      · -- The one place where the order of two workers matters.
        have hle := horderly c hphase hsame k' c' hready hconfig
        rw [UInt64.le_iff_toNat_le, hread'.generation] at hle
        exact hle
    · simpa [World.rebuilt, hconfig] using h.ready k' c' hready
  answers := h.answers

variable [DecidableEq ι] [DecidableEq κ]

theorem NeverStale.step (h : NeverStale w) (hcoherent : Coherent raw w)
    {act : Act ι κ} (horderly : Orderly w act) (hsteps : Steps w act w') :
    NeverStale w' := by
  cases hsteps with
  | publish t => exact ⟨h.ready, h.answers⟩
  | unlabelled => exact h
  | labelled | fetchLabel | fetch | mismatch =>
      exact h.setWorker _ fun c hc => (by cases hc)
  | @isMatch k c hphase hfresh =>
      have hread := hcoherent.calls k c (by rw [hphase]; rfl)
      refine h.setWorker k fun c' hc' => ?_
      cases hc'
      rw [hfresh, hread.generation]
  | @rebuild k c hphase =>
      have hread := hcoherent.calls k c (by rw [hphase]; rfl)
      refine (h.rebuilt hcoherent hphase horderly).setWorker k fun c' hc' => ?_
      cases hc'
      simp [World.rebuilt, rebuild_generation, hread.generation]
  | @judge k c hphase =>
      exact (h.answered hphase).setWorker k fun c' hc' => (by cases hc')

end Keeps

section Whole

variable [Sha256] [DecidableEq ι] [DecidableEq κ] {raw : ι → RawRules}
  {acts : List (Act ι κ)} {w : World ι κ}

theorem Reaches.neverStale (hreaches : Reaches raw acts w)
    (hfew : publishes acts < 2 ^ 64)
    (horderly : Transition.Meets World.step Orderly (World.initial raw) acts) :
    NeverStale w := by
  have hroom : Transition.Meets World.step HasRoom (World.initial raw) acts :=
    meets_hasRoom (by simpa [World.initial] using hfew)
  refine (Transition.exec_invariant (P := fun m => Coherent raw m ∧ NeverStale m)
    (fun s act s' hs hact hstep => ?_)
    ⟨coherent_initial raw, neverStale_initial raw⟩ (hroom.and horderly) hreaches).2
  have hsteps := steps_of_step hstep
  exact ⟨hs.1.step hact.1 hsteps, hs.2.step hs.1 hact.2 hsteps⟩

/-- A rebuild out of order: the call it overtakes is judged next, by a table
older than the one that call read. -/
theorem Reaches.stale_of_not_orderly (hreaches : Reaches raw acts w)
    (hfew : publishes acts < 2 ^ 64) {act : Act ι κ} {w' : World ι κ}
    (hstep : w.step act = some w') (hnot : ¬ Orderly w act) :
    ∃ k w'', w'.step (.judge k) = some w'' ∧
      ∃ r ∈ w''.answers, r.used.toNat < r.call.started := by
  have hcoherent := hreaches.coherent hfew
  cases steps_of_step hstep with
  | publish | labelled | unlabelled | fetchLabel | fetch | mismatch | isMatch
  | judge => exact absurd trivial hnot
  | @rebuild k c hphase =>
      simp only [Orderly, not_forall, UInt64.not_le] at hnot
      obtain ⟨c₀, hc₀, hne, k', c', hready, hconfig, hlt⟩ := hnot
      rw [hphase, Phase.stale.injEq] at hc₀
      subst hc₀
      have hother : k' ≠ k := by
        rintro rfl
        rw [hphase] at hready
        cases hready
      have hready' : ((w.rebuilt c).setWorker k (.ready c)).workers k' =
          .ready c' := by
        simp [World.setWorker, World.rebuilt, hother, hready]
      refine ⟨k', (((w.rebuilt c).setWorker k (.ready c)).answered c').setWorker k'
        .idle, by simp only [World.step, hready'], _,
        List.mem_append_right _ List.mem_cons_self, ?_⟩
      have hread' := hcoherent.calls k' c' (by rw [hready]; rfl)
      show (((w.rebuilt c).configs c'.config).cache.1).toNat < c'.started
      rw [hconfig]
      simp only [World.rebuilt, Function.update_self, rebuild_generation]
      rw [← hread'.generation]
      exact UInt64.lt_iff_toNat_lt.mp hlt

/-- Never a stale allow, in every run whose rebuilds are in order: an answer
comes from the initial deny-all or from the table of a generation no older than
the call.  A rebuild out of order is enough for a stale answer. -/
theorem never_stale_when_orderly (hreaches : Reaches raw acts w)
    (hfew : publishes acts < 2 ^ 64) :
    (Transition.Meets World.step Orderly (World.initial raw) acts →
      ∀ r ∈ w.answers, r.call.started ≤ r.used.toNat ∧
        ∃ j, Cached (rulesOf raw r.call.config) w.log (r.used, j) ∧
          r.permitted = j.permits r.call.sni r.call.addr) ∧
      ∀ act w', w.step act = some w' → ¬ Orderly w act →
        ∃ k w'', w'.step (.judge k) = some w'' ∧
          ∃ r ∈ w''.answers, r.used.toNat < r.call.started := by
  refine ⟨fun horderly r hr => ?_, fun act w' hstep hnot =>
    hreaches.stale_of_not_orderly hfew hstep hnot⟩
  exact ⟨(hreaches.neverStale hfew horderly).answers r hr,
    ((hreaches.coherent hfew).answers r hr).2⟩

end Whole

namespace FreshnessWitness

attribute [local instance] MeetingWitness.endpointDigest

/-- One group `g` over a bare table. -/
def grouped (members : List Bytes) : Table :=
  ⟨Scheme.new MeetingWitness.pfx [], Graph.default.upsert (ascii "g") members⟩

/-- The tenant is in the group, and then revoked. -/
def granted : Table := grouped [ascii "::1"]

def revoked : Table := grouped []

def raw : Unit → RawRules := fun _ => ⟨[ascii "@g"], none⟩

/-- Worker `false` reads the first table, worker `true` the second; the first
rebuilds last. -/
def overtaken : List (Act Unit Bool) :=
  [.publish granted, .fetch false () [] 1, .publish revoked, .fetch true () [] 1,
    .compare false, .compare true, .rebuild true, .rebuild false, .judge true]

theorem overtaken_answers :
    ((Transition.exec World.step (World.initial raw) overtaken).map fun w =>
        w.answers.map fun r => (r.call.started, r.used, r.permitted)) =
      some [(2, 1, true)] := by
  decide +kernel

theorem revoked_denies :
    ((rulesOf raw ()).expand (some revoked)).permits [] 1 = false := by
  decide +kernel

theorem stale_allow :
    ∃ (acts : List (Act Unit Bool)) (w : World Unit Bool),
      Reaches raw acts w ∧ w.cell.table = some revoked ∧
        (∃ r ∈ w.answers, r.used.toNat < r.call.started ∧ r.permitted = true) ∧
        ((rulesOf raw ()).expand w.cell.table).permits [] 1 = false := by
  obtain ⟨w, hw, hanswers⟩ := Option.map_eq_some_iff.mp overtaken_answers
  have htable : w.cell.table = some revoked := by
    cases hw
    rfl
  obtain ⟨r, hr, hfields⟩ := List.map_eq_singleton_iff.mp hanswers
  refine ⟨overtaken, w, hw, htable, ⟨r, ?_, ?_, ?_⟩, htable ▸ revoked_denies⟩
  · rw [hr]
    exact List.mem_singleton_self r
  · simp only [Prod.mk.injEq] at hfields
    rw [hfields.1, hfields.2.1]
    decide
  · simp only [Prod.mk.injEq] at hfields
    exact hfields.2.2

/-- The same calls with the rebuilds in the order of the reads. -/
def inOrder : List (Act Unit Bool) :=
  [.publish granted, .fetch false () [] 1, .publish revoked, .fetch true () [] 1,
    .compare false, .compare true, .rebuild false, .rebuild true, .judge true,
    .judge false]

theorem inOrder_answers :
    ((Transition.exec World.step (World.initial raw) inOrder).map fun w =>
        w.answers.map fun r => (r.call.started, r.used, r.permitted)) =
      some [(2, 2, false), (1, 2, false)] := by
  decide +kernel

theorem inOrder_orderly :
    Transition.Meets World.step Orderly (World.initial raw) inOrder := by
  refine ⟨trivial, fun s hs => ⟨trivial, ?_⟩⟩
  cases hs
  refine fun s hs => ⟨trivial, ?_⟩
  cases hs
  refine fun s hs => ⟨trivial, ?_⟩
  cases hs
  refine fun s hs => ⟨trivial, ?_⟩
  cases hs
  refine fun s hs => ⟨trivial, ?_⟩
  cases hs
  refine fun s hs => ⟨?_, ?_⟩
  · cases hs
    intro c hc hne k' c' hready
    cases k' <;> cases hready
  cases hs
  refine fun s hs => ⟨?_, ?_⟩
  · cases hs
    intro c hc hne k' c' hready hconfig
    cases hc
    cases k' <;> cases hready
    decide
  exact fun s hs => ⟨trivial, fun s hs => ⟨trivial, fun s hs => trivial⟩⟩

theorem never_stale_inOrder :
    ∃ w : World Unit Bool, Reaches raw inOrder w ∧
      ∀ r ∈ w.answers, r.call.started ≤ r.used.toNat := by
  obtain ⟨w, hw, -⟩ := Option.map_eq_some_iff.mp inOrder_answers
  refine ⟨w, hw, fun r hr => ?_⟩
  exact ((never_stale_when_orderly hw (by decide)).1 inOrder_orderly r hr).1

end FreshnessWitness

end Runs

end Ppv2Auth
