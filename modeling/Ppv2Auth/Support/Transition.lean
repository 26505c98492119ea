/-
Runs of a guarded transition function.  An action either takes a state to a
next one or is not enabled; a condition on steps can be asked of every step a
run takes, and an invariant that such steps keep holds where the run ends.
-/
import Mathlib

namespace Ppv2Auth

namespace Transition

universe u v

variable {σ : Type u} {α : Type v} (step : σ → α → Option σ)

/-- Take the actions in order; every one has to be enabled. -/
def exec (s : σ) : List α → Option σ
  | [] => some s
  | a :: rest => (step s a).bind fun s' => exec s' rest

/-- Every step taken meets a condition on the state before it. -/
def Meets (ok : σ → α → Prop) (s : σ) : List α → Prop
  | [] => True
  | a :: rest => ok s a ∧ ∀ s', step s a = some s' → Meets ok s' rest

/-- A condition holds in every state of the run, the first and the last
included. -/
def Throughout (P : σ → Prop) (s : σ) (acts : List α) : Prop :=
  ∀ pre s', pre <+: acts → exec step s pre = some s' → P s'

variable {step} {ok : σ → α → Prop} {s s' : σ} {a : α} {acts acts' : List α}

theorem exec_cons_iff :
    exec step s (a :: acts) = some s' ↔
      ∃ next, step s a = some next ∧ exec step next acts = some s' := by
  simp [exec, Option.bind_eq_some_iff]

theorem exec_append :
    exec step s (acts ++ acts') = (exec step s acts).bind fun m =>
      exec step m acts' := by
  induction acts generalizing s with
  | nil => rfl
  | cons a rest ih =>
      cases hstep : step s a with
      | none => simp [exec, hstep]
      | some next => simp [exec, hstep, ih]

theorem exec_concat {m : σ} (hexec : exec step s acts = some m) :
    exec step s (acts ++ [a]) = step m a := by
  simp [exec_append, hexec, exec]

/-- What every conforming step keeps holds at the end of a conforming run. -/
theorem exec_invariant {P : σ → Prop}
    (hkeep : ∀ s a s', P s → ok s a → step s a = some s' → P s')
    (hstart : P s) (hmeets : Meets step ok s acts)
    (hexec : exec step s acts = some s') : P s' := by
  induction acts generalizing s with
  | nil =>
      cases hexec
      exact hstart
  | cons a rest ih =>
      obtain ⟨next, hnext, hrest⟩ := exec_cons_iff.mp hexec
      exact ih (hkeep s a next hstart hmeets.1 hnext) (hmeets.2 next hnext) hrest

/-- A condition on the actions taken and the state that every step of a run
keeps holds where the run ends. -/
theorem exec_history {P : List α → σ → Prop}
    (hkeep : ∀ past s a s', a ∈ acts → P past s → step s a = some s' → P (past ++ [a]) s')
    (hstart : P [] s) (hexec : exec step s acts = some s') : P acts s' := by
  induction acts using List.reverseRecOn generalizing s' with
  | nil =>
      cases hexec
      exact hstart
  | append_singleton acts a ih =>
      rw [exec_append, Option.bind_eq_some_iff] at hexec
      obtain ⟨m, hm, hlast⟩ := hexec
      obtain ⟨next, hstep, hnext⟩ := exec_cons_iff.mp hlast
      cases hnext
      refine hkeep acts m a _ (by simp) (ih ?_ hm) hstep
      exact fun past s a' s' ha' => hkeep past s a' s' (List.mem_append_left _ ha')

theorem meets_of_forall (hall : ∀ a ∈ acts, ∀ s, ok s a) (s : σ) :
    Meets step ok s acts := by
  induction acts generalizing s with
  | nil => trivial
  | cons a rest ih =>
      exact ⟨hall a List.mem_cons_self s, fun s' _ =>
        ih (fun a' ha' => hall a' (List.mem_cons_of_mem a ha')) s'⟩

theorem Meets.and {ok' : σ → α → Prop} (hmeets : Meets step ok s acts)
    (hmeets' : Meets step ok' s acts) :
    Meets step (fun s a => ok s a ∧ ok' s a) s acts := by
  induction acts generalizing s with
  | nil => trivial
  | cons a rest ih =>
      exact ⟨⟨hmeets.1, hmeets'.1⟩, fun s' hs' =>
        ih (hmeets.2 s' hs') (hmeets'.2 s' hs')⟩

theorem throughout_nil_iff {P : σ → Prop} : Throughout step P s [] ↔ P s := by
  constructor
  · intro h
    exact h [] s (List.prefix_refl _) rfl
  · intro hP pre s' hpre hexec
    rw [List.prefix_nil.mp hpre] at hexec
    cases hexec
    exact hP

theorem throughout_cons_iff {P : σ → Prop} (hstep : step s a = some s') :
    Throughout step P s (a :: acts) ↔ P s ∧ Throughout step P s' acts := by
  constructor
  · intro h
    constructor
    · exact h [] s List.nil_prefix rfl
    · intro pre m hpre hexec
      apply h (a :: pre) m (List.cons_prefix_cons.mpr ⟨rfl, hpre⟩)
      exact exec_cons_iff.mpr ⟨s', hstep, hexec⟩
  · rintro ⟨hP, hrest⟩ pre m hpre hexec
    rcases List.prefix_cons_iff.mp hpre with rfl | ⟨rest, rfl, hrest'⟩
    · cases hexec
      exact hP
    · obtain ⟨next, hnext, hexec⟩ := exec_cons_iff.mp hexec
      cases hstep.symm.trans hnext
      exact hrest rest m hrest' hexec

/-- Conditions that agree wherever an invariant holds agree on runs. -/
theorem meets_congr {ok' : σ → α → Prop} {Q : σ → Prop}
    (hkeep : ∀ s a s', Q s → step s a = some s' → Q s')
    (hiff : ∀ s a, Q s → (ok s a ↔ ok' s a)) (hstart : Q s) :
    Meets step ok s acts ↔ Meets step ok' s acts := by
  induction acts generalizing s with
  | nil => exact Iff.rfl
  | cons a rest ih =>
      apply and_congr (hiff s a hstart)
      exact forall_congr' fun s' => forall_congr' fun hstep =>
        ih (hkeep s a s' hstart hstep)

/-- Where steps are always enabled and keep a condition exactly when they
conform, it holds throughout a run exactly when every step conforms. -/
theorem throughout_iff_meets {P Q : σ → Prop} (hnext : ∀ s a, ∃ s', step s a = some s')
    (hkeep : ∀ s a s', Q s → step s a = some s' → Q s')
    (hiff : ∀ s a s', Q s → P s → step s a = some s' → (P s' ↔ ok s a))
    (hQ : Q s) (hP : P s) :
    Throughout step P s acts ↔ Meets step ok s acts := by
  induction acts generalizing s with
  | nil => simp [throughout_nil_iff, Meets, hP]
  | cons a rest ih =>
      obtain ⟨s', hstep⟩ := hnext s a
      rw [throughout_cons_iff hstep]
      constructor
      · rintro ⟨-, hrest⟩
        have hP' : P s' := hrest [] s' List.nil_prefix rfl
        refine ⟨(hiff s a s' hQ hP hstep).mp hP', fun next hnext' => ?_⟩
        cases hstep.symm.trans hnext'
        exact (ih (hkeep s a s' hQ hstep) hP').mp hrest
      · rintro ⟨hok, hrest⟩
        have hP' : P s' := (hiff s a s' hQ hP hstep).mpr hok
        exact ⟨hP, (ih (hkeep s a s' hQ hstep) hP').mpr (hrest s' hstep)⟩

end Transition

end Ppv2Auth
