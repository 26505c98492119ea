/-
Machines that answer.  Every action a machine accepts yields a next state and a
reply; a condition may speak of everything that happened so far, and one
machine refines another when a map of states keeps every reply.
-/
import Mathlib

namespace Ppv2Auth

namespace Reactive

universe u v w x y z

variable {σ : Type u} {α : Type v} {ρ : Type w} {τ : Type x}

/-- Take the actions in order and collect the replies. -/
def run (step : σ → α → Option (σ × ρ)) (s : σ) : List α → Option (σ × List ρ)
  | [] => some (s, [])
  | a :: rest =>
      (step s a).bind fun next =>
        (run step next.1 rest).map fun last => (last.1, next.2 :: last.2)

/-- Where a run ends. -/
def Ends (step : σ → α → Option (σ × ρ)) (s : σ) (acts : List α) (s' : σ) : Prop :=
  ∃ replies, run step s acts = some (s', replies)

variable {step : σ → α → Option (σ × ρ)} {s s' : σ} {a : α} {acts acts' : List α}
  {replies : List ρ}

theorem run_cons_iff {r : List ρ} :
    run step s (a :: acts) = some (s', r) ↔
      ∃ next reply rest, step s a = some (next, reply) ∧
        run step next acts = some (s', rest) ∧ r = reply :: rest := by
  constructor
  · intro hrun
    simp only [run, Option.bind_eq_some_iff, Option.map_eq_some_iff] at hrun
    obtain ⟨⟨next, reply⟩, hstep, ⟨last, rest⟩, hrest, heq⟩ := hrun
    cases heq
    exact ⟨next, reply, rest, hstep, hrest, rfl⟩
  · rintro ⟨next, reply, rest, hstep, hrest, rfl⟩
    simp [run, hstep, hrest]

theorem run_append :
    run step s (acts ++ acts') = (run step s acts).bind fun mid =>
      (run step mid.1 acts').map fun last => (last.1, mid.2 ++ last.2) := by
  induction acts generalizing s with
  | nil => simp [run]
  | cons a rest ih =>
      cases hstep : step s a with
      | none => simp [run, hstep]
      | some next =>
          cases hrest : run step next.1 rest with
          | none => simp [run, hstep, ih, hrest]
          | some mid =>
              simp [run, hstep, ih, hrest, Function.comp_def]

/-- A run that reaches an action has a state before it, a reply to it and a
run after it. -/
theorem run_split {pre post : List α} (hrun : run step s (pre ++ a :: post) = some (s', replies)) :
    ∃ m before next reply after, run step s pre = some (m, before) ∧
      step m a = some (next, reply) ∧ run step next post = some (s', after) ∧
      replies = before ++ reply :: after := by
  rw [run_append, Option.bind_eq_some_iff] at hrun
  obtain ⟨⟨m, before⟩, hpre, hrest⟩ := hrun
  rw [Option.map_eq_some_iff] at hrest
  obtain ⟨⟨last, tail⟩, htail, heq⟩ := hrest
  cases heq
  obtain ⟨next, reply, after, hstep, hafter, rfl⟩ := run_cons_iff.mp htail
  exact ⟨m, before, next, reply, after, hpre, hstep, hafter, rfl⟩

/-- One reply for each action. -/
theorem length_of_run (hrun : run step s acts = some (s', replies)) :
    replies.length = acts.length := by
  induction acts generalizing s replies with
  | nil =>
      cases hrun
      rfl
  | cons a rest ih =>
      obtain ⟨next, reply, tail, -, htail, rfl⟩ := run_cons_iff.mp hrun
      simp [ih htail]

/-- A condition on what was done and answered and the state that every step
keeps holds wherever a run ends. -/
theorem log_of_run {P : List (α × ρ) → σ → Prop} (hstart : P [] s)
    (hkeep : ∀ log m a next reply, P log m → step m a = some (next, reply) →
      P (log ++ [(a, reply)]) next)
    (hrun : run step s acts = some (s', replies)) : P (acts.zip replies) s' := by
  suffices hfrom : ∀ log, P log s → P (log ++ acts.zip replies) s' from
    hfrom [] hstart
  clear hstart
  induction acts generalizing s replies with
  | nil =>
      cases hrun
      simp
  | cons a rest ih =>
      obtain ⟨next, reply, tail, hstep, htail, rfl⟩ := run_cons_iff.mp hrun
      intro log hlog
      have hnext := hkeep log s a next reply hlog hstep
      simpa using ih htail (log ++ [(a, reply)]) hnext

/-- The special case of a condition on the actions and the state. -/
theorem history_of_ends {P : List α → σ → Prop} (hstart : P [] s)
    (hkeep : ∀ past m a next reply, P past m → step m a = some (next, reply) →
      P (past ++ [a]) next)
    (hends : Ends step s acts s') : P acts s' := by
  obtain ⟨replies, hrun⟩ := hends
  have hlog := log_of_run (P := fun log m => P (log.map Prod.fst) m) hstart
    (fun log m a next reply hm hstep => by
      simpa using hkeep (log.map Prod.fst) m a next reply hm hstep) hrun
  rwa [List.map_fst_zip (length_of_run hrun).ge] at hlog

/-- Actions that every state takes alike make the same run. -/
theorem run_congr {A : α → α → Prop} (hsame : ∀ m a a', A a a' → step m a' = step m a)
    (hacts : List.Forall₂ A acts acts') : run step s acts' = run step s acts := by
  induction hacts generalizing s with
  | nil => rfl
  | cons ha _ ih => simp [run, hsame _ _ _ ha, ih]

section Parts

variable {β : Type y} {ω : Type z} (ask : List α → α → Option β)

/-- What is asked of a part in the course of the actions. -/
def asked (past : List α) : List α → List β
  | [] => []
  | a :: rest => (ask past a).toList ++ asked (past ++ [a]) rest

/-- The replies to what is asked of it. -/
def told (past : List α) : List α → List ρ → List ρ
  | a :: rest, reply :: replies =>
      ((ask past a).toList.map fun _ => reply) ++ told (past ++ [a]) rest replies
  | _, _ => []

variable {ask} {only : ω → β → Option (ω × ρ)} {start : ω} {reply : ρ} {b : Option β}
  {c c' : Option ω} {asks : List β} {tells : List ρ}

/-- A step as a part sees it: it replies to what it is asked, is left alone, or
is made. -/
inductive Sees (only : ω → β → Option (ω × ρ)) (start : ω) (reply : ρ) :
    Option β → Option ω → Option ω → Prop where
  | asked {b : β} {c c' : ω} (hstep : only c b = some (c', reply)) :
      Sees only start reply (some b) (some c) (some c')
  | alone (c : Option ω) : Sees only start reply none c c
  | made : Sees only start reply none none (some start)

/-- The part has run by itself on what it was asked. -/
def Follows (only : ω → β → Option (ω × ρ)) (start : ω) (asks : List β) (tells : List ρ) :
    Option ω → Prop
  | none => asks = [] ∧ tells = []
  | some c => run only start asks = some (c, tells)

theorem Sees.follows (h : Sees only start reply b c c') (hc : Follows only start asks tells c) :
    Follows only start (asks ++ b.toList) (tells ++ b.toList.map fun _ => reply) c' := by
  cases h with
  | asked hstep =>
      rw [Follows] at hc
      simp [Follows, run_append, hc, run, hstep]
  | alone c => simpa using hc
  | made =>
      obtain ⟨rfl, rfl⟩ := hc
      rfl

/-- A part that sees every step of a run has run by itself on what it was
asked, and its replies are those given in the run. -/
theorem part_of_run {P : List α → σ → Prop} {part : σ → Option ω}
    (hkeep : ∀ past m a next reply, past ++ [a] <+: acts → P past m →
      step m a = some (next, reply) →
        P (past ++ [a]) next ∧ Sees only start reply (ask past a) (part m) (part next))
    (hstart : P [] s) (hnone : part s = none)
    (hrun : run step s acts = some (s', replies)) :
    Follows only start (asked ask [] acts) (told ask [] acts replies) (part s') := by
  suffices hfrom : ∀ rest past m tail asks tells, past ++ rest = acts → P past m →
      Follows only start asks tells (part m) → run step m rest = some (s', tail) →
      Follows only start (asks ++ asked ask past rest) (tells ++ told ask past rest tail)
        (part s') by
    have hbegin : Follows only start [] ([] : List ρ) (part s) := by simp [hnone, Follows]
    simpa using hfrom acts [] s replies [] [] rfl hstart hbegin hrun
  intro rest
  induction rest with
  | nil =>
      intro past m tail asks tells _ _ hpart hrest
      cases hrest
      simpa [asked, told] using hpart
  | cons a rest ih =>
      intro past m tail asks tells hsplit hm hpart hrest
      obtain ⟨next, reply, more, hstep, hmore, rfl⟩ := run_cons_iff.mp hrest
      have hpre : past ++ [a] <+: acts := ⟨rest, by simpa using hsplit⟩
      obtain ⟨hnext, hsees⟩ := hkeep past m a next reply hpre hm hstep
      have hlater := ih (past ++ [a]) next more _ _ (by simpa using hsplit) hnext
        (hsees.follows hpart) hmore
      simpa [asked, told] using hlater

end Parts

/-- A map of states that keeps every reply, wherever a condition on the past
and the state holds, keeps the replies of whole runs. -/
theorem run_map {step' : τ → α → Option (τ × ρ)} {f : σ → τ}
    {P : List α → σ → Prop}
    (hkeep : ∀ past m a next reply, P past m → step m a = some (next, reply) →
      P (past ++ [a]) next)
    (hsame : ∀ past m a, P past m → past ++ [a] <+: acts →
      step' (f m) a = (step m a).map fun next => (f next.1, next.2))
    (hstart : P [] s) :
    run step' (f s) acts = (run step s acts).map fun last => (f last.1, last.2) := by
  suffices hfrom : ∀ past rest, past ++ rest = acts → ∀ m, P past m →
      run step' (f m) rest = (run step m rest).map fun last => (f last.1, last.2) from
    hfrom [] acts rfl s hstart
  intro past rest
  induction rest generalizing past with
  | nil => simp [run]
  | cons a rest ih =>
      intro hacts m hm
      have hpre : past ++ [a] <+: acts := ⟨rest, by simpa using hacts⟩
      have hstep := hsame past m a hm hpre
      cases hnext : step m a with
      | none => simp [run, hstep, hnext]
      | some next =>
          have hrest := ih (past ++ [a]) (by simpa using hacts) next.1
            (hkeep past m a next.1 next.2 hm hnext)
          simp [run, hstep, hnext, hrest, Function.comp_def]

end Reactive

end Ppv2Auth
