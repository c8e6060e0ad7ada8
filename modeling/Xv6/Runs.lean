import Mathlib.Data.List.Basic

/-! Runs of a transition function in which an action may be disabled. -/
namespace Runs

variable {σ α : Type} {step : σ → α → Option σ}

/-- The state after a schedule, if each of its actions is enabled in turn. -/
def run (step : σ → α → Option σ) (s : σ) : List α → Option σ
  | [] => some s
  | a :: rest => (step s a).bind fun t => run step t rest

theorem run_append (s : σ) (front back : List α) :
    run step s (front ++ back) = (run step s front).bind fun t => run step t back := by
  induction front generalizing s with
  | nil => rfl
  | cons a front ih =>
    cases first : step s a with
    | none => simp [run,first]
    | some t => simpa [run,first] using ih t

variable {s t : σ} {schedule : List α} {P : σ → Prop}

/-- What an enabled step with one guard says. -/
theorem enabled {c : Prop} [Decidable c] (stepped : (if c then some s else none) = some t) : c ∧ s = t := by
  simpa using stepped

/-- A concrete run is evaluated once, for what can be checked of its last state. -/
theorem reaches {x : Option σ} {Q : σ → Prop} (P : σ → Prop) [DecidablePred P] (checked : x.any (fun s => P s) = true)
    (then_ : ∀ s, x = some s → P s → Q s) : ∃ s, x = some s ∧ Q s := by
  obtain ⟨s,ran,facts⟩ := (Option.any_eq_true ..).mp checked
  exact ⟨s,ran,then_ s ran (of_decide_eq_true facts)⟩

theorem ends {x : Option σ} {P : σ → Prop} [DecidablePred P] (checked : x.any (fun s => P s) = true) :
    ∃ s, x = some s ∧ P s :=
  reaches P checked fun _ _ => id

/-- A step function that enables fewer actions has fewer runs. -/
theorem run_mono {guarded : σ → α → Option σ} (only : ∀ s a t, guarded s a = some t → step s a = some t)
    (ran : run guarded s schedule = some t) : run step s schedule = some t := by
  induction schedule generalizing s with
  | nil => exact ran
  | cons a rest ih =>
    obtain ⟨u,first,later⟩ := Option.bind_eq_some_iff.mp ran
    simpa [run,only s a u first] using ih later

/-- What every enabled action keeps holds at the end of every run. -/
theorem run_invariant (I : σ → Prop) (keeps : ∀ s a t, I s → step s a = some t → I t) (start : I s)
    (ran : run step s schedule = some t) : I t := by
  induction schedule generalizing s with
  | nil => exact Option.some.inj ran ▸ start
  | cons a rest ih =>
    cases first : step s a with
    | none => simp [run,first] at ran
    | some u => exact ih (keeps s a u start first) (by simpa [run,first] using ran)

/-- The rule for an invariant that needs `C` of the actions. -/
theorem run_invariant_actions {C : α → Prop} (I : σ → Prop) (keeps : ∀ s a t, C a → I s → step s a = some t → I t)
    (actions : ∀ a ∈ schedule, C a) (start : I s) (ran : run step s schedule = some t) :
    I t := by
  induction schedule generalizing s with
  | nil => exact Option.some.inj ran ▸ start
  | cons a rest ih =>
    cases first : step s a with
    | none => simp [run,first] at ran
    | some u =>
      have next := keeps s a u (actions a List.mem_cons_self) start first
      exact ih (fun b member => actions b (List.mem_cons_of_mem a member)) next (by simpa [run,first] using ran)

/-- A machine refines another if each of its steps is a run of the other. -/
theorem run_simulates {τ β : Type} {step' : τ → β → Option τ} {C : α → Prop} (R : σ → τ → Prop)
    (simulates : ∀ s a t u, C a → R s u → step s a = some t → ∃ acts v, run step' u acts = some v ∧ R t v) {u : τ}
    (actions : ∀ a ∈ schedule, C a) (start : R s u) (ran : run step s schedule = some t) :
    ∃ acts v, run step' u acts = some v ∧ R t v := by
  induction schedule generalizing s u with
  | nil =>
    cases ran
    exact ⟨[],u,rfl,start⟩
  | cons a rest ih =>
    obtain ⟨s',first,later⟩ := Option.bind_eq_some_iff.mp ran
    obtain ⟨front,v,ran,next⟩ := simulates s a s' u (actions a List.mem_cons_self) start first
    obtain ⟨back,w,ran',last⟩ := ih (fun b member => actions b (List.mem_cons_of_mem a member)) next later
    exact ⟨front ++ back,w,by rw [run_append,ran]; exact ran',last⟩

def Always (step : σ → α → Option σ) (P : σ → Prop) (s : σ) : List α → Prop
  | [] => P s
  | a :: rest => P s ∧ match step s a with
    | none => True
    | some t => Always step P t rest

instance decidableAlways (P : σ → Prop) [DecidablePred P] (s : σ) :
    (schedule : List α) → Decidable (Always step P s schedule)
  | [] => inferInstanceAs (Decidable (P s))
  | a :: rest =>
    match first : step s a with
    | none => decidable_of_iff (P s) (by simp [Always,first])
    | some t =>
      have := decidableAlways P t rest
      decidable_of_iff (P s ∧ Always step P t rest) (by simp [Always,first])

theorem Always.head (always : Always step P s schedule) : P s := by
  cases schedule with
  | nil => exact always
  | cons a rest => exact always.1

theorem Always.tail {a : α} {rest : List α} (always : Always step P s (a :: rest))
    (first : step s a = some t) : Always step P t rest := by
  have later := always.2
  rwa [first] at later

/-- The rule for an invariant that needs `P` on the way. -/
theorem run_invariant_always (I : σ → Prop) (keeps : ∀ s a t, P s → P t → I s → step s a = some t → I t)
    (start : I s) (always : Always step P s schedule)
    (ran : run step s schedule = some t) : I t ∧ P t := by
  induction schedule generalizing s with
  | nil => exact Option.some.inj ran ▸ ⟨start,always⟩
  | cons a rest ih =>
    cases first : step s a with
    | none => simp [run,first] at ran
    | some u =>
      have later := always.tail first
      exact ih (keeps s a u always.head later.head start first) later (by simpa [run,first] using ran)

end Runs
