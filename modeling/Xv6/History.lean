import Xv6.Sched

/-! History variables: a machine that also records what the updates of its data do. -/
namespace Xv6.Sched

variable {ι κ δ η : Type}

def Instr.record (event : δ → List η) : Instr ι κ δ → Instr ι κ (δ × List η)
  | .acquire l next => .acquire l next
  | .release l next => .release l next
  | .sleep chan lk next => .sleep chan lk next
  | .wakeup chan next => .wakeup chan next
  | .killed next => .killed next
  | .kill pid next => .kill pid next
  | .update f => .update fun d => (((f d.1).1,d.2 ++ event d.1),(f d.1).2)
  | .choose f => .choose f

def Machine.record (M : Machine ι κ δ) (event : Nat → κ → δ → List η) : Machine ι κ (δ × List η) :=
  ⟨M.nproc,M.pid,fun p k => (M.instr p k).record (event p k)⟩

def State.forget (s : State κ (δ × List η)) : State κ δ := ⟨s.proc,s.cpu,s.lock,s.held,s.data.1⟩

def Effect.forget (e : Effect κ (δ × List η)) : Effect κ δ := ⟨e.op,e.self,e.poke,e.data.1⟩

theorem Effect.forget_ite {c : Prop} [Decidable c] (e e' : Effect κ (δ × List η)) :
    (if c then e else e').forget = if c then e.forget else e'.forget := by
  split <;> rfl

section Forget

variable {M : Machine ι κ δ} {event : Nat → κ → δ → List η} {p : Nat} {pr : Proc κ} {data : δ × List η}

theorem codeEffect_record (input : ι) (k : κ) :
    (codeEffect (M.record event) p pr data input k).forget = codeEffect M p pr data.1 input k := by
  unfold codeEffect
  simp only [Machine.record]
  cases M.instr p k <;> rfl

theorem pcEffect_record (input : ι) :
    (pcEffect (M.record event) p pr data input).forget = pcEffect M p pr data.1 input := by
  unfold pcEffect
  cases pr.pc
  case code k => exact codeEffect_record input k
  case wakeNext | killNext | killTest =>
    dsimp only
    repeat rw [Effect.forget_ite]
    rfl
  all_goals rfl

theorem procEffect_record (held : List Lock) (a : Action ι) :
    (procEffect (M.record event) p pr data held a).forget = procEffect M p pr data.1 held a := by
  unfold procEffect
  cases pr.yielding with
  | some stage => cases stage <;> rfl
  | none =>
    dsimp only
    split
    · rfl
    · exact pcEffect_record a.input

variable {s : State κ (δ × List η)}

theorem acquire_forget (c : Nat) (l : Lock) : (s.acquire c l).map State.forget = s.forget.acquire c l :=
  apply_ite (Option.map State.forget) ..

theorem release_forget (c : Nat) (l : Lock) : (s.release c l).map State.forget = s.forget.release c l :=
  apply_ite (Option.map State.forget) ..

theorem sched_forget (c p : Nat) : (s.sched c p).map State.forget = s.forget.sched c p :=
  apply_ite (Option.map State.forget) ..

theorem write_forget (p : Nat) (e : Effect κ (δ × List η)) : (s.write p e).forget = s.forget.write p e.forget := rfl

theorem perform_forget (c p : Nat) (e : Effect κ (δ × List η)) :
    (s.perform c p e).map State.forget = s.forget.perform c p e.forget := by
  cases op : e.op <;> simp only [State.perform,op,Effect.forget]
  case none => rfl
  case acquire l => simp only [← acquire_forget,Option.map_map]; rfl
  case release l => simp only [← release_forget,Option.map_map]; rfl
  case sched => simp only [← sched_forget,Option.map_map]; rfl

theorem step_record (a : Action ι) : (step (M.record event) s a).map State.forget = step M s.forget a := by
  simp only [step,show s.forget.cpu = s.cpu from rfl]
  cases s.cpu a.cpu with
  | scan j => simp only [← acquire_forget,Option.map_map]; rfl
  | test j =>
    dsimp only
    by_cases ready : (s.proc j).state = .runnable
    · rw [if_pos ready,if_pos (by exact ready)]
      rfl
    · rw [if_neg ready,if_neg (by exact ready)]
      rfl
  | back j => simp only [← release_forget,Option.map_map]; rfl
  | running p =>
    dsimp only
    rw [perform_forget,procEffect_record]
    rfl

/-- Recording changes no run. -/
theorem run_record (acts : List (Action ι)) :
    (Runs.run (step (M.record event)) s acts).map State.forget = Runs.run (step M) s.forget acts := by
  induction acts generalizing s with
  | nil => rfl
  | cons a rest ih =>
    simp only [Runs.run]
    rw [← @step_record ι κ δ η M event]
    cases step (M.record event) s a with
    | none => rfl
    | some t => exact ih

end Forget

end Xv6.Sched
