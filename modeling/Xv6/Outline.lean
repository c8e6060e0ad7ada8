import Xv6.Monitor

/-! Proof outlines: what each process asserts at the places of its code, where the statements of the others do not
interfere. -/
namespace Xv6.Sched

variable {ι κ δ ε : Type} {M : Machine ι κ δ} {m : Monitor κ δ ε}

structure Outline (κ δ : Type) where
  asserts : Nat → κ → δ → Prop

namespace Outline

/-- A statement of process `p` gives its next assertion, and it keeps those of the others. -/
def Keeps (o : Outline κ δ) (m : Monitor κ δ ε) (p : Nat) (k : κ) : Instr ι κ δ → Prop
  | .acquire _ next | .release _ next | .sleep _ _ next | .wakeup _ next => ∀ d, o.asserts p k d → o.asserts p next d
  | .killed next | .kill _ next => ∀ b d, o.asserts p k d → o.asserts p (next b) d
  | .choose f => ∀ input d, o.asserts p k d → o.asserts p (f input) d
  | .update f => ∀ d, (m.inside k = true → m.holds k (m.view d)) → o.asserts p k d →
      o.asserts p (f d).2 (f d).1 ∧ ∀ q, q ≠ p → ∀ k', o.asserts q k' d → o.asserts q k' (f d).1

end Outline

/-- In `proc.c` the assertion of where the caller goes on. -/
def Pc.asserts (o : Outline κ δ) (p : Nat) (d : δ) : Pc κ → Prop
  | .code k => o.asserts p k d
  | .sleepAcquire _ _ next | .sleepRelease _ _ next | .sleepChan _ _ next | .sleepState _ _ next
  | .sleepSched _ _ next | .sleepBack _ _ next | .sleepDone _ next | .sleepReacquire _ next => o.asserts p next d
  | .wakeNext _ _ next | .wakeTest _ _ next | .wakeRelease _ _ next => o.asserts p next d
  | .killedAcquire next | .killedRead next => ∀ b, o.asserts p (next b) d
  | .killedRelease next => o.asserts p next d
  | .killNext _ _ next | .killTest _ _ next | .killRelease _ _ _ next => ∀ b, o.asserts p (next b) d

/-- The assertions of `q` are carried over from `d` to `d'`. -/
def Outline.Stable (o : Outline κ δ) (q : Nat) (d d' : δ) : Prop := ∀ k, o.asserts q k d → o.asserts q k d'

section Own

variable {o : Outline κ δ} {pr : Proc κ} {data : δ} {p q : Nat}

theorem Pc.asserts_stable {pc : Pc κ} {d d' : δ} (stable : o.Stable q d d') (holds : pc.asserts o q d) :
    pc.asserts o q d' := by
  cases pc
  case killedAcquire | killedRead | killNext | killTest | killRelease => exact fun b => stable _ (holds b)
  all_goals exact stable _ holds

theorem codeEffect_asserts (keeps : ∀ k, o.Keeps m p k (M.instr p k)) (input : ι) {k : κ}
    (view : m.inside k = true → m.holds k (m.view data)) (holds : o.asserts p k data) :
    (codeEffect M p pr data input k).self.pc.asserts o p (codeEffect M p pr data input k).data ∧
      ∀ q, q ≠ p → o.Stable q data (codeEffect M p pr data input k).data := by
  have keeps := keeps k
  unfold codeEffect
  cases instr : M.instr p k <;> rw [instr] at keeps
  case acquire | release | sleep | wakeup => exact ⟨keeps data holds,fun _ _ _ => id⟩
  case killed | kill => exact ⟨fun b => keeps b data holds,fun _ _ _ => id⟩
  case choose => exact ⟨keeps input data holds,fun _ _ _ => id⟩
  case update f => exact keeps data view holds

theorem pcEffect_asserts (keeps : ∀ k, o.Keeps m p k (M.instr p k)) (input : ι)
    (view : pr.pc.inside m = true → pr.pc.holds m (m.view data)) (holds : pr.pc.asserts o p data) :
    (pcEffect M p pr data input).self.pc.asserts o p (pcEffect M p pr data input).data ∧
      ∀ q, q ≠ p → o.Stable q data (pcEffect M p pr data input).data := by
  cases place : pr.pc <;> simp only [pcEffect,place] <;> rw [place] at holds
  case code k =>
    rw [place] at view
    exact codeEffect_asserts keeps input view holds
  case wakeNext => (repeat' split) <;> exact ⟨holds,fun _ _ _ => id⟩
  case killNext =>
    split
    · exact ⟨holds,fun _ _ _ => id⟩
    · exact ⟨holds false,fun _ _ _ => id⟩
  case killTest => split <;> exact ⟨holds,fun _ _ _ => id⟩
  case killRelease pid j found next =>
    cases found
    · exact ⟨holds,fun _ _ _ => id⟩
    · exact ⟨holds true,fun _ _ _ => id⟩
  case killedRead next => exact ⟨holds pr.killed,fun _ _ _ => id⟩
  all_goals exact ⟨holds,fun _ _ _ => id⟩

theorem procEffect_asserts (keeps : ∀ k, o.Keeps m p k (M.instr p k)) (held : List Lock) (a : Action ι)
    (view : pr.pc.inside m = true → pr.pc.holds m (m.view data)) (holds : pr.pc.asserts o p data) :
    (procEffect M p pr data held a).self.pc.asserts o p (procEffect M p pr data held a).data ∧
      ∀ q, q ≠ p → o.Stable q data (procEffect M p pr data held a).data := by
  unfold procEffect
  cases pr.yielding with
  | some stage => cases stage <;> exact ⟨holds,fun _ _ _ => id⟩
  | none =>
    dsimp only
    split
    · exact ⟨holds,fun _ _ _ => id⟩
    · exact pcEffect_asserts keeps a.input view holds

end Own

def Outlined (o : Outline κ δ) (s : State κ δ) : Prop := ∀ p, (s.proc p).pc.asserts o p s.data

namespace Outlined

variable {o : Outline κ δ} {s t : State κ δ} {a : Action ι}

theorem step (outlined : Outlined o s) (keeps : ∀ p < M.nproc, ∀ k, o.Keeps m p k (M.instr p k)) (guarded : Guarded m s)
    (inv : Inv M s) (stepped : Sched.step M s a = some t) : Outlined o t := by
  intro q
  by_cases running : ∃ p, s.cpu a.cpu = .running p
  · obtain ⟨p,here⟩ := running
    obtain ⟨u,⟨switched,_,_⟩,rfl⟩ := inv.acts here stepped
    have poked := u.write_poked p (procEffect M p (s.proc p) s.data (s.held a.cpu) a) q
    rw [switched.proc] at poked
    have view : (s.proc p).pc.inside m = true → (s.proc p).pc.holds m (m.view s.data) := fun inside => by
      obtain ⟨_,c,there,own⟩ := guarded.inside p inside
      obtain ⟨r,running,_,holds⟩ := guarded.holder c own
      obtain rfl := Cpu.running.inj (running.symm.trans there)
      exact holds
    obtain ⟨self,others⟩ := procEffect_asserts (keeps p (inv.bound _ _ here)) (s.held a.cpu) a view (outlined p)
    rw [State.write_data,poked.pc]
    split
    · rename_i same
      subst same
      exact self
    · rename_i other
      exact Pc.asserts_stable (others q other) (outlined q)
  · have idle := idle_of stepped (not_exists.mp running)
    rw [idle.pc,idle.data]
    exact outlined q

theorem run (kept : m.Kept M) (keeps : ∀ p < M.nproc, ∀ k, o.Keeps m p k (M.instr p k)) {start : Nat → κ} {data : δ}
    {acts : List (Action ι)} (outside : ∀ p, m.inside (start p) = false) (first : m.inv (m.view data))
    (asserts : ∀ p, o.asserts p (start p) data)
    (ran : Runs.run (Sched.step M) (Sched.init M start data) acts = some s) : Inv M s ∧ Guarded m s ∧ Outlined o s :=
  Runs.run_invariant (fun s => Inv M s ∧ Guarded m s ∧ Outlined o s) (fun _ _ _ ⟨inv,guarded,outlined⟩ stepped =>
      ⟨inv.step stepped,guarded.step kept inv stepped,outlined.step keeps guarded inv stepped⟩)
    ⟨.init M start data,.init outside first,asserts⟩ ran

end Outlined

end Xv6.Sched
