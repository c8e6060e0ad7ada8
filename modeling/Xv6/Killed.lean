import Xv6.Loops
import Xv6.Monitor

/-! Kills and sleep: a loop that tests `killed` and then sleeps. -/
namespace Xv6.Sched

variable {ι κ δ : Type} {M : Machine ι κ δ} {late : κ → Bool}

/-- A statement of code whose sleeps are all reached through a `killed` that returned 0. The places
on the way from there are `late`. -/
def Heeds (late : κ → Bool) (k : κ) : Instr ι κ δ → Prop
  | .acquire _ next | .release _ next | .wakeup _ next => late next = true → late k = true
  | .sleep _ _ next => late k = true ∧ late next = false
  | .killed next => late (next true) = false
  | .kill _ next => ∀ b, late (next b) = true → late k = true
  | .update f => ∀ data, late (f data).2 = true → late k = true
  | .choose f => ∀ input, late (f input) = true → late k = true

namespace Pc

def committed (late : κ → Bool) : Pc κ → Bool
  | .code k => late k
  | .sleepAcquire .. | .sleepRelease .. | .sleepChan .. | .sleepState .. | .sleepSched .. => true
  | .sleepBack .. | .sleepDone .. | .sleepReacquire .. => false
  | .wakeNext _ _ next | .wakeTest _ _ next | .wakeRelease _ _ next => late next
  | .killedAcquire _ | .killedRead _ => false
  | .killedRelease next => late next
  | .killNext _ _ next | .killTest _ _ next | .killRelease _ _ _ next => late (next true) || late (next false)

/-- Where a call goes on. -/
def Resumes (late : κ → Bool) : Pc κ → Prop
  | .sleepAcquire _ _ next | .sleepRelease _ _ next | .sleepChan _ _ next | .sleepState _ _ next
  | .sleepSched _ _ next | .sleepBack _ _ next | .sleepDone _ next | .sleepReacquire _ next => late next = false
  | .killedAcquire next | .killedRead next => late (next true) = false
  | _ => True

/-- About to test the pid of a process in `kill`: the pid and that process. -/
def kills : Pc κ → Option (Nat × Nat)
  | .killTest pid j _ => some (pid,j)
  | _ => none

end Pc

/-- No `kill` comes to a process between the answer of its `killed` and the `acquire` of `sleep`. -/
def Timely (M : Machine ι κ δ) (late : κ → Bool) (s : State κ δ) : Prop :=
  ∀ r < M.nproc, ∀ x ∈ (s.proc r).pc.kills, M.pid x.2 = x.1 → (s.proc x.2).pc.committed late = false

instance (M : Machine ι κ δ) (late : κ → Bool) : DecidablePred (Timely M late) := fun s =>
  inferInstanceAs (Decidable (∀ r < M.nproc, ∀ x ∈ (s.proc r).pc.kills, M.pid x.2 = x.1 →
    (s.proc x.2).pc.committed late = false))

/-- A process that is killed is not asleep and will not be. -/
structure Proc.Heeding (late : κ → Bool) (pr : Proc κ) : Prop where
  resumes : pr.pc.Resumes late
  early : pr.killed = true → pr.pc.committed late = false ∧ pr.state ≠ .sleeping

section Own

variable {pr : Proc κ} {data : δ} {p : Nat}

section

variable (heeds : ∀ p k, Heeds late k (M.instr p k)) (heeding : pr.Heeding late)
include heeds heeding

theorem codeEffect_heeding {k : κ} (place : pr.pc = .code k) (input : ι) :
    (codeEffect M p pr data input k).self.Heeding late := by
  have code := heeds p k
  have early (killed : pr.killed = true) : late k = false ∧ pr.state ≠ .sleeping := by
    simpa [place,Pc.committed] using heeding.early killed
  have next {k' : κ} (stays : late k' = true → late k = true) (killed : pr.killed = true) : late k' = false := by
    by_contra turns
    have := stays (by simpa using turns)
    simp [(early killed).1] at this
  unfold codeEffect
  cases instr : M.instr p k with
  | acquire l k' | release l k' | wakeup chan k' =>
    rw [instr] at code
    exact ⟨trivial,fun killed => ⟨next code killed,(early killed).2⟩⟩
  | sleep chan lk k' =>
    rw [instr] at code
    refine ⟨code.2,fun killed => ?_⟩
    have := (early killed).1
    rw [code.1] at this
    exact absurd this (by simp)
  | killed k' =>
    rw [instr] at code
    exact ⟨code,fun killed => ⟨rfl,(early killed).2⟩⟩
  | kill pid k' =>
    rw [instr] at code
    refine ⟨trivial,fun killed => ⟨?_,(early killed).2⟩⟩
    simp only [Pc.committed,Bool.or_eq_false_iff]
    exact ⟨next (code true) killed,next (code false) killed⟩
  | update f =>
    rw [instr] at code
    exact ⟨trivial,fun killed => ⟨next (code data) killed,(early killed).2⟩⟩
  | choose f =>
    rw [instr] at code
    exact ⟨trivial,fun killed => ⟨next (code input) killed,(early killed).2⟩⟩

theorem pcEffect_heeding (input : ι) : (pcEffect M p pr data input).self.Heeding late := by
  have resumes := heeding.resumes
  have early := heeding.early
  cases place : pr.pc
  case code k =>
    simp only [pcEffect,place]
    exact codeEffect_heeding heeds heeding place input
  case killedRead next =>
    rw [place] at resumes early
    simp only [pcEffect,place]
    refine ⟨trivial,fun killed => ⟨?_,(early killed).2⟩⟩
    have killed : pr.killed = true := killed
    rw [killed]
    exact resumes
  case sleepState chan lk next =>
    rw [place] at resumes early
    simp only [pcEffect,place]
    exact ⟨resumes,fun killed => absurd (early killed).1 (by simp [Pc.committed])⟩
  all_goals
    rw [place] at resumes early
    simp only [pcEffect,place]
    (repeat' split) <;> refine ⟨by first | exact resumes | trivial,fun killed => ⟨?_,(early killed).2⟩⟩
  all_goals
    have := (early killed).1
    simp_all [Pc.committed,Pc.Resumes]

theorem procEffect_heeding {held : List Lock} (a : Action ι) : (procEffect M p pr data held a).self.Heeding late := by
  unfold procEffect
  cases yielding : pr.yielding with
  | some stage =>
    cases stage
    case state => exact ⟨heeding.resumes,fun killed => ⟨(heeding.early killed).1,by simp [yieldEffect]⟩⟩
    all_goals exact ⟨heeding.resumes,heeding.early⟩
  | none =>
    dsimp only
    split
    · exact ⟨heeding.resumes,heeding.early⟩
    · exact pcEffect_heeding heeds heeding a.input

end

theorem procEffect_kill (late : κ → Bool) {held : List Lock} {a : Action ι} {j : Nat}
    (poke : (procEffect M p pr data held a).poke = some (j,.kill)) :
    (∃ pid, pr.pc.kills = some (pid,j) ∧ M.pid j = pid) ∧
      (procEffect M p pr data held a).self.pc.committed late = pr.pc.committed late := by
  unfold procEffect at poke
  cases yielding : pr.yielding with
  | some stage =>
    rw [yielding] at poke
    cases stage <;> cases poke
  | none =>
    rw [yielding] at poke
    dsimp only at poke
    split at poke
    · cases poke
    · rename_i quiet
      cases place : pr.pc
      case code k =>
        simp only [pcEffect,place,codeEffect] at poke
        cases instr : M.instr p k <;> rw [instr] at poke <;> cases poke
      case killTest pid i next =>
        simp only [pcEffect,place] at poke
        split at poke
        · rename_i found
          simp only [Option.some.injEq,Prod.mk.injEq,and_true] at poke
          refine ⟨⟨pid,by rw [← poke]; rfl,by rw [← poke,found]⟩,?_⟩
          simp [procEffect,yielding,quiet,pcEffect,place,found,Pc.committed]
        · cases poke
      all_goals
        simp only [pcEffect,place] at poke
        (repeat' split at poke) <;> simp at poke

end Own

variable {s t : State κ δ} {a : Action ι}

theorem heeding_step (heeds : ∀ p k, Heeds late k (M.instr p k)) (inv : Inv M s) (timely : Timely M late s)
    (heeding : ∀ p, (s.proc p).Heeding late) (stepped : step M s a = some t) : ∀ p, (t.proc p).Heeding late := by
  intro q
  by_cases running : ∃ r, s.cpu a.cpu = .running r
  · obtain ⟨r,here⟩ := running
    obtain ⟨u,⟨switched,_,_⟩,rfl⟩ := inv.acts here stepped
    have own : (procEffect M r (s.proc r) s.data (s.held a.cpu) a).self.Heeding late :=
      procEffect_heeding heeds (heeding r) a
    simp only [State.write,switched.proc]
    have plain : (Function.update s.proc r (procEffect M r (s.proc r) s.data (s.held a.cpu) a).self q).Heeding late := by
      obtain rfl | self := eq_or_ne q r
      · simpa using own
      · simpa [self] using heeding q
    cases poke : (procEffect M r (s.proc r) s.data (s.held a.cpu) a).poke with
    | none => exact plain
    | some x =>
      obtain ⟨j,poke'⟩ := x
      obtain rfl | target := eq_or_ne q j
      · simp only [Function.update_self]
        cases poke' with
        | wakeup chan =>
          simp only [Poke.apply]
          split
          · exact ⟨plain.resumes,fun killed => ⟨(plain.early killed).1,by simp⟩⟩
          · exact plain
        | kill =>
          obtain ⟨⟨pid,kills,found⟩,same⟩ := procEffect_kill late poke
          have early := timely r (inv.bound _ _ here) (pid,q) (by simpa using kills) found
          refine ⟨plain.resumes,fun _ => ⟨?_,?_⟩⟩
          · obtain rfl | self := eq_or_ne q r
            · simpa [Poke.apply] using same.trans early
            · simpa [Poke.apply,self] using early
          · simp only [Poke.apply]
            split <;> simp_all
      · simpa [target] using plain
  · have away := not_exists.mp running
    have idle := idle_of stepped away
    cases inv.changes stepped q with
    | own here _ => exact absurd here (away q)
    | switch ready same =>
      rw [same]
      exact ⟨(heeding q).resumes,fun killed => ⟨((heeding q).early killed).1,by simp⟩⟩
    | other _ poked =>
      refine ⟨by rw [idle.pc]; exact (heeding q).resumes,fun killed => ?_⟩
      rw [idle.killed] at killed
      refine ⟨by rw [idle.pc]; exact ((heeding q).early killed).1,fun asleep => ?_⟩
      rcases poked.state with state | ⟨_,woken⟩
      · exact ((heeding q).early killed).2 (state ▸ asleep)
      · rw [woken] at asleep
        exact absurd asleep (by decide)

end Xv6.Sched

namespace Xv6.Loops

open Sched

/-- Between the answer of `killed` and the call of `sleep`. -/
@[simp] def Code.late : Code → Bool
  | .write _ .full | .write _ .wakeFull | .write _ .sleepFull => true
  | .read _ .sleepEmpty | .console _ .sleepEmpty | .sleep _ _ .sleepTicks | .wait .sleepChild => true
  | _ => false

theorem instr_heeds (p : Nat) (k : Code) : Heeds Code.late k (instr p k) := by
  cases k with
  | user =>
    intro input
    cases input <;> simp [call]
  | write f place =>
    cases place <;> simp only [instr,pipewrite,Heeds]
    case loop =>
      intro d
      (repeat' split) <;> simp
    case copyin =>
      intro d
      cases f.src f.i <;> simp
    all_goals simp
  | read f place =>
    cases place <;> simp only [instr,piperead,Heeds]
    case loop | copy | take =>
      intro d
      split <;> simp
    all_goals simp
  | close writable place => cases place <;> simp [instr,pipeclose,Heeds]
  | kill pid | killReturn found => simp [instr,Heeds]
  | console f place =>
    cases place <;> simp only [instr,consoleread,Heeds]
    case outer | inner =>
      intro d
      split <;> simp
    case take =>
      intro d
      simp only [readChar]
      (repeat' split) <;> simp
    all_goals simp
  | consoleintr c place => cases place <;> simp [instr,consoleintr,Heeds]
  | sleep n ticks0 place =>
    cases place <;> simp only [instr,sysSleep,Heeds]
    case loop =>
      intro d
      split <;> simp
    all_goals simp
  | clock place => cases place <;> simp [instr,clockintr,Heeds]
  | wait place =>
    cases place <;> simp only [instr,wait,Heeds]
    case scan =>
      intro input
      cases input with
      | kids found => cases found <;> simp
      | _ => simp
    all_goals simp

/-- In every run in which no `kill` comes to a process between the answer of its `killed` and its
`acquire` of `p->lock` in `sleep`, no process that is killed is asleep. -/
theorem killed_awake {nproc : Nat} {pid : Nat → Nat} {page : Fin pipesize → UInt8} {cons : Cons} {ticks : BitVec 32}
    {acts : List (Action Input)} {s : State Code Shared}
    (timely : Runs.Always (step (machine nproc pid)) (Timely (machine nproc pid) Code.late)
      (boot nproc pid page cons ticks) acts)
    (ran : Runs.run (step (machine nproc pid)) (boot nproc pid page cons ticks) acts = some s) {p : Nat}
    (killed : (s.proc p).killed = true) : (s.proc p).state ≠ .sleeping := by
  obtain ⟨⟨_,heeding⟩,_⟩ := Runs.run_invariant_always
    (fun s => Inv (machine nproc pid) s ∧ ∀ p, (s.proc p).Heeding Code.late)
    (fun s a t timely _ ⟨inv,heeding⟩ stepped =>
      ⟨inv.step stepped,heeding_step (fun p k => instr_heeds p k) inv timely heeding stepped⟩)
    ⟨.init _ _ _,fun p => ⟨trivial,nofun⟩⟩ timely ran
  exact ((heeding p).early killed).2

def sleeperKilled : List (Action Input) := turns 0 17 (.piperead (fun _ => true) 1) ++ turns 1 11 (.kill 1)

theorem sleeperKilled_awake : ∃ s, three sleeperKilled = some s ∧ (s.proc 0).killed = true ∧
    (s.proc 0).state ≠ .sleeping := by
  exact Runs.reaches (fun s => (s.proc 0).killed = true) (by decide +kernel) fun s ran killed =>
    ⟨killed,killed_awake (by decide +kernel) ran killed⟩

def killReturned : Pc Code → Option Bool
  | .code (.killReturn found) => some found
  | _ => none

/-- The `kill` comes after the test in `piperead`, before its `sleep`. -/
def killBetween : List (Action Input) :=
  turns 0 10 (.piperead (fun _ => true) 1) ++ turns 1 11 (.kill 1) ++ turns 0 7 (.kids .none)

theorem kill_lost : ∃ s, three killBetween = some s ∧ killReturned (s.proc 1).pc = some true ∧
    (s.proc 0).killed = true ∧ (s.proc 0).state = .sleeping ∧ (s.proc 0).chan = some nreadChan ∧
    Runs.Always (step (machine 3 (· + 1))) (fun s => (s.proc 0).killed = true → (s.proc 0).state ≠ .runnable)
      (boot 3 (· + 1) (fun _ => 0) ⟨fun _ => 0,0,0,0⟩ 0) killBetween :=
  Runs.ends (by decide +kernel)

end Xv6.Loops
