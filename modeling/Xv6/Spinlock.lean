import Xv6.Runs
import Mathlib.Logic.Function.Basic

/-! `kernel/spinlock.c` and the switches of `sched`: interrupts are off while a lock is held, and a kernel thread that has
undone its own `push_off` has them as before, on whichever CPU it then is. -/
namespace Xv6.Spinlock

open Function

inductive Panic
  | interruptible
  | popOff

/-- `struct cpu` and the interrupt bit of the machine. -/
structure Cpu where
  intr : Bool
  noff : Nat
  intena : Bool
  proc : Option Nat

namespace Cpu

variable (k : Cpu)

def pushOff : Cpu :=
  { k with intr := false, intena := if k.noff = 0 then k.intr else k.intena, noff := k.noff + 1 }

def popOff : Except Panic Cpu :=
  if k.intr then .error .interruptible
  else if k.noff < 1 then .error .popOff
  else .ok { k with noff := k.noff - 1, intr := decide (k.noff - 1 = 0) && k.intena }

end Cpu

inductive Thread
  | scheduler (c : Nat)
  | proc (p : Nat)
  deriving DecidableEq

/-- History of a thread: the calls of `push_off` it has not undone and, if the first was its own, the interrupts then. -/
structure Nest where
  depth : Nat
  before : Option Bool

structure State where
  cpu : Nat → Cpu
  nest : Thread → Nest
  /-- `intena` in the frame of `sched`, if the thread has called it. -/
  saved : Nat → Option Bool
  /-- The CPU that a process is on. -/
  place : Nat → Option Nat
  /-- The CPU that has a lock; lock `p` is `p->lock`. -/
  lock : Nat → Option Nat

namespace State

variable (s : State) (c : Nat)

def thread : Thread :=
  match (s.cpu c).proc with
  | none => .scheduler c
  | some p => .proc p

def put (k : Cpu) (n : Nest) : State :=
  { s with cpu := update s.cpu c k, nest := update s.nest (s.thread c) n }

def pushOff : State :=
  let n := s.nest (s.thread c)
  s.put c (s.cpu c).pushOff ⟨n.depth + 1,if n.depth = 0 then some (s.cpu c).intr else n.before⟩

/-- Only if there is something to undo. -/
def popOff : Option State :=
  let n := s.nest (s.thread c)
  if n.depth = 0 then none else (s.cpu c).popOff.toOption.map fun k => s.put c k ⟨n.depth - 1,n.before⟩

/-- The loop waits for the lock. -/
def acquire (l : Nat) : Option State :=
  if s.lock l = none then some { s.pushOff c with lock := update s.lock l (some c) } else none

def release (l : Nat) : Option State :=
  if s.lock l = some c then State.popOff { s with lock := update s.lock l none } c else none

def sched (p : Nat) : Option State :=
  if (s.cpu c).proc = some p ∧ s.lock p = some c ∧ (s.cpu c).noff = 1 ∧ (s.cpu c).intr = false then
    some { s with
      cpu := update s.cpu c { s.cpu c with proc := none }
      saved := update s.saved p (some (s.cpu c).intena)
      place := update s.place p none }
  else none

/-- The scheduler's `swtch` to a process, which goes on behind its own in `sched`, or starts in `forkret`. -/
def swtch (p : Nat) : Option State :=
  if (s.cpu c).proc = none ∧ s.lock p = some c ∧ s.place p = none ∧ (s.nest (.scheduler c)).depth = 1 then
    some { s with
      cpu := update s.cpu c { s.cpu c with proc := some p, intena := (s.saved p).getD (s.cpu c).intena }
      nest := update s.nest (.scheduler c) ⟨1,none⟩
      place := update s.place p (some c) }
  else none

/-- `intr_on`, `intr_off` and traps, which the kernel has outside of all locks. -/
def setIntr (b : Bool) : Option State :=
  if (s.cpu c).noff = 0 then some (s.put c { s.cpu c with intr := b } (s.nest (s.thread c))) else none

end State

inductive Action
  | pushOff
  | popOff
  | acquire (l : Nat)
  | release (l : Nat)
  | sched (p : Nat)
  | swtch (p : Nat)
  | intr (b : Bool)

/-- An action on a CPU. -/
def step (s : State) : Nat × Action → Option State
  | (c,.pushOff) => some (s.pushOff c)
  | (c,.popOff) => s.popOff c
  | (c,.acquire l) => s.acquire c l
  | (c,.release l) => s.release c l
  | (c,.sched p) => s.sched c p
  | (c,.swtch p) => s.swtch c p
  | (c,.intr b) => s.setIntr c b

/-- No process has run; each will find its lock held by the scheduler. -/
def boot (intr : Nat → Bool) : State :=
  ⟨fun c => ⟨intr c,0,false,none⟩,fun x => match x with | .scheduler _ => ⟨0,none⟩ | .proc _ => ⟨1,none⟩,
    fun _ => none,fun _ => none,fun _ => none⟩

structure Fits (k : Cpu) (n : Nest) : Prop where
  count : k.noff = n.depth
  off : 0 < k.noff → k.intr = false
  kept : 0 < n.depth → ∀ b, n.before = some b → k.intena = b

structure Inv (s : State) : Prop where
  cpus : ∀ c, Fits (s.cpu c) (s.nest (s.thread c))
  waits : ∀ c, (s.cpu c).proc ≠ none → s.nest (.scheduler c) = ⟨1,none⟩
  parked : ∀ p, s.place p = none →
    (s.nest (.proc p)).depth = 1 ∧ ∀ b, (s.nest (.proc p)).before = some b → s.saved p = some b
  placed : ∀ c p, (s.cpu c).proc = some p → s.place p = some c

section Fits

variable {k k' : Cpu} {n : Nest}

theorem Fits.pushOff (fits : Fits k n) :
    Fits k.pushOff ⟨n.depth + 1,if n.depth = 0 then some k.intr else n.before⟩ := by
  refine ⟨congrArg (· + 1) fits.count,fun _ => rfl,fun _ b first => ?_⟩
  rw [Cpu.pushOff,fits.count]
  dsimp only at first ⊢
  split at first
  case isTrue none => simpa [none] using first
  case isFalse some =>
    rw [if_neg some]
    exact fits.kept (Nat.pos_of_ne_zero some) b first

theorem Fits.popOff (fits : Fits k n) (some : n.depth ≠ 0) : ∃ k', k.popOff = .ok k' ∧
    Fits k' ⟨n.depth - 1,n.before⟩ ∧ k'.proc = k.proc ∧ (n.depth = 1 → k'.intr = k.intena) := by
  have count := fits.count
  have off := fits.off (by omega)
  refine ⟨{ k with noff := k.noff - 1, intr := decide (k.noff - 1 = 0) && k.intena },?_,
    ⟨congrArg (· - 1) count,fun more => ?_,fun _ => fits.kept (Nat.pos_of_ne_zero some)⟩,rfl,fun last => ?_⟩
  · rw [Cpu.popOff,off,if_neg (by decide),if_neg (by omega)]
  · simp [Nat.ne_of_gt more]
  · simp [count,last]

end Fits

section Inv

variable {s t : State} {c : Nat}

namespace Inv

theorem put (inv : Inv s) {k : Cpu} {n : Nest} (fits : Fits k n) (proc : k.proc = (s.cpu c).proc) :
    Inv (s.put c k n) := by
  have procs (d : Nat) : ((s.put c k n).cpu d).proc = (s.cpu d).proc := by
    by_cases here : d = c <;> simp [State.put,here,proc]
  have threads (d : Nat) : (s.put c k n).thread d = s.thread d := by simp only [State.thread,procs]
  have here := inv.placed c
  refine ⟨fun d => ?_,fun d busy => ?_,fun p off => ?_,fun d p => ?_⟩
  · rw [threads]
    by_cases same : d = c
    · simpa [State.put,same] using fits
    · have there := inv.placed d
      have apart : s.thread d ≠ s.thread c := by grind [State.thread]
      simpa [State.put,same,apart] using inv.cpus d
  · rw [procs] at busy
    have apart : .scheduler d ≠ s.thread c := by grind [State.thread]
    simpa [State.put,apart] using inv.waits d busy
  · have apart : .proc p ≠ s.thread c := by grind [State.thread,State.put]
    simpa [State.put,apart] using inv.parked p off
  · rw [procs]
    exact inv.placed d p

theorem lock (inv : Inv s) (lock : Nat → Option Nat) : Inv { s with lock } := ⟨inv.cpus,inv.waits,inv.parked,inv.placed⟩

theorem pushOff (inv : Inv s) : Inv (s.pushOff c) := inv.put (inv.cpus c).pushOff rfl

theorem popOff (inv : Inv s) (done : s.popOff c = some t) : Inv t := by
  rw [State.popOff] at done
  split at done
  · cases done
  case isFalse some =>
    obtain ⟨k,out,fits,proc,-⟩ := (inv.cpus c).popOff some
    rw [out] at done
    cases done
    exact inv.put fits proc

theorem sched (inv : Inv s) {p : Nat} (done : s.sched c p = some t) : Inv t := by
  obtain ⟨⟨proc,-,one,off⟩,rfl⟩ := Runs.enabled done
  obtain ⟨cpus,waits,parked,placed⟩ := inv
  have fits := cpus c
  have after := waits c (by simp [proc])
  refine ⟨fun d => ?_,?_,?_,?_⟩
  · obtain rfl | same := eq_or_ne d c
    · simpa [State.thread,after] using ⟨one,fun _ => off,nofun⟩
    · simpa [State.thread,same] using cpus d
  all_goals grind [State.thread,update_apply,Fits.count,Fits.kept]

theorem swtch (inv : Inv s) {p : Nat} (done : s.swtch c p = some t) : Inv t := by
  obtain ⟨⟨idle,-,parked,one⟩,rfl⟩ := Runs.enabled done
  obtain ⟨cpus,waits,ready,placed⟩ := inv
  obtain ⟨depth,before⟩ := ready p parked
  have fits := cpus c
  rw [State.thread,idle] at fits
  refine ⟨fun d => ?_,?_,?_,?_⟩
  · obtain rfl | same := eq_or_ne d c
    · simpa [State.thread] using ⟨fits.count.trans (one.trans depth.symm),fits.off,fun _ b own => by simp [before b own]⟩
    · have there := cpus d
      simp only [State.thread,update_of_ne same] at there ⊢
      cases h : (s.cpu d).proc <;> simpa [h,same] using there
  all_goals grind [update_apply]

theorem step (inv : Inv s) {a : Nat × Action} (done : step s a = some t) : Inv t := by
  obtain ⟨c,a⟩ := a
  cases a with
  | pushOff => exact Option.some.inj done ▸ inv.pushOff
  | popOff => exact inv.popOff done
  | acquire l =>
    obtain ⟨-,rfl⟩ := Runs.enabled done
    exact inv.pushOff.lock _
  | release l =>
    rw [Spinlock.step,State.release] at done
    split at done
    · exact (inv.lock _).popOff done
    · cases done
  | sched p => exact inv.sched done
  | swtch p => exact inv.swtch done
  | intr b =>
    obtain ⟨none,rfl⟩ := Runs.enabled done
    have fits := inv.cpus c
    exact inv.put ⟨fits.count,fun some => absurd none (Nat.ne_of_gt some),fits.kept⟩ rfl

end Inv

end Inv

theorem interrupts_nested (intr : Nat → Bool) (schedule : List (Nat × Action)) (t : State)
    (ran : Runs.run step (boot intr) schedule = some t) (c : Nat) :
    (0 < (t.cpu c).noff → (t.cpu c).intr = false) ∧ (t.cpu c).noff = (t.nest (t.thread c)).depth ∧
    ((t.nest (t.thread c)).depth ≠ 0 → ∃ k, (t.cpu c).popOff = .ok k ∧
      ∀ b, t.nest (t.thread c) = ⟨1,some b⟩ → k.intr = b) := by
  have start : Inv (boot intr) :=
    ⟨fun _ => ⟨rfl,nofun,nofun⟩,fun _ busy => absurd rfl busy,fun _ _ => ⟨rfl,nofun⟩,nofun⟩
  have fits := (Runs.run_invariant Inv (fun s a t inv => inv.step) start ran).cpus c
  refine ⟨fits.off,fits.count,fun some => ?_⟩
  obtain ⟨k,out,-,-,last⟩ := fits.popOff some
  refine ⟨k,out,fun b own => ?_⟩
  rw [own] at last fits
  exact (last rfl).trans (fits.kept Nat.one_pos b rfl)

/-- A process that had interrupts on is resumed on a CPU that had them off. -/
def migrating : List (Nat × Action) := [(0,.acquire 5),(0,.swtch 5),(0,.release 5),(0,.intr true),(0,.acquire 5),
  (0,.sched 5),(0,.release 5),(1,.acquire 5),(1,.swtch 5)]

theorem migrating_restores : ∃ t k, Runs.run step (boot fun _ => false) migrating = some t ∧
    (t.cpu 1).popOff = .ok k ∧ k.intr = true := by
  obtain ⟨t,ran,own⟩ := Option.map_eq_some_iff.mp (show (Runs.run step (boot fun _ => false) migrating).map
    (fun t => t.nest (t.thread 1)) = some ⟨1,some true⟩ from rfl)
  obtain ⟨k,out,last⟩ := (interrupts_nested _ _ t ran 1).2.2 (by simp [own])
  exact ⟨t,k,ran,out,last true own⟩

end Xv6.Spinlock
