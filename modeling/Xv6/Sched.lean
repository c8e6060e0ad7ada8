import Xv6.Runs
import Mathlib.Logic.Function.Basic

/-! Processes, CPUs and spin locks: `sleep`, `wakeup`, `kill`, `killed` and `yield` of `proc.c`
with the scheduler, one access to a lock or a field at a time. The code that calls them is a
parameter. -/
namespace Xv6.Sched

open Function

/-- The states of `enum procstate` that scheduling goes through. -/
inductive PState
  | unused | sleeping | runnable | running
  deriving DecidableEq

/-- `p->lock` of a process, and the other spin locks by number. -/
inductive Lock
  | proc (p : Nat)
  | spin (l : Nat)
  deriving DecidableEq

/-- What the caller's code does next. `κ` are the places in that code, `δ` is the data it
shares and `ι` the choices that are left open. -/
inductive Instr (ι κ δ : Type)
  | acquire (l : Nat) (next : κ)
  | release (l : Nat) (next : κ)
  | sleep (chan lk : Nat) (next : κ)
  | wakeup (chan : Nat) (next : κ)
  | killed (next : Bool → κ)
  | kill (pid : Nat) (next : Bool → κ)
  | update (f : δ → δ × κ)
  | choose (f : ι → κ)

/-- Where a process is: in the caller's code or before a statement of `proc.c`. -/
inductive Pc (κ : Type)
  | code (k : κ)
  -- sleep: acquire(&p->lock); release(lk); p->chan = chan; p->state = SLEEPING; sched();
  | sleepAcquire (chan lk : Nat) (next : κ)
  | sleepRelease (chan lk : Nat) (next : κ)
  | sleepChan (chan lk : Nat) (next : κ)
  | sleepState (chan lk : Nat) (next : κ)
  | sleepSched (chan lk : Nat) (next : κ)
  -- p->chan = 0; release(&p->lock); acquire(lk);
  | sleepBack (chan lk : Nat) (next : κ)
  | sleepDone (lk : Nat) (next : κ)
  | sleepReacquire (lk : Nat) (next : κ)
  -- wakeup: acquire(&p->lock); the test; release(&p->lock), for each p
  | wakeNext (chan j : Nat) (next : κ)
  | wakeTest (chan j : Nat) (next : κ)
  | wakeRelease (chan j : Nat) (next : κ)
  -- killed: acquire(&p->lock); k = p->killed; release(&p->lock);
  | killedAcquire (next : Bool → κ)
  | killedRead (next : Bool → κ)
  | killedRelease (next : κ)
  -- kill: acquire(&p->lock); the test; release(&p->lock), for each p
  | killNext (pid j : Nat) (next : Bool → κ)
  | killTest (pid j : Nat) (next : Bool → κ)
  | killRelease (pid j : Nat) (found : Bool) (next : Bool → κ)

/-- A process that an interrupt has made call `yield`: acquire(&p->lock);
p->state = RUNNABLE; sched(); release(&p->lock). -/
inductive Yield
  | acquire | state | sched | back
  deriving DecidableEq

/-- `struct proc`, as far as it matters here, with the place in the code and the number of
calls of `sleep` so far. -/
structure Proc (κ : Type) where
  state : PState
  chan : Option Nat
  killed : Bool
  pc : Pc κ
  yielding : Option Yield
  calls : Nat

/-- The scheduler of a CPU before `acquire(&p->lock)`, before the test of `p->state` and before
`release(&p->lock)`, or the process that it has switched to. -/
inductive Cpu
  | scan (j : Nat)
  | test (j : Nat)
  | running (p : Nat)
  | back (j : Nat)
  deriving DecidableEq

/-- A lock has the CPU that holds it; `held` has the locks of a CPU, as many as its `noff`. -/
structure State (κ δ : Type) where
  proc : Nat → Proc κ
  cpu : Nat → Cpu
  lock : Lock → Option Nat
  held : Nat → List Lock
  data : δ

/-- The number of processes, their ids and the code that each runs. -/
structure Machine (ι κ δ : Type) where
  nproc : Nat
  pid : Nat → Nat
  instr : Nat → κ → Instr ι κ δ

/-- A step of a CPU. It takes an interrupt if it can and `interrupt` says so. -/
structure Action (ι : Type) where
  cpu : Nat
  interrupt : Bool
  input : ι

inductive Poke
  | wakeup (chan : Nat)
  | kill
  deriving DecidableEq

def Poke.apply {κ : Type} (pr : Proc κ) : Poke → Proc κ
  | .wakeup chan => if pr.state = .sleeping ∧ pr.chan = some chan then { pr with state := .runnable } else pr
  | .kill => { pr with killed := true, state := if pr.state = .sleeping then .runnable else pr.state }

/-- The operation on a lock, or the switch to the scheduler, that a statement makes. -/
inductive Op
  | none
  | acquire (l : Lock)
  | release (l : Lock)
  | sched

/-- What a process changes in one step. -/
structure Effect (κ δ : Type) where
  op : Op
  self : Proc κ
  poke : Option (Nat × Poke)
  data : δ

section Step

variable {ι κ δ : Type} (M : Machine ι κ δ)

def codeEffect (p : Nat) (pr : Proc κ) (data : δ) (input : ι) (k : κ) : Effect κ δ :=
  match M.instr p k with
  | .acquire l next => ⟨.acquire (.spin l),{ pr with pc := .code next },none,data⟩
  | .release l next => ⟨.release (.spin l),{ pr with pc := .code next },none,data⟩
  | .sleep chan lk next => ⟨.none,{ pr with pc := .sleepAcquire chan lk next, calls := pr.calls + 1 },none,data⟩
  | .wakeup chan next => ⟨.none,{ pr with pc := .wakeNext chan 0 next },none,data⟩
  | .killed next => ⟨.none,{ pr with pc := .killedAcquire next },none,data⟩
  | .kill pid next => ⟨.none,{ pr with pc := .killNext pid 0 next },none,data⟩
  | .update f => ⟨.none,{ pr with pc := .code (f data).2 },none,(f data).1⟩
  | .choose f => ⟨.none,{ pr with pc := .code (f input) },none,data⟩

def pcEffect (p : Nat) (pr : Proc κ) (data : δ) (input : ι) : Effect κ δ :=
  match pr.pc with
  | .code k => codeEffect M p pr data input k
  | .sleepAcquire chan lk next => ⟨.acquire (.proc p),{ pr with pc := .sleepRelease chan lk next },none,data⟩
  | .sleepRelease chan lk next => ⟨.release (.spin lk),{ pr with pc := .sleepChan chan lk next },none,data⟩
  | .sleepChan chan lk next => ⟨.none,{ pr with pc := .sleepState chan lk next, chan := some chan },none,data⟩
  | .sleepState chan lk next => ⟨.none,{ pr with pc := .sleepSched chan lk next, state := .sleeping },none,data⟩
  | .sleepSched chan lk next => ⟨.sched,{ pr with pc := .sleepBack chan lk next },none,data⟩
  | .sleepBack _ lk next => ⟨.none,{ pr with pc := .sleepDone lk next, chan := none },none,data⟩
  | .sleepDone lk next => ⟨.release (.proc p),{ pr with pc := .sleepReacquire lk next },none,data⟩
  | .sleepReacquire lk next => ⟨.acquire (.spin lk),{ pr with pc := .code next },none,data⟩
  | .wakeNext chan j next =>
    if j < M.nproc then
      if j = p then ⟨.none,{ pr with pc := .wakeNext chan (j + 1) next },none,data⟩
      else ⟨.acquire (.proc j),{ pr with pc := .wakeTest chan j next },none,data⟩
    else ⟨.none,{ pr with pc := .code next },none,data⟩
  | .wakeTest chan j next => ⟨.none,{ pr with pc := .wakeRelease chan j next },some (j,.wakeup chan),data⟩
  | .wakeRelease chan j next => ⟨.release (.proc j),{ pr with pc := .wakeNext chan (j + 1) next },none,data⟩
  | .killedAcquire next => ⟨.acquire (.proc p),{ pr with pc := .killedRead next },none,data⟩
  | .killedRead next => ⟨.none,{ pr with pc := .killedRelease (next pr.killed) },none,data⟩
  | .killedRelease next => ⟨.release (.proc p),{ pr with pc := .code next },none,data⟩
  | .killNext pid j next =>
    if j < M.nproc then ⟨.acquire (.proc j),{ pr with pc := .killTest pid j next },none,data⟩
    else ⟨.none,{ pr with pc := .code (next false) },none,data⟩
  | .killTest pid j next =>
    if M.pid j = pid then ⟨.none,{ pr with pc := .killRelease pid j true next },some (j,.kill),data⟩
    else ⟨.none,{ pr with pc := .killRelease pid j false next },none,data⟩
  | .killRelease pid j found next =>
    ⟨.release (.proc j),{ pr with pc := if found then .code (next true) else .killNext pid (j + 1) next },none,data⟩

def yieldEffect (p : Nat) (pr : Proc κ) (data : δ) : Yield → Effect κ δ
  | .acquire => ⟨.acquire (.proc p),{ pr with yielding := some .state },none,data⟩
  | .state => ⟨.none,{ pr with yielding := some .sched, state := .runnable },none,data⟩
  | .sched => ⟨.sched,{ pr with yielding := some .back },none,data⟩
  | .back => ⟨.release (.proc p),{ pr with yielding := none },none,data⟩

/-- A step of process `p`. An interrupt comes in between only while no lock is held. -/
def procEffect (p : Nat) (pr : Proc κ) (data : δ) (held : List Lock) (a : Action ι) : Effect κ δ :=
  match pr.yielding with
  | some stage => yieldEffect p pr data stage
  | none =>
    if a.interrupt ∧ held = [] then ⟨.none,{ pr with yielding := some .acquire },none,data⟩
    else pcEffect M p pr data a.input

end Step

namespace State

variable {κ δ : Type}

@[simp] def setProc (s : State κ δ) (p : Nat) (pr : Proc κ) : State κ δ := { s with proc := update s.proc p pr }
@[simp] def setCpu (s : State κ δ) (c : Nat) (mode : Cpu) : State κ δ := { s with cpu := update s.cpu c mode }

def acquire (s : State κ δ) (c : Nat) (l : Lock) : Option (State κ δ) :=
  if s.lock l = none then
    some { s with lock := update s.lock l (some c), held := update s.held c (l :: s.held c) }
  else none

/-- `release` panics if the CPU does not hold the lock. -/
def release (s : State κ δ) (c : Nat) (l : Lock) : Option (State κ δ) :=
  if s.lock l = some c then
    some { s with lock := update s.lock l none, held := update s.held c ((s.held c).erase l) }
  else none

/-- `sched` panics unless the CPU holds the lock of its process and no other. -/
def sched (s : State κ δ) (c p : Nat) : Option (State κ δ) :=
  if s.lock (.proc p) = some c ∧ (s.held c).length = 1 ∧ (s.proc p).state ≠ .running then some (s.setCpu c (.back p))
  else none

def write (s : State κ δ) (p : Nat) (e : Effect κ δ) : State κ δ :=
  let proc := update s.proc p e.self
  { s with
    proc := match e.poke with
      | none => proc
      | some (j,poke) => update proc j (poke.apply (proc j))
    data := e.data }

def perform (s : State κ δ) (c p : Nat) (e : Effect κ δ) : Option (State κ δ) :=
  match e.op with
  | .none => some (s.write p e)
  | .acquire l => (s.acquire c l).map fun t => t.write p e
  | .release l => (s.release c l).map fun t => t.write p e
  | .sched => (s.sched c p).map fun t => t.write p e

end State

section Step

variable {ι κ δ : Type} (M : Machine ι κ δ)

def step (s : State κ δ) (a : Action ι) : Option (State κ δ) :=
  match s.cpu a.cpu with
  | .scan j => (s.acquire a.cpu (.proc j)).map fun t => t.setCpu a.cpu (.test j)
  | .test j =>
    if (s.proc j).state = .runnable then
      some ((s.setProc j { s.proc j with state := .running }).setCpu a.cpu (.running j))
    else some (s.setCpu a.cpu (.back j))
  | .back j => (s.release a.cpu (.proc j)).map fun t => t.setCpu a.cpu (.scan (if j + 1 < M.nproc then j + 1 else 0))
  | .running p => s.perform a.cpu p (procEffect M p (s.proc p) s.data (s.held a.cpu) a)

/-- All processes are about to return from their first switch, at the places `start`. -/
def init (start : Nat → κ) (data : δ) : State κ δ where
  proc p := ⟨if p < M.nproc then .runnable else .unused,none,false,.code (start p),some .back,0⟩
  cpu _ := .scan 0
  lock _ := none
  held _ := []
  data := data

end Step

end Xv6.Sched
