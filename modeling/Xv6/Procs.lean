import Xv6.Param
import Xv6.Runs
import Mathlib.Algebra.Group.Int.Defs
import Mathlib.Logic.Function.Basic

/-! The process table: `allocproc`, `freeproc`, `fork`, `exit`, `wait`, `kill`, `sleep`, `wakeup`
and `yield` of `proc.c` with the scheduler and `swtch`, on any number of CPUs. A step is one
operation on a lock with the assignments next to it, which are to fields that the locks held
there protect. What the rest of the kernel does is left open. -/
namespace Xv6.Procs

open Function

inductive PState
  | unused | used | sleeping | runnable | running | zombie
  deriving DecidableEq, Repr

/-- What `p->chan` points to. -/
inductive Chan
  | proc (p : Nat)
  | other (a : Nat)
  deriving DecidableEq, Repr

/-- `p->lock`, `wait_lock`, `pid_lock`, and the locks of the rest of the kernel by number. -/
inductive Lock
  | proc (p : Nat)
  | wait
  | pid
  | spin (l : Nat)
  deriving DecidableEq, Repr

/-- `struct proc`; null pointers are 0 or `none`. `context` counts the registers saved since the
context was last resumed. `serial` numbers the calls of `allocpid` without end and `creator` is
that number of the process that called `fork`: the code does not keep them. -/
structure Slot where
  state : PState
  chan : Option Chan
  killed : Bool
  xstate : Int
  pid : Int
  parent : Option Nat
  sz : Nat
  pagetable : Nat
  trapframe : Nat
  context : Nat
  ofile : Nat → Option Nat
  serial : Nat
  creator : Nat

/-- A place outside `proc.c`: the locks held there, and while `exit` closes the files its
argument and the next descriptor. -/
structure Site where
  closing : Option (Int × Nat)
  spins : List Nat
  deriving DecidableEq, Repr

def Site.code : Site := ⟨none,[]⟩

/-- A call of `sleep` with the lock `lk`, or the one in `wait`. -/
inductive Sleep
  | spin (a lk : Nat) (k : Site)
  | wait (addr : Nat)
  deriving DecidableEq, Repr

/-- Who calls `wakeup`: other code, `reparent` for a child, or `exit` for the parent. -/
inductive Waker
  | site (k : Site)
  | reparent (status : Int) (child : Nat)
  | exit (status : Int)
  deriving DecidableEq, Repr

/-- Who calls `killed`. -/
inductive Asker
  | site (k : Site)
  | wait (addr : Nat)
  deriving DecidableEq, Repr

/-- Where a process is, before the operation that gives the place its name. -/
inductive Pc
  | site (k : Site)
  | sleepAcquire (z : Sleep)
  | sleepRelease (z : Sleep)
  | sleepState (z : Sleep)
  | sleepSched (z : Sleep)
  | sleepBack (z : Sleep)
  | sleepReacquire (z : Sleep)
  | wakeAcquire (chan : Option Chan) (j : Nat) (w : Waker)
  | wakeTest (chan : Option Chan) (j : Nat) (w : Waker)
  | killAcquire (pid : Int) (j : Nat)
  | killTest (pid : Int) (j : Nat)
  | killedAcquire (r : Asker)
  | killedRead (r : Asker)
  | setkilledAcquire (k : Site)
  | setkilledWrite (k : Site)
  -- allocproc, as fork calls it
  | allocAcquire (j : Nat)
  | allocTest (j : Nat)
  | pidAcquire (np : Nat)
  | pidTake (np : Nat)
  | allocSet (np : Nat) (pid : Int) (serial : Nat)
  | allocTrapframe (np : Nat)
  | allocPagetable (np : Nat)
  | forkCopy (np : Nat)
  | forkFree (np : Nat)
  | forkRelease (np : Nat)
  | forkWait (np : Nat)
  | forkParent (np : Nat)
  | forkAcquire (np : Nat)
  | forkRunnable (np : Nat)
  | exitAcquire (status : Int)
  | exitReparent (status : Int) (j : Nat)
  | exitSelf (status : Int)
  | exitZombie (status : Int)
  | exitSched
  | exitGone
  | waitAcquire (addr : Nat)
  | waitScan (addr j : Nat) (havekids : Bool)
  | waitTest (addr j : Nat)
  | waitReturn
  deriving DecidableEq, Repr

/-- The statements of `yield`, which a timer interrupt calls. -/
inductive Yield
  | acquire | state | sched | back
  deriving DecidableEq, Repr

/-- The kernel thread of a process; `yielding` is set while an interrupt is served. -/
structure Thread where
  pc : Pc
  yielding : Option Yield
  deriving DecidableEq, Repr

/-- A process that has never run will return from `swtch` to `forkret`, which releases its lock as
the end of `yield` does. -/
@[simp] def Thread.forkret : Thread := ⟨.site .code,some .back⟩

def nregs : Nat := 14

/-- Where a CPU is. `scan`, `test` and `release` are the scheduler at a slot; in between it saves
its own context, loads that of the process, runs the process, and back. -/
inductive Mode
  | scan (j : Nat)
  | test (j : Nat)
  | saveSched (p n : Nat)
  | load (p n : Nat)
  | run (p : Nat)
  | save (p n : Nat)
  | loadSched (p n : Nat)
  | clear (p : Nat)
  | release (j : Nat)
  deriving DecidableEq, Repr

structure Cpu where
  mode : Mode
  proc : Option Nat
  deriving DecidableEq, Repr

structure Exit where
  serial : Nat
  pid : Int
  status : Int
  deriving DecidableEq, Repr

/-- `wait` of the process `parent` has freed the process `child`: the pid it returned and the
status it copied out. -/
structure Reap where
  parent : Nat
  child : Nat
  pid : Int
  status : Option Int
  deriving DecidableEq, Repr

/-- A lock has the CPU that holds it. `count` numbers the calls of `allocpid`; `leaving`, `exits`
and `reaps` are the history: who has called `exit`, who has become a zombie, who has been freed. -/
structure State where
  slot : Nat → Slot
  thread : Nat → Thread
  cpu : Nat → Cpu
  lock : Lock → Option Nat
  noff : Nat → Nat
  nextpid : Int
  count : Nat
  leaving : List Nat
  exits : List Exit
  reaps : List Reap

inductive Call
  | acquire (l : Nat)
  | release (l : Nat)
  | sleep (a lk : Nat)
  | wakeup (a : Nat)
  | killed
  | setkilled
  | kill (pid : Int)
  | fork
  | exit (status : Int)
  | wait (addr : Nat)
  -- assignments to the process's own fields, by open or exec and so on
  | file (fd : Nat) (f : Option Nat)
  | image (sz pagetable : Nat)
  -- the next statement of exit
  | close
  deriving DecidableEq, Repr

structure Action where
  cpu : Nat
  interrupt : Bool
  call : Call
  page : Nat
  ok : Bool
  deriving DecidableEq, Repr

/-- The assignments of a step of process `p`. -/
inductive Write
  | none
  | yield
  | sleep (chan : Chan)
  | wake
  | setkilled
  | file (fd : Nat) (f : Option Nat)
  | image (sz pagetable : Nat)
  | leave
  | zombie (status : Int)
  | wakeup (chan : Option Chan) (j : Nat)
  | kill (j : Nat)
  | takePid
  | alloc (np : Nat) (pid : Int) (serial : Nat)
  | trapframe (np page : Nat)
  | pagetable (np page : Nat)
  | copy (np : Nat)
  | free (np : Nat)
  | parent (j q : Nat)
  | runnable (np : Nat)
  | reap (j : Nat) (stored : Bool)
  deriving DecidableEq, Repr

/-- The operation on a lock, or the call of `sched`. -/
inductive Op
  | none
  | acquire (l : Lock)
  | release (l : Lock)
  | sched
  deriving DecidableEq, Repr

structure Effect where
  op : Op
  thread : Thread
  write : Write
  deriving DecidableEq, Repr

namespace Sleep

def chan (p : Nat) : Sleep → Chan
  | spin a _ _ => .other a
  | wait _ => .proc p

def lock : Sleep → Lock
  | spin _ lk _ => .spin lk
  | wait _ => .wait

def next : Sleep → Pc
  | spin _ lk k => .site { k with spins := lk :: k.spins.erase lk }
  | wait addr => .waitScan addr 0 false

end Sleep

def Waker.next : Waker → Pc
  | site k => .site k
  | reparent status j => .exitReparent status (j + 1)
  | exit status => .exitSelf status

def Asker.next (killed : Bool) : Asker → Pc
  | site k => .site k
  | wait addr => if killed then .waitReturn else .sleepAcquire (.wait addr)

/-- What `freeproc` leaves; it does not touch the open files. -/
@[simp] def Slot.freed (slot : Slot) : Slot :=
  { slot with
    state := .unused
    chan := none
    killed := false
    xstate := 0
    pid := 0
    parent := none
    sz := 0
    pagetable := 0
    trapframe := 0 }

def int32 (n : Int) : Int := (n + 2 ^ 31) % 2 ^ 32 - 2 ^ 31

namespace State

def set (s : State) (j : Nat) (f : Slot → Slot) : State := { s with slot := update s.slot j (f (s.slot j)) }

def setThread (s : State) (p : Nat) (th : Thread) : State := { s with thread := update s.thread p th }

def setCpu (s : State) (c : Nat) (cpu : Cpu) : State := { s with cpu := update s.cpu c cpu }

def write (s : State) (p : Nat) : Write → State
  | .none => s
  | .yield => s.set p fun slot => { slot with state := .runnable }
  | .sleep chan => s.set p fun slot => { slot with chan := some chan, state := .sleeping }
  | .wake => s.set p fun slot => { slot with chan := none }
  | .setkilled => s.set p fun slot => { slot with killed := true }
  | .file fd f => s.set p fun slot => { slot with ofile := update slot.ofile fd f }
  | .image sz pagetable => s.set p fun slot => { slot with sz := sz, pagetable := pagetable }
  | .leave => { s with leaving := (s.slot p).serial :: s.leaving }
  | .zombie status =>
    { s.set p fun slot => { slot with xstate := status, state := .zombie } with
      exits := ⟨(s.slot p).serial,(s.slot p).pid,status⟩ :: s.exits }
  | .wakeup chan j => s.set j fun slot =>
    if slot.state = .sleeping ∧ slot.chan = chan then { slot with state := .runnable } else slot
  | .kill j => s.set j fun slot =>
    { slot with killed := true, state := if slot.state = .sleeping then .runnable else slot.state }
  | .takePid => { s with nextpid := int32 (s.nextpid + 1), count := s.count + 1 }
  | .alloc np pid serial => s.set np fun slot =>
    { slot with pid := pid, state := .used, serial := serial, creator := (s.slot p).serial }
  | .trapframe np page => s.set np fun slot => { slot with trapframe := page }
  | .pagetable np page => (s.set np fun slot => { slot with pagetable := page, context := nregs }).setThread np .forkret
  | .copy np => s.set np fun slot =>
    { slot with
      sz := (s.slot p).sz
      ofile := fun fd => if fd < nofile then ((s.slot p).ofile fd).or (slot.ofile fd) else slot.ofile fd }
  | .free np => s.set np Slot.freed
  | .parent j q => s.set j fun slot => { slot with parent := some q }
  | .runnable np => s.set np fun slot => { slot with state := .runnable }
  | .reap j stored =>
    { s.set j Slot.freed with
      reaps := ⟨(s.slot p).serial,(s.slot j).serial,(s.slot j).pid,if stored then some (s.slot j).xstate else none⟩ ::
        s.reaps }

def acquire (s : State) (c : Nat) (l : Lock) : Option State :=
  if s.lock l = none then
    some { s with lock := update s.lock l (some c), noff := update s.noff c (s.noff c + 1) }
  else none

/-- `release` panics if the CPU does not hold the lock. -/
def release (s : State) (c : Nat) (l : Lock) : Option State :=
  if s.lock l = some c then
    some { s with lock := update s.lock l none, noff := update s.noff c (s.noff c - 1) }
  else none

/-- `sched` panics unless the CPU holds the lock of its process and no other, and the state has
been changed. -/
def sched (s : State) (c p : Nat) : Option State :=
  if s.lock (.proc p) = some c ∧ s.noff c = 1 ∧ (s.slot p).state ≠ .running then
    some { s with cpu := update s.cpu c { s.cpu c with mode := .save p 0 } }
  else none

def operate (s : State) (c p : Nat) : Op → Option State
  | .none => some s
  | .acquire l => s.acquire c l
  | .release l => s.release c l
  | .sched => s.sched c p

attribute [simp] set setThread setCpu write

end State

section Step

-- the size of the process table
variable (nproc : Nat)

/-- `userinit` gets the first slot. -/
def initproc : Nat := 0

/-- A step of the code of a site; `none` is a panic, or a call that is not made there. -/
def siteEffect (p : Nat) (k : Site) : Call → Option (Op × Pc × Write)
  | .acquire l => some (.acquire (.spin l),.site { k with spins := l :: k.spins },.none)
  | .release l =>
    if l ∈ k.spins then some (.release (.spin l),.site { k with spins := k.spins.erase l },.none) else none
  | .sleep a lk => if lk ∈ k.spins then some (.none,.sleepAcquire (.spin a lk k),.none) else none
  | .wakeup a => some (.none,.wakeAcquire (some (.other a)) 0 (.site k),.none)
  | .killed => some (.none,.killedAcquire (.site k),.none)
  | .setkilled => some (.none,.setkilledAcquire k,.none)
  | .kill pid => if k = .code then some (.none,.killAcquire pid 0,.none) else none
  | .fork => if k = .code then some (.none,.allocAcquire 0,.none) else none
  | .exit status => if k = .code ∧ p ≠ initproc then some (.none,.site ⟨some (status,0),[]⟩,.leave) else none
  | .wait addr => if k = .code then some (.none,.waitAcquire addr,.none) else none
  | .file fd f => if k.closing = none ∧ fd < nofile then some (.none,.site k,.file fd f) else none
  | .image sz pagetable => if k.closing = none ∧ pagetable ≠ 0 then some (.none,.site k,.image sz pagetable) else none
  | .close =>
    match k with
    | ⟨some (status,fd),[]⟩ =>
      if fd < nofile then some (.none,.site ⟨some (status,fd + 1),[]⟩,.file fd none)
      else some (.none,.exitAcquire status,.none)
    | _ => none

def pcEffect (s : State) (p : Nat) (a : Action) : Pc → Option (Op × Pc × Write)
  | .site k => siteEffect p k a.call
  | .sleepAcquire z => some (.acquire (.proc p),.sleepRelease z,.none)
  | .sleepRelease z => some (.release z.lock,.sleepState z,.none)
  | .sleepState z => some (.none,.sleepSched z,.sleep (z.chan p))
  | .sleepSched z => some (.sched,.sleepBack z,.none)
  | .sleepBack z => some (.release (.proc p),.sleepReacquire z,.wake)
  | .sleepReacquire z => some (.acquire z.lock,z.next,.none)
  | .wakeAcquire chan j w =>
    if j < nproc then
      if j = p then some (.none,.wakeAcquire chan (j + 1) w,.none)
      else some (.acquire (.proc j),.wakeTest chan j w,.none)
    else some (.none,w.next,.none)
  | .wakeTest chan j w => some (.release (.proc j),.wakeAcquire chan (j + 1) w,.wakeup chan j)
  | .killAcquire pid j =>
    if j < nproc then some (.acquire (.proc j),.killTest pid j,.none) else some (.none,.site .code,.none)
  | .killTest pid j =>
    if (s.slot j).pid = pid then some (.release (.proc j),.site .code,.kill j)
    else some (.release (.proc j),.killAcquire pid (j + 1),.none)
  | .killedAcquire r => some (.acquire (.proc p),.killedRead r,.none)
  | .killedRead r => some (.release (.proc p),r.next (s.slot p).killed,.none)
  | .setkilledAcquire k => some (.acquire (.proc p),.setkilledWrite k,.none)
  | .setkilledWrite k => some (.release (.proc p),.site k,.setkilled)
  | .allocAcquire j =>
    if j < nproc then some (.acquire (.proc j),.allocTest j,.none) else some (.none,.site .code,.none)
  | .allocTest j =>
    if (s.slot j).state = .unused then some (.none,.pidAcquire j,.none)
    else some (.release (.proc j),.allocAcquire (j + 1),.none)
  | .pidAcquire np => some (.acquire .pid,.pidTake np,.none)
  | .pidTake np => some (.release .pid,.allocSet np s.nextpid s.count,.takePid)
  | .allocSet np pid serial => some (.none,.allocTrapframe np,.alloc np pid serial)
  | .allocTrapframe np =>
    if a.page = 0 then some (.none,.forkFree np,.none) else some (.none,.allocPagetable np,.trapframe np a.page)
  | .allocPagetable np =>
    if a.page = 0 then some (.none,.forkFree np,.none) else some (.none,.forkCopy np,.pagetable np a.page)
  | .forkCopy np => if a.ok then some (.none,.forkRelease np,.copy np) else some (.none,.forkFree np,.none)
  | .forkFree np => some (.release (.proc np),.site .code,.free np)
  | .forkRelease np => some (.release (.proc np),.forkWait np,.none)
  | .forkWait np => some (.acquire .wait,.forkParent np,.none)
  | .forkParent np => some (.release .wait,.forkAcquire np,.parent np p)
  | .forkAcquire np => some (.acquire (.proc np),.forkRunnable np,.none)
  | .forkRunnable np => some (.release (.proc np),.site .code,.runnable np)
  | .exitAcquire status => some (.acquire .wait,.exitReparent status 0,.none)
  | .exitReparent status j =>
    if j < nproc then
      if (s.slot j).parent = some p then
        some (.none,.wakeAcquire (some (.proc initproc)) 0 (.reparent status j),.parent j initproc)
      else some (.none,.exitReparent status (j + 1),.none)
    else some (.none,.wakeAcquire ((s.slot p).parent.map .proc) 0 (.exit status),.none)
  | .exitSelf status => some (.acquire (.proc p),.exitZombie status,.none)
  | .exitZombie status => some (.release .wait,.exitSched,.zombie status)
  | .exitSched => some (.sched,.exitGone,.none)
  -- sched() does not return here: panic("zombie exit")
  | .exitGone => none
  | .waitAcquire addr => some (.acquire .wait,.waitScan addr 0 false,.none)
  | .waitScan addr j havekids =>
    if j < nproc then
      if (s.slot j).parent = some p then some (.acquire (.proc j),.waitTest addr j,.none)
      else some (.none,.waitScan addr (j + 1) havekids,.none)
    else if havekids then some (.none,.killedAcquire (.wait addr),.none)
    else some (.none,.waitReturn,.none)
  | .waitTest addr j =>
    if (s.slot j).state = .zombie then
      if addr = 0 ∨ a.ok then some (.release (.proc j),.waitReturn,.reap j (addr ≠ 0))
      else some (.release (.proc j),.waitReturn,.none)
    else some (.release (.proc j),.waitScan addr (j + 1) true,.none)
  | .waitReturn => some (.release .wait,.site .code,.none)

def yieldEffect (p : Nat) (pc : Pc) : Yield → Effect
  | .acquire => ⟨.acquire (.proc p),⟨pc,some .state⟩,.none⟩
  | .state => ⟨.none,⟨pc,some .sched⟩,.yield⟩
  | .sched => ⟨.sched,⟨pc,some .back⟩,.none⟩
  | .back => ⟨.release (.proc p),⟨pc,none⟩,.none⟩

/-- A step of process `p`. An interrupt comes only while no lock is held. -/
def procEffect (s : State) (p : Nat) (a : Action) : Option Effect :=
  match (s.thread p).yielding with
  | some stage => some (yieldEffect p (s.thread p).pc stage)
  | none =>
    if a.interrupt ∧ s.noff a.cpu = 0 then some ⟨.none,⟨(s.thread p).pc,some .acquire⟩,.none⟩
    else (pcEffect nproc s p a (s.thread p).pc).map fun e => ⟨e.1,⟨e.2.1,none⟩,e.2.2⟩

/-- The operation comes first: the assignments of a step that acquires a lock need it, and those
of one that releases a lock are read only after it has been acquired again. -/
def perform (s : State) (c p : Nat) (e : Effect) : Option State :=
  (s.operate c p e.op).map fun t => (t.setThread p e.thread).write p e.write

def step (s : State) (a : Action) : Option State :=
  let c := a.cpu
  match (s.cpu c).mode with
  | .scan j => (s.acquire c (.proc j)).map fun t => t.setCpu c ⟨.test j,(s.cpu c).proc⟩
  | .test j =>
    if (s.slot j).state = .runnable then
      some ((s.set j fun slot => { slot with state := .running }).setCpu c ⟨.saveSched j 0,some j⟩)
    else some (s.setCpu c ⟨.release j,(s.cpu c).proc⟩)
  | .saveSched p n =>
    some (s.setCpu c ⟨if n + 1 < nregs then .saveSched p (n + 1) else .load p 0,(s.cpu c).proc⟩)
  | .load p n =>
    if n + 1 < nregs then some (s.setCpu c ⟨.load p (n + 1),(s.cpu c).proc⟩)
    else some ((s.set p fun slot => { slot with context := 0 }).setCpu c ⟨.run p,(s.cpu c).proc⟩)
  | .run p => (procEffect nproc s p a).bind (perform s c p)
  | .save p n =>
    some ((s.set p fun slot => { slot with context := n + 1 }).setCpu c
      ⟨if n + 1 < nregs then .save p (n + 1) else .loadSched p 0,(s.cpu c).proc⟩)
  | .loadSched p n =>
    some (s.setCpu c ⟨if n + 1 < nregs then .loadSched p (n + 1) else .clear p,(s.cpu c).proc⟩)
  | .clear p => some (s.setCpu c ⟨.release p,none⟩)
  | .release j =>
    (s.release c (.proc j)).map fun t => t.setCpu c ⟨.scan (if j + 1 < nproc then j + 1 else 0),(s.cpu c).proc⟩

end Step

@[simp] def Slot.blank : Slot where
  state := .unused
  chan := none
  killed := false
  xstate := 0
  pid := 0
  parent := none
  sz := 0
  pagetable := 0
  trapframe := 0
  context := 0
  ofile _ := none
  serial := 0
  creator := 0

/-- After `userinit`: the first process is ready to run, with the memory that it was given. -/
def init (sz pagetable trapframe : Nat) : State where
  slot := update (fun _ => Slot.blank) initproc { Slot.blank with
      state := .runnable
      pid := 1
      serial := 1
      sz := sz
      pagetable := pagetable
      trapframe := trapframe
      context := nregs }
  thread := fun _ => .forkret
  cpu _ := ⟨.scan 0,none⟩
  lock _ := none
  noff _ := 0
  nextpid := 2
  count := 2
  leaving := []
  exits := []
  reaps := []

end Xv6.Procs
