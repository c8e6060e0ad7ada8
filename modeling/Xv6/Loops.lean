import Xv6.Sched
import Xv6.Pipe

/-! The calls that wait in a loop: `pipewrite` and `piperead`, `consoleread`, `sys_sleep` and `wait`,
with `pipeclose`, `kill` and the handlers of the console and the clock. -/
namespace Xv6.Loops

open Sched

/-- `INPUT_BUF_SIZE`. -/
abbrev inputBufSize : Nat := 128

structure Cons where
  buf : Fin inputBufSize → UInt8
  r : BitVec 32
  w : BitVec 32
  e : BitVec 32

/-- What the calls share. -/
structure Shared where
  pipe : Pipe
  cons : Cons
  ticks : BitVec 32

namespace Cons

def slot (n : BitVec 32) : Fin inputBufSize := ⟨n.toNat % inputBufSize,Nat.mod_lt _ (by decide)⟩

/-- The loop of `C('U')`, at most `fuel` times. -/
def killLine : Nat → Cons → Cons
  | 0, cons => cons
  | fuel + 1, cons =>
    if cons.e ≠ cons.w ∧ cons.buf (slot (cons.e - 1)) ≠ 10 then killLine fuel { cons with e := cons.e - 1 } else cons

/-- `consoleintr(c)` under the lock, without the echo; whether it wakes the readers. -/
def edit (cons : Cons) (c : UInt8) : Cons × Bool :=
  if c = 16 then (cons,false)
  else if c = 21 then (killLine (cons.e - cons.w).toNat cons,false)
  else if c = 8 ∨ c = 127 then (if cons.e ≠ cons.w then { cons with e := cons.e - 1 } else cons,false)
  else if c ≠ 0 ∧ (cons.e - cons.r).toNat < inputBufSize then
    let c := if c = 13 then 10 else c
    let stored := { cons with buf := Function.update cons.buf (slot cons.e) c, e := cons.e + 1 }
    if c = 10 ∨ c = 4 ∨ (stored.e - stored.r).toNat = inputBufSize then ({ stored with w := stored.e },true)
    else (stored,false)
  else (cons,false)

end Cons

/-! Locks and channels. -/

def pipeLock : Nat := 0
def consLock : Nat := 1
def ticksLock : Nat := 2
def waitLock : Nat := 3

/-- `&pi->nread`. -/
def nreadChan : Nat := 0
/-- `&pi->nwrite`. -/
def nwriteChan : Nat := 1
/-- `&cons.r`. -/
def consChan : Nat := 2
/-- `&ticks`. -/
def ticksChan : Nat := 3
def procChan (p : Nat) : Nat := 4 + p

/-! The places in each call, named for the statement that comes next. -/

/-- The arguments and variables of `pipewrite`: `src i` is what `copyin` of byte `i` gives. That
bytes have gone in since the last `wakeup` is `fresh`, which is no variable of the source. -/
structure WriteFrame where
  src : Nat → Option UInt8
  n : Int
  i : Nat
  fresh : Bool

inductive WriteAt
  | acquire | loop | killed | full | wakeFull | sleepFull | copyin | wakeEnd | finish | fail
  deriving DecidableEq

/-- Those of `piperead`: `dst i` is the success of `copyout` of byte `i`. -/
structure ReadFrame where
  dst : Nat → Bool
  n : Int
  i : Nat

inductive ReadAt
  | acquire | loop | killed | sleepEmpty | copy | take | wakeEnd | finish | fail
  deriving DecidableEq

inductive CloseAt
  | acquire | flag | wake | finish
  deriving DecidableEq

/-- Those of `consoleread`: `done` bytes of `target` have been copied. -/
structure ConsoleFrame where
  dst : Nat → Bool
  target : Int
  done : Nat

inductive ConsoleAt
  | acquire | outer | inner | killed | sleepEmpty | take | finish | fail
  deriving DecidableEq

inductive EditAt
  | acquire | edit | wake | finish
  deriving DecidableEq

inductive SleepAt
  | acquire | start | loop | killed | sleepTicks | finish | fail
  deriving DecidableEq

inductive ClockAt
  | acquire | tick | wake | finish
  deriving DecidableEq

inductive WaitAt
  | acquire | scan | killed | sleepChild | finish | fail
  deriving DecidableEq

inductive Code
  | user
  | write (f : WriteFrame) (place : WriteAt)
  | read (f : ReadFrame) (place : ReadAt)
  | close (writable : Bool) (place : CloseAt)
  | kill (pid : Nat)
  | killReturn (found : Bool)
  | console (f : ConsoleFrame) (place : ConsoleAt)
  | consoleintr (c : UInt8) (place : EditAt)
  | sleep (n ticks0 : BitVec 32) (place : SleepAt)
  | clock (place : ClockAt)
  | wait (place : WaitAt)

/-- What `wait` finds: a child that has exited, no children, or only live ones. -/
inductive Kids
  | zombie | none | alive
  deriving DecidableEq

/-- What is left open: the next call of a process or interrupt, and what `wait` finds. -/
inductive Input
  | pipewrite (src : Nat → Option UInt8) (n : Int)
  | piperead (dst : Nat → Bool) (n : Int)
  | pipeclose (writable : Bool)
  | kill (pid : Nat)
  | consoleread (dst : Nat → Bool) (n : Int)
  | consoleintr (c : UInt8)
  | sysSleep (n : BitVec 32)
  | clockintr
  | wait
  | kids (found : Kids)

def call : Input → Code
  | .pipewrite src n => .write ⟨src,n,0,false⟩ .acquire
  | .piperead dst n => .read ⟨dst,n,0⟩ .acquire
  | .pipeclose writable => .close writable .acquire
  | .kill pid => .kill pid
  | .consoleread dst n => .console ⟨dst,n,0⟩ .acquire
  | .consoleintr c => .consoleintr c .acquire
  | .sysSleep n => .sleep n 0 .acquire
  | .clockintr => .clock .acquire
  | .wait => .wait .acquire
  | .kids _ => .user

def pipewrite (f : WriteFrame) : WriteAt → Instr Input Code Shared
  | .acquire => .acquire pipeLock (.write { f with fresh := false } .loop)
  | .loop => .update fun d =>
    (d,if (f.i : Int) < f.n then if d.pipe.readopen then .write f .killed else .write f .fail else .write f .wakeEnd)
  | .killed => .killed fun killed => .write f (if killed then .fail else .full)
  | .full => .update fun d => (d,.write f (if d.pipe.isFull then .wakeFull else .copyin))
  | .wakeFull => .wakeup nreadChan (.write { f with fresh := false } .sleepFull)
  | .sleepFull => .sleep nwriteChan pipeLock (.write { f with fresh := false } .loop)
  | .copyin => .update fun d =>
    match f.src f.i with
    | none => (d,.write f .wakeEnd)
    | some ch => ({ d with pipe := d.pipe.put ch },.write { f with i := f.i + 1, fresh := true } .loop)
  | .wakeEnd => .wakeup nreadChan (.write f .finish)
  | .finish => .release pipeLock .user
  | .fail => .release pipeLock .user

def piperead (f : ReadFrame) : ReadAt → Instr Input Code Shared
  | .acquire => .acquire pipeLock (.read f .loop)
  | .loop => .update fun d => (d,.read f (if d.pipe.isEmpty && d.pipe.writeopen then .killed else .copy))
  | .killed => .killed fun killed => .read f (if killed then .fail else .sleepEmpty)
  | .sleepEmpty => .sleep nreadChan pipeLock (.read f .loop)
  | .copy => .update fun d => (d,.read f (if (f.i : Int) < f.n ∧ d.pipe.isEmpty = false then .take else .wakeEnd))
  | .take => .update fun d =>
    ({ d with pipe := d.pipe.take (f.dst f.i) },
      if f.dst f.i then .read { f with i := f.i + 1 } .copy else .read f .wakeEnd)
  | .wakeEnd => .wakeup nwriteChan (.read f .finish)
  | .finish => .release pipeLock .user
  | .fail => .release pipeLock .user

/-- The page of a pipe with both ends closed keeps its contents here. -/
def pipeclose (writable : Bool) : CloseAt → Instr Input Code Shared
  | .acquire => .acquire pipeLock (.close writable .flag)
  | .flag => .update fun d =>
    ({ d with pipe := if writable then { d.pipe with writeopen := false } else { d.pipe with readopen := false } },
      .close writable .wake)
  | .wake => .wakeup (if writable then nreadChan else nwriteChan) (.close writable .finish)
  | .finish => .release pipeLock .user

/-- One character of `consoleread`, and whether the loop goes on. -/
def readChar (f : ConsoleFrame) (cons : Cons) : Cons × Code :=
  let c := cons.buf (Cons.slot cons.r)
  let next := { cons with r := cons.r + 1 }
  if c = 4 then (if 0 < f.done then cons else next,.console f .finish)
  else if f.dst f.done then
    (next,.console { f with done := f.done + 1 } (if c = 10 then .finish else .outer))
  else (next,.console f .finish)

def consoleread (f : ConsoleFrame) : ConsoleAt → Instr Input Code Shared
  | .acquire => .acquire consLock (.console f .outer)
  | .outer => .update fun d => (d,.console f (if (f.done : Int) < f.target then .inner else .finish))
  | .inner => .update fun d => (d,.console f (if d.cons.r = d.cons.w then .killed else .take))
  | .killed => .killed fun killed => .console f (if killed then .fail else .sleepEmpty)
  | .sleepEmpty => .sleep consChan consLock (.console f .inner)
  | .take => .update fun d => ({ d with cons := (readChar f d.cons).1 },(readChar f d.cons).2)
  | .finish => .release consLock .user
  | .fail => .release consLock .user

def consoleintr (c : UInt8) : EditAt → Instr Input Code Shared
  | .acquire => .acquire consLock (.consoleintr c .edit)
  | .edit => .update fun d =>
    ({ d with cons := (d.cons.edit c).1 },.consoleintr c (if (d.cons.edit c).2 then .wake else .finish))
  | .wake => .wakeup consChan (.consoleintr c .finish)
  | .finish => .release consLock .user

def sysSleep (n ticks0 : BitVec 32) : SleepAt → Instr Input Code Shared
  | .acquire => .acquire ticksLock (.sleep n ticks0 .start)
  | .start => .update fun d => (d,.sleep n d.ticks .loop)
  | .loop => .update fun d => (d,.sleep n ticks0 (if (d.ticks - ticks0).toNat < n.toNat then .killed else .finish))
  | .killed => .killed fun killed => .sleep n ticks0 (if killed then .fail else .sleepTicks)
  | .sleepTicks => .sleep ticksChan ticksLock (.sleep n ticks0 .loop)
  | .finish => .release ticksLock .user
  | .fail => .release ticksLock .user

def clockintr : ClockAt → Instr Input Code Shared
  | .acquire => .acquire ticksLock (.clock .tick)
  | .tick => .update fun d => ({ d with ticks := d.ticks + 1 },.clock .wake)
  | .wake => .wakeup ticksChan (.clock .finish)
  | .finish => .release ticksLock .user

def wait (p : Nat) : WaitAt → Instr Input Code Shared
  | .acquire => .acquire waitLock (.wait .scan)
  | .scan => .choose fun
    | .kids .zombie => .wait .finish
    | .kids .none => .wait .fail
    | .kids .alive => .wait .killed
    | _ => .wait .scan
  | .killed => .killed fun killed => .wait (if killed then .fail else .sleepChild)
  | .sleepChild => .sleep (procChan p) waitLock (.wait .scan)
  | .finish => .release waitLock .user
  | .fail => .release waitLock .user

def instr (p : Nat) : Code → Instr Input Code Shared
  | .user => .choose call
  | .write f place => pipewrite f place
  | .read f place => piperead f place
  | .close writable place => pipeclose writable place
  | .kill pid => .kill pid .killReturn
  | .killReturn _ => .update fun d => (d,.user)
  | .console f place => consoleread f place
  | .consoleintr c place => consoleintr c place
  | .sleep n ticks0 place => sysSleep n ticks0 place
  | .clock place => clockintr place
  | .wait place => wait p place

/-- Any number of processes with any pids, each of them anywhere in its calls. -/
def machine (nproc : Nat) (pid : Nat → Nat) : Machine Input Code Shared := ⟨nproc,pid,instr⟩

def start (_ : Nat) : Code := .user

def boot (nproc : Nat) (pid : Nat → Nat) (page : Fin pipesize → UInt8) (cons : Cons) (ticks : BitVec 32) :
    State Code Shared :=
  init (machine nproc pid) start ⟨.alloc page,cons,ticks⟩

/-! Concrete runs. -/

/-- CPU `c` takes `n` steps; a process outside of a call makes this one. -/
def turns (c n : Nat) (input : Input) : List (Action Input) := List.replicate n ⟨c,false,input⟩

def three (acts : List (Action Input)) : Option (State Code Shared) :=
  Runs.run (step (machine 3 (· + 1))) (boot 3 (· + 1) (fun _ => 0) ⟨fun _ => 0,0,0,0⟩ 0) acts

end Xv6.Loops
