import Xv6.Param
import Xv6.Runs
import Mathlib.Algebra.BigOperators.Group.Finset.Basic
import Mathlib.Data.Fintype.Card
import Mathlib.Logic.Function.Basic

/-! The file table and the descriptors of any number of processes: `file.c`, the calls of `sysfile.c` and `pipe.c`
that make and drop descriptors, and the loops of `fork` and `exit` over `p->ofile`. What is done under
`ftable.lock` or under the lock of a pipe is one step; a process changes its own descriptors between such steps. -/
namespace Xv6.Files

open Function

inductive FileType
  | none | pipe | inode | device
  deriving DecidableEq

/-- `struct file`. Every reference that `open` gets from `namei` or `create` has a number of its own, and so
does every page that `pipealloc` gets. -/
structure File where
  type : FileType
  ref : Nat
  writable : Bool
  pipe : Nat
  ip : Nat
  deriving DecidableEq

/-- What is given back when a file is closed. -/
inductive Resource
  | inode (ip : Nat)
  | pipeEnd (pi : Nat) (writable : Bool)
  deriving DecidableEq

def File.resources (f : File) : List Resource :=
  match f.type with
  | .none => []
  | .pipe => [.pipeEnd f.pipe f.writable]
  | .inode | .device => [.inode f.ip]

/-- What the caller of `fileclose` goes on with: nothing, `iunlockput` in `open`, `fileclose` of the other end in
`pipe`, or `p->ofile[fd] = 0` in `exit`. -/
inductive After
  | done
  | put (ip : Nat)
  | close (f : Nat)
  | clear (fd : Nat)
  deriving DecidableEq

/-- Where a process is. Before `RUNNABLE` a child is an embryo, and a process slot without a process is absent. -/
inductive Pc (n : Nat)
  | idle
  | absent
  | embryo
  -- sys_open: the checks with filealloc, fdalloc, the fields of the file, and iunlockput
  | openAlloc (ip : Nat) (device writable : Bool)
  | openFd (ip : Nat) (device writable : Bool) (f : Nat)
  | openSet (ip : Nat) (device writable : Bool) (f : Nat)
  | put (ip : Nat)
  -- sys_dup: fdalloc and filedup
  | dupFd (f : Nat)
  | dup (f fd : Nat)
  -- fileclose up to the release of ftable.lock, and after it
  | close (f : Nat) (after : After)
  | drop (ff : File) (after : After)
  -- pipealloc: filealloc twice, kalloc, and the fields of the files
  | pipeAlloc0
  | pipeAlloc1 (rf : Nat)
  | pipePage (rf wf : Nat)
  | pipeSet0 (rf wf pi : Nat)
  | pipeSet1 (rf wf pi : Nat)
  -- sys_pipe: fdalloc twice, and the two copyout
  | pipeFd0 (rf wf : Nat)
  | pipeFd1 (rf wf fd0 : Nat)
  | pipeOut (rf wf fd0 fd1 : Nat)
  -- fork: filedup of a descriptor, and np->ofile[i] =
  | fork (np : Fin n) (i : Nat)
  | forkSet (np : Fin n) (i f : Nat)
  -- exit
  | exit (fd : Nat)
  | clear (fd : Nat)
  deriving DecidableEq

def After.pc {n : Nat} : After → Pc n
  | done => .idle
  | put ip => .put ip
  | close f => .close f .done
  | clear fd => .clear fd

inductive Panic
  | filedup | fileclose
  deriving DecidableEq

/-- The descriptors, `ftable.file`, and `readopen` and `writeopen` of the pipes. Beside them stand how many inode
references and pages were taken, and the calls of `iput`, `pipeclose` and `kfree` so far. -/
structure State (n : Nat) where
  ofile : Fin n → Nat → Option Nat
  file : Nat → File
  isOpen : Nat → Bool → Bool
  pc : Fin n → Pc n
  panic : Option Panic
  inodes : Nat
  pipes : Nat
  released : List Resource
  freed : List Nat

namespace State

variable {n : Nat} (s : State n) (p : Fin n)

def goto (pc : Pc n) : State n :=
  { s with pc := update s.pc p pc }

def setFile (f : Nat) (x : File) : State n :=
  { s with file := update s.file f x }

/-- `p->ofile[fd] = x`. -/
@[simp] def setSlot (fd : Nat) (x : Option Nat) : State n :=
  { s with ofile := update s.ofile p (update (s.ofile p) fd x) }

/-- The loop of `filealloc`. -/
def unused : Option Nat :=
  (List.range nfile).find? fun f => (s.file f).ref = 0

def freeSlot : Option Nat :=
  (List.range nofile).find? fun fd => s.ofile p fd = none

def filealloc : Option (Nat × State n) :=
  s.unused.map fun f => (f,s.setFile f { s.file f with ref := 1 })

def fdalloc (f : Nat) : Option (Nat × State n) :=
  (s.freeSlot p).map fun fd => (fd,s.setSlot p fd (some f))

/-- `filedup`, and what its caller goes on with. -/
def filedup (f : Nat) (pc : Pc n) : State n :=
  if (s.file f).ref < 1 then { s with panic := some .filedup }
  else (s.setFile f { s.file f with ref := (s.file f).ref + 1 }).goto p pc

/-- `fileclose` up to the release of `ftable.lock`. -/
def fileclose (f : Nat) (after : After) : State n :=
  if (s.file f).ref < 1 then { s with panic := some .fileclose }
  else if (s.file f).ref - 1 > 0 then
    (s.setFile f { s.file f with ref := (s.file f).ref - 1 }).goto p after.pc
  else
    (s.setFile f { s.file f with ref := 0, type := .none }).goto p (.drop (s.file f) after)

def pipeclose (pi : Nat) (writable : Bool) : State n :=
  let isOpen := update s.isOpen pi (update (s.isOpen pi) writable false)
  { s with
    isOpen
    released := s.released ++ [.pipeEnd pi writable]
    freed := if isOpen pi false = false ∧ isOpen pi true = false then s.freed ++ [pi] else s.freed }

def iput (ip : Nat) : State n :=
  { s with released := s.released ++ [.inode ip] }

/-- `fileclose` after the release of `ftable.lock`, with its copy of the file. -/
def dropFile (ff : File) : State n :=
  match ff.type with
  | .none => s
  | .pipe => s.pipeclose ff.pipe ff.writable
  | .inode | .device => s.iput ff.ip

/-- The next step of `p`. What is not modelled, such as whether `kalloc` finds a page and whether `copyout`
succeeds, is `ok`. -/
def next (ok : Bool) : Option (State n) :=
  match s.pc p with
  | .idle | .absent | .embryo => none
  | .openAlloc ip device writable =>
    if ok then
      match s.filealloc with
      | none => s.goto p (.put ip)
      | some (f,t) => t.goto p (.openFd ip device writable f)
    else s.goto p (.put ip)
  | .openFd ip device writable f =>
    match s.fdalloc p f with
    | none => s.goto p (.close f (.put ip))
    | some (_,t) => t.goto p (.openSet ip device writable f)
  | .openSet ip device writable f =>
    (s.setFile f { s.file f with type := if device then .device else .inode, ip, writable }).goto p .idle
  | .put ip => (s.iput ip).goto p .idle
  | .dupFd f =>
    match s.fdalloc p f with
    | none => s.goto p .idle
    | some (fd,t) => t.goto p (.dup f fd)
  | .dup f _ => s.filedup p f .idle
  | .close f after => s.fileclose p f after
  | .drop ff after => (s.dropFile ff).goto p after.pc
  | .pipeAlloc0 =>
    match s.filealloc with
    | none => s.goto p .idle
    | some (rf,t) => t.goto p (.pipeAlloc1 rf)
  | .pipeAlloc1 rf =>
    match s.filealloc with
    | none => s.goto p (.close rf .done)
    | some (wf,t) => t.goto p (.pipePage rf wf)
  | .pipePage rf wf =>
    if ok then
      { s with isOpen := update s.isOpen s.pipes fun _ => true, pipes := s.pipes + 1 }.goto p
        (.pipeSet0 rf wf s.pipes)
    else s.goto p (.close rf (.close wf))
  | .pipeSet0 rf wf pi =>
    (s.setFile rf { s.file rf with type := .pipe, writable := false, pipe := pi }).goto p (.pipeSet1 rf wf pi)
  | .pipeSet1 rf wf pi =>
    (s.setFile wf { s.file wf with type := .pipe, writable := true, pipe := pi }).goto p (.pipeFd0 rf wf)
  | .pipeFd0 rf wf =>
    match s.fdalloc p rf with
    | none => s.goto p (.close rf (.close wf))
    | some (fd0,t) => t.goto p (.pipeFd1 rf wf fd0)
  | .pipeFd1 rf wf fd0 =>
    match s.fdalloc p wf with
    | none => (s.setSlot p fd0 none).goto p (.close rf (.close wf))
    | some (fd1,t) => t.goto p (.pipeOut rf wf fd0 fd1)
  | .pipeOut rf wf fd0 fd1 =>
    if ok then s.goto p .idle
    else ((s.setSlot p fd0 none).setSlot p fd1 none).goto p (.close rf (.close wf))
  | .fork np i =>
    if i < nofile then
      match s.ofile p i with
      | none => s.goto p (.fork np (i + 1))
      | some f => s.filedup p f (.forkSet np i f)
    else (s.goto np .idle).goto p .idle
  | .forkSet np i f => (s.setSlot np i (some f)).goto p (.fork np (i + 1))
  | .exit fd =>
    if fd < nofile then
      match s.ofile p fd with
      | none => s.goto p (.exit (fd + 1))
      | some f => s.goto p (.close f (.clear fd))
    else s.goto p .absent
  | .clear fd => (s.setSlot p fd none).goto p (.exit (fd + 1))

end State

/-- A process calls, or goes on. `open` calls once `namei` or `create` has an inode. -/
inductive Action (n : Nat)
  | open (p : Fin n) (device writable : Bool)
  | dup (p : Fin n) (fd : Nat)
  | close (p : Fin n) (fd : Nat)
  | pipe (p : Fin n)
  | fork (p np : Fin n)
  | exit (p : Fin n)
  | next (p : Fin n) (ok : Bool)

variable {n : Nat}

def Action.proc : Action n → Fin n
  | .open p .. | .dup p _ | .close p _ | .pipe p | .fork p _ | .exit p | .next p _ => p

/-- What `argfd` finds. -/
def State.argfd (s : State n) (p : Fin n) (fd : Nat) : Option Nat :=
  if fd < nofile then s.ofile p fd else none

def State.call (s : State n) : Action n → Option (State n)
  | .open p device writable =>
    some ({ s with inodes := s.inodes + 1 }.goto p (.openAlloc s.inodes device writable))
  | .dup p fd => (s.argfd p fd).map fun f => s.goto p (.dupFd f)
  | .close p fd => (s.argfd p fd).map fun f => (s.setSlot p fd none).goto p (.close f .done)
  | .pipe p => some (s.goto p .pipeAlloc0)
  | .fork p np => if s.pc np = .absent then some ((s.goto np .embryo).goto p (.fork np 0)) else none
  | .exit p => some (s.goto p (.exit 0))
  | .next .. => none

def step (s : State n) (a : Action n) : Option (State n) :=
  if s.panic ≠ none then none
  else
    match a with
    | .next p ok => s.next p ok
    | a => if s.pc a.proc = .idle then s.call a else none

def init (n : Nat) : State n where
  ofile _ _ := none
  file _ := ⟨.none,0,false,0,0⟩
  isOpen _ _ := false
  pc p := if p.val = 0 then .idle else .absent
  panic := none
  inodes := 0
  pipes := 0
  released := []
  freed := []

end Xv6.Files
