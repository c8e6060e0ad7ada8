import Xv6.Runs
import Xv6.Fs.Layout
import Mathlib.Data.Multiset.AddSub

/-! The inode table under any interleaving of its users. What is done under `itable.lock`, or
under the lock of the buffer that has an inode, is one step; the other statements of `ilock`, `iput`
and `ialloc` are a step each. -/
namespace Xv6.Itable

open Fs Function

/-- Device and number of an inode. -/
abbrev Key := Nat × Nat

/-- Who has a reference to an entry: a variable of a thread, an open file, or the current
directory of a process. -/
inductive Owner
  | thread (p : Nat)
  | file (f : Nat)
  | cwd (p : Nat)
  deriving DecidableEq

namespace Owner

/-- Only the thread itself uses its variables and `p->cwd`. -/
def own (p : Nat) : Owner → Bool
  | thread q => q = p
  | file _ => false
  | cwd q => q = p

/-- An open file may be shared. -/
def usable (p : Nat) : Owner → Bool
  | file _ => true
  | owner => owner.own p

end Owner

/-- `struct inode`. The sleep-lock has the thread that holds it and the owner of the reference
that this thread uses. An entry is dirty when its fields may differ from the inode on the disk. -/
structure Slot where
  key : Key
  ref : Nat
  valid : Bool
  holder : Option (Nat × Owner)
  din : Dinode
  dirty : Bool

/-- The statements with which `iput` frees an inode, up to `ip->ref--`. -/
inductive Stage
  | trunc | truncUpdate | type | typeUpdate | invalid | unlock | drop
  deriving DecidableEq

/-- What a thread is in the middle of: `ilock` before it looks at `valid` and after it has read the
inode, `iput`, or `ialloc` before its `iget` and before the `ilock` that its caller goes on with. -/
inductive Doing
  | nothing
  | load (k : Nat)
  | check (k : Nat)
  | free (owner : Owner) (k : Nat) (stage : Stage)
  | allocated (key : Key)
  | fresh (k : Nat)
  deriving DecidableEq

def Doing.entry : Doing → Option Nat
  | load k | check k => some k
  | free _ k stage => if stage = .drop then none else some k
  | _ => none

/-- `disk` has the inodes as the buffer cache shows them and `data` the bytes of their files. `refs`
are the references handed out and not yet put. -/
structure State where
  slot : Nat → Slot
  disk : Key → Dinode
  data : Key → Bytes.Storage
  refs : Multiset (Owner × Nat)
  doing : Nat → Doing

inductive Action
  | iget (p : Nat) (key : Key)
  | idup (p : Nat) (owner fresh : Owner) (k : Nat)
  /-- `f->ip = ip`, `p->cwd = ip` or `ff = *f`: the reference has another owner. -/
  | give (p : Nat) (owner fresh : Owner) (k : Nat)
  | ilock (p : Nat) (owner : Owner) (k : Nat)
  /-- The next statement of `ilock` or `iput`. -/
  | next (p : Nat)
  /-- Fields of the entry are changed; only `iput` changes the type. -/
  | change (p k : Nat) (din : Dinode)
  /-- Blocks of the file are written. -/
  | write (p k : Nat) (bytes : Bytes.Storage)
  | iupdate (p k : Nat)
  | iunlock (p k : Nat)
  | iput (p : Nat) (owner : Owner) (k : Nat)
  | ialloc (p : Nat) (key : Key) (type : Nat)

/-- An entry with its inode on the disk and a thread that works on it. -/
structure Local where
  slot : Slot
  disk : Dinode
  data : Bytes.Storage
  doing : Doing

namespace Local

variable (p k : Nat) (x : Local)

def ilock (owner : Owner) : Option Local :=
  if x.slot.holder = none ∧ (x.doing = .nothing ∨ x.doing = .fresh k) then
    some { x with slot := { x.slot with holder := some (p,owner) }, doing := .load k }
  else none

def take (owner : Owner) : Option Local :=
  if x.slot.holder = none then
    some { x with slot := { x.slot with holder := some (p,owner) }, doing := .free owner k .trunc }
  else none

def next : Option Local :=
  match x.doing with
  | .load k =>
    if x.slot.valid then some { x with doing := .nothing }
    else some { x with slot := { x.slot with din := x.disk }, doing := .check k }
  | .check _ =>
    -- panic("ilock: no type")
    if x.slot.din.type = 0 then none
    else some { x with slot := { x.slot with valid := true }, doing := .nothing }
  | .free owner k .trunc => some { x with
      slot := { x.slot with din := { x.slot.din with size := 0, addrs := fun _ => 0 }, dirty := true }
      data := fun _ => 0
      doing := .free owner k .truncUpdate }
  | .free owner k .truncUpdate => some { x with disk := x.slot.din, doing := .free owner k .type }
  | .free owner k .type => some { x with
      slot := { x.slot with din := { x.slot.din with type := 0 } }
      doing := .free owner k .typeUpdate }
  | .free owner k .typeUpdate => some { x with disk := x.slot.din, doing := .free owner k .invalid }
  | .free owner k .invalid => some { x with
      slot := { x.slot with valid := false, dirty := false }
      doing := .free owner k .unlock }
  | .free owner k .unlock => some { x with slot := { x.slot with holder := none }, doing := .free owner k .drop }
  | _ => none

def locked : Bool := x.doing = .nothing ∧ x.slot.holder.map (·.1) = some p

def change (din : Dinode) : Option Local :=
  if x.locked p ∧ din.type = x.slot.din.type then
    some { x with slot := { x.slot with din := din, dirty := true } }
  else none

def write (bytes : Bytes.Storage) : Option Local :=
  if x.locked p then some { x with data := bytes } else none

def iupdate : Option Local :=
  if x.locked p then some { x with slot := { x.slot with dirty := false }, disk := x.slot.din } else none

/-- A change is written with `iupdate` before the lock is released. -/
def iunlock : Option Local :=
  if x.locked p ∧ x.slot.dirty = false then some { x with slot := { x.slot with holder := none } } else none

end Local

namespace State

variable (s : State)

def focus (p k : Nat) : Local :=
  ⟨s.slot k,s.disk (s.slot k).key,s.data (s.slot k).key,s.doing p⟩

def put (p k : Nat) (x : Local) : State :=
  { s with
    slot := update s.slot k x.slot
    disk := update s.disk (s.slot k).key x.disk
    data := update s.data (s.slot k).key x.data
    doing := update s.doing p x.doing }

def work (p k : Nat) (f : Local → Option Local) : Option State := (f (s.focus p k)).map (s.put p k)

def setDoing (p : Nat) (doing : Doing) : State := { s with doing := update s.doing p doing }

def setRef (k ref : Nat) : State := { s with slot := update s.slot k { s.slot k with ref := ref } }

/-- The entry that `iget` returns: the one that has the inode, or the first without references. -/
def find (key : Key) : Option Nat :=
  ((List.range ninode).find? fun k => 0 < (s.slot k).ref ∧ (s.slot k).key = key).or
    ((List.range ninode).find? fun k => (s.slot k).ref = 0)

/-- `ip->ref++`, or the entry is recycled. -/
def enter (k : Nat) (key : Key) : State :=
  if 0 < (s.slot k).ref then s.setRef k ((s.slot k).ref + 1)
  else { s with slot := update s.slot k { s.slot k with key := key, ref := 1, valid := false } }

@[simp] theorem enter_doing (k : Nat) (key : Key) : (s.enter k key).doing = s.doing := by
  unfold enter
  split <;> rfl

def addRef (owner : Owner) (k : Nat) : State := { s with refs := (owner,k) ::ₘ s.refs }

def drop (owner : Owner) (k : Nat) : State :=
  { s.setRef k ((s.slot k).ref - 1) with refs := s.refs.erase (owner,k) }

/-- A lock is not held through this reference. -/
def spare (owner : Owner) (k : Nat) : Bool :=
  match (s.slot k).holder with
  | none => true
  | some (_,o) => o ≠ owner ∨ 1 < s.refs.count (owner,k)

/-- The test of `iput`. -/
def frees (k : Nat) : Bool := (s.slot k).ref = 1 ∧ (s.slot k).valid ∧ (s.slot k).din.nlink = 0

/-- A thread in the middle of a call does nothing else, and a lock that is held is waited for. The
callers do what they do with a reference, and keep it as long as they have the lock. `iget` panics when
there is no entry left. -/
def step (s : State) : Action → Option State
  | .iget p key =>
    match s.doing p with
    | .nothing => (s.find key).map fun k => (s.enter k key).addRef (.thread p) k
    | .allocated fresh =>
      if fresh = key then (s.find key).map fun k => ((s.enter k key).addRef (.thread p) k).setDoing p (.fresh k)
      else none
    | _ => none
  | .idup p owner fresh k =>
    if s.doing p = .nothing ∧ owner.usable p ∧ (owner,k) ∈ s.refs then
      some ((s.setRef k ((s.slot k).ref + 1)).addRef fresh k)
    else none
  | .give p owner fresh k =>
    if s.doing p = .nothing ∧ owner.usable p ∧ (owner,k) ∈ s.refs ∧ s.spare owner k then
      some { s with refs := (fresh,k) ::ₘ s.refs.erase (owner,k) }
    else none
  | .ilock p owner k =>
    if owner.usable p ∧ (owner,k) ∈ s.refs then s.work p k fun x => x.ilock p k owner else none
  | .next p =>
    match s.doing p with
    | .free owner k .drop => some ((s.drop owner k).setDoing p .nothing)
    | doing => doing.entry.bind fun k => s.work p k Local.next
  | .change p k din => s.work p k fun x => x.change p din
  | .write p k bytes => s.work p k fun x => x.write p bytes
  | .iupdate p k => s.work p k fun x => x.iupdate p
  | .iunlock p k => s.work p k fun x => x.iunlock p
  | .iput p owner k =>
    if s.doing p = .nothing ∧ owner.own p ∧ (owner,k) ∈ s.refs ∧ s.spare owner k then
      if s.frees k then s.work p k fun x => x.take p k owner else some (s.drop owner k)
    else none
  | .ialloc p key type =>
    if s.doing p = .nothing ∧ (s.disk key).type = 0 ∧ type ≠ 0 then
      some { s.setDoing p (.allocated key) with disk := update s.disk key (Dinode.blank type) }
    else none

def init (slot : Nat → Slot) (disk : Key → Dinode) (data : Key → Bytes.Storage) : State where
  slot k := { slot k with ref := 0, holder := none, dirty := false }
  disk := disk
  data := data
  refs := 0
  doing _ := .nothing

end State

end Xv6.Itable
