import Xv6.Param
import Xv6.Rings
import Xv6.Runs

/-! The driver of the virtio disk with its callers, its interrupt handler and the device. A
caller advances by one statement (or a group under `vdisk_lock` that the device cannot look
into), the device runs at any time and without the lock. -/
namespace Xv6.Virtio

open Function

abbrev num : Nat := 8

/-- `VRING_DESC_F_NEXT`. -/
def descNext : Nat := 1
/-- `VRING_DESC_F_WRITE`. -/
def descWrite : Nat := 2

/-- What the addresses in descriptors point to: `&disk.ops[i]`, `b->data`, `&disk.info[i].status`. -/
inductive Addr where
  | null
  | ops (i : Nat)
  | data (b : Nat)
  | status (i : Nat)
deriving DecidableEq

/-- `struct virtq_desc`. -/
structure Desc where
  addr : Addr
  len : Nat
  flags : Nat
  next : Nat
deriving DecidableEq

/-- `struct virtio_blk_req`. -/
structure BlkReq where
  type : Nat
  reserved : Nat
  sector : Nat
deriving DecidableEq

/-- An entry of `disk.info`; `b` is a number of a buffer or null. -/
structure Info where
  b : Option Nat
  status : Nat

/-- `struct disk` without its lock; `ring` is `avail->ring`, `used` the ids in `used->ring`. -/
structure Disk where
  desc : Nat → Desc
  free : Nat → Bool
  ring : Nat → Nat
  availIdx : BitVec 16
  used : Nat → Nat
  doneIdx : BitVec 16
  usedIdx : BitVec 16
  info : Nat → Info
  ops : Nat → BlkReq

inductive Panic where
  | freeDesc1 | freeDesc2
  | intrStatus
  /-- A store through the null pointer: `kerneltrap`. -/
  | kerneltrap
deriving DecidableEq

def allocDesc (disk : Disk) : Option (Nat × Disk) :=
  ((List.range num).find? fun i => disk.free i).map fun i =>
    (i,{ disk with free := update disk.free i false })

/-- `free_desc`; its `wakeup` only lets sleepers go on, which they may at any time. -/
def freeDesc (disk : Disk) (i : Nat) : Except Panic Disk :=
  if num ≤ i then .error .freeDesc1
  else if disk.free i then .error .freeDesc2
  else .ok
    { disk with
      desc := update disk.desc i ⟨.null,0,0,0⟩
      free := update disk.free i true }

/-- The descriptors `idx[0..2]` of a request. -/
structure Chain where
  head : Nat
  data : Nat
  status : Nat
deriving DecidableEq

/-- `alloc3_desc`, its loop unrolled: what could be had is given back if there are not three. -/
def alloc3Desc (disk : Disk) : Except Panic (Option Chain × Disk) :=
  match allocDesc disk with
  | none => .ok (none,disk)
  | some (i,disk) =>
    match allocDesc disk with
    | none => do
      let disk ← freeDesc disk i
      .ok (none,disk)
    | some (j,disk) =>
      match allocDesc disk with
      | none => do
        let disk ← freeDesc disk i
        let disk ← freeDesc disk j
        .ok (none,disk)
      | some (k,disk) => .ok (some ⟨i,j,k⟩,disk)

/-- What a call of `virtio_disk_rw` is for. -/
structure Request where
  buf : Nat
  blockno : Nat
  write : Bool
deriving DecidableEq

/-- The command that is put into `ops[idx[0]]`. -/
def Request.header (r : Request) : BlkReq :=
  ⟨if r.write then 1 else 0,0,r.blockno * (bsize / 512) % 2 ^ 32⟩

def Request.headDesc (_ : Request) (c : Chain) : Desc := ⟨.ops c.head,16,descNext,c.data⟩

def Request.dataDesc (r : Request) (c : Chain) : Desc :=
  ⟨.data r.buf,bsize,(if r.write then 0 else descWrite) ||| descNext,c.status⟩

def Request.statusDesc (_ : Request) (c : Chain) : Desc := ⟨.status c.head,1,descWrite,0⟩

inductive Pc where
  | idle
  | acquire (r : Request)
  | alloc (r : Request)
  /-- In `sleep(&disk.free[0], &disk.vdisk_lock)`. -/
  | wait (r : Request)
  | header (r : Request) (c : Chain)
  | data (r : Request) (c : Chain)
  | status (r : Request) (c : Chain)
  | record (r : Request) (c : Chain)
  | ring (r : Request) (c : Chain)
  | post (r : Request) (c : Chain)
  /-- At the head of `while(b->disk == 1)`. -/
  | test (r : Request) (c : Chain)
  /-- In `sleep(b, &disk.vdisk_lock)`. -/
  | sleep (r : Request) (c : Chain)
  | clear (r : Request) (c : Chain)
  /-- At the head of the loop of `free_chain`, at the descriptor `i`. -/
  | free (r : Request) (c : Chain) (i : Nat)
  | release (r : Request)
deriving DecidableEq

inductive Intr where
  | idle
  | acquire
  | test
  | handle
  | release
deriving DecidableEq

inductive Holder where
  | caller (p : Nat)
  | handler (cpu : Nat)
deriving DecidableEq

/-- The driver, its callers and the device. `flag b` is `b->disk`, `owner b` who holds the
sleep-lock of the buffer. The device has looked at the available ring up to `taken`, works on
the chains of `working`, has answered those of `answered`, and has put `entering` in the used
ring without having advanced its index. The rest is a record of what has happened: the
requests posted, the number in it of the last one posted under each head, the completions
published with the data address that the device saw, and those that the handler has dealt
with, with the buffer that it found. -/
structure State where
  disk : Disk
  flag : Nat → Bool
  owner : Nat → Option Nat
  lock : Option Holder
  caller : Nat → Pc
  handler : Nat → Intr
  taken : BitVec 16
  working : List Nat
  answered : List Nat
  entering : Option Nat
  panicked : Option Panic
  posted : List Request
  serial : Nat → Nat
  completed : List (Nat × Addr)
  cleared : List (Nat × Addr)

namespace State

@[simp] def setCaller (s : State) (p : Nat) (pc : Pc) : State := { s with caller := update s.caller p pc }
@[simp] def setHandler (s : State) (cpu : Nat) (pc : Intr) : State := { s with handler := update s.handler cpu pc }

def setDesc (s : State) (i : Nat) (desc : Desc) : State :=
  { s with disk := { s.disk with desc := update s.disk.desc i desc } }

def setInfo (s : State) (i : Nat) (info : Info) : State :=
  { s with disk := { s.disk with info := update s.disk.info i info } }

end State

def callerStep (s : State) (p : Nat) : Option State :=
  match s.caller p with
  | .idle => none
  | .acquire r | .wait r =>
    if s.lock = none then some ({ s with lock := some (.caller p) }.setCaller p (.alloc r)) else none
  | .alloc r =>
    match alloc3Desc s.disk with
    | .error panic => some { s with panicked := some panic }
    | .ok (some c,disk) => some ({ s with disk := disk }.setCaller p (.header r c))
    | .ok (none,disk) => some ({ s with disk := disk, lock := none }.setCaller p (.wait r))
  | .header r c =>
    let s := { s with disk := { s.disk with ops := update s.disk.ops c.head r.header } }
    some ((s.setDesc c.head (r.headDesc c)).setCaller p (.data r c))
  | .data r c => some ((s.setDesc c.data (r.dataDesc c)).setCaller p (.status r c))
  | .status r c =>
    let s := s.setInfo c.head { s.disk.info c.head with status := 0xff }
    some ((s.setDesc c.status (r.statusDesc c)).setCaller p (.record r c))
  | .record r c =>
    let s := { s with flag := update s.flag r.buf true }
    some ((s.setInfo c.head { s.disk.info c.head with b := some r.buf }).setCaller p (.ring r c))
  | .ring r c =>
    let ring := update s.disk.ring (s.disk.availIdx.toNat % num) c.head
    some ({ s with disk := { s.disk with ring := ring } }.setCaller p (.post r c))
  | .post r c =>
    let s :=
      { s with
        disk := { s.disk with availIdx := s.disk.availIdx + 1 }
        posted := s.posted ++ [r]
        serial := update s.serial c.head s.posted.length }
    some (s.setCaller p (.test r c))
  | .test r c =>
    if s.flag r.buf then some ({ s with lock := none }.setCaller p (.sleep r c))
    else some (s.setCaller p (.clear r c))
  | .sleep r c =>
    if s.lock = none then some ({ s with lock := some (.caller p) }.setCaller p (.test r c)) else none
  | .clear r c =>
    some ((s.setInfo c.head { s.disk.info c.head with b := none }).setCaller p (.free r c c.head))
  | .free r c i =>
    let desc := s.disk.desc i
    match freeDesc s.disk i with
    | .error panic => some { s with panicked := some panic }
    | .ok disk =>
      let pc := if desc.flags &&& descNext ≠ 0 then .free r c desc.next else .release r
      some ({ s with disk := disk }.setCaller p pc)
  | .release r =>
    some ({ s with lock := none, owner := update s.owner r.buf none }.setCaller p .idle)

def handlerStep (s : State) (cpu : Nat) : Option State :=
  match s.handler cpu with
  | .idle => none
  | .acquire => if s.lock = none then some ({ s with lock := some (.handler cpu) }.setHandler cpu .test) else none
  | .test => some (s.setHandler cpu (if s.disk.usedIdx ≠ s.disk.doneIdx then .handle else .release))
  | .handle =>
    let id := s.disk.used (s.disk.usedIdx.toNat % num)
    if (s.disk.info id).status ≠ 0 then some { s with panicked := some .intrStatus }
    else match (s.disk.info id).b with
      | none => some { s with panicked := some .kerneltrap }
      | some b =>
        let s :=
          { s with
            flag := update s.flag b false
            disk := { s.disk with usedIdx := s.disk.usedIdx + 1 }
            cleared := s.cleared ++ [(s.serial id,Addr.data b)] }
        some (s.setHandler cpu .test)
  | .release => some ({ s with lock := none }.setHandler cpu .idle)

inductive Action where
  /-- A process that holds the sleep-lock of a buffer calls `virtio_disk_rw` for it. -/
  | call (p : Nat) (r : Request)
  | caller (p : Nat)
  | interrupt (cpu : Nat)
  | handler (cpu : Nat)
  /-- The device takes the next head from the available ring. -/
  | fetch
  /-- The device answers a chain: it stores the status 0 through its last descriptor. -/
  | answer (h : Nat)
  /-- The device stores an answered head into the used ring. -/
  | enter (h : Nat)
  /-- The device advances the index of the used ring. -/
  | publish
deriving DecidableEq

def Disk.chain (disk : Disk) (h : Nat) : Chain := ⟨h,(disk.desc h).next,(disk.desc (disk.desc h).next).next⟩

def Disk.store (disk : Disk) (addr : Addr) : Disk :=
  match addr with
  | .status i => { disk with info := update disk.info i { disk.info i with status := 0 } }
  | _ => disk

/-- One step; there is none after a panic. -/
def step (s : State) (a : Action) : Option State :=
  if s.panicked ≠ none then none else
  match a with
  | .call p r =>
    if s.caller p = .idle ∧ s.owner r.buf = none then
      some ({ s with owner := update s.owner r.buf (some p) }.setCaller p (.acquire r))
    else none
  | .caller p => callerStep s p
  | .interrupt cpu => if s.handler cpu = .idle then some (s.setHandler cpu .acquire) else none
  | .handler cpu => handlerStep s cpu
  | .fetch =>
    if s.taken ≠ s.disk.availIdx then
      some { s with taken := s.taken + 1, working := s.disk.ring (s.taken.toNat % num) :: s.working }
    else none
  | .answer h =>
    if h ∈ s.working then
      let addr := (s.disk.desc (s.disk.chain h).status).addr
      some { s with disk := s.disk.store addr, working := s.working.erase h, answered := h :: s.answered }
    else none
  | .enter h =>
    if h ∈ s.answered ∧ s.entering = none then
      let used := update s.disk.used (s.disk.doneIdx.toNat % num) h
      some { s with disk := { s.disk with used := used }, answered := s.answered.erase h, entering := some h }
    else none
  | .publish =>
    match s.entering with
    | none => none
    | some h =>
      some
        { s with
          disk := { s.disk with doneIdx := s.disk.doneIdx + 1 }
          entering := none
          completed := s.completed ++ [(s.serial h,(s.disk.desc (s.disk.chain h).data).addr)] }

/-- After `virtio_disk_init`; what is in the buffers' `disk` fields and in `info` does not matter. -/
def init (flag : Nat → Bool) (info : Nat → Info) (ops : Nat → BlkReq) : State where
  disk :=
    { desc := fun _ => ⟨.null,0,0,0⟩
      free := fun i => decide (i < num)
      ring := fun _ => 0
      availIdx := 0
      used := fun _ => 0
      doneIdx := 0
      usedIdx := 0
      info := info
      ops := ops }
  flag := flag
  owner := fun _ => none
  lock := none
  caller := fun _ => .idle
  handler := fun _ => .idle
  taken := 0
  working := []
  answered := []
  entering := none
  panicked := none
  posted := []
  serial := fun _ => 0
  completed := []
  cleared := []

end Xv6.Virtio
