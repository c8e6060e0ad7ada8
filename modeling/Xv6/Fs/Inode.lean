import Xv6.Prog
import Xv6.Fs.Layout

/-! Blocks, inodes and their contents: the lower half of `fs.c`. A call runs alone, so a lock
that is taken twice is a deadlock. `disk` is what `bread` returns; there is one device. -/
namespace Xv6.Fs

open Function

/-- Why a call does not return: a panic, or a sleep from which nobody wakes it. -/
inductive Panic where
  | tooBig
  | outsideTrans
  | logSleep
  | freeingFreeBlock
  | igetNoInodes
  | ilock
  | ilockNoType
  | deadlock
  | iunlock
  | bmapOutOfRange
  | dirlookupNotDir
  | dirlookupRead
  | dirlinkRead
  | isdiremptyReadi
  | unlinkNlink
  | unlinkWritei
  | filedup
  | fileclose
  | fileread
  | filewrite
  | initExiting
  /-- No such process, or a loop that did not end. -/
  | stuck
  deriving DecidableEq, Repr

/-- `struct inode` without its device; `din` is its copy of the disk inode. -/
structure Inode where
  inum : Nat
  ref : Int
  locked : Bool
  valid : Bool
  din : Dinode

inductive FileType where
  | none
  | inode
  | device
  deriving DecidableEq, Repr

/-- `struct file` without pipes; `ip` is a slot of the inode table. -/
structure File where
  type : FileType
  ref : Int
  readable : Bool
  writable : Bool
  ip : Nat
  off : Nat
  major : Nat

/-- The fields of `struct proc` that file-system calls use; `cwd` is a slot of the inode
table, a descriptor a slot of the file table. -/
structure Proc where
  cwd : Nat
  ofile : Nat → Option Nat

structure State where
  disk : Disk
  log : Log
  itable : Nat → Inode
  ftable : Nat → File
  proc : Nat → Option Proc

namespace State

def setDisk (s : State) (b : Nat) (blk : Block) : State := { s with disk := update s.disk b blk }
def setSlot (s : State) (k : Nat) (ip : Inode) : State := { s with itable := update s.itable k ip }

@[simp] theorem setDisk_disk (s : State) (b : Nat) (blk : Block) :
    (s.setDisk b blk).disk = update s.disk b blk := rfl
@[simp] theorem setDisk_itable (s : State) (b : Nat) (blk : Block) : (s.setDisk b blk).itable = s.itable := rfl
@[simp] theorem setSlot_disk (s : State) (k : Nat) (ip : Inode) : (s.setSlot k ip).disk = s.disk := rfl
@[simp] theorem setSlot_itable (s : State) (k : Nat) (ip : Inode) :
    (s.setSlot k ip).itable = update s.itable k ip := rfl
@[simp] theorem setSlot_setSlot (s : State) (k : Nat) (ip ip' : Inode) :
    (s.setSlot k ip).setSlot k ip' = s.setSlot k ip' := by
  simp [setSlot]

end State

abbrev Kernel := Prog Panic State

open Prog

/-! Buffers and the log. -/

def bread (b : Nat) : Kernel Block := asks fun s => s.disk b

/-- A change to the data of a buffer. -/
def setBlock (b : Nat) (blk : Block) : Kernel Unit :=
  strict b fun b => modify fun s => s.setDisk b blk

def beginOp : Kernel Unit := do
  let s ← get
  if (s.log.lh.length : Int) + (s.log.outstanding + 1) * maxOpBlocks > logSize then fail .logSleep
  modify fun s => { s with log := { s.log with outstanding := s.log.outstanding + 1 } }

/-- The last operation commits, which empties the header and changes no block. -/
def endOp : Kernel Unit :=
  modify fun s => { s with log := { s.log with
    outstanding := s.log.outstanding - 1
    lh := if s.log.outstanding - 1 = 0 then [] else s.log.lh } }

def logWrite (b : Nat) : Kernel Unit := do
  let s ← get
  if s.log.lh.length ≥ logSize ∨ (s.log.lh.length : Int) ≥ s.log.size - 1 then fail .tooBig
  if s.log.outstanding < 1 then fail .outsideTrans
  modify fun s => { s with log := { s.log with lh := Log.absorb s.log.lh b } }

/-! Blocks. -/

def bzero (b : Nat) : Kernel Unit := do
  let blk ← bread b
  setBlock b (Bytes.fill blk 0 bsize 0)
  logWrite b

/-- The inner loop of `balloc`: the first clear bit among `n` from `bi` on. -/
def clearFrom (blk : Block) : Nat → Nat → Option Nat
  | 0, _ => none
  | n + 1, bi => if getBit blk bi then clearFrom blk n (bi + 1) else some bi

section Superblock

variable (sb : Superblock)

/-- The outer loop of `balloc` from `b` on. -/
def ballocFrom : Nat → Nat → Kernel Nat
  | 0, _ => pure 0
  | n + 1, b => do
    let blk ← bread (sb.bblock b)
    match clearFrom blk (min bpb (sb.size - b)) 0 with
    | some bi => do
      setBlock (sb.bblock b) (setBit blk bi)
      logWrite (sb.bblock b)
      bzero (b + bi)
      return b + bi
    | none => ballocFrom n (b + bpb)

def balloc : Kernel Nat := ballocFrom sb ((sb.size + bpb - 1) / bpb) 0

def bfree (b : Nat) : Kernel Unit := do
  let blk ← bread (sb.bblock b)
  if !getBit blk (b % bpb) then fail .freeingFreeBlock
  setBlock (sb.bblock b) (clearBit blk (b % bpb))
  logWrite (sb.bblock b)

/-! The inode table. -/

def getInode (k : Nat) : Kernel Inode := asks fun s => s.itable k

def setInode (k : Nat) (ip : Inode) : Kernel Unit :=
  strict k fun k => modify fun s => s.setSlot k ip

def setDinode (k : Nat) (f : Dinode → Dinode) : Kernel Unit := do
  let ip ← getInode k
  setInode k { ip with din := f ip.din }

def iget (inum : Nat) : Kernel Nat := strict inum fun inum => do
  let s ← get
  match (List.range ninode).find? fun k => 0 < (s.itable k).ref ∧ (s.itable k).inum = inum with
  | some k => do
    setInode k { s.itable k with ref := (s.itable k).ref + 1 }
    return k
  | none =>
    match (List.range ninode).find? fun k => (s.itable k).ref = 0 with
    | none => fail .igetNoInodes
    | some k => do
      setInode k { s.itable k with inum := inum, ref := 1, valid := false }
      return k

/-- The loop of `ialloc` from `inum` on. -/
def iallocFrom (type : Nat) : Nat → Nat → Kernel (Option Nat)
  | 0, _ => pure none
  | n + 1, inum => do
    let blk ← bread (sb.iblock inum)
    let o := inum % ipb * dinodeSize
    if (getDinode blk o).type = 0 then
      setBlock (sb.iblock inum) (blankDinode blk o type)
      logWrite (sb.iblock inum)
      let k ← iget inum
      return some k
    iallocFrom type n (inum + 1)

def ialloc (type : Nat) : Kernel (Option Nat) := iallocFrom sb type (sb.ninodes - 1) 1

def iupdate (k : Nat) : Kernel Unit := do
  let ip ← getInode k
  let blk ← bread (sb.iblock ip.inum)
  setBlock (sb.iblock ip.inum) (putDinode blk (ip.inum % ipb * dinodeSize) ip.din)
  logWrite (sb.iblock ip.inum)

def idup (k : Nat) : Kernel Nat := do
  let ip ← getInode k
  setInode k { ip with ref := ip.ref + 1 }
  return k

def ilock (k : Nat) : Kernel Unit := do
  let ip ← getInode k
  if ip.ref < 1 then fail .ilock
  if ip.locked then fail .deadlock
  if ip.valid then setInode k { ip with locked := true }
  else
    let blk ← bread (sb.iblock ip.inum)
    let din := getDinode blk (ip.inum % ipb * dinodeSize)
    setInode k { ip with locked := true, valid := true, din := din }
    if din.type = 0 then fail .ilockNoType

def iunlock (k : Nat) : Kernel Unit := do
  let ip ← getInode k
  if !ip.locked ∨ ip.ref < 1 then fail .iunlock
  setInode k { ip with locked := false }

/-! Inode contents. `bmap` is written over what allocates a block and what writes one to the log, and `readi` over
`bmap`. -/

/-- The indirect block of an inode; a missing one is allocated, and 0 means out of space. -/
def bmapTableWith (alloc : Kernel Nat) (k : Nat) : Kernel Nat := do
  let ip ← getInode k
  if ip.din.addrs ndirect ≠ 0 then return ip.din.addrs ndirect
  let addr ← alloc
  if addr = 0 then return 0
  setDinode k fun din => { din with addrs := update din.addrs ndirect addr }
  return addr

/-- The `bn`th block of an inode; a missing one is allocated, and 0 means out of space. -/
def bmapWith (alloc : Kernel Nat) (record : Nat → Kernel Unit) (k bn : Nat) : Kernel Nat := do
  let ip ← getInode k
  if bn < ndirect then
    if ip.din.addrs bn ≠ 0 then return ip.din.addrs bn
    let addr ← alloc
    if addr = 0 then return 0
    setDinode k fun din => { din with addrs := update din.addrs bn addr }
    return addr
  let bn := bn - ndirect
  if bn < nindirect then
    let table ← bmapTableWith alloc k
    if table = 0 then return 0
    let a ← bread table
    if Bytes.load 4 a (4 * bn) ≠ 0 then return Bytes.load 4 a (4 * bn)
    let addr ← alloc
    if addr = 0 then return 0
    let a ← bread table
    setBlock table (Bytes.store 4 a (4 * bn) addr)
    record table
    return addr
  fail .bmapOutOfRange

def bmapTable (k : Nat) : Kernel Nat := bmapTableWith (balloc sb) k

def bmap (k bn : Nat) : Kernel Nat := bmapWith (balloc sb) logWrite k bn

/-- The first loop of `itrunc`, over `addrs[i]` and the `n - 1` after it. -/
def freeDirect (k : Nat) : Nat → Nat → Kernel Unit
  | 0, _ => pure ()
  | n + 1, i => do
    let ip ← getInode k
    if ip.din.addrs i ≠ 0 then
      bfree sb (ip.din.addrs i)
      setDinode k fun din => { din with addrs := update din.addrs i 0 }
    freeDirect k n (i + 1)

/-- The second loop of `itrunc`, over the entries of the indirect block. -/
def freeEntries (a : Block) : Nat → Nat → Kernel Unit
  | 0, _ => pure ()
  | n + 1, j => do
    if Bytes.load 4 a (4 * j) ≠ 0 then bfree sb (Bytes.load 4 a (4 * j))
    freeEntries a n (j + 1)

def itrunc (k : Nat) : Kernel Unit := do
  freeDirect sb k ndirect 0
  let ip ← getInode k
  if ip.din.addrs ndirect ≠ 0 then
    let a ← bread (ip.din.addrs ndirect)
    freeEntries sb a nindirect 0
    bfree sb (ip.din.addrs ndirect)
    setDinode k fun din => { din with addrs := update din.addrs ndirect 0 }
  setDinode k fun din => { din with size := 0 }
  iupdate sb k

def iput (k : Nat) : Kernel Unit := do
  let ip ← getInode k
  if ip.ref = 1 ∧ ip.valid ∧ ip.din.nlink = 0 then
    if ip.locked then fail .deadlock
    setInode k { ip with locked := true }
    itrunc sb k
    setDinode k fun din => { din with type := 0 }
    iupdate sb k
    let ip ← getInode k
    setInode k { ip with valid := false, locked := false }
  let ip ← getInode k
  setInode k { ip with ref := ip.ref - 1 }

def iunlockput (k : Nat) : Kernel Unit := do
  iunlock k
  iput sb k

/-- `either_copyout` of `m` bytes to `dst + a`: the memory that can be written, and whether
all of it could. The bytes before the first that cannot are written. -/
def copyout (dst : Bytes.Storage) (ok : Nat → Bool) (a : Nat) (src : Bytes.Storage) (b : Nat) :
    Nat → Bool × Bytes.Storage
  | 0 => (true,dst)
  | m + 1 =>
    if ok a then copyout (update dst a (src b)) ok (a + 1) src (b + 1) m else (false,dst)

/-- The loop of `readi`: `tot` of `n` bytes are read. -/
def readFromWith (map : Nat → Kernel Nat) (n : Nat) (ok : Nat → Bool) :
    Nat → Nat → Nat → Bytes.Storage → Kernel (Int × Bytes.Storage)
  | 0, tot, _, dst => pure (tot,dst)
  | turns + 1, tot, off, dst => do
    if tot < n then
      let addr ← map (off / bsize)
      if addr = 0 then return (tot,dst)
      let blk ← bread addr
      let m := min (n - tot) (bsize - off % bsize)
      match copyout dst ok tot blk (off % bsize) m with
      | (true,dst) => readFromWith map n ok turns (tot + m) (off + m) dst
      | (false,dst) => return (-1,dst)
    else return (tot,dst)

/-- `readi` to a destination that can be written where `ok` says. -/
def readiWith (map : Nat → Kernel Nat) (k : Nat) (dst : Bytes.Storage) (ok : Nat → Bool) (off n : Nat) :
    Kernel (Int × Bytes.Storage) := do
  let ip ← getInode k
  if ip.din.size < off ∨ (off + n) % 2 ^ 32 < off then return (0,dst)
  let n := if ip.din.size < off + n then ip.din.size - off else n
  readFromWith map n ok (n / bsize + 2) 0 off dst

def readi (k : Nat) (dst : Bytes.Storage) (ok : Nat → Bool) (off n : Nat) : Kernel (Int × Bytes.Storage) :=
  readiWith (bmap sb k) k dst ok off n

/-- `either_copyin` of `m` bytes of `src` into a block at `o`: bytes of a source that cannot
be read are `none`. -/
def copyin (blk : Block) (o : Nat) (src : Nat → Option UInt8) (a : Nat) : Nat → Bool × Block
  | 0 => (true,blk)
  | m + 1 =>
    match src a with
    | some byte => copyin (update blk o byte) (o + 1) src (a + 1) m
    | none => (false,blk)

/-- The loop of `writei`: `tot` of `n` bytes are written. The result is the last `tot` and
`off`. -/
def writeFrom (k n : Nat) (src : Nat → Option UInt8) : Nat → Nat → Nat → Kernel (Nat × Nat)
  | 0, tot, off => pure (tot,off)
  | turns + 1, tot, off => do
    if tot < n then
      let addr ← bmap sb k (off / bsize)
      if addr = 0 then return (tot,off)
      let blk ← bread addr
      let m := min (n - tot) (bsize - off % bsize)
      match copyin blk (off % bsize) src tot m with
      | (true,blk) => do
        setBlock addr blk
        logWrite addr
        writeFrom k n src turns (tot + m) (off + m)
      | (false,blk) => do
        setBlock addr blk
        return (tot,off)
    else return (tot,off)

def writei (k : Nat) (src : Nat → Option UInt8) (off n : Nat) : Kernel Int := do
  let ip ← getInode k
  if ip.din.size < off ∨ (off + n) % 2 ^ 32 < off then return -1
  if maxfile * bsize < off + n then return -1
  let (tot,off) ← writeFrom sb k n src (n / bsize + 2) 0 off
  let ip ← getInode k
  if ip.din.size < off then setDinode k fun din => { din with size := off }
  iupdate sb k
  return tot

end Superblock

end Xv6.Fs
