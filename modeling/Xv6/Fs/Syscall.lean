import Xv6.Fs.Dir

/-! The system calls of `sysfile.c` on files and directories, with the part of `file.c` that
they use and the file-system part of `fork` and `exit`. A path is `none` where `argstr` fails.
Pipes are left out, and so is what a device does with the bytes written to it. -/
namespace Xv6.Fs

open Prog Function

def nproc : Nat := 64
def oRdonly : Nat := 0
def oWronly : Nat := 1
def oRdwr : Nat := 2
def oCreate : Nat := 0x200
def oTrunc : Nat := 0x400
def console : Nat := 1

/-- `omode & flag` as a condition. -/
def hasMode (omode flag : Nat) : Bool := omode &&& flag != 0

/-! The file table. -/

def getFile (f : Nat) : Kernel File := asks fun s => s.ftable f

def setFile (f : Nat) (file : File) : Kernel Unit :=
  modify fun s => { s with ftable := update s.ftable f file }

def filealloc : Kernel (Option Nat) := do
  let s ← get
  match (List.range nfile).find? fun f => (s.ftable f).ref = 0 with
  | some f => do
    setFile f { s.ftable f with ref := 1 }
    return some f
  | none => return none

def filedup (f : Nat) : Kernel Unit := do
  let file ← getFile f
  if file.ref < 1 then fail .filedup
  setFile f { file with ref := file.ref + 1 }

section Superblock

variable (sb : Superblock)

def fileclose (f : Nat) : Kernel Unit := do
  let file ← getFile f
  if file.ref < 1 then fail .fileclose
  if file.ref - 1 > 0 then setFile f { file with ref := file.ref - 1 }
  else
    setFile f { file with ref := 0, type := .none }
    if file.type = .inode ∨ file.type = .device then
      beginOp
      iput sb file.ip
      endOp

/-- The bytes that can be read, of `m` from `a` on. -/
def readable (src : Nat → Option UInt8) (a : Nat) : Nat → Nat
  | 0 => 0
  | m + 1 => if (src a).isSome then readable src (a + 1) m + 1 else 0

/-- The bytes of one transaction of `filewrite`. -/
def writeMax : Nat := (maxOpBlocks - 1 - 1 - 2) / 2 * bsize

def filewriteFrom (f : Nat) (src : Nat → Option UInt8) (n : Nat) : Nat → Nat → Kernel Nat
  | 0, i => pure i
  | turns + 1, i => do
    if i < n then
      let n1 := min (n - i) writeMax
      beginOp
      let file ← getFile f
      ilock sb file.ip
      let r ← writei sb file.ip (fun a => src (i + a)) file.off n1
      if r > 0 then setFile f { file with off := (file.off + r.toNat) % 2 ^ 32 }
      iunlock file.ip
      endOp
      if r ≠ n1 then return i
      filewriteFrom f src n turns (i + n1)
    else return i

def filewrite (f : Nat) (src : Nat → Option UInt8) (n : Int) : Kernel Int := do
  let file ← getFile f
  if !file.writable then return -1
  match file.type with
  | .device =>
    if short file.major < 0 ∨ ndev ≤ short file.major ∨ file.major ≠ console then return -1
    return readable src 0 n.toNat
  | .inode => do
    let i ← filewriteFrom sb f src n.toNat (n.toNat / writeMax + 1) 0
    return if (i : Int) = n then n else -1
  | .none => fail .filewrite

/-! System calls of the process `p`. -/

def myproc (p : Nat) : Kernel Proc := do
  match (← get).proc p with
  | some pr => return pr
  | none => fail .stuck

def setProc (p : Nat) (pr : Option Proc) : Kernel Unit :=
  modify fun s => { s with proc := update s.proc p pr }

def setOfile (p : Nat) (pr : Proc) (fd : Nat) (f : Option Nat) : Kernel Unit :=
  setProc p (some { pr with ofile := update pr.ofile fd f })

def argfd (p fd : Nat) : Kernel (Option Nat) := do
  let pr ← myproc p
  return if fd < nofile then pr.ofile fd else none

def fdalloc (p f : Nat) : Kernel (Option Nat) := do
  let pr ← myproc p
  match (List.range nofile).find? fun fd => (pr.ofile fd).isNone with
  | some fd => do
    setOfile p pr fd (some f)
    return some fd
  | none => return none

def sysDup (p fd : Nat) : Kernel Int := do
  match ← argfd p fd with
  | none => return -1
  | some f => do
    match ← fdalloc p f with
    | none => return -1
    | some fd => do
      filedup f
      return fd

def sysWrite (p fd : Nat) (src : Nat → Option UInt8) (n : Int) : Kernel Int := do
  match ← argfd p fd with
  | none => return -1
  | some f => filewrite sb f src n

def sysClose (p fd : Nat) : Kernel Int := do
  match ← argfd p fd with
  | none => return -1
  | some f => do
    let pr ← myproc p
    setOfile p pr fd none
    fileclose sb f
    return 0

def nlinkInc (k : Nat) : Kernel Unit := setDinode k fun din => { din with nlink := (din.nlink + 1) % 2 ^ 16 }

def nlinkDec (k : Nat) : Kernel Unit :=
  setDinode k fun din => { din with nlink := (din.nlink + (2 ^ 16 - 1)) % 2 ^ 16 }

/-- From the label `bad` of `sys_link` on. -/
def linkBad (ip : Nat) : Kernel Int := do
  ilock sb ip
  nlinkDec ip
  iupdate sb ip
  iunlockput sb ip
  endOp
  return -1

def sysLink (p : Nat) (old new : Option (List UInt8)) : Kernel Int := do
  match old, new with
  | some old, some new => do
    let cwd := (← myproc p).cwd
    beginOp
    match ← namei sb cwd old with
    | none => do
      endOp
      return -1
    | some ip => do
      ilock sb ip
      if (← getInode ip).din.type = tDir then
        iunlockput sb ip
        endOp
        return -1
      nlinkInc ip
      iupdate sb ip
      iunlock ip
      match ← nameiparent sb cwd new with
      | none => linkBad sb ip
      | some (dp,name) => do
        ilock sb dp
        let r ← dirlink sb dp name (← getInode ip).inum
        iunlockput sb dp
        if r < 0 then linkBad sb ip
        else
          iput sb ip
          endOp
          return 0
  | _, _ => return -1

def isdiremptyFromWith (map : Nat → Kernel Nat) (k : Nat) : Nat → Nat → Kernel Bool
  | 0, _ => pure true
  | n + 1, off => do
    let (r,de) ← readDirentWith map k off
    if r ≠ direntSize then fail .isdiremptyReadi
    if de.inum ≠ 0 then return false
    isdiremptyFromWith map k n (off + direntSize)

def isdiremptyWith (map : Nat → Kernel Nat) (k : Nat) : Kernel Bool := do
  let dp ← getInode k
  isdiremptyFromWith map k (direntCount dp.din.size - 2) (2 * direntSize)

def isdirempty (k : Nat) : Kernel Bool := isdiremptyWith (bmap sb k) k

def dot : List UInt8 := [46]
def dotdot : List UInt8 := [46,46]

def unlinkBad (dp : Nat) : Kernel Int := do
  iunlockput sb dp
  endOp
  return -1

/-- `ip->type == T_DIR && !isdirempty(ip)`. -/
def isFull (ip type : Nat) : Kernel Bool := do
  if type = tDir then
    let empty ← isdirempty sb ip
    return !empty
  else return false

/-- The rest of `sys_unlink`: the entry at `off` in `dp` names `ip`. -/
def unlinkFound (dp ip off : Nat) : Kernel Int := do
  ilock sb ip
  let din := (← getInode ip).din
  if short din.nlink < 1 then fail .unlinkNlink
  let full ← isFull sb ip din.type
  if full then
    iunlockput sb ip
    unlinkBad sb dp
  else
    let r ← writei sb dp (putDirent ⟨0,[]⟩) off direntSize
    if r ≠ direntSize then fail .unlinkWritei
    if din.type = tDir then
      nlinkDec dp
      iupdate sb dp
    iunlockput sb dp
    nlinkDec ip
    iupdate sb ip
    iunlockput sb ip
    endOp
    return 0

def sysUnlink (p : Nat) (path : Option (List UInt8)) : Kernel Int := do
  match path with
  | none => return -1
  | some path => do
    let cwd := (← myproc p).cwd
    beginOp
    match ← nameiparent sb cwd path with
    | none => do
      endOp
      return -1
    | some (dp,name) => do
      ilock sb dp
      if namecmp name dot = 0 ∨ namecmp name dotdot = 0 then unlinkBad sb dp
      else
        match ← dirlookup sb dp name with
        | none => unlinkBad sb dp
        | some (ip,off) => unlinkFound sb dp ip off

def createFail (dp ip : Nat) : Kernel (Option Nat) := do
  setDinode ip fun din => { din with nlink := 0 }
  iupdate sb ip
  iunlockput sb ip
  iunlockput sb dp
  return none

/-- A new directory gets its `.` and `..` entries. -/
def createDots (ip type self up : Nat) : Kernel Int := do
  if type = tDir then
    let r ← dirlink sb ip dot self
    if r < 0 then return r
    dirlink sb ip dotdot up
  else return 0

/-- The rest of `create` from `ialloc` on: the name is not in `dp` yet. -/
def createNew (dp : Nat) (name : List UInt8) (type major minor : Nat) : Kernel (Option Nat) := do
  match ← ialloc sb type with
  | none => do
    iunlockput sb dp
    return none
  | some ip => do
    ilock sb ip
    setDinode ip fun din => { din with major := major, minor := minor, nlink := 1 }
    iupdate sb ip
    let self := (← getInode ip).inum
    let up := (← getInode dp).inum
    let dots ← createDots sb ip type self up
    if dots < 0 then createFail sb dp ip
    else
      let r ← dirlink sb dp name self
      if r < 0 then createFail sb dp ip
      else
        if type = tDir then
          nlinkInc dp
          iupdate sb dp
        iunlockput sb dp
        return some ip

/-- The new inode, locked, or an existing file if a file was asked for. -/
def create (cwd : Nat) (path : List UInt8) (type major minor : Nat) : Kernel (Option Nat) := do
  match ← nameiparent sb cwd path with
  | none => return none
  | some (dp,name) => do
    ilock sb dp
    match ← dirlookup sb dp name with
    | some (ip,_) => do
      iunlockput sb dp
      ilock sb ip
      let din := (← getInode ip).din
      if type = tFile ∧ (din.type = tFile ∨ din.type = tDevice) then return some ip
      iunlockput sb ip
      return none
    | none => createNew sb dp name type major minor

/-- An error exit of `sys_open` that holds the inode. -/
def openBad (ip : Nat) : Kernel Int := do
  iunlockput sb ip
  endOp
  return -1

/-- `sys_open` from the check of the device number on, with the inode locked. -/
def openInode (p ip omode : Nat) : Kernel Int := do
  let din := (← getInode ip).din
  if din.type = tDevice ∧ (short din.major < 0 ∨ ndev ≤ short din.major) then openBad sb ip
  else
    match ← filealloc with
    | none => openBad sb ip
    | some f => do
      match ← fdalloc p f with
      | none => do
        fileclose sb f
        openBad sb ip
      | some fd => do
        let file ← getFile f
        setFile f { file with
          type := if din.type = tDevice then .device else .inode
          major := if din.type = tDevice then din.major else file.major
          off := if din.type = tDevice then file.off else 0
          ip := ip
          readable := !hasMode omode oWronly
          writable := hasMode omode oWronly || hasMode omode oRdwr }
        if hasMode omode oTrunc ∧ din.type = tFile then itrunc sb ip
        iunlock ip
        endOp
        return fd

def sysOpen (p : Nat) (path : Option (List UInt8)) (omode : Nat) : Kernel Int := do
  match path with
  | none => return -1
  | some path => do
    let cwd := (← myproc p).cwd
    beginOp
    if hasMode omode oCreate then
      match ← create sb cwd path tFile 0 0 with
      | none => do
        endOp
        return -1
      | some ip => openInode sb p ip omode
    else
      match ← namei sb cwd path with
      | none => do
        endOp
        return -1
      | some ip => do
        ilock sb ip
        if (← getInode ip).din.type = tDir ∧ omode ≠ oRdonly then openBad sb ip
        else openInode sb p ip omode

/-- `sys_mkdir` and `sys_mknod`; the device numbers are passed as `short`s. -/
def makeNode (p : Nat) (path : Option (List UInt8)) (type major minor : Nat) : Kernel Int := do
  let cwd := (← myproc p).cwd
  beginOp
  match path with
  | none => do
    endOp
    return -1
  | some path => do
    match ← create sb cwd path type (major % 2 ^ 16) (minor % 2 ^ 16) with
    | none => do
      endOp
      return -1
    | some ip => do
      iunlockput sb ip
      endOp
      return 0

def sysMkdir (p : Nat) (path : Option (List UInt8)) : Kernel Int := makeNode sb p path tDir 0 0

def sysMknod (p : Nat) (path : Option (List UInt8)) (major minor : Nat) : Kernel Int :=
  makeNode sb p path tDevice major minor

def sysChdir (p : Nat) (path : Option (List UInt8)) : Kernel Int := do
  let pr ← myproc p
  beginOp
  match path with
  | none => do
    endOp
    return -1
  | some path => do
    match ← namei sb pr.cwd path with
    | none => do
      endOp
      return -1
    | some ip => do
      ilock sb ip
      if (← getInode ip).din.type ≠ tDir then
        iunlockput sb ip
        endOp
        return -1
      iunlock ip
      iput sb pr.cwd
      endOp
      setProc p (some { pr with cwd := ip })
      return 0

def dupFiles (ofile : Nat → Option Nat) : Nat → Nat → Kernel Unit
  | 0, _ => pure ()
  | n + 1, fd => do
    match ofile fd with
    | some f => filedup f
    | none => pure ()
    dupFiles ofile n (fd + 1)

/-- `fork` into the free process slot `child`, where `copied` says that `uvmcopy` has returned 0. -/
def fork (p child : Nat) (copied : Bool) : Kernel Int := do
  let pr ← myproc p
  if copied ∧ child < nproc ∧ ((← get).proc child).isNone then
    dupFiles pr.ofile nofile 0
    let cwd ← idup pr.cwd
    setProc child (some { pr with cwd := cwd })
    return child
  else return -1

def closeFiles (p : Nat) : Nat → Nat → Kernel Unit
  | 0, _ => pure ()
  | n + 1, fd => do
    let pr ← myproc p
    match pr.ofile fd with
    | some f => do
      fileclose sb f
      setOfile p pr fd none
    | none => pure ()
    closeFiles p n (fd + 1)

/-- The first process is `initproc`. -/
def exit (p : Nat) : Kernel Int := do
  if p = 0 then fail .initExiting
  closeFiles sb p nofile 0
  let pr ← myproc p
  beginOp
  iput sb pr.cwd
  endOp
  setProc p none
  return 0

inductive Call where
  | dup (fd : Nat)
  | write (fd : Nat) (src : Nat → Option UInt8) (n : Int)
  | close (fd : Nat)
  | link (old new : Option (List UInt8))
  | unlink (path : Option (List UInt8))
  | open (path : Option (List UInt8)) (omode : Nat)
  | mkdir (path : Option (List UInt8))
  | mknod (path : Option (List UInt8)) (major minor : Nat)
  | chdir (path : Option (List UInt8))
  | fork (child : Nat) (copied : Bool)
  | exit

def syscall (p : Nat) : Call → Kernel Int
  | .dup fd => sysDup p fd
  | .write fd src n => sysWrite sb p fd src n
  | .close fd => sysClose sb p fd
  | .link old new => sysLink sb p old new
  | .unlink path => sysUnlink sb p path
  | .open path omode => sysOpen sb p path omode
  | .mkdir path => sysMkdir sb p path
  | .mknod path major minor => sysMknod sb p path major minor
  | .chdir path => sysChdir sb p path
  | .fork child copied => fork p child copied
  | .exit => exit sb p

/-- A completed call of a process. -/
def step (s : State) (call : Nat × Call) : Option State := (resultOf (syscall sb call.1 call.2) s).map Prod.snd

/-- The machine after `userinit`: the first process is in the root directory of the image. -/
def boot (image : Disk) : State where
  disk := image
  log := ⟨sb.logstart,sb.nlog,0,false,[]⟩
  itable k := ⟨if k = 0 then rootino else 0,if k = 0 then 1 else 0,false,false,Dinode.blank 0⟩
  ftable _ := ⟨.none,0,false,false,0,0,0⟩
  proc p := if p = 0 then some ⟨0,fun _ => none⟩ else none

end Superblock

end Xv6.Fs
