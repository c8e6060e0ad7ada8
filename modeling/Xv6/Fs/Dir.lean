import Xv6.Fs.Inode

/-! Directories and paths: the upper half of `fs.c`, and the string functions that it uses. A
string is the list of its bytes; reading past the end of the list reads the terminating 0. -/
namespace Xv6.Fs

open Prog

/-! Strings. -/

def strncmp : Nat → List UInt8 → List UInt8 → Int
  | 0, _, _ => 0
  | n + 1, p, q =>
    if p.headD 0 ≠ 0 ∧ p.headD 0 = q.headD 0 then strncmp n p.tail q.tail
    else (p.headD 0).toNat - (q.headD 0).toNat

/-- The `n` bytes that `strncpy` writes. -/
def strncpy : Nat → List UInt8 → List UInt8
  | 0, _ => []
  | n + 1, t => if t.headD 0 ≠ 0 then t.headD 0 :: strncpy n t.tail else List.replicate (n + 1) 0

def namecmp (s t : List UInt8) : Int := strncmp dirsiz s t

def slash : UInt8 := 47

/-- `while(*path == '/') path++`. -/
def skipSlashes (path : List UInt8) : List UInt8 := path.dropWhile (· == slash)

/-- A byte of a path element. -/
def elemByte (c : UInt8) : Bool := c != slash && c != 0

/-- The next path element and the rest of the path, or nothing if there is none. -/
def skipelem (path : List UInt8) : Option (List UInt8 × List UInt8) :=
  let path := skipSlashes path
  if path.headD 0 = 0 then none
  else
    let name := path.takeWhile elemByte
    some (name.take dirsiz,skipSlashes (path.dropWhile elemByte))

/-! Directories. -/

def tDir : Nat := 1
def tFile : Nat := 2
def tDevice : Nat := 3

/-- `struct dirent`. -/
structure Dirent where
  inum : Nat
  name : List UInt8
  deriving DecidableEq, Repr

def getDirent (m : Bytes.Storage) (off : Nat) : Dirent :=
  ⟨Bytes.load 2 m off,(List.range dirsiz).map fun j => m (off + 2 + j)⟩

/-- The bytes of an entry as a source for `writei`. -/
def putDirent (de : Dirent) : Nat → Option UInt8 := fun j =>
  if j < 2 then some (UInt8.ofNat (de.inum / 256 ^ j)) else some (de.name.getD (j - 2) 0)

section Superblock

variable (sb : Superblock)

section Readers

variable (map : Nat → Kernel Nat) (k : Nat)

/-- `readi` of one entry into a local `struct dirent`. -/
def readDirentWith (off : Nat) : Kernel (Int × Dirent) := do
  let (n,buf) ← readiWith map k (fun _ => 0) (fun _ => true) off direntSize
  return (n,getDirent buf 0)

def dirlookupFromWith (name : List UInt8) : Nat → Nat → Kernel (Option (Nat × Nat))
  | 0, _ => pure none
  | n + 1, off => do
    let (r,de) ← readDirentWith map k off
    if r ≠ direntSize then fail .dirlookupRead
    if de.inum ≠ 0 ∧ namecmp name de.name = 0 then
      let ip ← iget de.inum
      return some (ip,off)
    dirlookupFromWith name n (off + direntSize)

/-- The number of turns of a loop over the entries of a directory of this size. -/
def direntCount (size : Nat) : Nat := (size + direntSize - 1) / direntSize

/-- The entry's inode, referenced, and the offset of the entry. -/
def dirlookupWith (name : List UInt8) : Kernel (Option (Nat × Nat)) := do
  let dp ← getInode k
  if dp.din.type ≠ tDir then fail .dirlookupNotDir
  dirlookupFromWith map k name (direntCount dp.din.size) 0

end Readers

def readDirent (k off : Nat) : Kernel (Int × Dirent) := readDirentWith (bmap sb k) k off

def dirlookup (k : Nat) (name : List UInt8) : Kernel (Option (Nat × Nat)) := dirlookupWith (bmap sb k) k name

/-- The second loop of `dirlink`: the offset of an empty entry, or of the end. -/
def emptyDirent (k : Nat) : Nat → Nat → Kernel Nat
  | 0, off => pure off
  | n + 1, off => do
    let (r,de) ← readDirent sb k off
    if r ≠ direntSize then fail .dirlinkRead
    if de.inum = 0 then return off
    emptyDirent k n (off + direntSize)

def dirlink (k : Nat) (name : List UInt8) (inum : Nat) : Kernel Int := do
  match ← dirlookup sb k name with
  | some (ip,_) => do
    iput sb ip
    return -1
  | none => do
    let dp ← getInode k
    let off ← emptyDirent sb k (direntCount dp.din.size) 0
    let r ← writei sb k (putDirent ⟨inum,strncpy dirsiz name⟩) off direntSize
    return if r ≠ direntSize then -1 else 0

/-! Paths. -/

/-- The loop of `namex` for at most `turns` path elements; with `parent` it stops one element
early and returns that element. -/
def namexFrom (parent : Bool) : Nat → Nat → List UInt8 → Kernel (Option (Nat × List UInt8))
  | 0, _, _ => fail .stuck
  | turns + 1, ip, path =>
    match skipelem path with
    | none => do
      if parent then
        iput sb ip
        return none
      return some (ip,[])
    | some (name,path) => do
      ilock sb ip
      let dp ← getInode ip
      if dp.din.type ≠ tDir then
        iunlockput sb ip
        return none
      if parent ∧ path.headD 0 = 0 then
        iunlock ip
        return some (ip,name)
      match ← dirlookup sb ip name with
      | none => do
        iunlockput sb ip
        return none
      | some (next,_) => do
        iunlockput sb ip
        namexFrom parent turns next path

/-- Each element takes a byte of the path, so its length bounds the turns. -/
def namex (cwd : Nat) (path : List UInt8) (parent : Bool) : Kernel (Option (Nat × List UInt8)) := do
  let ip ← if path.headD 0 = slash then iget rootino else idup cwd
  namexFrom sb parent (path.length + 1) ip path

def namei (cwd : Nat) (path : List UInt8) : Kernel (Option Nat) := do
  let found ← namex sb cwd path false
  return found.map Prod.fst

/-- The parent's inode and the last element of the path. -/
def nameiparent (cwd : Nat) (path : List UInt8) : Kernel (Option (Nat × List UInt8)) := namex sb cwd path true

end Superblock

end Xv6.Fs
