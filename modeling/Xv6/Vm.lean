import Xv6.Bytes
import Xv6.Param
import Xv6.Prog

/-! Physical pages and user page tables: `kalloc.c`, the radix-tree part of `vm.c`, and the
copy-on-write paths of `uvmcopy` and of `usertrap`. Memory is the bytes at physical
addresses, which is also how the kernel addresses them. -/
namespace Xv6.Vm

inductive Panic where
  | kfree
  | walk
  | mapSize
  | remap
  | notAligned
  | unmapWalk
  | notMapped
  | notLeaf
  | pteMissing
  | pageMissing
  | decRef
  /-- A page fault in the kernel itself, which `kerneltrap` answers with its panic. -/
  | kerneltrap
  /-- A loop that does not end: the backward `goto err` of `uvmcopy` taken over and over. -/
  | diverges
  deriving DecidableEq, Repr

/-- `kend` is the linker's `end`; a null `freelist` is 0. `failures` counts the calls of
`kalloc` that returned 0: the code does not keep it. -/
structure State where
  mem : Bytes.Storage
  freelist : Nat
  kend : Nat
  failures : Nat

abbrev Kernel := Prog Panic State

open Prog

def pgrounddown (a : Nat) : Nat := a / pgsize * pgsize
def px (level va : Nat) : Nat := va / 2 ^ (12 + 9 * level) % 512
def pa2pte (pa : Nat) : Nat := pa / 2 ^ 12 * 2 ^ 10
def pte2pa (pte : Nat) : Nat := pte / 2 ^ 10 * 2 ^ 12 % 2 ^ 64
def pteFlags (pte : Nat) : Nat := pte % 2 ^ 10
def has (pte flag : Nat) : Bool := pte &&& flag != 0

/-- The kernel page table maps RAM at its own addresses, and nothing at 0. -/
def mapped (a : Nat) : Bool := kernbase ≤ a && a < phystop

def load64 (a : Nat) : Kernel Nat :=
  if mapped a then asks fun s => Bytes.load 8 s.mem a else fail .kerneltrap

def store64 (a v : Nat) : Kernel Unit :=
  if mapped a then modify fun s => { s with mem := Bytes.store 8 s.mem a v } else fail .kerneltrap

def memsetPage (a : Nat) (byte : UInt8) : Kernel Unit :=
  modify fun s => { s with mem := Bytes.fill s.mem a pgsize byte }

def memmovePage (dst src : Nat) : Kernel Unit :=
  if mapped dst && mapped src then
    modify fun s => { s with mem := Bytes.copy s.mem dst s.mem src pgsize }
  else fail .kerneltrap

def kalloc : Kernel Nat := do
  let s ← get
  if s.freelist = 0 then
    modify fun s => { s with failures := s.failures + 1 }
    return 0
  modify fun s => { s with freelist := Bytes.load 8 s.mem s.freelist }
  memsetPage s.freelist 5
  return s.freelist

def kfree (pa : Nat) : Kernel Unit := do
  let s ← get
  if pa % pgsize ≠ 0 ∨ pa < s.kend ∨ phystop ≤ pa then fail .kfree
  memsetPage pa 1
  store64 pa s.freelist
  modify fun s => { s with freelist := pa }

/-- The loop of `walk` at `level`; the result is the address of the PTE, or 0. -/
def walkFrom (pagetable va : Nat) (alloc : Bool) : Nat → Kernel Nat
  | 0 => pure (pagetable + 8 * px 0 va)
  | level + 1 => do
    let slot := pagetable + 8 * px (level + 1) va
    let pte ← load64 slot
    if has pte pteV then walkFrom (pte2pa pte) va alloc level
    else if !alloc then return 0
    else
      let page ← kalloc
      if page = 0 then return 0
      memsetPage page 0
      store64 slot (pa2pte page ||| pteV)
      walkFrom page va alloc level

def walk (pagetable va : Nat) (alloc : Bool) : Kernel Nat :=
  if maxva ≤ va then fail .walk else walkFrom pagetable va alloc 2

/-- The loop of `mappages` for at most `turns` pages. -/
def mapFrom (pagetable last perm : Nat) : Nat → Nat → Nat → Kernel Int
  | 0, _, _ => pure 0
  | turns + 1, a, pa => do
    let slot ← walk pagetable a true
    if slot = 0 then return -1
    let pte ← load64 slot
    if has pte pteV then fail .remap
    store64 slot (pa2pte pa ||| perm ||| pteV)
    if a = last then return 0
    mapFrom pagetable last perm turns ((a + pgsize) % 2 ^ 64) ((pa + pgsize) % 2 ^ 64)

/-- The loop ends at `last` or in the panic of `walk`, so this many turns are enough. -/
def mapTurns (a last : Nat) : Nat :=
  if a ≤ last then (last - a) / pgsize + 1 else maxva / pgsize + 1

def mappages (pagetable va size pa perm : Nat) : Kernel Int := do
  if size = 0 then fail .mapSize
  let a := pgrounddown va
  let last := pgrounddown ((va + size - 1) % 2 ^ 64)
  mapFrom pagetable last perm (mapTurns a last) a pa

def unmapFrom (pagetable : Nat) (doFree : Bool) : Nat → Nat → Kernel Unit
  | 0, _ => pure ()
  | n + 1, a => do
    let slot ← walk pagetable a false
    if slot = 0 then fail .unmapWalk
    let pte ← load64 slot
    if !has pte pteV then fail .notMapped
    if pteFlags pte = pteV then fail .notLeaf
    if doFree then kfree (pte2pa pte)
    store64 slot 0
    unmapFrom pagetable doFree n (a + pgsize)

def uvmunmap (pagetable va npages : Nat) (doFree : Bool) : Kernel Unit := do
  if va % pgsize ≠ 0 then fail .notAligned
  let stop := (va + npages * pgsize) % 2 ^ 64
  unmapFrom pagetable doFree ((stop - va) / pgsize) va

/-- From the label `err` on: the parent's page is unmapped and mapped again. The callee takes
pages where the caller passes bytes. A second turn panics, since the page is gone. -/
def remapParent (old i pa flags : Nat) : Nat → Kernel Unit
  | 0 => fail .diverges
  | turns + 1 => do
    uvmunmap old i pgsize false
    let r ← mappages old i pgsize pa flags
    if r ≠ 0 then remapParent old i pa flags turns

/-- The loop of `uvmcopy` for `n` more pages. A failing `mappages` jumps to where the other
path arrives as well. -/
def copyFrom (old new : Nat) : Nat → Nat → Kernel Int
  | 0, _ => pure (-1)
  | n + 1, i => do
    let slot ← walk old i false
    if slot = 0 then fail .pteMissing
    let pte ← load64 slot
    if !has pte pteV then fail .pageMissing
    let pa := pte2pa pte
    let flags := (pteFlags pte ||| pteR) &&& (2 ^ 32 - 1 - pteW)
    let _ ← mappages new i pgsize pa flags
    remapParent old i pa flags 3
    copyFrom old new n (i + pgsize)

def uvmcopy (old new sz : Nat) : Kernel Int := copyFrom old new ((sz + pgsize - 1) / pgsize) 0

/-- The fields of `struct proc` that the handler of a store fault uses. -/
structure Proc where
  pagetable : Nat
  killed : Bool
  deriving DecidableEq, Repr

/-- `dec_ref` works on a constant, not on a count of references. -/
def decRef : Kernel Unit :=
  let curCount : Int := 10
  if curCount ≤ 0 then fail .decRef else pure ()

/-- `usertrap` on scause 15, up to its test of `killed`. A missing entry marks the process
killed and is read all the same. -/
def storeFault (p : Proc) (stval : Nat) : Kernel Proc := do
  let va := pgrounddown stval
  let slot ← walk p.pagetable va false
  let p := if slot = 0 then { p with killed := true } else p
  let pte ← load64 slot
  if has pte pteV && has pte pteU && has pte pteR then
    let flags := (pteFlags pte ||| pteW) &&& (2 ^ 32 - 1 - pteR)
    let page ← kalloc
    let pa := pte2pa (← load64 slot)
    memmovePage page pa
    uvmunmap p.pagetable va pgsize false
    decRef
    let r ← mappages p.pagetable va pgsize page flags
    return if r ≠ 0 then { p with killed := true } else p
  else return p

end Xv6.Vm
