import Xv6.Vm

/-! User memory as system calls see it: its size, and the copies between it and the kernel. -/
namespace Xv6.Vm

open Prog

/-- `PGROUNDUP`, in 64 bits. -/
def pgroundup (sz : Nat) : Nat := (sz + pgsize - 1) % 2 ^ 64 / pgsize * pgsize

/-- An `int` that is passed as a `uint64`. -/
def ofInt (n : Nat) : Nat := if n % 2 ^ 32 < 2 ^ 31 then n % 2 ^ 32 else n % 2 ^ 32 + (2 ^ 64 - 2 ^ 32)

def memmoveTo (a : Nat) (bytes : List UInt8) : Kernel Unit :=
  if mapped a then modify fun s => { s with mem := Bytes.splice s.mem a bytes } else fail .kerneltrap

/-- `memmove` of `n` bytes from a kernel address. -/
def memmoveFrom (a n : Nat) : Kernel (List UInt8) :=
  if mapped a then asks fun s => (List.range n).map fun i => s.mem (a + i) else fail .kerneltrap

def walkaddr (pagetable va : Nat) : Kernel Nat :=
  if maxva ≤ va then pure 0
  else do
    let slot ← walk pagetable va false
    if slot = 0 then return 0
    let pte ← load64 slot
    if !has pte pteV then return 0
    if !has pte pteU then return 0
    return pte2pa pte

def uvmdealloc (pagetable oldsz newsz : Nat) : Kernel Nat := do
  if oldsz ≤ newsz then return oldsz
  if pgroundup newsz < pgroundup oldsz then
    uvmunmap pagetable (pgroundup newsz) (ofInt ((pgroundup oldsz - pgroundup newsz) / pgsize)) true
  return newsz

/-- The loop of `uvmalloc` for at most `turns` pages from `a` on; `oldsz` is a multiple of the
page size. -/
def allocFrom (pagetable oldsz newsz xperm : Nat) : Nat → Nat → Kernel Nat
  | 0, _ => fail .diverges
  | turns + 1, a => do
    if newsz ≤ a then return newsz
    let mem ← kalloc
    if mem = 0 then
      let _ ← uvmdealloc pagetable a oldsz
      return 0
    memsetPage mem 0
    let r ← mappages pagetable a pgsize mem (pteR ||| pteU ||| xperm)
    if r ≠ 0 then
      kfree mem
      let _ ← uvmdealloc pagetable a oldsz
      return 0
    allocFrom pagetable oldsz newsz xperm turns ((a + pgsize) % 2 ^ 64)

/-- Beyond this many pages `walk` panics. -/
def uvmalloc (pagetable oldsz newsz xperm : Nat) : Kernel Nat :=
  if newsz < oldsz then pure oldsz
  else allocFrom pagetable (pgroundup oldsz) newsz xperm (maxva / pgsize + 2) (pgroundup oldsz)

/-- The loop of `copyout`; every turn but the last fills a page. -/
def copyoutFrom (pagetable : Nat) : Nat → Nat → List UInt8 → Kernel Int
  | 0, _, _ => fail .diverges
  | turns + 1, dstva, src => do
    if src.length = 0 then return 0
    let va0 := pgrounddown dstva
    let pa0 ← walkaddr pagetable va0
    if pa0 = 0 then return -1
    let n := min (pgsize - (dstva - va0)) src.length
    memmoveTo (pa0 + (dstva - va0)) (src.take n)
    copyoutFrom pagetable turns ((va0 + pgsize) % 2 ^ 64) (src.drop n)

def copyout (pagetable dstva : Nat) (src : List UInt8) : Kernel Int :=
  copyoutFrom pagetable (src.length + 1) dstva src

/-- The loop of `copyin` of `len` more bytes. The result is what has been copied, and whether that is all. -/
def copyinFrom (pagetable : Nat) : Nat → Nat → Nat → Kernel (List UInt8 × Bool)
  | 0, _, _ => fail .diverges
  | turns + 1, srcva, len => do
    if len = 0 then return ([],true)
    let va0 := pgrounddown srcva
    let pa0 ← walkaddr pagetable va0
    if pa0 = 0 then return ([],false)
    let n := min (pgsize - (srcva - va0)) len
    let bytes ← memmoveFrom (pa0 + (srcva - va0)) n
    let (rest,all) ← copyinFrom pagetable turns ((va0 + pgsize) % 2 ^ 64) (len - n)
    return (bytes ++ rest,all)

def copyin (pagetable srcva len : Nat) : Kernel (List UInt8 × Bool) :=
  copyinFrom pagetable (len + 1) srcva len

/-- The loop of `copyinstr` of at most `max` more bytes. The result is what has been copied, and
whether a null byte has been seen. -/
def copyinstrFrom (pagetable : Nat) : Nat → Nat → Nat → Kernel (List UInt8 × Bool)
  | 0, _, _ => fail .diverges
  | turns + 1, srcva, max => do
    if max = 0 then return ([],false)
    let va0 := pgrounddown srcva
    let pa0 ← walkaddr pagetable va0
    if pa0 = 0 then return ([],false)
    let n := min (pgsize - (srcva - va0)) max
    let bytes ← memmoveFrom (pa0 + (srcva - va0)) n
    if bytes.contains 0 then return (bytes.takeWhile (· ≠ 0),true)
    let (rest,null) ← copyinstrFrom pagetable turns ((va0 + pgsize) % 2 ^ 64) (max - n)
    return (bytes ++ rest,null)

/-- The bytes before the null byte, if there is one among the first `max`. -/
def copyinstr (pagetable srcva max : Nat) : Kernel (List UInt8 × Bool) :=
  copyinstrFrom pagetable (max + 1) srcva max

end Xv6.Vm

namespace Xv6.Uvm

open Prog Vm

/-- The fields of `struct proc` that `growproc` uses. -/
structure Proc where
  pagetable : Nat
  sz : Nat
  deriving DecidableEq, Repr

/-- `sz + n` of `growproc`, in 64 bits. -/
def grown (sz : Nat) (n : Int) : Nat := ((sz + n) % 2 ^ 64).toNat

def growproc (p : Proc) (n : Int) : Kernel (Int × Proc) := do
  if 0 < n then
    let sz ← uvmalloc p.pagetable p.sz (grown p.sz n) pteW
    if sz = 0 then return (-1,p)
    return (0,{ p with sz := sz })
  else if n < 0 then
    let sz ← uvmdealloc p.pagetable p.sz (grown p.sz n)
    return (0,{ p with sz := sz })
  else return (0,p)

end Xv6.Uvm
