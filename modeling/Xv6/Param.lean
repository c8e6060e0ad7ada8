import Mathlib.Algebra.Group.Nat.Defs
import Mathlib.Data.Nat.Basic

/-! Constants of `param.h`, `fs.h`, `stat.h`, `riscv.h` and `memlayout.h` under their own
names. Sizes are in bytes unless the name says blocks. -/
namespace Xv6

-- param.h
def nofile : Nat := 16
def nfile : Nat := 100
def ninode : Nat := 50
def ndev : Nat := 10
def maxOpBlocks : Nat := 10
/-- Data blocks the header of the on-disk log can name. -/
def logSize : Nat := maxOpBlocks * 3
/-- Buffers of the disk block cache. -/
def nbuf : Nat := maxOpBlocks * 3

-- fs.h
def rootino : Nat := 1
def bsize : Nat := 1024
def ndirect : Nat := 12
def nindirect : Nat := bsize / 4
def maxfile : Nat := ndirect + nindirect
/-- `sizeof(struct dinode)`: four shorts, the size and thirteen addresses. -/
def dinodeSize : Nat := 64
def ipb : Nat := bsize / dinodeSize
def bpb : Nat := bsize * 8
def dirsiz : Nat := 14
/-- `sizeof(struct dirent)`: a `ushort` and the name. -/
def direntSize : Nat := 16

-- riscv.h
def pgsize : Nat := 4096
def pteV : Nat := 1
def pteR : Nat := 2
def pteW : Nat := 4
def pteX : Nat := 8
def pteU : Nat := 16
/-- One beyond the highest virtual address. -/
def maxva : Nat := 2 ^ 38

-- memlayout.h
def kernbase : Nat := 0x80000000
def phystop : Nat := kernbase + 128 * 1024 * 1024
def trampoline : Nat := maxva - pgsize
def trapframe : Nat := trampoline - pgsize

end Xv6
