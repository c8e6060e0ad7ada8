import Mathlib.Data.List.Basic
import Mathlib.Logic.Function.Basic

/-! The ring of a pipe. -/
namespace Xv6

open Function

abbrev pipesize : Nat := 512

/-- `struct pipe` without its lock, and the bytes that have gone in and out: those accepted from
writers, and those taken out for readers with the success of their `copyout`. -/
structure Pipe where
  data : Fin pipesize → UInt8
  nread : BitVec 32
  nwrite : BitVec 32
  readopen : Bool
  writeopen : Bool
  accepted : List UInt8
  taken : List (UInt8 × Bool)

namespace Pipe

def slot (n : BitVec 32) : Fin pipesize := ⟨n.toNat % pipesize,Nat.mod_lt _ (by decide)⟩

def isEmpty (pi : Pipe) : Bool := pi.nread == pi.nwrite
def isFull (pi : Pipe) : Bool := pi.nwrite == pi.nread + BitVec.ofNat 32 pipesize

/-- `pi->data[pi->nwrite++ % PIPESIZE] = ch`. -/
def put (pi : Pipe) (ch : UInt8) : Pipe :=
  { pi with data := update pi.data (slot pi.nwrite) ch, nwrite := pi.nwrite + 1, accepted := pi.accepted ++ [ch] }

/-- `ch = pi->data[pi->nread++ % PIPESIZE]`, with what becomes of its `copyout`. -/
def take (pi : Pipe) (copied : Bool) : Pipe :=
  { pi with nread := pi.nread + 1, taken := pi.taken ++ [(pi.data (slot pi.nread),copied)] }

/-- What `pipealloc` makes of a page. -/
def alloc (data : Fin pipesize → UInt8) : Pipe := ⟨data,0,0,true,true,[],[]⟩

/-- `nwrite - nread`, modulo 2^32. -/
def count (pi : Pipe) : Nat := (pi.nwrite - pi.nread).toNat

def ring (pi : Pipe) : List UInt8 := (List.range pi.count).map fun i => pi.data (slot (pi.nread + BitVec.ofNat 32 i))

def delivered (pi : Pipe) : List UInt8 := (pi.taken.filter (·.2)).map (·.1)

/-- The ring is not overfull and has what was accepted and not yet taken. -/
structure Fifo (pi : Pipe) : Prop where
  count : pi.count ≤ pipesize
  bytes : pi.accepted = pi.taken.map (·.1) ++ pi.ring

variable {pi : Pipe}

theorem fifo_alloc (data : Fin pipesize → UInt8) : (alloc data).Fifo :=
  ⟨by simp [Pipe.count,alloc],by simp [ring,Pipe.count,alloc]⟩

theorem isEmpty_iff : pi.isEmpty = true ↔ pi.count = 0 := by
  simp only [isEmpty,count,beq_iff_eq]
  bv_omega

theorem isFull_iff : pi.isFull = true ↔ pi.count = pipesize := by
  simp only [isFull,count,beq_iff_eq,pipesize]
  bv_omega

theorem slot_inj {n : BitVec 32} {i j : Nat} (order : i < j) (bound : j < i + pipesize) :
    slot (n + BitVec.ofNat 32 i) ≠ slot (n + BitVec.ofNat 32 j) := by
  intro same
  have same : (n + BitVec.ofNat 32 i).toNat % pipesize = (n + BitVec.ofNat 32 j).toNat % pipesize := congrArg Fin.val same
  simp only [BitVec.toNat_add,BitVec.toNat_ofNat,pipesize] at same bound
  omega

theorem nwrite_eq (pi : Pipe) : pi.nread + BitVec.ofNat 32 pi.count = pi.nwrite := by
  simp only [count]
  bv_omega

theorem count_put (ch : UInt8) (room : pi.count < pipesize) : (pi.put ch).count = pi.count + 1 := by
  simp only [count,put,pipesize] at room ⊢
  bv_omega

theorem ring_put (ch : UInt8) (room : pi.count < pipesize) : (pi.put ch).ring = pi.ring ++ [ch] := by
  simp only [ring,count_put ch room,List.range_succ,List.map_append,List.map_singleton]
  congr 1
  · apply List.map_congr_left
    intro i member
    have below : i < pi.count := List.mem_range.mp member
    have apart := slot_inj (n := pi.nread) below (by omega)
    rw [nwrite_eq] at apart
    exact update_of_ne apart ch pi.data
  · rw [show (pi.put ch).nread = pi.nread from rfl,nwrite_eq]
    simp [put]

theorem Fifo.put (fifo : pi.Fifo) (room : pi.isFull = false) (ch : UInt8) : (pi.put ch).Fifo := by
  have room : pi.count < pipesize := by
    have : pi.count ≠ pipesize := fun same => by simp [isFull_iff.mpr same] at room
    have := fifo.count
    omega
  refine ⟨by rw [count_put ch room]; exact room,?_⟩
  rw [ring_put ch room,← List.append_assoc]
  exact congrArg (· ++ [ch]) fifo.bytes

theorem count_take (copied : Bool) (some : 0 < pi.count) : pi.count = (pi.take copied).count + 1 := by
  simp only [count,take] at some ⊢
  bv_omega

theorem ring_take (copied : Bool) (some : 0 < pi.count) : pi.ring = pi.data (slot pi.nread) :: (pi.take copied).ring := by
  simp only [ring,count_take copied some,List.range_succ_eq_map,List.map_cons,List.map_map]
  congr 1
  · simp
  · apply List.map_congr_left
    intro i _
    have next : pi.nread + BitVec.ofNat 32 (i + 1) = pi.nread + 1 + BitVec.ofNat 32 i := by bv_omega
    simp only [Function.comp,take,next,Nat.succ_eq_add_one]

theorem Fifo.take (fifo : pi.Fifo) (some : pi.isEmpty = false) (copied : Bool) : (pi.take copied).Fifo := by
  have some : 0 < pi.count := by
    have : pi.count ≠ 0 := fun none => by simp [isEmpty_iff.mpr none] at some
    omega
  have count := count_take copied some
  have bound := fifo.count
  refine ⟨by omega,?_⟩
  rw [show (pi.take copied).accepted = pi.accepted from rfl,fifo.bytes,ring_take copied some]
  simp [Pipe.take]

theorem delivered_eq (copied : ∀ x ∈ pi.taken, x.2 = true) : pi.delivered = pi.taken.map (·.1) := by
  rw [delivered,List.filter_eq_self.mpr copied]

end Pipe

end Xv6
