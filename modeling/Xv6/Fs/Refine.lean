import Xv6.Fs.Abstract
import Mathlib.Data.Multiset.MapFold
import Mathlib.Data.Multiset.Count
import Mathlib.Data.Set.Insert

/-! How a state of the kernel represents an abstract disk, and what the functions on blocks and
on the inode table do to it. -/
namespace Xv6.Fs

open Prog Function

/-- The tables that functions of `fs.c` leave alone. -/
structure Tables where
  file : Nat → File
  proc : Nat → Option Proc

def State.tables (s : State) : Tables := ⟨s.ftable,s.proc⟩

/-- The state `s` represents the abstract disk `A`. The inodes in `D` are newer in the inode
table than on the disk. `R` has the references handed out, as pairs of a slot of the table and
the inode in it, and `L` those of the locked inodes. -/
structure Repr (sb : Superblock) (T : Tables) (s : State) (A : Abs) (D : Set Nat)
    (R : Multiset (Nat × Nat)) (L : Set (Nat × Nat)) : Prop where
  inodes : ∀ i < sb.ninodes, i ∉ D → dinode sb s.disk i = A.ino i
  bits : ∀ b < sb.size, bit sb s.disk b = A.used b
  data : ∀ b, sb.Data b → s.disk b = A.data b
  slot : ∀ k i, (k,i) ∈ R → k < ninode ∧ i < sb.ninodes ∧ (s.itable k).inum = i
  refs : ∀ k < ninode, (s.itable k).ref = (R.map Prod.fst).count k
  valid : ∀ k i, (k,i) ∈ R → (s.itable k).valid = true → (s.itable k).din = A.ino i ∧ (A.ino i).type ≠ 0
  unique : ∀ k l i, (k,i) ∈ R → (l,i) ∈ R → k = l
  locked : ∀ k i, (k,i) ∈ L → (k,i) ∈ R ∧ (s.itable k).valid = true
  tables : s.tables = T

/-- Errors that no function here has to answer for. -/
def Harmless (E : Panic → Prop) : Prop := ∀ e, e ≠ .freeingFreeBlock → e ≠ .ilockNoType → E e

theorem always : Harmless fun _ => True := fun _ _ _ => trivial

section Repr

variable {sb : Superblock} {T : Tables} {s : State} {A : Abs} {D : Set Nat}
  {R : Multiset (Nat × Nat)} {L : Set (Nat × Nat)} {E : Panic → Prop}

namespace Repr

section

variable (repr : Repr sb T s A D R L)
include repr

theorem at_locked {k i : Nat} (locked : (k,i) ∈ L) :
    i < sb.ninodes ∧ (s.itable k).din = A.ino i ∧ (A.ino i).type ≠ 0 := by
  obtain ⟨member,valid⟩ := repr.locked k i locked
  exact ⟨(repr.slot k i member).2.1,repr.valid k i member valid⟩

theorem log (log : Log) : Repr sb T { s with log := log } A D R L :=
  ⟨repr.inodes,repr.bits,repr.data,repr.slot,repr.refs,repr.valid,repr.unique,repr.locked,repr.tables⟩

theorem dirty {D' : Set Nat} (more : D ⊆ D') : Repr sb T s A D' R L :=
  ⟨fun i hi clean => repr.inodes i hi (fun h => clean (more h)),repr.bits,repr.data,repr.slot,repr.refs,
    repr.valid,repr.unique,repr.locked,repr.tables⟩

theorem unlocked {L' : Set (Nat × Nat)} (fewer : L' ⊆ L) : Repr sb T s A D R L' :=
  ⟨repr.inodes,repr.bits,repr.data,repr.slot,repr.refs,repr.valid,repr.unique,
    fun k i h => repr.locked k i (fewer h),repr.tables⟩

theorem setData (layout : sb.Layout) {b : Nat} (data : sb.Data b) (blk : Block) :
    Repr sb T (s.setDisk b blk) (A.setData b blk) D R L := by
  refine ⟨fun i hi clean => ?_,fun c hc => ?_,fun c hc => ?_,repr.slot,repr.refs,repr.valid,repr.unique,
    repr.locked,repr.tables⟩
  · rw [State.setDisk_disk,dinode_elsewhere (layout.iblock_ne_data hi data)]
    exact repr.inodes i hi clean
  · rw [State.setDisk_disk,bit_elsewhere (layout.bblock_ne_data hc data)]
    exact repr.bits c hc
  · obtain rfl | here := eq_or_ne c b
    · simp [Abs.setData]
    · simpa [Abs.setData,here] using repr.data c hc

theorem setUsed (layout : sb.Layout) {b : Nat} {blk : Block} {used : Bool} (hb : b < sb.size)
    (written : ∀ c, bit sb (update s.disk (sb.bblock b) blk) c = if c = b then used else bit sb s.disk c) :
    Repr sb T (s.setDisk (sb.bblock b) blk) { A with used := update A.used b used } D R L := by
  refine ⟨fun i hi clean => ?_,fun c hc => ?_,fun c hc => ?_,repr.slot,repr.refs,repr.valid,repr.unique,
    repr.locked,repr.tables⟩
  · rw [State.setDisk_disk,dinode_elsewhere (layout.iblock_ne_bblock hi)]
    exact repr.inodes i hi clean
  · rw [State.setDisk_disk,written]
    by_cases here : c = b
    · simp [here]
    · simpa [here] using repr.bits c hc
  · exact (update_of_ne (layout.bblock_ne_data hb hc).symm ..).trans (repr.data c hc)

theorem mark (layout : sb.Layout) {b : Nat} (hb : b < sb.size) :
    Repr sb T (s.setDisk (sb.bblock b) (setBit (s.disk (sb.bblock b)) (b % bpb)))
      { A with used := update A.used b true } D R L := by
  apply repr.setUsed layout hb
  intro c
  rw [bit_set]
  by_cases here : c = b
  · simp [here]
  · simp [here,Ne.symm here]

theorem unmark (layout : sb.Layout) {b : Nat} (hb : b < sb.size) :
    Repr sb T (s.setDisk (sb.bblock b) (clearBit (s.disk (sb.bblock b)) (b % bpb))) (A.release b) D R L := by
  apply repr.setUsed layout hb
  intro c
  rw [bit_clear]
  by_cases here : c = b
  · simp [here]
  · simp [here,Ne.symm here]

theorem setDisk (layout : sb.Layout) {i : Nat} (hi : i < sb.ninodes) {blk : Block}
    (written : getDinode blk (i % ipb * dinodeSize) = A.ino i)
    (rest : ∀ a, a < i % ipb * dinodeSize ∨ i % ipb * dinodeSize + dinodeSize ≤ a → blk a = s.disk (sb.iblock i) a) :
    Repr sb T (s.setDisk (sb.iblock i) blk) A (D \ {i}) R L := by
  refine ⟨fun j hj clean => ?_,fun c hc => ?_,fun c hc => ?_,repr.slot,repr.refs,repr.valid,repr.unique,
    repr.locked,repr.tables⟩
  · obtain rfl | here := eq_or_ne j i
    · simp only [dinode,State.setDisk_disk,update_self,written]
    · rw [State.setDisk_disk,dinode_update here rest]
      exact repr.inodes j hj (fun dirty => clean ⟨dirty,here⟩)
  · rw [State.setDisk_disk,bit_elsewhere (layout.iblock_ne_bblock hi).symm]
    exact repr.bits c hc
  · exact (update_of_ne (layout.iblock_ne_data hi hc).symm ..).trans (repr.data c hc)

theorem mem_of_ref {k : Nat} (hk : k < ninode) (some : 0 < (s.itable k).ref) : (k,(s.itable k).inum) ∈ R := by
  rw [repr.refs k hk] at some
  have member := Multiset.count_pos.mp (by exact_mod_cast some : 0 < (R.map Prod.fst).count k)
  obtain ⟨⟨l,i⟩,inR,rfl⟩ := Multiset.mem_map.mp member
  rwa [(repr.slot l i inR).2.2]

theorem ref_pos {k i : Nat} (member : (k,i) ∈ R) : 0 < (s.itable k).ref := by
  rw [repr.refs k (repr.slot k i member).1]
  have := Multiset.count_pos.mpr (Multiset.mem_map_of_mem Prod.fst member)
  exact_mod_cast this

theorem inum_unique {k i j : Nat} (hi : (k,i) ∈ R) (hj : (k,j) ∈ R) : i = j :=
  (repr.slot k i hi).2.2.symm.trans (repr.slot k j hj).2.2

end

end Repr

/-! Blocks. -/

@[simp] theorem wp_bread {b : Nat} {Q : Block → State → Prop} : wp (bread b) Q E s ↔ Q (s.disk b) s := Iff.rfl

@[simp] theorem wp_setBlock {b : Nat} {blk : Block} {Q : Unit → State → Prop} :
    wp (setBlock b blk) Q E s ↔ Q () (s.setDisk b blk) := by
  simp [setBlock]

@[simp] theorem wp_getInode {k : Nat} {Q : Inode → State → Prop} :
    wp (getInode k) Q E s ↔ Q (s.itable k) s := Iff.rfl

theorem run_getInode {k : Nat} {α : Type} {f : Inode → Kernel α} :
    (getInode k >>= f).run s = (f (s.itable k)).run s := rfl

@[simp] theorem wp_setInode {k : Nat} {ip : Inode} {Q : Unit → State → Prop} :
    wp (setInode k ip) Q E s ↔ Q () (s.setSlot k ip) := by
  simp [setInode]

theorem wp_logWrite (harmless : Harmless E) {b : Nat} {Q : Unit → State → Prop}
    (rest : ∀ log, Q () { s with log := log }) : wp (logWrite b) Q E s := by
  simp only [logWrite,wp_bind,wp_get,wp_ite,wp_fail,wp_modify]
  split
  · exact harmless _ (by decide) (by decide)
  · split
    · exact harmless _ (by decide) (by decide)
    · exact rest _

theorem clearFrom_spec (blk : Block) (n bi : Nat) :
    (∃ j, clearFrom blk n bi = some j ∧ bi ≤ j ∧ j < bi + n ∧ getBit blk j = false ∧
      ∀ l, bi ≤ l → l < j → getBit blk l = true) ∨
    (clearFrom blk n bi = none ∧ ∀ l, bi ≤ l → l < bi + n → getBit blk l = true) := by
  induction n generalizing bi with
  | zero => exact .inr ⟨rfl,fun l lower upper => by omega⟩
  | succ n ih =>
    rw [clearFrom]
    cases here : getBit blk bi with
    | false => exact .inl ⟨bi,by simp,Nat.le_refl _,by omega,here,fun l lower upper => by omega⟩
    | true =>
      simp only [if_true]
      have extend (l : Nat) (lower : bi ≤ l) (later : bi + 1 ≤ l → getBit blk l = true) : getBit blk l = true := by
        rcases Nat.eq_or_lt_of_le lower with rfl | above
        · exact here
        · exact later above
      rcases ih (bi + 1) with ⟨j,found,lower,upper,clear,before⟩ | ⟨none,all⟩
      · exact .inl ⟨j,found,by omega,by omega,clear,
          fun l low high => extend l low fun above => before l above high⟩
      · exact .inr ⟨none,fun l low high => extend l low fun above => all l above (by omega)⟩

/-- What is left of `s` when `balloc` has taken block `b`. -/
def State.take (sb : Superblock) (s : State) (b : Nat) : State :=
  let marked := s.setDisk (sb.bblock b) (setBit (s.disk (sb.bblock b)) (b % bpb))
  marked.setDisk b (Bytes.fill (marked.disk b) 0 bsize 0)

theorem bit_place (q : Nat) {l : Nat} (inside : l < bpb) :
    sb.bblock (q * bpb + l) = sb.bblock (q * bpb) ∧ (q * bpb + l) % bpb = l := by
  have positive : 0 < bpb := by decide
  rw [Superblock.bblock,Superblock.bblock,Nat.add_comm (q * bpb) l,Nat.add_mul_div_right _ _ positive,
    Nat.mul_div_cancel _ positive,Nat.div_eq_of_lt inside,Nat.zero_add,Nat.add_mul_mod_self_right,Nat.mod_eq_of_lt inside]
  exact ⟨rfl,rfl⟩

/-- `balloc` takes the first free block, or finds that there is none. -/
theorem ballocFrom_first (harmless : Harmless E) (n q : Nat)
    (before : ∀ c < q * bpb, c < sb.size → bit sb s.disk c = true) :
    wp (ballocFrom sb n (q * bpb)) (fun b t =>
      (b = 0 ∧ (∀ c < (q + n) * bpb, c < sb.size → bit sb s.disk c = true) ∧ t = s) ∨
      (b < sb.size ∧ bit sb s.disk b = false ∧ (∀ c < b, bit sb s.disk c = true) ∧
        ∃ log, t = { s.take sb b with log })) E s := by
  induction n generalizing q with
  | zero =>
    rw [ballocFrom,wp_pure]
    exact .inl ⟨rfl,before,rfl⟩
  | succ n ih =>
    have same (l : Nat) (inside : l < bpb) :
        getBit (s.disk (sb.bblock (q * bpb))) l = bit sb s.disk (q * bpb + l) := by
      obtain ⟨block,place⟩ := @bit_place sb q _ inside
      rw [bit,block,place]
    -- Set bits at the start of this block go on from those before it.
    have upto (e : Nat) (set : ∀ l, 0 ≤ l → l < e → getBit (s.disk (sb.bblock (q * bpb))) l = true) (small : e ≤ bpb)
        (c : Nat) (low : c < q * bpb + e) (bound : c < sb.size) : bit sb s.disk c = true := by
      by_cases earlier : c < q * bpb
      · exact before c earlier bound
      · have here := set (c - q * bpb) (Nat.zero_le _) (by omega)
        rwa [same _ (by omega),Nat.add_sub_cancel' (Nat.le_of_not_lt earlier)] at here
    rw [ballocFrom,wp_bind,wp_bread]
    rcases clearFrom_spec (s.disk (sb.bblock (q * bpb))) (min bpb (sb.size - q * bpb)) 0 with
      ⟨bi,found,_,upper,clear,first⟩ | ⟨none,all⟩
    · have inside : bi < bpb := by omega
      obtain ⟨block,place⟩ := @bit_place sb q _ inside
      simp only [found,bzero,wp_bind,wp_setBlock]
      refine wp_logWrite harmless fun log => ?_
      simp only [wp_bread]
      refine wp_logWrite harmless fun log => .inr ⟨by omega,?_,fun c low => ?_,log,?_⟩
      · rw [← same bi inside,clear]
      · exact upto bi first (Nat.le_of_lt inside) c low (by omega)
      · rw [State.take,block,place]
        rfl
    · simp only [none]
      rw [← Nat.succ_mul]
      apply wp_post (ih (q + 1) fun c low bound => ?_)
      · rintro b t (⟨zero,full,same⟩ | taken)
        · exact .inl ⟨zero,by rwa [show q + (n + 1) = q + 1 + n by omega],same⟩
        · exact .inr taken
      · rw [Nat.succ_mul] at low
        exact upto (min bpb (sb.size - q * bpb)) (by simpa using all) (Nat.min_le_left ..) c (by omega) bound

theorem balloc_first (harmless : Harmless E) : wp (balloc sb) (fun b t =>
    (b = 0 ∧ (∀ c < sb.size, bit sb s.disk c = true) ∧ t = s) ∨
    (b < sb.size ∧ bit sb s.disk b = false ∧ (∀ c < b, bit sb s.disk c = true) ∧
      ∃ log, t = { s.take sb b with log })) E s := by
  have start := @ballocFrom_first sb s _ harmless ((sb.size + bpb - 1) / bpb) 0 fun c low => absurd low (by omega)
  rw [Nat.zero_mul] at start
  apply wp_post start
  rintro b t (⟨zero,full,same⟩ | taken)
  · refine .inl ⟨zero,fun c bound => full c ?_ bound,same⟩
    simp only [bpb,bsize] at *
    omega
  · exact .inr taken

theorem balloc_spec (layout : sb.Layout) (harmless : Harmless E)
    (metadata : ∀ b < sb.datastart, A.used b = true) (repr : Repr sb T s A D R L) :
    wp (balloc sb) (fun b t =>
      (b = 0 ∧ (∀ c < sb.size, A.used c = true) ∧ Repr sb T t A D R L) ∨
      (sb.Data b ∧ A.used b = false ∧ (∀ c < b, A.used c = true) ∧ Repr sb T t (A.take b) D R L)) E s := by
  apply wp_post (balloc_first harmless)
  rintro b t (⟨zero,full,rfl⟩ | ⟨bound,clear,first,log,rfl⟩)
  · exact .inl ⟨zero,fun c hc => (repr.bits c hc).symm.trans (full c hc),repr⟩
  · have free : A.used b = false := (repr.bits b bound).symm.trans clear
    have data : sb.Data b := by
      refine ⟨?_,bound⟩
      by_contra low
      rw [metadata _ (Nat.lt_of_not_le low)] at free
      exact Bool.false_ne_true free.symm
    have marked := repr.mark layout bound
    refine .inr ⟨data,free,fun c low => (repr.bits c (by omega)).symm.trans (first c low),?_⟩
    rw [State.take,marked.data b data]
    exact (marked.setData layout data (Bytes.fill (A.data b) 0 bsize 0)).log log

theorem wp_bfree {b : Nat} {Q : Unit → State → Prop} (used : bit sb s.disk b = true) : wp (bfree sb b) Q E s ↔
      wp (logWrite (sb.bblock b)) Q E (s.setDisk (sb.bblock b) (clearBit (s.disk (sb.bblock b)) (b % bpb))) := by
  have set : getBit (s.disk (sb.bblock b)) (b % bpb) = true := used
  simp only [bfree,wp_bind,wp_bread,set,Bool.not_true,Bool.false_eq_true,if_false,wp_setBlock]

theorem bfree_spec (layout : sb.Layout) (harmless : Harmless E) {b : Nat} (bound : b < sb.size)
    (used : A.used b = true) (repr : Repr sb T s A D R L) :
    wp (bfree sb b) (fun _ t => Repr sb T t (A.release b) D R L) E s := by
  rw [wp_bfree ((repr.bits b bound).trans used)]
  exact wp_logWrite harmless fun log => (repr.unmark layout bound).log log

end Repr

end Xv6.Fs
