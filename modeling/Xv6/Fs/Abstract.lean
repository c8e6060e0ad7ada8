import Xv6.Fs.Inode
import Xv6.Ownership

/-! The disk as a collection of inodes, a set of blocks in use and the contents of the data
blocks, with the pointers that lead from the inodes to the blocks. -/
namespace Xv6.Fs

open Ownership Function

structure Abs where
  ino : Nat → Dinode
  used : Nat → Bool
  data : Nat → Block

/-- The number of the pointer to the `bn`th block of an inode: the entries of the indirect
block come after `addrs`. -/
def place (bn : Nat) : Nat := if bn < ndirect then bn else bn + 1

theorem place_ne (bn : Nat) : place bn ≠ ndirect := by
  unfold place
  split <;> omega

theorem place_inj {bn bn' : Nat} (same : place bn = place bn') : bn = bn' := by
  unfold place at same
  split at same <;> split at same <;> omega

namespace Abs

def setIno (A : Abs) (i : Nat) (din : Dinode) : Abs := { A with ino := update A.ino i din }

/-- `balloc` marks the block and clears it. -/
def take (A : Abs) (b : Nat) : Abs :=
  { A with
    used := update A.used b true
    data := update A.data b (Bytes.fill (A.data b) 0 bsize 0) }

def release (A : Abs) (b : Nat) : Abs := { A with used := update A.used b false }

def setData (A : Abs) (b : Nat) (blk : Block) : Abs := { A with data := update A.data b blk }

section Superblock

variable (sb : Superblock) (A : Abs)

/-- Pointer `x.2` of inode `x.1`: the addresses of the inode, then the entries of its
indirect block. -/
def ptr (x : Nat × Nat) : Nat :=
  if x.1 < sb.ninodes then
    if x.2 ≤ ndirect then (A.ino x.1).addrs x.2
    else if (A.ino x.1).addrs ndirect = 0 then 0
    else if x.2 ≤ ndirect + nindirect then
      Bytes.load 4 (A.data ((A.ino x.1).addrs ndirect)) (4 * (x.2 - (ndirect + 1)))
    else 0
  else 0

def block (i bn : Nat) : Nat := A.ptr sb (i,place bn)

def bytes (i : Nat) : Bytes.Storage := fun o => A.data (A.block sb i (o / bsize)) (o % bsize)

end Superblock

variable {sb : Superblock} {A A' : Abs} {i k m : Nat}

theorem ptr_addr (hi : i < sb.ninodes) (hk : k ≤ ndirect) : A.ptr sb (i,k) = (A.ino i).addrs k := by
  simp [ptr,hi,hk]

theorem ptr_entry {j : Nat} (hi : i < sb.ninodes) (table : (A.ino i).addrs ndirect ≠ 0) (hj : j < nindirect) :
    A.ptr sb (i,ndirect + 1 + j) = Bytes.load 4 (A.data ((A.ino i).addrs ndirect)) (4 * j) := by
  have after : ¬ndirect + 1 + j ≤ ndirect := by omega
  have inside : ndirect + 1 + j ≤ ndirect + nindirect := by omega
  simp [ptr,hi,after,table,inside]

theorem ptr_congr (addrs : ∀ k ≤ ndirect, (A'.ino i).addrs k = (A.ino i).addrs k)
    (table : (A.ino i).addrs ndirect ≠ 0 → A'.data ((A.ino i).addrs ndirect) = A.data ((A.ino i).addrs ndirect)) :
    A'.ptr sb (i,m) = A.ptr sb (i,m) := by
  unfold ptr
  simp only
  split
  · split
    · exact addrs m ‹_›
    · rw [addrs ndirect (Nat.le_refl _)]
      split
      · rfl
      · rw [table ‹_›]
  · rfl

end Abs

/-- Block ownership: the blocks in use are the metadata and those that an inode points at, each
from one place; a free inode points nowhere, and a file has no holes. -/
structure Sound (sb : Superblock) (A : Abs) : Prop where
  owned : Owned sb.Data (A.ptr sb) A.used
  metadata : ∀ b < sb.datastart, A.used b = true
  free : ∀ i < sb.ninodes, (A.ino i).type = 0 → ∀ k ≤ ndirect, (A.ino i).addrs k = 0
  whole : ∀ i < sb.ninodes, (A.ino i).type ≠ 0 → ∀ bn, bn * bsize < (A.ino i).size →
    bn < maxfile ∧ A.block sb i bn ≠ 0
  fits : ∀ i < sb.ninodes, (A.ino i).Fits

/-- The inode `i` may have got more blocks; the contents of all inodes are as they were. -/
structure Grows (sb : Superblock) (i : Nat) (A A' : Abs) : Prop where
  others : ∀ j, j ≠ i → A'.ino j = A.ino j
  fields : A'.ino i = { A.ino i with addrs := (A'.ino i).addrs }
  kept : ∀ j < sb.ninodes, ∀ bn, A.block sb j bn ≠ 0 → A'.block sb j bn = A.block sb j bn ∧
    A'.data (A.block sb j bn) = A.data (A.block sb j bn)

namespace Grows

variable {sb : Superblock} {i : Nat} {A B C : Abs}

theorem refl (A : Abs) : Grows sb i A A := ⟨fun _ _ => rfl,rfl,fun _ _ _ _ => ⟨rfl,rfl⟩⟩

theorem trans (first : Grows sb i A B) (second : Grows sb i B C) : Grows sb i A C := by
  refine ⟨fun j ne => (second.others j ne).trans (first.others j ne),?_,fun j hj bn some => ?_⟩
  · rw [second.fields,first.fields]
  · obtain ⟨block,data⟩ := first.kept j hj bn some
    obtain ⟨block',data'⟩ := second.kept j hj bn (by rwa [block])
    rw [block] at block' data'
    exact ⟨block',data'.trans data⟩

theorem type (grows : Grows sb i A B) (j : Nat) : (B.ino j).type = (A.ino j).type := by
  by_cases here : j = i
  · rw [here,grows.fields]
  · rw [grows.others j here]

theorem size (grows : Grows sb i A B) (j : Nat) : (B.ino j).size = (A.ino j).size := by
  by_cases here : j = i
  · rw [here,grows.fields]
  · rw [grows.others j here]

theorem bytes (grows : Grows sb i A B) {j o : Nat} (hj : j < sb.ninodes)
    (some : A.block sb j (o / bsize) ≠ 0) : B.bytes sb j o = A.bytes sb j o := by
  obtain ⟨block,data⟩ := grows.kept j hj _ some
  rw [Abs.bytes,Abs.bytes,block,data]

end Grows

section Sound

variable {sb : Superblock} {A A' : Abs} {i b : Nat}

theorem Sound.table_ne (sound : Sound sb A) {j bn : Nat} (hi : i < sb.ninodes)
    (some : A.block sb j bn ≠ 0) : (A.ino i).addrs ndirect ≠ A.block sb j bn := by
  intro same
  rw [← Abs.ptr_addr hi (Nat.le_refl _)] at same
  have meet := sound.owned.apart _ _ some same.symm
  exact place_ne bn (Prod.mk.inj meet).2

theorem data_null (layout : sb.Layout) : ¬sb.Data 0 := fun data => layout.data_pos data rfl

theorem Sound.grow (sound : Sound sb A) (layout : sb.Layout) {m : Nat} (typed : (A.ino i).type ≠ 0)
    (data : sb.Data b) (free : A.used b = false) (null : A.ptr sb (i,m) = 0)
    (ptrs : A'.ptr sb = update (A.ptr sb) (i,m) b) (used : A'.used = update A.used b true)
    (others : ∀ j, j ≠ i → A'.ino j = A.ino j)
    (fields : A'.ino i = { A.ino i with addrs := (A'.ino i).addrs }) (fits : (A'.ino i).Fits)
    (kept : ∀ j < sb.ninodes, ∀ bn, A.block sb j bn ≠ 0 → A'.data (A.block sb j bn) = A.data (A.block sb j bn)) :
    Sound sb A' ∧ Grows sb i A A' := by
  have grows : Grows sb i A A' := by
    refine ⟨others,fields,fun j hj bn some => ⟨?_,kept j hj bn some⟩⟩
    rw [Abs.block,ptrs,update_of_ne]
    · rfl
    · intro same
      rw [Abs.block,same] at some
      exact some null
  refine ⟨⟨?_,?_,?_,?_,?_⟩,grows⟩
  · rw [ptrs,used]
    exact sound.owned.take (data_null layout) null data free
  · intro c low
    rw [used]
    by_cases here : c = b
    · simp [here]
    · rw [update_of_ne here]
      exact sound.metadata c low
  · intro j hj zero
    have ne : j ≠ i := by
      rintro rfl
      rw [grows.type] at zero
      exact typed zero
    rw [others j ne] at zero ⊢
    exact sound.free j hj zero
  · intro j hj type bn inside
    rw [grows.type] at type
    rw [grows.size] at inside
    obtain ⟨bound,some⟩ := sound.whole j hj type bn inside
    refine ⟨bound,?_⟩
    rwa [(grows.kept j hj bn some).1]
  · intro j hj
    by_cases here : j = i
    · rwa [here]
    · rw [others j here]
      exact sound.fits j hj

theorem Sound.take_data (sound : Sound sb A) {x : Nat × Nat} (free : A.used b = false) (some : A.ptr sb x ≠ 0) :
    (A.take b).data (A.ptr sb x) = A.data (A.ptr sb x) :=
  update_of_ne (sound.owned.ne_of_free some free) ..

theorem Sound.take_table (sound : Sound sb A) {j : Nat} (hj : j < sb.ninodes) (free : A.used b = false)
    (some : (A.ino j).addrs ndirect ≠ 0) :
    (A.take b).data ((A.ino j).addrs ndirect) = A.data ((A.ino j).addrs ndirect) := by
  rw [← Abs.ptr_addr hj (Nat.le_refl _)] at some ⊢
  exact sound.take_data free some

theorem Dinode.Fits.setAddr {din : Dinode} (fits : din.Fits) {k : Nat} (hk : k ≤ ndirect) (hb : b < 2 ^ 32) :
    Dinode.Fits { din with addrs := update din.addrs k b } := by
  refine ⟨fits.type,fits.major,fits.minor,fits.nlink,fits.size,fun l => ?_,fun l beyond => ?_⟩
  · by_cases here : l = k
    · simpa [here] using hb
    · simpa [here] using fits.addrs l
  · have ne : l ≠ k := by omega
    simpa [ne] using fits.beyond l beyond

theorem Sound.growAddr (sound : Sound sb A) (layout : sb.Layout) {k : Nat} (hi : i < sb.ninodes)
    (typed : (A.ino i).type ≠ 0) (hk : k ≤ ndirect) (null : (A.ino i).addrs k = 0) (data : sb.Data b)
    (free : A.used b = false) {A' : Abs}
    (isA' : A' = (A.take b).setIno i { A.ino i with addrs := update (A.ino i).addrs k b }) :
    A'.ptr sb = update (A.ptr sb) (i,k) b ∧ Sound sb A' ∧ Grows sb i A A' := by
  have here : A'.ino i = { A.ino i with addrs := update (A.ino i).addrs k b } := by
    rw [isA',Abs.setIno]
    exact update_self ..
  have others (j : Nat) (ne : j ≠ i) : A'.ino j = A.ino j := by
    rw [isA',Abs.setIno]
    exact update_of_ne ne ..
  have contents : A'.data = (A.take b).data := by rw [isA']; rfl
  have ptrs : A'.ptr sb = update (A.ptr sb) (i,k) b := by
    funext ⟨j,m⟩
    obtain rfl | inode := eq_or_ne j i
    · obtain rfl | pointer := eq_or_ne m k
      · rw [Abs.ptr_addr hi hk,here,update_self]
        simp
      · rw [update_of_ne (fun h => pointer (Prod.mk.inj h).2)]
        by_cases direct : m ≤ ndirect
        · rw [Abs.ptr_addr hi direct,Abs.ptr_addr hi direct,here]
          simp [pointer]
        · unfold Abs.ptr
          simp only [hi,direct,if_true,if_false]
          obtain rfl | table := eq_or_ne k ndirect
          · have nonzero := layout.data_pos data
            simp only [here,update_self,nonzero,if_false,null,if_true]
            split
            · have cleared : (A.take b).data b = Bytes.fill (A.data b) 0 bsize 0 := update_self ..
              rw [contents,cleared,← Nat.zero_add (4 * _),
                Bytes.load_fill_zero (by simp only [ndirect,nindirect,bsize] at *; omega)]
            · rfl
          · have same : (A'.ino j).addrs ndirect = (A.ino j).addrs ndirect := by
              rw [here]
              simp [Ne.symm table]
            rw [same]
            split
            · rfl
            · rw [contents,sound.take_table hi free ‹_›]
    · rw [update_of_ne (fun h => inode (Prod.mk.inj h).1)]
      by_cases hj : j < sb.ninodes
      · apply Abs.ptr_congr
        · rw [others j inode]
          exact fun _ _ => rfl
        · rw [contents]
          exact sound.take_table hj free
      · simp [Abs.ptr,hj]
  refine ⟨ptrs,sound.grow layout typed data free ?_ ptrs ?_ others ?_ ?_ ?_⟩
  · rw [Abs.ptr_addr hi hk,null]
  · rw [isA']
    rfl
  · rw [here]
  · rw [here]
    exact (sound.fits i hi).setAddr hk (layout.data_lt data)
  · intro j hj bn some
    rw [contents]
    exact sound.take_data free some

theorem Sound.growEntry (sound : Sound sb A) (layout : sb.Layout) {j t : Nat} (hi : i < sb.ninodes)
    (typed : (A.ino i).type ≠ 0) (table : (A.ino i).addrs ndirect = t) (nonzero : t ≠ 0) (hj : j < nindirect)
    (null : Bytes.load 4 (A.data t) (4 * j) = 0) (data : sb.Data b) (free : A.used b = false) {A' : Abs}
    (isA' : A' = (A.take b).setData t (Bytes.store 4 ((A.take b).data t) (4 * j) b)) :
    A'.ptr sb = update (A.ptr sb) (i,ndirect + 1 + j) b ∧ Sound sb A' ∧ Grows sb i A A' := by
  have inodes : A'.ino = A.ino := by rw [isA']; rfl
  have at_ : A.ptr sb (i,ndirect) = t := by rw [Abs.ptr_addr hi (Nat.le_refl _),table]
  have here : A'.data t = Bytes.store 4 (A.data t) (4 * j) b := by
    have same := sound.take_table hi free (by rwa [table])
    rw [table] at same
    rw [isA',Abs.setData,← same]
    exact update_self ..
  have elsewhere (x : Nat × Nat) (some : A.ptr sb x ≠ 0) (ne : A.ptr sb x ≠ t) :
      A'.data (A.ptr sb x) = A.data (A.ptr sb x) := by
    rw [isA',Abs.setData]
    exact (update_of_ne ne ..).trans (sound.take_data free some)
  have ptrs : A'.ptr sb = update (A.ptr sb) (i,ndirect + 1 + j) b := by
    funext ⟨l,m⟩
    obtain rfl | inode := eq_or_ne l i
    · by_cases entry : m = ndirect + 1 + j
      · subst entry
        rw [update_self,Abs.ptr_entry hi (by rwa [inodes,table]) hj,inodes,table,here]
        exact Bytes.load_store_value _ _ (layout.data_lt data)
      · rw [update_of_ne (fun h => entry (Prod.mk.inj h).2)]
        unfold Abs.ptr
        simp only [hi,inodes,table,here,if_true,nonzero,if_false]
        split
        · rfl
        split
        · apply Bytes.load_store_other
          omega
        · rfl
    · rw [update_of_ne (fun h => inode (Prod.mk.inj h).1)]
      by_cases hl : l < sb.ninodes
      · apply Abs.ptr_congr
        · rw [inodes]
          exact fun _ _ => rfl
        · intro some
          rw [← Abs.ptr_addr hl (Nat.le_refl _)] at some ⊢
          apply elsewhere _ some
          intro same
          exact inode (Prod.mk.inj (sound.owned.apart _ _ some (same.trans at_.symm))).1
      · simp [Abs.ptr,hl]
  refine ⟨ptrs,sound.grow layout typed data free ?_ ptrs ?_ ?_ ?_ ?_ ?_⟩
  · rw [Abs.ptr_entry hi (by rwa [table]) hj,table,null]
  · rw [isA']
    rfl
  · intro l _
    rw [inodes]
  · rw [inodes]
  · rw [inodes]
    exact sound.fits i hi
  · intro l hl bn some
    apply elsewhere _ some
    intro same
    exact sound.table_ne hi some (table.trans same.symm)

end Sound

end Xv6.Fs
