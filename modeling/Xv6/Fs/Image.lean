import Xv6.Fs.Steps

/-! What is on the disk between calls, and the machine after booting from an image. -/
namespace Xv6.Fs

open Prog Ownership

def ofDisk (sb : Superblock) (disk : Disk) : Abs := ⟨dinode sb disk,bit sb disk,disk⟩

def namesOf (sb : Superblock) (disk : Disk) : Names := names sb (ofDisk sb disk)

variable {sb : Superblock} {O : Set Nat} {T : Tables} {s : State} {A : Abs} {N : Names} {R : Multiset (Nat × Nat)}
  {L : Set (Nat × Nat)}

section Image

variable (repr : Repr sb T s A ∅ R L) (sound : Sound sb A)

include repr

theorem Repr.ofDisk_ino {i : Nat} (hi : i < sb.ninodes) : (ofDisk sb s.disk).ino i = A.ino i :=
  repr.inodes i hi (Set.notMem_empty i)

include sound

theorem Repr.ofDisk_ptr : (ofDisk sb s.disk).ptr sb = A.ptr sb := by
  funext ⟨i,m⟩
  by_cases hi : i < sb.ninodes
  · have same := repr.ofDisk_ino hi
    apply Abs.ptr_congr
    · rw [same]
      exact fun _ _ => rfl
    · intro some
      rw [← Abs.ptr_addr hi (Nat.le_refl _)] at some ⊢
      exact repr.data _ (sound.owned.inside _ some)
  · simp [Abs.ptr,hi]

theorem Repr.ofDisk_sound (layout : sb.Layout) : Sound sb (ofDisk sb s.disk) := by
  have ptr := repr.ofDisk_ptr sound
  refine ⟨⟨?_,?_,fun b data => ?_⟩,fun b low => ?_,fun i hi => ?_,fun i hi => ?_,fun i hi => ?_⟩
  · rw [ptr]
    exact sound.owned.inside
  · rw [ptr]
    exact sound.owned.apart
  · rw [ptr,← sound.owned.marked b data,← repr.bits b data.2]
    rfl
  · exact (repr.bits b (Nat.lt_of_lt_of_le low layout.room)).trans (sound.metadata b low)
  · rw [repr.ofDisk_ino hi]
    exact sound.free i hi
  · rw [repr.ofDisk_ino hi]
    simp only [Abs.block,ptr]
    exact sound.whole i hi
  · rw [repr.ofDisk_ino hi]
    exact sound.fits i hi

theorem Repr.ofDisk_bytes {i o : Nat} (hi : i < sb.ninodes) (typed : (A.ino i).type ≠ 0) (inside : o < (A.ino i).size) :
    (ofDisk sb s.disk).bytes sb i o = A.bytes sb i o := by
  have some := sound.block_ne hi typed inside
  rw [Abs.bytes,Abs.block,repr.ofDisk_ptr sound,Abs.bytes]
  exact congrFun (repr.data _ (sound.owned.inside _ some)) _

theorem Repr.ofDisk_names : namesOf sb s.disk = names sb A := by
  ext1
  · funext i
    by_cases hi : i < sb.ninodes
    · simp only [namesOf,names,repr.ofDisk_ino hi]
    · simp [namesOf,names,hi]
  · funext i
    by_cases hi : i < sb.ninodes
    · simp only [namesOf,names,repr.ofDisk_ino hi]
    · simp [namesOf,names,hi]
  · funext i
    by_cases hi : i < sb.ninodes
    · by_cases dir : (A.ino i).type = tDir
      · have same := repr.ofDisk_ino hi
        rw [namesOf,names_ents hi (by rw [same,dir]),names_ents hi dir]
        refine entries_congr (by rw [same]) fun o inside => ?_
        exact repr.ofDisk_bytes sound hi (tDir_ne dir) inside
      · simp [namesOf,names,repr.ofDisk_ino hi,dir]
    · simp [namesOf,names,hi]

end Image

theorem View.sound (view : View sb O T s N R L) (layout : sb.Layout) : Sound sb (ofDisk sb s.disk) := by
  obtain ⟨A,_,repr,sound⟩ := view.shows
  exact repr.ofDisk_sound sound layout

theorem View.namesOf (view : View sb O T s N R L) : namesOf sb s.disk = N := by
  obtain ⟨A,rfl,repr,sound⟩ := view.shows
  exact repr.ofDisk_names sound

theorem View.slot_lt {k i : Nat} (view : View sb O T s N R L) (member : (k,i) ∈ R) : k < ninode := by
  obtain ⟨A,_,repr,_⟩ := view.shows
  exact (repr.slot k i member).1

theorem View.ref_ne {k : Nat} (view : View sb O T s N R L) (hk : k < ninode) :
    (s.itable k).ref ≠ 0 ↔ ∃ i, (k,i) ∈ R ∧ (s.itable k).inum = i := by
  obtain ⟨A,_,repr,_⟩ := view.shows
  rw [repr.refs k hk,Nat.cast_ne_zero,← Nat.pos_iff_ne_zero,Multiset.count_pos,Multiset.mem_map]
  constructor
  · rintro ⟨⟨l,i⟩,member,rfl⟩
    exact ⟨i,member,(repr.slot l i member).2.2⟩
  · rintro ⟨i,member,_⟩
    exact ⟨(k,i),member,rfl⟩

/-! Booting. -/

/-- The reference that the first process has to the root directory. -/
def bootRefs : Multiset (Nat × Nat) := {(0,rootino)}

theorem boot_repr (image : Disk) (layout : sb.Layout) :
    Repr sb (boot sb image).tables (boot sb image) (ofDisk sb image) ∅ bootRefs ∅ := by
  refine ⟨fun i _ _ => rfl,fun b _ => rfl,fun b _ => rfl,?_,?_,?_,?_,?_,rfl⟩
  · intro k i member
    obtain ⟨rfl,rfl⟩ := Prod.mk.inj (Multiset.mem_singleton.mp member)
    exact ⟨by decide,layout.root,rfl⟩
  · intro k _
    obtain rfl | first := eq_or_ne k 0
    · rfl
    · simp [boot,first,bootRefs]
  · intro k i _ valid
    exact absurd valid (by simp [boot])
  · intro k l i left right
    rw [(Prod.mk.inj (Multiset.mem_singleton.mp left)).1,(Prod.mk.inj (Multiset.mem_singleton.mp right)).1]
  · intro k i locked
    exact absurd locked (Set.notMem_empty _)

theorem boot_view {image : Disk} (layout : sb.Layout) (sound : Sound sb (ofDisk sb image))
    (range : (namesOf sb image).Range sb.ninodes)
    (kept : ∀ i, (namesOf sb image).typ i ≠ 0 → (namesOf sb image).nlink i = 0 → i ∈ O) :
    View sb O (boot sb image).tables (boot sb image) (namesOf sb image) bootRefs ∅ :=
  ⟨⟨ofDisk sb image,rfl,boot_repr image layout,sound⟩,range,fun i typed zero => .inl (kept i typed zero)⟩

theorem boot_handles {image : Disk} (root : (namesOf sb image).typ rootino ≠ 0) :
    Handles (boot sb image).tables (namesOf sb image) bootRefs := by
  refine ⟨?_,?_,fun _ _ => rfl,fun _ _ => rfl,fun p far => ?_,?_,?_⟩
  · have cwds : ∑ p ∈ Finset.range nproc, cwdRef ((boot sb image).tables.proc p) = {0} := by
      rw [Finset.sum_eq_single 0]
      · rfl
      · intro p _ other
        simp [State.tables,boot,other,cwdRef]
      · intro outside
        exact absurd (Finset.mem_range.mpr (by decide)) outside
    have files : ∑ f ∈ Finset.range nfile, fileRef ((boot sb image).tables.file f) = 0 :=
      Finset.sum_eq_zero fun f _ => rfl
    rw [Tables.handles,cwds,files]
    rfl
  · intro x member
    rwa [Multiset.mem_singleton.mp member]
  · have other : p ≠ 0 := by
      rintro rfl
      exact absurd far (by decide)
    simp [State.tables,boot,other]
  · intro p pr i _ member
    exact .inr (Prod.mk.inj (Multiset.mem_singleton.mp member)).2
  · intro f i type
    exact absurd type (by simp [State.tables,boot])

end Xv6.Fs
