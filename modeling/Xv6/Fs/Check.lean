import Xv6.Fs.Image
import Xv6.Fs.Exact

/-! Checking an image: conditions on finitely many inodes that make it well formed, for images
whose files have no indirect blocks. -/
namespace Xv6.Fs

open Ownership

theorem distinct_iff (l : List Dirent) :
    l.Pairwise (fun e f => e.inum ≠ 0 → f.inum ≠ 0 → e.name ≠ f.name) ↔ Distinct l := by
  rw [List.pairwise_iff_getElem]
  constructor
  · intro pairwise j k e f at_ bt usedE usedF same
    obtain ⟨hj,rfl⟩ := List.getElem?_eq_some_iff.mp at_
    obtain ⟨hk,rfl⟩ := List.getElem?_eq_some_iff.mp bt
    rcases Nat.lt_trichotomy j k with less | equal | more
    · exact absurd same (pairwise j k hj hk less usedE usedF)
    · exact equal
    · exact absurd same.symm (pairwise k j hk hj more usedF usedE)
  · intro distinct j k hj hk less usedE usedF same
    have := distinct j k _ _ (List.getElem?_eq_getElem hj) (List.getElem?_eq_getElem hk) usedE usedF same
    omega

instance (l : List Dirent) : Decidable (Distinct l) := decidable_of_iff _ (distinct_iff l)

namespace Names

/-- The entries of one directory are as a tree has them. -/
def DirChecked (N : Names) (d : Nat) : Prop :=
  (N.ents d)[0]? = some ⟨d,dot⟩ ∧ ((N.ents d)[1]?.any fun e => e.inum ≠ 0 ∧ e.name = dotdot) = true ∧
    Distinct (N.ents d) ∧ (∀ e ∈ N.ents d, e.inum ≠ 0 → e.name ≠ []) ∧
    ∀ c ∈ N.kids d, N.typ c ≠ 0 ∧ (N.typ c = tDir → c ≠ rootino ∧ (N.ents c)[1]? = some ⟨d,dotdot⟩ ∧
      (N.kids d).count c ≤ 1)

def Checked (N : Names) (n : Nat) : Prop :=
  N.typ 0 = 0 ∧ N.typ rootino = tDir ∧ (N.ents rootino)[1]? = some ⟨rootino,dotdot⟩ ∧
    ∀ d < n, N.typ d = tDir → N.DirChecked d

instance (N : Names) (d : Nat) : Decidable (N.DirChecked d) :=
  inferInstanceAs (Decidable (_ ∧ _ ∧ _ ∧ _ ∧ ∀ c ∈ N.kids d, _))

instance (N : Names) (n : Nat) : Decidable (N.Checked n) :=
  inferInstanceAs (Decidable (_ ∧ _ ∧ _ ∧ ∀ d < n, N.typ d = tDir → N.DirChecked d))

variable {N : Names} {n : Nat}

/-- What can be reached is in every list that has the root and what its members' entries name. -/
theorem Reach.mem {l : List Nat} (root : rootino ∈ l) (closed : ∀ d ∈ l, ∀ e ∈ N.ents d, e.inum ≠ 0 → e.inum ∈ l)
    {i : Nat} (reach : N.Reach i) : i ∈ l := by
  induction reach with
  | root => exact root
  | entry _ member used ih => exact closed _ ih _ member used

theorem Checked.shape (checked : N.Checked n) (typed : ∀ i, N.typ i ≠ 0 → i < n)
    (plain : ∀ i, N.typ i ≠ tDir → N.ents i = []) : N.Shape := by
  obtain ⟨null,root,top,dirs⟩ := checked
  have dir (d : Nat) (isDir : N.typ d = tDir) : N.DirChecked d := dirs d (typed d (by rw [isDir]; decide)) isDir
  have file (d : Nat) (isFile : N.typ d ≠ tDir) : N.kids d = [] := by
    rw [kids,plain d isFile]
    rfl
  refine ⟨null,root,top,plain,fun d isDir => (dir d isDir).1,fun d isDir => ?_,fun d => ?_,fun d e member => ?_,
    fun d c member => ?_,fun d c member isDir => ?_,fun d c isDir => ?_⟩
  · obtain ⟨⟨p,name⟩,at_,used,rfl⟩ : ∃ e, (N.ents d)[1]? = some e ∧ e.inum ≠ 0 ∧ e.name = dotdot := by
      simpa [Option.any_eq_true] using (dir d isDir).2.1
    exact ⟨p,used,at_⟩
  · by_cases isDir : N.typ d = tDir
    · exact (dir d isDir).2.2.1
    · rw [plain d isDir]
      intro j k e f at_
      simp at at_
  · by_cases isDir : N.typ d = tDir
    · exact (dir d isDir).2.2.2.1 e member
    · simp [plain d isDir] at member
  · by_cases isDir : N.typ d = tDir
    · exact ((dir d isDir).2.2.2.2 c member).1
    · simp [file d isDir] at member
  · by_cases above : N.typ d = tDir
    · obtain ⟨other,up,_⟩ := ((dir d above).2.2.2.2 c member).2 isDir
      exact ⟨other,up⟩
    · simp [file d above] at member
  · by_cases member : c ∈ N.kids d
    · by_cases above : N.typ d = tDir
      · exact (((dir d above).2.2.2.2 c member).2 isDir).2.2
      · simp [file d above] at member
    · rw [List.count_eq_zero.mpr member]
      decide

theorem Checked.tree (checked : N.Checked n) (typed : ∀ i, N.typ i ≠ 0 → i < n)
    (plain : ∀ i, N.typ i ≠ tDir → N.ents i = []) (unused : ∀ i, N.typ i = 0 → N.nlink i = 0)
    (enough : ∀ i < n, N.links n i ≤ N.nlink i) : N.Tree := by
  have shape := checked.shape typed plain
  have beyond (m i : Nat) : N.count m i ≤ N.count n i := by
    rcases Nat.le_total m n with le | ge
    · exact count_mono le i
    · refine Nat.le_of_eq (Finset.sum_subset (Finset.range_subset_range.mpr ge) fun d _ far => ?_).symm
      rw [shape.kids_of_other fun dir => far (Finset.mem_range.mpr (typed d (by rw [dir]; decide)))]
      rfl
  refine ⟨shape,unused,fun m i => ?_⟩
  by_cases inside : i < n
  · have := beyond m i
    have := enough i inside
    simp only [links] at this ⊢
    omega
  · have free : N.typ i = 0 := by
      by_contra some
      exact inside (typed i some)
    have none : N.count m i = 0 :=
      Finset.sum_eq_zero fun d _ => List.count_eq_zero.mpr fun member => shape.typed d i member free
    have other : i ≠ rootino := by
      rintro rfl
      rw [shape.root] at free
      exact absurd free (by decide)
    rw [links,none,subdirs,shape.kids_of_other (by rw [free]; decide),if_neg other]
    exact Nat.zero_le _

end Names

section Image

variable {sb : Superblock} {disk : Disk}

theorem namesOf_typed (i : Nat) (typed : (namesOf sb disk).typ i ≠ 0) : i < sb.ninodes := by
  by_contra far
  exact typed (names_beyond sb _ i (Nat.le_of_not_lt far))

theorem namesOf_shape (checked : (namesOf sb disk).Checked sb.ninodes) : (namesOf sb disk).Shape :=
  checked.shape namesOf_typed (names_plain sb _)

theorem namesOf_tree (checked : (namesOf sb disk).Checked sb.ninodes)
    (enough : ∀ i < sb.ninodes, (namesOf sb disk).links sb.ninodes i ≤ (namesOf sb disk).nlink i) :
    (namesOf sb disk).Tree :=
  checked.tree namesOf_typed (names_plain sb _) (names_unlinked sb _) enough

theorem namesOf_range (entries : ∀ d < sb.ninodes, ∀ e ∈ (namesOf sb disk).ents d, e.inum < sb.ninodes) :
    (namesOf sb disk).Range sb.ninodes := by
  refine ⟨namesOf_typed,fun d e member => ?_⟩
  by_cases inside : d < sb.ninodes
  · exact entries d inside e member
  · have plain := names_plain sb (ofDisk sb disk) d (by
      rw [names_beyond sb _ d (Nat.le_of_not_lt inside)]
      decide)
    rw [namesOf,plain] at member
    exact absurd member (List.not_mem_nil)

/-- One inode of an image without indirect blocks: its addresses lead to blocks of which it is
the owner, and there are enough of them. -/
def InodeChecked (sb : Superblock) (disk : Disk) (owner : Nat → Nat × Nat) (i : Nat) : Prop :=
  (dinode sb disk i).addrs ndirect = 0 ∧
    (∀ k < ndirect, (dinode sb disk i).addrs k ≠ 0 → (dinode sb disk i).type ≠ 0 ∧ sb.Data ((dinode sb disk i).addrs k) ∧
      bit sb disk ((dinode sb disk i).addrs k) = true ∧ owner ((dinode sb disk i).addrs k) = (i,k)) ∧
    (dinode sb disk i).size ≤ ndirect * bsize ∧
    ((dinode sb disk i).type ≠ 0 → ∀ k < ndirect, k * bsize < (dinode sb disk i).size → (dinode sb disk i).addrs k ≠ 0)

instance (sb : Superblock) (disk : Disk) (owner : Nat → Nat × Nat) (i : Nat) :
    Decidable (InodeChecked sb disk owner i) :=
  inferInstanceAs (Decidable (_ ∧ _ ∧ _ ∧ (_ → ∀ k < ndirect, _)))

/-- An image is sound if the blocks marked in the free map have the owners that a table says. -/
theorem sound_of_owner (layout : sb.Layout) (owner : Nat → Nat × Nat)
    (inodes : ∀ i < sb.ninodes, InodeChecked sb disk owner i) (metadata : ∀ b < sb.datastart, bit sb disk b = true)
    (marked : ∀ b < sb.size, sb.Data b → bit sb disk b = true → (owner b).1 < sb.ninodes ∧ (owner b).2 < ndirect ∧
      (dinode sb disk (owner b).1).addrs (owner b).2 = b) : Sound sb (ofDisk sb disk) := by
  have direct {x : Nat × Nat} (some : (ofDisk sb disk).ptr sb x ≠ 0) : x.1 < sb.ninodes ∧ x.2 < ndirect ∧
      (ofDisk sb disk).ptr sb x = (dinode sb disk x.1).addrs x.2 := by
    obtain ⟨i,k⟩ := x
    by_cases hi : i < sb.ninodes
    · have table := (inodes i hi).1
      by_cases hk : k ≤ ndirect
      · rw [Abs.ptr_addr hi hk] at some
        have : k ≠ ndirect := by
          rintro rfl
          exact some table
        exact ⟨hi,by omega,Abs.ptr_addr hi hk⟩
      · exact absurd (by simp [Abs.ptr,hi,hk,ofDisk,table]) some
    · exact absurd (by simp [Abs.ptr,hi]) some
  have owned {x : Nat × Nat} (some : (ofDisk sb disk).ptr sb x ≠ 0) : sb.Data ((ofDisk sb disk).ptr sb x) ∧
      bit sb disk ((ofDisk sb disk).ptr sb x) = true ∧ owner ((ofDisk sb disk).ptr sb x) = x := by
    obtain ⟨hi,hk,same⟩ := direct some
    rw [same] at some ⊢
    exact ((inodes x.1 hi).2.1 x.2 hk some).2
  refine ⟨⟨fun x some => (owned some).1,fun x y some same => ?_,fun b data => ⟨fun set => ?_,?_⟩⟩,metadata,
    fun i hi free k hk => ?_,fun i hi typed bn inside => ?_,fun i hi => getDinode_fits _ _⟩
  · rw [← (owned some).2.2,same,(owned (same ▸ some)).2.2]
  · obtain ⟨hi,hk,at_⟩ := marked b data.2 data set
    exact ⟨owner b,(Abs.ptr_addr hi (Nat.le_of_lt hk)).trans at_⟩
  · rintro ⟨x,rfl⟩
    exact (owned (layout.data_pos data)).2.1
  · by_contra some
    have hk : k < ndirect := Nat.lt_of_le_of_ne hk fun last => some (last ▸ (inodes i hi).1)
    exact ((inodes i hi).2.1 k hk some).1 free
  · obtain ⟨_,_,size,whole⟩ := inodes i hi
    have size : ((ofDisk sb disk).ino i).size ≤ ndirect * bsize := size
    have hk : bn < ndirect := by
      by_contra far
      have := Nat.mul_le_mul_right bsize (Nat.le_of_not_lt far)
      omega
    refine ⟨by simp only [maxfile]; omega,?_⟩
    rw [Abs.block,place,if_pos hk,Abs.ptr_addr hi (Nat.le_of_lt hk)]
    exact whole typed bn hk inside

end Image

/-! Small images: one block of inodes and six data blocks. -/

def smallSb : Superblock := ⟨40,6,8,30,2,32,33⟩

theorem small_layout : smallSb.Layout := ⟨by decide,by decide,by decide,by decide,by decide⟩

def dirBlock (l : List Dirent) : Block := fun a => (putDirent (l.getD (a / direntSize) ⟨0,[]⟩) (a % direntSize)).getD 0

def inodeBlock (l : List (Nat × Dinode)) : Block :=
  l.foldr (fun e blk => putDinode blk (e.1 * dinodeSize) e.2) fun _ => 0

def mapBlock (n : Nat) : Block := fun a =>
  if a < n / 8 then 255 else if a = n / 8 then UInt8.ofNat (2 ^ (n % 8) - 1) else 0

def oneBlock (type nlink size b : Nat) : Dinode := ⟨type,0,0,nlink,size,fun k => if k = 0 then b else 0⟩

/-- An image with these inodes and these directories in its first data blocks. -/
def smallImage (inodes : List (Nat × Dinode)) (dirs : List (List Dirent)) : Disk := fun b =>
  if b = smallSb.inodestart then inodeBlock inodes
  else if b = smallSb.bmapstart then mapBlock (smallSb.datastart + dirs.length)
  else if b < smallSb.datastart then fun _ => 0
  else dirBlock (dirs.getD (b - smallSb.datastart) [])

def nested : Disk := smallImage [(1,oneBlock tDir 2 48 34),(2,oneBlock tDir 2 48 35),(3,oneBlock tDir 1 32 36)]
  [[⟨1,dot⟩,⟨1,dotdot⟩,⟨2,[97]⟩],[⟨2,dot⟩,⟨1,dotdot⟩,⟨3,[98]⟩],[⟨3,dot⟩,⟨2,dotdot⟩]]

/-- An entry for an inode that the file system does not have. It shares the block of the root. -/
def outside : Disk := smallImage [(1,oneBlock tDir 1 48 34),(9,oneBlock tFile 1 0 34)]
  [[⟨1,dot⟩,⟨1,dotdot⟩,⟨9,[120]⟩]]

/-- A file with two entries and a link count of one. -/
def twice : Disk := smallImage [(1,oneBlock tDir 1 64 34),(2,oneBlock tFile 1 0 0)]
  [[⟨1,dot⟩,⟨1,dotdot⟩,⟨2,[97]⟩,⟨2,[98]⟩]]

theorem outside_sound : Sound smallSb (ofDisk smallSb outside) :=
  sound_of_owner small_layout (fun b => (b - 33,0)) (by decide +kernel) (by decide +kernel) (by decide +kernel)

theorem twice_shape : (namesOf smallSb twice).Shape := namesOf_shape (by decide +kernel)

theorem nested_sound : Sound smallSb (ofDisk smallSb nested) :=
  sound_of_owner small_layout (fun b => (b - 33,0)) (by decide +kernel) (by decide +kernel) (by decide +kernel)

theorem nested_range : (namesOf smallSb nested).Range smallSb.ninodes := namesOf_range (by decide +kernel)

theorem nested_counted (i : Nat) (typed : (namesOf smallSb nested).typ i ≠ 0) :
    (namesOf smallSb nested).nlink i = (namesOf smallSb nested).entryLinks smallSb.ninodes i ∧
      (namesOf smallSb nested).Reach i := by
  have counted : ∀ i < smallSb.ninodes, (namesOf smallSb nested).typ i ≠ 0 → i ∈ [1,2,3] ∧
      (namesOf smallSb nested).nlink i = (namesOf smallSb nested).entryLinks smallSb.ninodes i := by decide +kernel
  obtain ⟨which,right⟩ := counted i (namesOf_typed i typed) typed
  refine ⟨right,?_⟩
  have a : (namesOf smallSb nested).Reach 2 := .entry .root (e := ⟨2,[97]⟩) (by decide +kernel) (by decide)
  have b : (namesOf smallSb nested).Reach 3 := .entry a (e := ⟨3,[98]⟩) (by decide +kernel) (by decide)
  simp only [List.mem_cons,List.not_mem_nil,or_false] at which
  rcases which with rfl | rfl | rfl
  · exact .root
  · exact a
  · exact b

theorem nested_tree : (namesOf smallSb nested).Tree := namesOf_tree (by decide +kernel) (by decide +kernel)

end Xv6.Fs
