import Xv6.Fs.Path
import Xv6.Fs.Locks
import Xv6.Fs.Calls

/-! Calls that fail to make or remove a name: `create`, `sys_link` and `sys_unlink` leave no trace. -/
namespace Xv6.Fs

open Prog Function

/-- The inode `j` is free as it was, or has the type, link count, size and contents that it had. It may have got another
block. -/
structure Same (sb : Superblock) (A A' : Abs) (j : Nat) : Prop where
  free : (A.ino j).type = 0 → (A'.ino j).type = 0
  fields : (A.ino j).type ≠ 0 → A'.ino j = { A.ino j with addrs := (A'.ino j).addrs }
  bytes : (A.ino j).type ≠ 0 → ∀ o < (A.ino j).size, A'.bytes sb j o = A.bytes sb j o

section Same

variable {sb : Superblock} {A B C : Abs} {i j : Nat}

namespace Same

theorem refl (A : Abs) (j : Nat) : Same sb A A j := ⟨id,fun _ => rfl,fun _ _ _ => rfl⟩

theorem type (same : Same sb A B j) : (B.ino j).type = (A.ino j).type := by
  by_cases typed : (A.ino j).type = 0
  · rw [typed,same.free typed]
  · rw [same.fields typed]

theorem nlink (same : Same sb A B j) (typed : (A.ino j).type ≠ 0) : (B.ino j).nlink = (A.ino j).nlink := by
  rw [same.fields typed]

theorem trans (first : Same sb A B j) (second : Same sb B C j) : Same sb A C j := by
  refine ⟨fun zero => second.free (first.free zero),fun typed => ?_,fun typed o inside => ?_⟩
  · rw [second.fields (by rwa [first.type]),first.fields typed]
  · have size : (B.ino j).size = (A.ino j).size := by rw [first.fields typed]
    rw [second.bytes (by rwa [first.type]) o (by rwa [size]),first.bytes typed o inside]

theorem entries (same : Same sb A B j) (typed : (A.ino j).type ≠ 0) : Fs.entries sb B j = Fs.entries sb A j :=
  entries_congr (by rw [same.fields typed]) (same.bytes typed)

theorem of_eq (ino : B.ino j = A.ino j) (bytes : B.bytes sb j = A.bytes sb j) : Same sb A B j :=
  ⟨fun zero => by rwa [ino],fun _ => by rw [ino],fun _ o _ => by rw [bytes]⟩

end Same

theorem Rewrites.same_other {lo up : Nat} (change : Rewrites sb i lo up A B) (sound : Sound sb A) (hj : j < sb.ninodes)
    (other : j ≠ i) : Same sb A B j :=
  ⟨fun zero => by rwa [change.others j other],fun _ => by rw [change.others j other],
    fun typed => change.bytes sound j hj other typed⟩

theorem Rewrites.same_unwritten {lo : Nat} (change : Rewrites sb i lo lo A B) (sound : Sound sb A) (hi : i < sb.ninodes)
    (size : (B.ino i).size = (A.ino i).size) : Same sb A B i := by
  refine ⟨fun zero => ?_,fun _ => ?_,fun typed o inside => ?_⟩
  · rw [change.fields]
    exact zero
  · rw [change.fields,size]
  · exact (change.kept i hi o (sound.block_ne hi typed inside) fun _ => Nat.lt_or_ge o lo).2

theorem Abs.setIno_bytes {din : Dinode} (addrs : din.addrs = (A.ino i).addrs) : (A.setIno i din).bytes sb =
    A.bytes sb := by
  unfold Abs.bytes Abs.block
  rw [Abs.setIno_ptr addrs]
  rfl

theorem Abs.setIno_same {din : Dinode} (addrs : din.addrs = (A.ino i).addrs) (other : j ≠ i) :
    Same sb A (A.setIno i din) j :=
  .of_eq (update_of_ne other ..) (by rw [setIno_bytes addrs])

def Abs.setNlink (A : Abs) (i n : Nat) : Abs := A.setIno i { A.ino i with nlink := n }

section Nlink

variable {n : Nat}

theorem Abs.setNlink_ino : (A.setNlink i n).ino i = { A.ino i with nlink := n } := update_self ..

theorem Abs.setNlink_bytes : (A.setNlink i n).bytes sb = A.bytes sb := setIno_bytes (by rfl)

theorem Abs.setNlink_same (other : j ≠ i) : Same sb A (A.setNlink i n) j := setIno_same (by rfl) other

theorem Sound.fits_nlink (sound : Sound sb A) (hi : i < sb.ninodes) (small : n < 2 ^ 16) :
    Dinode.Fits { A.ino i with nlink := n } :=
  have fits := sound.fits i hi
  ⟨fits.type,fits.major,fits.minor,small,fits.size,fits.addrs,fits.beyond⟩

theorem Sound.setNlink (sound : Sound sb A) (hi : i < sb.ninodes) (typed : (A.ino i).type ≠ 0) (small : n < 2 ^ 16) :
    Sound sb (A.setNlink i n) :=
  sound.setIno (by rfl) (sound.fits_nlink hi small) (fun zero => absurd zero typed)
    fun _ bn inside => sound.whole i hi typed bn inside

end Nlink

theorem Cleared.same (cleared : Cleared sb i A B) (other : j ≠ i) : Same sb A B j :=
  .of_eq (cleared.others j other) (cleared.bytes other)

end Same

/-- The entries of the directories in `W` name inodes in `W`, and no allocated inode in `W` is there only for a
reference that is about to be given back. -/
structure Tended (sb : Superblock) (A : Abs) (R : Multiset (Nat × Nat)) (W : Set Nat) : Prop where
  range : ∀ i ∈ W, i < sb.ninodes
  steady : ∀ i ∈ W, Steady A R i
  inside : ∀ d ∈ W, (A.ino d).type = tDir → ∀ e ∈ entries sb A d, e.inum ≠ 0 → e.inum ∈ W

section Calls

variable {sb : Superblock} {T : Tables} {s : State} {A : Abs} {R : Multiset (Nat × Nat)} {L : Set (Nat × Nat)}
  {k i d : Nat} {W : Set Nat}

/-! References and walks. -/

theorem ilock_kept (member : (k,i) ∈ R) (repr : Repr sb T s A ∅ R L) :
    wp (ilock sb k) (fun _ t => Repr sb T t A ∅ R (insert (k,i) L) ∧ (A.ino i).type ≠ 0) (fun _ => True) s :=
  wp_post (ilock_spec always member (Set.notMem_empty i) (.inr trivial) repr) fun _ _ done => ⟨done.1,done.2.1⟩

theorem iput_kept (steady : Steady A R i) (repr : Repr sb T s A ∅ ((k,i) ::ₘ R) L) :
    wp (iput sb k) (fun _ t => Repr sb T t A ∅ R ∅) (fun _ => True) s :=
  wp_mono (iput_run steady repr) (fun _ _ done => done.1) fun _ => False.elim

theorem iunlockput_kept (steady : Steady A R i) (repr : Repr sb T s A ∅ ((k,i) ::ₘ R) L) :
    wp (iunlockput sb k) (fun _ t => Repr sb T t A ∅ R ∅) (fun _ => True) s := by
  apply wp_seq (iunlock_spec always repr)
  intro _ t repr
  exact iput_kept steady repr

theorem beginOp_kept (repr : Repr sb T s A ∅ R L) :
    wp beginOp (fun _ t => Repr sb T t A ∅ R L) (fun _ => True) s := by
  simp only [beginOp,wp_bind,wp_get,wp_ite,wp_fail,wp_modify]
  split
  · trivial
  · exact repr.log _

/-- A walk has ended: it has a reference to an inode in `W`, or none. -/
def WalkedTo (sb : Superblock) (T : Tables) (A : Abs) (R : Multiset (Nat × Nat)) (W : Set Nat)
    (r : Option (Nat × List UInt8)) (t : State) : Prop :=
  r = none ∧ Repr sb T t A ∅ R ∅ ∨ ∃ k i name, r = some (k,name) ∧ i ∈ W ∧ Repr sb T t A ∅ ((k,i) ::ₘ R) ∅

theorem handOut_kept (tended : Tended sb A R W) (inside : d ∈ W) (dir : (A.ino d).type = tDir) {name : List UInt8}
    {x : Nat × Nat} (value : lookup (entries sb A d) name = some x) {R' : Multiset (Nat × Nat)}
    (repr : Repr sb T s A ∅ R' L) :
    wp (handOut (some x)) (fun r t => ∃ k j, r = some (k,x.2 * direntSize) ∧ j ∈ W ∧ Repr sb T t A ∅ ((k,j) ::ₘ R') L)
      (fun _ => True) s := by
  obtain ⟨j,m⟩ := x
  obtain ⟨at_,used⟩ := getElem?_of_lookup value
  have next : j ∈ W := tended.inside d inside dir _ (List.mem_iff_getElem?.mpr ⟨m,at_⟩) used
  rw [handOut]
  apply wp_seq (iget_spec always (tended.range j next) repr)
  rintro k t ⟨repr,_⟩
  exact ⟨k,j,rfl,next,repr⟩

theorem namexFrom_kept (sound : Sound sb A) (tended : Tended sb A R W) (parent : Bool) (turns : Nat) (path : List UInt8)
    (inside : i ∈ W) (repr : Repr sb T s A ∅ ((k,i) ::ₘ R) ∅) :
    wp (namexFrom sb parent turns k path) (WalkedTo sb T A R W) (fun _ => True) s := by
  induction turns generalizing s k i path with
  | zero => trivial
  | succ turns ih =>
    have member : (k,i) ∈ (k,i) ::ₘ R := Multiset.mem_cons_self ..
    have steady := tended.steady i inside
    rw [namexFrom]
    cases skipelem path with
    | none =>
      dsimp only
      split
      · apply wp_seq (iput_kept steady repr)
        intro _ t repr
        exact .inl ⟨rfl,repr⟩
      · exact .inr ⟨k,i,[],rfl,inside,repr⟩
    | some found =>
      apply wp_seq (ilock_kept member repr)
      rintro _ t ⟨repr,_⟩
      have gives {u : State} {L : Set (Nat × Nat)} (repr : Repr sb T u A ∅ ((k,i) ::ₘ R) L) :
          wp (do
            iunlockput sb k
            return .none) (WalkedTo sb T A R W) (fun _ => True) u := by
        apply wp_seq (iunlockput_kept steady repr)
        intro _ v repr
        exact .inl ⟨rfl,repr⟩
      rw [wp_bind,wp_getInode]
      split
      · exact gives repr
      split
      · apply wp_seq (iunlock_spec always repr)
        intro _ u repr
        exact .inr ⟨k,i,found.1,rfl,inside,repr.unlocked (Set.empty_subset _)⟩
      rw [wp_bind]
      refine dirlookup_cases repr sound (Set.mem_insert ..) always (fun _ _ _ => gives repr) fun x dir value => ?_
      refine wp_post (handOut_kept tended inside dir value repr) ?_
      rintro _ u ⟨k',j,rfl,next,repr⟩
      rw [Multiset.cons_swap] at repr
      apply wp_seq (iunlockput_kept (steady.cons (k',j)) repr)
      intro _ v repr
      exact ih _ next repr

theorem namex_kept (sound : Sound sb A) (tended : Tended sb A R W) (root : rootino ∈ W) {cwd c : Nat}
    (member : (cwd,c) ∈ R) (inside : c ∈ W) (repr : Repr sb T s A ∅ R ∅) (path : List UInt8) (parent : Bool) :
    wp (namex sb cwd path parent) (WalkedTo sb T A R W) (fun _ => True) s := by
  rw [namex]
  split
  · apply wp_seq (iget_spec always (tended.range _ root) repr)
    rintro k t ⟨repr,_⟩
    exact namexFrom_kept sound tended parent _ path root repr
  · apply wp_seq (idup_spec member repr)
    rintro _ t ⟨rfl,repr⟩
    exact namexFrom_kept sound tended parent _ path inside repr

/-! Names. -/

/-- `dirlink` changes no inode but the directory, and that one only if it does not fail. -/
theorem dirlink_kept (layout : sb.Layout) (sound : Sound sb A) (locked : (k,d) ∈ L) (name : List UInt8) (inum : Nat)
    (repr : Repr sb T s A ∅ R L) :
    wp (dirlink sb k name inum) (fun r t => ∃ A', Repr sb T t A' ∅ R L ∧ Sound sb A' ∧
      (∀ j < sb.ninodes, j ≠ d → Same sb A A' j) ∧ (A'.ino d).type = (A.ino d).type ∧
      (r < 0 → Same sb A A' d)) (fun _ => True) s := by
  obtain ⟨hd,din,_⟩ := repr.at_locked locked
  rw [dirlink,wp_bind]
  refine dirlookup_cases repr sound locked always (fun dir whole value => ?_) fun x dir value => ?_
  · dsimp only
    rw [wp_bind,wp_getInode,din,direntCount_eq whole,wp_bind]
    refine wp_of_ok (emptyDirent_start repr sound locked) ?_
    rw [wp_bind]
    refine wp_mono (writeEntry_run layout repr sound locked dir whole (vacancy_le _) inum (strncpy dirsiz name)) ?_
      fun _ _ => trivial
    rintro r t ⟨A',repr',sound',change,written⟩
    rw [wp_pure]
    refine ⟨A',repr',sound',fun j hj other => change.same_other sound hj other,by rw [change.fields],fun fails => ?_⟩
    rcases written with ⟨rfl,_⟩ | ⟨none,_,size,_⟩
    · exact absurd fails (by simp)
    · rw [Int.toNat_of_nonpos none,Nat.add_zero] at change
      exact change.same_unwritten sound hd size
  · obtain ⟨j,m⟩ := x
    rw [handOut,wp_bind]
    refine wp_mono (iget_iput j repr) (fun ip t taken => ?_) fun _ _ => trivial
    rw [wp_pure]
    dsimp only
    rw [wp_bind]
    refine wp_mono taken.2.2.2 (fun _ u repr' => ?_) fun _ => False.elim
    exact ⟨A,repr',sound,fun j _ _ => .refl A j,rfl,fun _ => .refl A d⟩

/-- A call has failed: the inodes are as they were, and so are the references. -/
def Restored (sb : Superblock) (T : Tables) (A : Abs) (R : Multiset (Nat × Nat)) (t : State) : Prop :=
  ∃ A', Repr sb T t A' ∅ R ∅ ∧ Sound sb A' ∧ ∀ j < sb.ninodes, Same sb A A' j

theorem Restored.of_same {B : Abs} (repr : Repr sb T s B ∅ R L) (sound : Sound sb B)
    (same : ∀ j < sb.ninodes, Same sb A B j) : Restored sb T A R s :=
  ⟨B,repr.unlocked (Set.empty_subset L),sound,same⟩

theorem Restored.of_repr (repr : Repr sb T s A ∅ R L) (sound : Sound sb A) : Restored sb T A R s :=
  .of_same repr sound fun j _ => .refl A j

theorem Restored.iunlockput (steady : Steady A R i) (restored : Restored sb T A ((k,i) ::ₘ R) s) :
    wp (iunlockput sb k) (fun _ t => Restored sb T A R t) (fun _ => True) s := by
  obtain ⟨B,repr,sound,same⟩ := restored
  have hi := (repr.slot k i (Multiset.mem_cons_self ..)).2.1
  refine wp_post (iunlockput_kept (fun typed => ?_) repr) fun _ t repr => .of_same repr sound same
  rw [(same i hi).type] at typed
  rw [(same i hi).nlink typed]
  exact steady typed

theorem createFail_restored (layout : sb.Layout) {dp ip : Nat} (hi : i < sb.ninodes)
    (free : (A.ino i).type = 0) (only : (ip,i) ∉ (dp,d) ::ₘ R) (steady : Steady A R d) {B : Abs} (sound : Sound sb B)
    (locked : (ip,i) ∈ L) (others : ∀ j < sb.ninodes, j ≠ i → Same sb A B j)
    (repr : Repr sb T s B ∅ ((ip,i) ::ₘ (dp,d) ::ₘ R) L) :
    wp (createFail sb dp ip) (fun _ t => Restored sb T A R t) (fun _ => True) s := by
  obtain ⟨_,_,typed⟩ := repr.at_locked locked
  have zero : 0 < 2 ^ 16 := Nat.two_pow_pos 16
  rw [createFail]
  refine setDinode_iupdate layout always locked typed (sound.fits_nlink hi zero) repr fun t repr => ?_
  have repr : Repr sb T t (B.setNlink i 0) ∅ ((ip,i) ::ₘ (dp,d) ::ₘ R) L := repr
  have sound : Sound sb (B.setNlink i 0) := sound.setNlink hi typed zero
  have unlinked : ((B.setNlink i 0).ino i).nlink = 0 := by rw [Abs.setNlink_ino]
  have others (j : Nat) (hj : j < sb.ninodes) (other : j ≠ i) : Same sb A (B.setNlink i 0) j :=
    (others j hj other).trans (Abs.setNlink_same other)
  have freed : wp (iunlockput sb ip) (fun _ t => Restored sb T A ((dp,d) ::ₘ R) t) (fun _ => True) t := by
    apply wp_seq (iunlock_spec always repr)
    intro _ u repr
    refine wp_post (iput_spec layout always sound repr) ?_
    rintro _ v ⟨C,repr,sound,⟨rfl,stays⟩ | ⟨_,_,_,_,cleared,gone⟩⟩
    · rcases stays with still | linked | loose
      · exact absurd still only
      · exact absurd unlinked linked
      · exact absurd locked loose
    · refine .of_same repr sound fun j hj => ?_
      obtain rfl | here := eq_or_ne j i
      · exact ⟨fun _ => by rw [gone]; rfl,fun typed => absurd free typed,fun typed => absurd free typed⟩
      · exact (others j hj here).trans (cleared.same here)
  apply wp_seq freed
  intro _ u restored
  apply wp_seq (restored.iunlockput steady)
  exact fun _ v restored => restored

theorem createDots_kept (layout : sb.Layout) (sound : Sound sb A) (locked : (k,i) ∈ L) (type self up : Nat)
    (repr : Repr sb T s A ∅ R L) :
    wp (createDots sb k type self up) (fun _ t => ∃ A', Repr sb T t A' ∅ R L ∧ Sound sb A' ∧
      ∀ j < sb.ninodes, j ≠ i → Same sb A A' j) (fun _ => True) s := by
  rw [createDots]
  split
  · apply wp_seq (dirlink_kept layout sound locked dot self repr)
    rintro r t ⟨B,repr,sound,others,_⟩
    split
    · exact ⟨B,repr,sound,others⟩
    · refine wp_post (dirlink_kept layout sound locked dotdot up repr) ?_
      rintro r u ⟨C,repr,sound,others',_⟩
      exact ⟨C,repr,sound,fun j hj other => (others j hj other).trans (others' j hj other)⟩
  · exact ⟨A,repr,sound,fun j _ _ => .refl A j⟩

theorem createNew_restored (layout : sb.Layout) (sound : Sound sb A) {dp : Nat} {name : List UInt8}
    {type major minor : Nat}
    (typed : type ≠ 0) (small : type < 2 ^ 16) (smallMajor : major < 2 ^ 16) (smallMinor : minor < 2 ^ 16)
    (held : ∀ i ∈ heldOf ((dp,d) ::ₘ R), (A.ino i).type ≠ 0) (steady : Steady A R d) (locked : (dp,d) ∈ L)
    (repr : Repr sb T s A ∅ ((dp,d) ::ₘ R) L) :
    wp (createNew sb dp name type major minor) (fun r t => r = none → Restored sb T A R t) (fun _ => True) s := by
  rw [createNew]
  apply wp_seq (ialloc_spec layout always small repr)
  rintro r t (⟨rfl,repr⟩ | ⟨ip,i,rfl,_,hi,free,repr⟩)
  · apply wp_seq ((Restored.of_repr repr sound).iunlockput steady)
    exact fun _ u restored _ => restored
  have only : (ip,i) ∉ (dp,d) ::ₘ R := fun member => held i (mem_heldOf member) free
  have blank : (A.setIno i (Dinode.blank type)).ino i = Dinode.blank type := update_self ..
  have fits : Dinode.Fits ⟨type,major,minor,1,0,fun _ => 0⟩ :=
    ⟨small,smallMajor,smallMinor,show 1 < 2 ^ 16 by decide,Nat.two_pow_pos 32,fun _ => Nat.two_pow_pos 32,fun _ _ => rfl⟩
  dsimp only
  apply wp_seq (ilock_kept (Multiset.mem_cons_self ..) repr)
  rintro _ u ⟨repr,_⟩
  have new : (ip,i) ∈ insert (ip,i) L := Set.mem_insert ..
  refine setDinode_iupdate layout always new (by rw [blank]; exact typed) (by rw [blank]; exact fits) repr
    fun v repr => ?_
  simp only [Abs.setIno,update_self,update_idem,Dinode.blank] at repr
  have others (j : Nat) (_ : j < sb.ninodes) (other : j ≠ i) :
    Same sb A (A.setIno i ⟨type,major,minor,1,0,fun _ => 0⟩) j :=
    Abs.setIno_same (sound.free_addrs hi free).symm other
  have sound : Sound sb (A.setIno i ⟨type,major,minor,1,0,fun _ => 0⟩) :=
    sound.setIno (sound.free_addrs hi free).symm fits (fun zero => absurd zero typed)
      fun _ bn inside => absurd inside (Nat.not_lt_zero _)
  rw [wp_bind,wp_getInode,wp_bind,wp_getInode]
  apply wp_seq (createDots_kept layout sound new type _ _ repr)
  rintro dots w ⟨B,repr,sound,others'⟩
  have others (j : Nat) (hj : j < sb.ninodes) (other : j ≠ i) : Same sb A B j :=
    (others j hj other).trans (others' j hj other)
  split
  · exact wp_post (createFail_restored layout hi free only steady sound new others repr) fun _ _ restored _ => restored
  apply wp_seq (dirlink_kept layout sound (Set.mem_insert_of_mem _ locked) name _ repr)
  rintro r x ⟨C,repr,sound,rest,_,failed⟩
  split
  · rename_i fails
    refine wp_post (createFail_restored layout hi free only steady sound new (fun j hj other => ?_) repr)
      fun _ _ restored _ => restored
    obtain rfl | here := eq_or_ne j d
    · exact (others j hj other).trans (failed fails)
    · exact (others j hj other).trans (rest j hj here)
  · have last : ∀ y, wp (do
        iunlockput sb dp
        return some ip) (fun r t => r = none → Restored sb T A R t) (fun _ => True) y := fun y => by
      refine wp_skip fun _ z => ?_
      rintro ⟨⟩
    split
    · exact wp_skip fun _ _ => wp_skip fun _ z => last z
    · exact last x

theorem create_restored (layout : sb.Layout) (sound : Sound sb A) (tended : Tended sb A R W) (root : rootino ∈ W)
    {cwd c : Nat} (member : (cwd,c) ∈ R) (inside : c ∈ W) (held : ∀ i ∈ heldOf R, (A.ino i).type ≠ 0)
    (path : List UInt8) {type major minor : Nat} (typed : type ≠ 0) (small : type < 2 ^ 16)
    (smallMajor : major < 2 ^ 16) (smallMinor : minor < 2 ^ 16) (repr : Repr sb T s A ∅ R ∅) :
    wp (create sb cwd path type major minor) (fun r t => r = none → Restored sb T A R t) (fun _ => True) s := by
  rw [create]
  apply wp_seq (namex_kept sound tended root member inside repr path true)
  rintro r t (⟨rfl,repr⟩ | ⟨dp,d,name,rfl,inW,repr⟩)
  · exact fun _ => .of_repr repr sound
  dsimp only
  apply wp_seq (ilock_kept (Multiset.mem_cons_self ..) repr)
  rintro _ u ⟨repr,dirTyped⟩
  have steady := tended.steady d inW
  rw [wp_bind]
  refine dirlookup_cases repr sound (Set.mem_insert ..) always (fun _ _ _ => ?_) fun x dir value => ?_
  · refine createNew_restored layout sound typed small smallMajor smallMinor ?_ steady (Set.mem_insert ..) repr
    rintro i ⟨k,inside⟩
    rcases Multiset.mem_cons.mp inside with same | old
    · rw [(Prod.mk.inj same).2]
      exact dirTyped
    · exact held i (mem_heldOf old)
  · refine wp_post (handOut_kept tended inW dir value repr) ?_
    rintro _ v ⟨ip,j,rfl,next,repr⟩
    rw [Multiset.cons_swap] at repr
    apply wp_seq (iunlockput_kept (steady.cons (ip,j)) repr)
    intro _ w repr
    apply wp_seq (ilock_kept (Multiset.mem_cons_self ..) repr)
    rintro _ x ⟨repr,_⟩
    rw [wp_bind,wp_getInode]
    split
    · rintro ⟨⟩
    · apply wp_seq ((Restored.of_repr repr sound).iunlockput (tended.steady j next))
      exact fun _ y restored _ => restored

theorem Restored.endOp (restored : Restored sb T A R s) :
    wp (do
      Fs.endOp
      return (-1 : Int)) (fun r t => r < 0 → Restored sb T A R t) (fun _ => True) s := by
  obtain ⟨B,repr,sound,same⟩ := restored
  exact fun _ => .of_same (repr.log _) sound same

theorem Restored.close (steady : Steady A R i) (restored : Restored sb T A ((k,i) ::ₘ R) s) :
    wp (do
      Fs.iunlockput sb k
      Fs.endOp
      return (-1 : Int)) (fun r t => r < 0 → Restored sb T A R t) (fun _ => True) s := by
  apply wp_seq (restored.iunlockput steady)
  exact fun _ t restored => restored.endOp

theorem nlink_back {n : Nat} (small : n < 2 ^ 16) : ((n + 1) % 2 ^ 16 + (2 ^ 16 - 1)) % 2 ^ 16 = n := by omega

/-- The label `bad` of `sys_link`: the link count has been one more than in `A`. -/
theorem linkBad_restored (layout : sb.Layout) (sound : Sound sb A) (hi : i < sb.ninodes) (typed : (A.ino i).type ≠ 0)
    (steady : Steady A R i) (restored : Restored sb T (A.setNlink i (((A.ino i).nlink + 1) % 2 ^ 16)) ((k,i) ::ₘ R) s) :
    wp (linkBad sb k) (fun r t => r < 0 → Restored sb T A R t) (fun _ => True) s := by
  obtain ⟨B,repr,soundB,same⟩ := restored
  have fields := (same i hi).fields (by rw [Abs.setNlink_ino]; exact typed)
  have bytes := (same i hi).bytes (by rw [Abs.setNlink_ino]; exact typed)
  rw [Abs.setNlink_ino] at fields bytes
  rw [Abs.setNlink_bytes] at bytes
  have typedB : (B.ino i).type ≠ 0 := by rw [fields]; exact typed
  have small : ((B.ino i).nlink + (2 ^ 16 - 1)) % 2 ^ 16 < 2 ^ 16 := Nat.mod_lt _ (Nat.two_pow_pos 16)
  have after : { B.ino i with nlink := ((B.ino i).nlink + (2 ^ 16 - 1)) % 2 ^ 16 } =
      { A.ino i with addrs := (B.ino i).addrs } := by
    rw [fields]
    simp only [nlink_back (sound.fits i hi).nlink]
  rw [linkBad]
  apply wp_seq (ilock_kept (Multiset.mem_cons_self ..) repr)
  rintro _ t ⟨repr,_⟩
  refine setDinode_iupdate layout always (Set.mem_insert ..) typedB (soundB.fits_nlink hi small) repr
    fun u repr => ?_
  refine Restored.close steady (.of_same repr (soundB.setNlink hi typedB small) fun j hj => ?_)
  obtain rfl | other := eq_or_ne j i
  · refine ⟨fun zero => absurd zero typed,fun _ => ?_,fun _ o inside => ?_⟩
    · have addrs : ((B.setNlink j (((B.ino j).nlink + (2 ^ 16 - 1)) % 2 ^ 16)).ino j).addrs = (B.ino j).addrs := by
        rw [Abs.setNlink_ino]
      rw [← addrs] at after
      exact Abs.setNlink_ino.trans after
    · exact (congrFun (congrFun Abs.setNlink_bytes j) o).trans (bytes o inside)
  · exact ((Abs.setNlink_same other).trans (same j hj)).trans (Abs.setNlink_same other)

theorem Tended.setNlink (tended : Tended sb A R W) (n : Nat) : Tended sb (A.setNlink i n) ((k,i) ::ₘ R) W := by
  refine ⟨tended.range,fun j inside => ?_,fun d inside dir => ?_⟩
  · obtain rfl | here := eq_or_ne j i
    · exact fun _ => .inr (mem_heldOf (Multiset.mem_cons_self ..))
    · have same : (A.setNlink i n).ino j = A.ino j := update_of_ne here ..
      intro typed
      rw [same] at typed ⊢
      exact (tended.steady j inside).cons (k,i) typed
  · have fields : ((A.setNlink i n).ino d).type = (A.ino d).type ∧ ((A.setNlink i n).ino d).size = (A.ino d).size := by
      obtain rfl | here := eq_or_ne d i
      · rw [Abs.setNlink_ino]
        exact ⟨rfl,rfl⟩
      · have same : (A.setNlink i n).ino d = A.ino d := update_of_ne here ..
        rw [same]
        exact ⟨rfl,rfl⟩
    rw [fields.1] at dir
    rw [entries_congr fields.2 fun o _ => by rw [Abs.setNlink_bytes]]
    exact tended.inside d inside dir

/-- What a call of the process `p` needs for its walks. -/
def CanWalk (T : Tables) (R : Multiset (Nat × Nat)) (W : Set Nat) (p : Nat) : Prop :=
  rootino ∈ W ∧ ∀ pr, T.proc p = some pr → ∃ c ∈ W, (pr.cwd,c) ∈ R

theorem CanWalk.myproc {p : Nat} (canWalk : CanWalk T R W p) (repr : Repr sb T s A ∅ R L) :
    wp (myproc p) (fun pr t => t = s ∧ ∃ c ∈ W, (pr.cwd,c) ∈ R) (fun _ => True) s := by
  refine wp_myproc always fun pr found => ⟨rfl,canWalk.2 pr ?_⟩
  rw [← repr.tables]
  exact found

theorem namei_kept (sound : Sound sb A) (tended : Tended sb A R W) (root : rootino ∈ W) {cwd c : Nat}
    (member : (cwd,c) ∈ R) (inside : c ∈ W) (repr : Repr sb T s A ∅ R ∅) (path : List UInt8) :
    wp (namei sb cwd path) (fun r t => r = none ∧ Repr sb T t A ∅ R ∅ ∨
      ∃ k i, r = some k ∧ i ∈ W ∧ Repr sb T t A ∅ ((k,i) ::ₘ R) ∅) (fun _ => True) s := by
  rw [namei]
  apply wp_seq (namex_kept sound tended root member inside repr path false)
  rintro r t (⟨rfl,repr⟩ | ⟨k,i,name,rfl,inW,repr⟩)
  · exact .inl ⟨rfl,repr⟩
  · exact .inr ⟨k,i,rfl,inW,repr⟩

theorem sysLink_restored (layout : sb.Layout) (sound : Sound sb A) (tended : Tended sb A R W) {p : Nat}
    (canWalk : CanWalk T R W p) (old new : Option (List UInt8)) (repr : Repr sb T s A ∅ R ∅) :
    wp (sysLink sb p old new) (fun r t => r < 0 → Restored sb T A R t) (fun _ => True) s := by
  cases old with
  | none => exact fun _ => .of_repr repr sound
  | some old =>
  cases new with
  | none => exact fun _ => .of_repr repr sound
  | some new =>
  rw [sysLink]
  apply wp_seq (canWalk.myproc repr)
  rintro pr _ ⟨rfl,c,inside,member⟩
  apply wp_seq (beginOp_kept repr)
  intro _ t repr
  apply wp_seq (namei_kept sound tended canWalk.1 member inside repr old)
  rintro r u (⟨rfl,repr⟩ | ⟨ip,i,rfl,inW,repr⟩)
  · exact (Restored.of_repr repr sound).endOp
  have hi := tended.range i inW
  have steady := tended.steady i inW
  dsimp only
  apply wp_seq (ilock_kept (Multiset.mem_cons_self ..) repr)
  rintro _ v ⟨repr,typed⟩
  rw [wp_bind,wp_getInode]
  split
  · exact (Restored.of_repr repr sound).close steady
  have small : ((A.ino i).nlink + 1) % 2 ^ 16 < 2 ^ 16 := Nat.mod_lt _ (Nat.two_pow_pos 16)
  refine setDinode_iupdate layout always (Set.mem_insert ..) typed (sound.fits_nlink hi small) repr
    fun w repr => ?_
  -- until the end the link count is one more, and the call holds the inode
  have repr : Repr sb T w (A.setNlink i (((A.ino i).nlink + 1) % 2 ^ 16)) ∅ ((ip,i) ::ₘ R) _ := repr
  have tended' : Tended sb (A.setNlink i (((A.ino i).nlink + 1) % 2 ^ 16)) ((ip,i) ::ₘ R) W := tended.setNlink _
  have sound' := sound.setNlink hi typed small
  apply wp_seq (iunlock_spec always repr)
  intro _ x repr
  apply wp_seq (namex_kept sound' tended' canWalk.1 (Multiset.mem_cons_of_mem member) inside
    (repr.unlocked (Set.empty_subset _)) new true)
  rintro r y (⟨rfl,repr⟩ | ⟨dp,d,name,rfl,inW',repr⟩)
  · exact linkBad_restored layout sound hi typed steady (.of_repr repr sound')
  dsimp only
  apply wp_seq (ilock_kept (Multiset.mem_cons_self ..) repr)
  rintro _ z ⟨repr,_⟩
  rw [wp_bind,wp_getInode]
  apply wp_seq (dirlink_kept layout sound' (Set.mem_insert ..) name _ repr)
  rintro r a ⟨B,repr,soundB,others,_,failed⟩
  by_cases fails : r < 0
  · have restored : Restored sb T (A.setNlink i (((A.ino i).nlink + 1) % 2 ^ 16)) ((dp,d) ::ₘ (ip,i) ::ₘ R) a := by
      refine .of_same repr soundB fun j hj => ?_
      obtain rfl | here := eq_or_ne j d
      · exact failed fails
      · exact others j hj here
    apply wp_seq (restored.iunlockput (tended'.steady d inW'))
    intro _ b restored
    rw [if_pos fails]
    exact linkBad_restored layout sound hi typed steady restored
  · refine wp_skip fun _ b => ?_
    rw [if_neg fails]
    refine wp_skip fun _ _ => wp_skip fun _ _ => ?_
    exact fun negative => absurd negative (by decide)

theorem unlinkFound_restored (sound : Sound sb A) {dp ip j off : Nat} (steady : Steady A R d) (steady' : Steady A R j)
    (repr : Repr sb T s A ∅ ((ip,j) ::ₘ (dp,d) ::ₘ R) L) :
    wp (unlinkFound sb dp ip off) (fun r t => r < 0 → Restored sb T A R t) (fun _ => True) s := by
  rw [unlinkFound]
  apply wp_seq (ilock_kept (Multiset.mem_cons_self ..) repr)
  rintro _ t ⟨repr,_⟩
  have locked : (ip,j) ∈ insert (ip,j) L := Set.mem_insert ..
  rw [wp_bind,wp_getInode,(repr.valid ip j (repr.locked ip j locked).1 (repr.locked ip j locked).2).1]
  dsimp only
  split
  · trivial
  apply wp_seq (isFull_reads repr sound locked)
  rintro full _ rfl
  split
  · apply wp_seq ((Restored.of_repr repr sound).iunlockput (steady'.cons (dp,d)))
    exact fun _ u restored => restored.close steady
  refine wp_skip fun r u => ?_
  split
  · trivial
  have last : ∀ v, wp (do
      iunlockput sb dp
      nlinkDec ip
      iupdate sb ip
      iunlockput sb ip
      endOp
      return (0 : Int)) (fun r t => r < 0 → Restored sb T A R t) (fun _ => True) v := fun v => by
    refine wp_skip fun _ _ => wp_skip fun _ _ => wp_skip fun _ _ => wp_skip fun _ _ => wp_skip fun _ _ => ?_
    exact fun negative => absurd negative (by decide)
  split
  · exact wp_skip fun _ _ => wp_skip fun _ w => last w
  · exact last u

theorem sysUnlink_restored (sound : Sound sb A) (tended : Tended sb A R W) {p : Nat} (canWalk : CanWalk T R W p)
    (path : Option (List UInt8)) (repr : Repr sb T s A ∅ R ∅) :
    wp (sysUnlink sb p path) (fun r t => r < 0 → Restored sb T A R t) (fun _ => True) s := by
  cases path with
  | none => exact fun _ => .of_repr repr sound
  | some path =>
  rw [sysUnlink]
  apply wp_seq (canWalk.myproc repr)
  rintro pr _ ⟨rfl,c,inside,member⟩
  apply wp_seq (beginOp_kept repr)
  intro _ t repr
  apply wp_seq (namex_kept sound tended canWalk.1 member inside repr path true)
  rintro r u (⟨rfl,repr⟩ | ⟨dp,d,name,rfl,inW,repr⟩)
  · exact (Restored.of_repr repr sound).endOp
  have steady := tended.steady d inW
  dsimp only
  apply wp_seq (ilock_kept (Multiset.mem_cons_self ..) repr)
  rintro _ v ⟨repr,_⟩
  split
  · exact (Restored.of_repr repr sound).close steady
  rw [wp_bind]
  refine dirlookup_cases repr sound (Set.mem_insert ..) always (fun _ _ _ => ?_) fun x dir value => ?_
  · exact (Restored.of_repr repr sound).close steady
  · refine wp_post (handOut_kept tended inW dir value repr) ?_
    rintro _ w ⟨ip,j,rfl,next,repr⟩
    exact unlinkFound_restored sound steady (tended.steady j next) repr

/-- A call has left no trace. The inodes and names are as they were, and so are references and locks; a block in use
belongs to an inode that was allocated before. -/
structure NoTrace (sb : Superblock) (T : Tables) (A : Abs) (R : Multiset (Nat × Nat)) (s t : State) (A' : Abs) :
    Prop where
  shows : Repr sb T t A' ∅ R ∅
  sound : Sound sb A'
  inodes : ∀ j < sb.ninodes, Same sb A A' j
  names : ∀ d < sb.ninodes, (A.ino d).type = tDir → entries sb A' d = entries sb A d
  blocks : ∀ b, sb.Data b → A'.used b = true → ∃ x, A'.ptr sb x = b ∧ x.1 < sb.ninodes ∧ (A.ino x.1).type ≠ 0
  refs : ∀ l < ninode, (t.itable l).ref = (s.itable l).ref
  locks : ∀ l, (t.itable l).locked = (s.itable l).locked

theorem Restored.noTrace (layout : sb.Layout) {t : State} (restored : Restored sb T A R t) (marks : t.marks = s.marks) :
    ∃ A', NoTrace sb T A R s t A' := by
  obtain ⟨B,repr,sound,same⟩ := restored
  refine ⟨B,repr,sound,same,fun d hd dir => (same d hd).entries (tDir_ne dir),fun b data used => ?_,
    fun l _ => congrFun (congrArg Marks.refs marks) l,fun l => congrFun (congrArg Marks.locks marks) l⟩
  obtain ⟨x,rfl⟩ := (sound.owned.marked b data).mp used
  have some := layout.data_pos data
  have hx : x.1 < sb.ninodes := by
    by_contra far
    exact some (by simp [Abs.ptr,far])
  refine ⟨x,rfl,hx,fun free => some ?_⟩
  have none := sound.free_addrs hx ((same x.1 hx).free free)
  simp [Abs.ptr,none]

/-- A `create`, `sys_link` or `sys_unlink` that fails leaves no trace, if the inodes that somebody refers to are allocated
and every allocated inode on the way has a link or another reference. -/
theorem failed_calls (layout : sb.Layout) (sound : Sound sb A) (repr : Repr sb T s A ∅ R ∅)
    (held : ∀ i ∈ heldOf R, (A.ino i).type ≠ 0) (tended : Tended sb A R W) {p : Nat} (canWalk : CanWalk T R W p) :
    (∀ pr, T.proc p = some pr → ∀ path, ∀ type ∈ [tDir,tFile,tDevice], ∀ major < 2 ^ 16, ∀ minor < 2 ^ 16,
      wp (create sb pr.cwd path type major minor) (fun r t => r = none → ∃ A', NoTrace sb T A R s t A')
        (fun _ => True) s) ∧
    (∀ old new, wp (sysLink sb p old new) (fun r t => r < 0 → ∃ A', NoTrace sb T A R s t A') (fun _ => True) s) ∧
    (∀ path, wp (sysUnlink sb p path) (fun r t => r < 0 → ∃ A', NoTrace sb T A R s t A') (fun _ => True) s) := by
  refine ⟨fun pr found path type which major smallMajor minor smallMinor => ?_,fun old new => ?_,fun path => ?_⟩
  · obtain ⟨c,inside,member⟩ := canWalk.2 pr found
    have typed : type ≠ 0 ∧ type < 2 ^ 16 := by
      simp only [List.mem_cons,List.not_mem_nil,or_false] at which
      rcases which with rfl | rfl | rfl <;> decide
    refine wp_mono (wp_and (create_restored layout sound tended canWalk.1 member inside held path
      typed.1 typed.2 smallMajor
      smallMinor repr) (create_marks pr.cwd path type major minor)) ?_ fun _ _ => trivial
    rintro r t ⟨restored,marks⟩ rfl
    exact (restored rfl).noTrace layout marks
  · refine wp_mono (wp_and (sysLink_restored layout sound tended canWalk old new repr) (Quiet.sysLink p old new s)) ?_
      fun _ _ => trivial
    exact fun r t ⟨restored,marks⟩ negative => (restored negative).noTrace layout marks
  · refine wp_mono (wp_and (sysUnlink_restored sound tended canWalk path repr) (Quiet.sysUnlink p path s)) ?_
      fun _ _ => trivial
    exact fun r t ⟨restored,marks⟩ negative => (restored negative).noTrace layout marks

end Calls

/-- The same disk without its last three blocks: the blocks that are left are all in use. -/
def fullSb : Superblock := { smallSb with size := 37, nblocks := 3 }

theorem full_layout : fullSb.Layout := ⟨by decide,by decide,by decide,by decide,by decide⟩

theorem full_sound : Sound fullSb (ofDisk fullSb nested) :=
  sound_of_owner full_layout (fun b => (b - 33,0)) (by decide +kernel) (by decide +kernel) (by decide +kernel)

theorem full_canWalk : CanWalk (boot fullSb nested).tables bootRefs {1,2,3} 0 := by
  refine ⟨by simp [rootino],fun pr found => ⟨rootino,by simp [rootino],?_⟩⟩
  obtain rfl : (⟨0,fun _ => none⟩ : Proc) = pr := Option.some.inj found
  exact Multiset.mem_singleton_self _

theorem full_tended : Tended fullSb (ofDisk fullSb nested) bootRefs {1,2,3} :=
  ⟨nested_dirs.range,fun i inside _ => nested_dirs.steady i inside,nested_dirs.inside⟩

theorem full_held : ∀ i ∈ heldOf bootRefs, ((ofDisk fullSb nested).ino i).type ≠ 0 := by
  rintro i ⟨k,member⟩
  obtain ⟨_,rfl⟩ := Prod.mk.inj (Multiset.mem_singleton.mp member)
  exact nested_dirs.typed rootino (by simp [rootino])

/-- Another process is in an operation of the log. -/
def busy : State := { boot fullSb nested with log := ⟨fullSb.logstart,fullSb.nlog,1,false,[]⟩ }

/-- After a call that fails on this disk. -/
def Unseen (t : State) : Prop := ∃ A', NoTrace fullSb busy.tables (ofDisk fullSb nested) bootRefs busy t A'

/-- The directory `/c` gets an inode but no block for its entries. The file `/a` cannot be made, for there is a directory
of that name; it gets no other name, and it is not removed because it is not empty. -/
theorem full_failed : (∃ t, (create fullSb 0 [47,99] tDir 0 0).run busy = .ok (none,t) ∧ Unseen t) ∧
    (∃ t, (create fullSb 0 [47,97] tFile 0 0).run busy = .ok (none,t) ∧ Unseen t) ∧
    (∃ t, (sysLink fullSb 0 (some [47,97]) (some [47,99])).run busy = .ok (-1,t) ∧ Unseen t) ∧
    ∃ t, (sysUnlink fullSb 0 (some [47,97])).run busy = .ok (-1,t) ∧ Unseen t := by
  obtain ⟨made,linked,removed⟩ := failed_calls full_layout full_sound ((boot_repr nested full_layout).log busy.log)
    full_held full_tended full_canWalk
  have unmade (path : List UInt8) (type : Nat) (which : type ∈ [tDir,tFile,tDevice])
      (failed : ((create fullSb 0 path type 0 0).run busy).toOption.map Prod.fst = some none) :
      ∃ t, (create fullSb 0 path type 0 0).run busy = .ok (none,t) ∧ Unseen t := by
    obtain ⟨_,t,ran,rfl⟩ := run_of_seen failed
    exact ⟨t,ran,wp_ok (made _ rfl path type which 0 (by decide) 0 (by decide)) ran rfl⟩
  have undone {x : Kernel Int} (spec : wp x (fun r t => r < 0 → Unseen t) (fun _ => True) busy)
      (failed : (x.run busy).toOption.map Prod.fst = some (-1)) : ∃ t, x.run busy = .ok (-1,t) ∧ Unseen t := by
    obtain ⟨_,t,ran,rfl⟩ := run_of_seen failed
    exact ⟨t,ran,wp_ok spec ran (by decide)⟩
  exact ⟨unmade _ tDir (by decide) (by decide +kernel),unmade _ tFile (by decide) (by decide +kernel),
    undone (linked _ _) (by decide +kernel),undone (removed _) (by decide +kernel)⟩

def orphan : Disk := smallImage [(1,oneBlock tDir 1 48 34),(2,oneBlock tDir 0 32 35)]
  [[⟨1,dot⟩,⟨1,dotdot⟩,⟨2,[97]⟩],[⟨2,dot⟩,⟨1,dotdot⟩]]

/-- A walk through that directory frees it, and `unlink` of `/a/x/y` fails. -/
theorem orphan_freed : Sound smallSb (ofDisk smallSb orphan) ∧
    Repr smallSb (boot smallSb orphan).tables (boot smallSb orphan) (ofDisk smallSb orphan) ∅ bootRefs ∅ ∧
    ∃ t, (sysUnlink smallSb 0 (some [47,97,47,120,47,121])).run (boot smallSb orphan) = .ok (-1,t) ∧
      (dinode smallSb (boot smallSb orphan).disk 2).type = tDir ∧ (dinode smallSb t.disk 2).type = 0 := by
  obtain ⟨_,t,ran,seen⟩ := run_of_seen (x := sysUnlink smallSb 0 (some [47,97,47,120,47,121]))
    (s := boot smallSb orphan) (g := fun x => (x.1,(dinode smallSb x.2.disk 2).type)) (c := (-1,0)) (by decide +kernel)
  obtain ⟨rfl,gone⟩ := Prod.mk.inj seen
  exact ⟨sound_of_owner small_layout (fun b => (b - 33,0)) (by decide +kernel) (by decide +kernel) (by decide +kernel),
    boot_repr orphan small_layout,t,ran,by decide +kernel,gone⟩

end Xv6.Fs
