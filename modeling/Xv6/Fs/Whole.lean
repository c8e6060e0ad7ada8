import Xv6.Fs.Check
import Xv6.Runs

/-! Files have no holes, whatever the functions of `fs.c` and `create` have done, and so reading allocates nothing. -/
namespace Xv6.Fs

open Prog Runs

/-! Reading with another `bmap`. -/

section Agree

variable {s : State} {k : Nat} {map map' : Nat → Kernel Nat}

/-- Inside the file in slot `k` both functions find the same blocks and change nothing. -/
def Agree (s : State) (k : Nat) (map map' : Nat → Kernel Nat) : Prop :=
  ∀ bn, bn * bsize < (s.itable k).din.size → ∃ b, (map bn).run s = .ok (b,s) ∧ (map' bn).run s = .ok (b,s)

/-- Both runs return the same and change nothing. -/
def Pure {α : Type} (s : State) (x y : Kernel α) : Prop := ∃ r, x.run s = .ok (r,s) ∧ y.run s = .ok (r,s)

variable (agree : Agree s k map map')
include agree

theorem readFromWith_agree (n : Nat) (ok : Nat → Bool) (turns tot off : Nat) (dst : Bytes.Storage)
    (inside : off + (n - tot) ≤ (s.itable k).din.size) :
    Pure s (readFromWith map n ok turns tot off dst) (readFromWith map' n ok turns tot off dst) := by
  induction turns generalizing tot off dst with
  | zero => exact ⟨_,rfl,rfl⟩
  | succ turns ih =>
    rw [readFromWith,readFromWith]
    by_cases more : tot < n
    swap
    · rw [if_neg more,if_neg more]
      exact ⟨_,rfl,rfl⟩
    have start := Nat.div_mul_le_self off bsize
    obtain ⟨b,first,second⟩ := agree (off / bsize) (by omega)
    rw [if_pos more,if_pos more]
    simp only [Pure,run_bind first,run_bind second]
    by_cases none : b = 0
    · rw [if_pos none,if_pos none]
      exact ⟨_,rfl,rfl⟩
    have read : (bread b).run s = .ok (s.disk b,s) := rfl
    rw [if_neg none,if_neg none,run_bind read,run_bind read]
    split
    · exact ih _ _ _ (by omega)
    · exact ⟨_,rfl,rfl⟩

theorem readiWith_agree (dst : Bytes.Storage) (ok : Nat → Bool) (off n : Nat) :
    Pure s (readiWith map k dst ok off n) (readiWith map' k dst ok off n) := by
  simp only [Pure,readiWith,run_getInode]
  split
  · exact ⟨_,rfl,rfl⟩
  · refine readFromWith_agree agree _ ok _ 0 off dst ?_
    split <;> omega

theorem readDirentWith_agree (off : Nat) : Pure s (readDirentWith map k off) (readDirentWith map' k off) := by
  obtain ⟨r,first,second⟩ := readiWith_agree agree (fun _ => 0) (fun _ => true) off direntSize
  exact ⟨_,by rw [readDirentWith,run_bind first]; rfl,by rw [readDirentWith,run_bind second]; rfl⟩

theorem dirlookupFromWith_agree (name : List UInt8) (n off : Nat) :
    (dirlookupFromWith map k name n off).run s = (dirlookupFromWith map' k name n off).run s := by
  induction n generalizing off with
  | zero => rfl
  | succ n ih =>
    obtain ⟨⟨r,de⟩,first,second⟩ := readDirentWith_agree agree off
    rw [dirlookupFromWith,dirlookupFromWith,run_bind first,run_bind second]
    dsimp only
    split
    · rfl
    · split
      · rfl
      · exact ih _

theorem dirlookupWith_agree (name : List UInt8) :
    (dirlookupWith map k name).run s = (dirlookupWith map' k name).run s := by
  rw [dirlookupWith,dirlookupWith,run_getInode,run_getInode]
  split
  · rfl
  · exact dirlookupFromWith_agree agree name _ 0

theorem isdiremptyFromWith_agree (n off : Nat) :
    (isdiremptyFromWith map k n off).run s = (isdiremptyFromWith map' k n off).run s := by
  induction n generalizing off with
  | zero => rfl
  | succ n ih =>
    obtain ⟨⟨r,de⟩,first,second⟩ := readDirentWith_agree agree off
    rw [isdiremptyFromWith,isdiremptyFromWith,run_bind first,run_bind second]
    dsimp only
    split
    · rfl
    · split
      · rfl
      · exact ih _

theorem isdiremptyWith_agree : (isdiremptyWith map k).run s = (isdiremptyWith map' k).run s := by
  rw [isdiremptyWith,isdiremptyWith,run_getInode,run_getInode]
  exact isdiremptyFromWith_agree agree _ _

end Agree

/-- Reading the file in slot `k` calls neither `balloc` nor `log_write`: with any functions in their place the readers
do the same, and `readi` changes nothing. -/
def ReadsOnly (sb : Superblock) (s : State) (k : Nat) : Prop :=
  ∀ (alloc : Kernel Nat) (record : Nat → Kernel Unit),
    (∀ dst ok off n, Pure s (readi sb k dst ok off n) (readiWith (bmapWith alloc record k) k dst ok off n)) ∧
    (∀ name, (dirlookup sb k name).run s = (dirlookupWith (bmapWith alloc record k) k name).run s) ∧
    (isdirempty sb k).run s = (isdiremptyWith (bmapWith alloc record k) k).run s

section Invariant

variable {sb : Superblock} {T : Tables} {s t : State} {A : Abs} {D : Set Nat} {N : Names} {R : Multiset (Nat × Nat)}
  {L : Set (Nat × Nat)} {k i : Nat}

theorem readsOnly (locked : (k,i) ∈ L) (sound : Sound sb A) (repr : Repr sb T s A D R L) : ReadsOnly sb s k := by
  intro alloc record
  obtain ⟨hi,din,typed⟩ := repr.at_locked locked
  have agree : Agree s k (bmap sb k) (bmapWith alloc record k) := by
    intro bn inside
    rw [din] at inside
    obtain ⟨bound,some⟩ := sound.whole i hi typed bn inside
    exact ⟨_,bmap_mapped locked sound repr bound some,bmapWith_mapped locked sound repr bound some alloc record⟩
  refine ⟨fun dst ok off n => ?_,fun name => ?_,?_⟩
  · exact readiWith_agree agree dst ok off n
  · exact dirlookupWith_agree agree name
  · exact isdiremptyWith_agree agree

end Invariant

/-! Runs. -/

inductive Action where
  | beginOp
  | endOp
  | iget (inum : Nat)
  | idup (k : Nat)
  | ilock (k : Nat)
  | iunlock (k : Nat)
  | iput (k : Nat)
  | writei (k : Nat) (src : Nat → Option UInt8) (off n : Nat)
  | itrunc (k : Nat)
  | dirlink (k : Nat) (name : List UInt8) (inum : Nat)
  /-- `sys_unlink` clears the entry that it has found. -/
  | clear (k l : Nat)
  | create (cwd : Nat) (path : List UInt8) (type major minor : Nat)

namespace Action

def InUse (s : State) (k : Nat) : Prop := k < ninode ∧ 0 < (s.itable k).ref

section Superblock

variable (sb : Superblock)

/-- What the callers see to: references are to inodes that are allocated, only inodes that `ilock` has read are
changed, and a directory changes by entries for inodes of the file system and by clearing one. -/
def Ready (s : State) : Action → Prop
  | .beginOp => True
  | .endOp => True
  | .iget inum => inum < sb.ninodes ∧ (dinode sb s.disk inum).type ≠ 0
  | .idup k => InUse s k
  | .ilock k => InUse s k
  | .iunlock k => InUse s k
  | .iput k => InUse s k
  | .writei k _ _ _ => InUse s k ∧ (s.itable k).valid = true ∧ (s.itable k).din.type ≠ tDir
  | .itrunc k => InUse s k ∧ (s.itable k).valid = true
  | .dirlink k _ inum => InUse s k ∧ (s.itable k).valid = true ∧ inum < sb.ninodes
  | .clear k l => InUse s k ∧ (s.itable k).valid = true ∧ (s.itable k).din.type = tDir ∧
    l < (s.itable k).din.size / direntSize
  | .create cwd _ type major minor => InUse s cwd ∧ type ≠ 0 ∧ type < 2 ^ 16 ∧ major < 2 ^ 16 ∧ minor < 2 ^ 16

def perform : Action → Kernel Unit
  | .beginOp => Fs.beginOp
  | .endOp => Fs.endOp
  | .iget inum => do
    let _ ← Fs.iget inum
  | .idup k => do
    let _ ← Fs.idup k
  | .ilock k => Fs.ilock sb k
  | .iunlock k => Fs.iunlock k
  | .iput k => Fs.iput sb k
  | .writei k src off n => do
    let _ ← Fs.writei sb k src off n
  | .itrunc k => Fs.itrunc sb k
  | .dirlink k name inum => do
    let _ ← Fs.dirlink sb k name inum
  | .clear k l => do
    let _ ← Fs.writei sb k (putDirent ⟨0,[]⟩) (l * direntSize) direntSize
  | .create cwd path type major minor => do
    let _ ← Fs.create sb cwd path type major minor

instance (s : State) (k : Nat) : Decidable (InUse s k) := inferInstanceAs (Decidable (_ ∧ _))

instance decidableReady (s : State) : (a : Action) → Decidable (a.Ready sb s)
  | .beginOp => inferInstanceAs (Decidable True)
  | .endOp => inferInstanceAs (Decidable True)
  | .iget _ => inferInstanceAs (Decidable (_ ∧ _))
  | .idup k => inferInstanceAs (Decidable (InUse s k))
  | .ilock k => inferInstanceAs (Decidable (InUse s k))
  | .iunlock k => inferInstanceAs (Decidable (InUse s k))
  | .iput k => inferInstanceAs (Decidable (InUse s k))
  | .writei .. => inferInstanceAs (Decidable (_ ∧ _ ∧ _))
  | .itrunc _ => inferInstanceAs (Decidable (_ ∧ _))
  | .dirlink .. => inferInstanceAs (Decidable (_ ∧ _ ∧ _))
  | .clear .. => inferInstanceAs (Decidable (_ ∧ _ ∧ _ ∧ _))
  | .create .. => inferInstanceAs (Decidable (_ ∧ _ ∧ _ ∧ _ ∧ _))

def act (s : State) (a : Action) : Option State :=
  if a.Ready sb s then (resultOf (a.perform sb) s).map Prod.snd else none

end Superblock

end Action

/-- The state shows a name space, and all references are to allocated inodes. -/
def Shown (sb : Superblock) (s : State) : Prop :=
  ∃ T N R L, View sb Set.univ T s N R L ∧ ∀ x ∈ R, N.typ x.2 ≠ 0

section Step

variable {sb : Superblock} {O : Set Nat} {T : Tables} {s t : State} {N N' : Names} {R : Multiset (Nat × Nat)}
  {L : Set (Nat × Nat)} {k i : Nat}

theorem View.referenced (view : View sb O T s N R L) (inUse : Action.InUse s k) : (k,(s.itable k).inum) ∈ R := by
  obtain ⟨A,_,repr,_⟩ := view.shows
  exact repr.mem_of_ref inUse.1 inUse.2

theorem View.lock (view : View sb Set.univ T s N R L) (member : (k,i) ∈ R) (valid : (s.itable k).valid = true) :
    View sb Set.univ T s N R (insert (k,i) L) := by
  obtain ⟨A,isN,repr,sound⟩ := view.shows
  exact ⟨⟨A,isN,repr.lock member valid,sound⟩,view.range,fun j _ _ => .inl (Set.mem_univ j)⟩

theorem Shown.perform (shown : Shown sb s) (layout : sb.Layout) (a : Action) (ready : a.Ready sb s) :
    wp (a.perform sb) (fun _ t => Shown sb t) (fun _ => True) s := by
  obtain ⟨T,N,R,L,view,held⟩ := shown
  have same {t : State} {L' : Set (Nat × Nat)} (view : View sb Set.univ T t N R L') : Shown sb t := ⟨T,N,R,L',view,held⟩
  cases a with
  | beginOp => exact wp_post (beginOp_view always view) fun _ t view => same view
  | endOp => exact wp_post (endOp_view view) fun _ t view => same view
  | iget inum =>
    obtain ⟨inside,typed⟩ := ready
    apply wp_seq (iget_view always inside view)
    rintro k t ⟨view',_⟩
    refine ⟨T,N,_,_,view',fun x member => ?_⟩
    rcases Multiset.mem_cons.mp member with rfl | old
    · rw [← view.namesOf,namesOf,names_typ inside]
      exact typed
    · exact held x old
  | idup k =>
    apply wp_seq (idup_view (view.referenced ready) view)
    rintro l t ⟨rfl,view'⟩
    refine ⟨T,N,_,_,view',fun x member => ?_⟩
    rcases Multiset.mem_cons.mp member with rfl | old
    · exact held _ (view.referenced ready)
    · exact held x old
  | ilock k =>
    apply wp_post (ilock_view always (view.referenced ready) (.inr trivial) view)
    rintro _ t ⟨view,_⟩
    exact same view
  | iunlock k => exact wp_post (iunlock_view always view) fun _ t view => same view
  | iput k =>
    obtain ⟨R',rfl⟩ := Multiset.exists_cons_of_mem (view.referenced ready)
    apply wp_post (iput_frees layout always view)
    rintro _ t ⟨N',view,frees⟩
    refine ⟨T,N',R',_,view,fun x member => ?_⟩
    rw [(frees.keep (mem_heldOf member)).typ]
    exact held x (Multiset.mem_cons_of_mem member)
  | writei k src off n =>
    obtain ⟨inUse,valid,file⟩ := ready
    have locked := view.lock (view.referenced inUse) valid
    have type := (locked.din (Set.mem_insert ..)).1
    rw [type] at file
    apply wp_seq (writei_view layout always (Set.mem_insert ..) file src off n locked)
    intro _ t view
    exact same view
  | itrunc k =>
    obtain ⟨inUse,valid⟩ := ready
    have locked := view.lock (view.referenced inUse) valid
    apply wp_post (itrunc_empties layout always (Set.mem_insert ..) locked)
    intro _ t view
    exact ⟨T,_,R,_,view,held⟩
  | dirlink k name inum =>
    obtain ⟨inUse,valid,inside⟩ := ready
    have locked := view.lock (view.referenced inUse) valid
    apply wp_seq (dirlink_put layout always name inside locked (Set.mem_insert ..))
    rintro r t (⟨_,view⟩ | ⟨_,l,_,view⟩)
    · exact same view
    · exact ⟨T,_,R,_,view,held⟩
  | clear k l =>
    obtain ⟨inUse,valid,isDir,below⟩ := ready
    have view' := view.lock (view.referenced inUse) valid
    have locked := Set.mem_insert (k,(s.itable k).inum) L
    have dir := (view'.din locked).1.symm.trans isDir
    have short : l < (N.ents (s.itable k).inum).length := by rwa [view'.length_ents locked dir]
    have inside : 0 < sb.ninodes := Nat.zero_lt_of_lt layout.root
    apply wp_seq (writeEntry_view view' locked dir layout always [] inside (Nat.le_of_lt short) (by omega))
    rintro r t (⟨_,view⟩ | ⟨_,view⟩)
    · exact ⟨T,_,R,_,view,held⟩
    · exact same view
  | create cwd path type major minor =>
    obtain ⟨inUse,typed,small,smallMajor,smallMinor⟩ := ready
    have empty : N.Closed ∅ := ⟨fun _ h => absurd h (Set.notMem_empty _),fun _ h => absurd h (Set.notMem_empty _),
      fun _ h => absurd h (Set.notMem_empty _)⟩
    apply wp_seq (create_view layout always typed small smallMajor smallMinor held (view.referenced inUse) empty
      (.inl trivial) view)
    rintro r t ⟨N',L',effect,after⟩
    have still (x : Nat × Nat) (member : x ∈ R) : N'.typ x.2 ≠ 0 := by
      rw [effect.typ (mem_heldOf member) (held x member)]
      exact held x member
    rcases after with ⟨_,view⟩ | ⟨k,i,_,locked,view,_⟩
    · exact ⟨T,N',R,L',view,still⟩
    · refine ⟨T,N',_,L',view,fun x member => ?_⟩
      rcases Multiset.mem_cons.mp member with rfl | old
      · exact (view.din locked).2.2
      · exact still x old

theorem Shown.act (shown : Shown sb s) (layout : sb.Layout) {a : Action} (acted : a.act sb s = some t) : Shown sb t := by
  rw [Action.act] at acted
  split at acted
  · rename_i ready
    obtain ⟨r,out,rfl⟩ := Option.map_eq_some_iff.mp acted
    exact wp_resultOf (shown.perform layout a ready) out
  · exact absurd acted (by simp)

end Step

/-- No file has a hole after any run from an image without holes, and reading calls neither `balloc` nor `log_write`, in
or out of a transaction. Of the image it is also asked that its blocks have one owner each, that its directory entries
name inodes of the file system, and that its root inode is allocated. -/
theorem files_whole {sb : Superblock} {image : Disk} (layout : sb.Layout) (sound : Sound sb (ofDisk sb image))
    (range : (namesOf sb image).Range sb.ninodes) (root : (namesOf sb image).typ rootino ≠ 0) {actions : List Action}
    {s : State} (ran : run (Action.act sb) (boot sb image) actions = some s) :
    (∀ i < sb.ninodes, (dinode sb s.disk i).type ≠ 0 → ∀ bn < ((dinode sb s.disk i).size + (bsize - 1)) / bsize,
      (ofDisk sb s.disk).block sb i bn ≠ 0) ∧
    ∀ k, Action.InUse s k → (s.itable k).valid = true → ∀ log, ReadsOnly sb { s with log := log } k := by
  have start : Shown sb (boot sb image) := by
    refine ⟨_,_,_,_,boot_view layout sound range (fun i _ _ => Set.mem_univ i),fun x member => ?_⟩
    rwa [Multiset.mem_singleton.mp member]
  obtain ⟨T,N,R,L,view,_⟩ := run_invariant (Shown sb) (fun _ _ _ shown => shown.act layout) start ran
  refine ⟨fun i hi typed bn below => ?_,fun k inUse valid log => ?_⟩
  · refine ((view.sound layout).whole i hi typed bn ?_).2
    show bn * bsize < (dinode sb s.disk i).size
    simp only [bsize] at *
    omega
  · obtain ⟨A,_,repr,sound'⟩ := (view.lock (view.referenced inUse) valid).shows
    exact readsOnly (Set.mem_insert ..) sound' (repr.log log)

/-- A new file is written, by a source of which only three bytes can be read at the second time, and its entry is
cleared. -/
def writeAndClear : List Action :=
  [.beginOp,.create 0 [102] tFile 0 0,.writei 1 (fun _ => some 7) 0 5,
    .writei 1 (fun a => if a < 3 then some 8 else none) 5 9,.iunlock 1,.ilock 0,.clear 0 3,.iunlock 0,.endOp]

theorem nested_whole : ∃ s, run (Action.act smallSb) (boot smallSb nested) writeAndClear = some s ∧
    (dinode smallSb s.disk 4).size = 5 ∧ (ofDisk smallSb s.disk).block smallSb 4 0 ≠ 0 ∧ ReadsOnly smallSb s 1 := by
  refine reaches (fun s => (dinode smallSb s.disk 4).type ≠ 0 ∧ (dinode smallSb s.disk 4).size = 5 ∧
    Action.InUse s 1 ∧ (s.itable 1).valid = true) (by decide +kernel) fun s ran after => ?_
  obtain ⟨typed,size,inUse,valid⟩ := after
  obtain ⟨mapped,reads⟩ := files_whole small_layout nested_sound nested_range (by decide +kernel) ran
  exact ⟨size,mapped 4 (by decide) typed 0 (by rw [size]; decide),reads 1 inUse valid s.log⟩

end Xv6.Fs
