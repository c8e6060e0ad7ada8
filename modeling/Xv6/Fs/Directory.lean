import Xv6.Fs.FileBytes

/-! A directory is a finite map from names to inode numbers: what `dirlookup`, `dirlink` and the clearing of an
entry in `sys_unlink` do to the map. -/
namespace Xv6.Fs

open Prog Function

/-! Entries as a map. -/

section Map

variable {l : List Dirent} {name : List UInt8} {inum m : Nat}

/-- The map has the entries in use, if their names are distinct. -/
theorem lookup_eq_some_iff (distinct : Distinct l) :
    lookup l name = some (inum,m) ↔ l[m]? = some ⟨inum,name⟩ ∧ inum ≠ 0 := by
  refine ⟨getElem?_of_lookup,fun ⟨at_,used⟩ => lookup_first at_ used fun j below e bt inUse same => ?_⟩
  have := distinct j m e _ bt at_ inUse used same
  omega

theorem lookup_congr {l' : List Dirent} {name' : List UInt8} (distinct : Distinct l) (distinct' : Distinct l')
    (same : ∀ inum m : Nat, inum ≠ 0 → (l'[m]? = some ⟨inum,name'⟩ ↔ l[m]? = some ⟨inum,name⟩)) :
    lookup l' name' = lookup l name := by
  apply Option.ext
  rintro ⟨inum,m⟩
  rw [lookup_eq_some_iff distinct',lookup_eq_some_iff distinct]
  constructor
  · rintro ⟨at_,used⟩
    exact ⟨(same inum m used).mp at_,used⟩
  · rintro ⟨at_,used⟩
    exact ⟨(same inum m used).mpr at_,used⟩

theorem lookup_put (distinct : Distinct l) (fresh : lookup l name = none) (bound : m ≤ l.length)
    (empty : ∀ e, l[m]? = some e → e.inum = 0) (used : inum ≠ 0) :
    lookup (put l m ⟨inum,name⟩) = update (lookup l) name (some (inum,m)) := by
  have distinct' : Distinct (put l m ⟨inum,name⟩) := distinct.put bound (lookup_eq_none_iff.mp fresh)
  funext name'
  obtain rfl | here := eq_or_ne name' name
  · rw [update_self,lookup_eq_some_iff distinct',getElem?_put bound,if_pos rfl]
    exact ⟨rfl,used⟩
  · rw [update_of_ne here]
    refine lookup_congr distinct distinct' fun inum' m' used' => ?_
    rw [getElem?_put bound]
    split
    · rename_i slot
      subst slot
      constructor
      · intro same
        exact absurd (congrArg Dirent.name (Option.some.inj same)).symm here
      · intro old
        exact absurd (empty _ old) used'
    · rfl

theorem lookup_clear (distinct : Distinct l) (found : lookup l name = some (inum,m)) :
    lookup (l.set m ⟨0,[]⟩) = update (lookup l) name none := by
  obtain ⟨at_,inUse⟩ := (lookup_eq_some_iff distinct).mp found
  have cleared (j : Nat) : (l.set m ⟨0,[]⟩)[j]? = if j = m then some ⟨0,[]⟩ else l[j]? := by
    by_cases here : j = m
    · rw [if_pos here,here,List.getElem?_set_self (List.getElem?_eq_some_iff.mp at_).1]
    · rw [if_neg here,getElem?_clear here]
  funext name'
  obtain rfl | here := eq_or_ne name' name
  · rw [update_self,lookup_eq_none_iff]
    intro e inside used same
    obtain ⟨j,bt⟩ := List.mem_iff_getElem?.mp inside
    rw [cleared] at bt
    split at bt
    · cases bt
      exact used rfl
    · rename_i other
      exact other (distinct j m e _ bt at_ used inUse same)
  · rw [update_of_ne here]
    refine lookup_congr distinct (distinct.clear m) fun inum' m' used' => ?_
    rw [cleared]
    split
    · rename_i slot
      subst slot
      constructor
      · intro same
        exact absurd (congrArg Dirent.inum (Option.some.inj same)).symm used'
      · intro old
        exact absurd (congrArg Dirent.name (Option.some.inj (old.symm.trans at_))) here
    · rfl

end Map

/-! Directories on the disk. -/

/-- What `dirlookup` returns for a value of the map: nothing, or a reference to the inode and the offset of the
entry. -/
def LookedUp (s : State) (value : Option (Nat × Nat)) (r : Option (Nat × Nat)) (t : State) : Prop :=
  value = none ∧ r = none ∧ t = s ∨ ∃ inum m ip, value = some (inum,m) ∧ r = some (ip,m * direntSize) ∧
    (t.itable ip).inum = inum ∧ 0 < (t.itable ip).ref ∧ t.disk = s.disk

/-- The directory in a slot is the map `f`; a value of it is handed out unless the inode table is full. -/
def IsMap (sb : Superblock) (s : State) (k : Nat) (f : List UInt8 → Option (Nat × Nat)) : Prop :=
  ∀ name, wp (dirlookup sb k name) (LookedUp s (f (chop name)))
    (fun e => e = .igetNoInodes ∧ f (chop name) ≠ none) s

section Directory

variable {sb : Superblock} {T : Tables} {s : State} {A : Abs} {R : Multiset (Nat × Nat)} {L : Set (Nat × Nat)}
  {k d : Nat} (repr : Repr sb T s A ∅ R L) (sound : Sound sb A) (locked : (k,d) ∈ L)
include repr sound locked

theorem isdiremptyFrom_reads (n l : Nat) (bound : ∀ m < n, (l + m) * direntSize ≤ (A.ino d).size) :
    wp (isdiremptyFromWith (bmap sb k) k n (l * direntSize)) (fun _ t => t = s) (fun _ => True) s := by
  induction n generalizing l with
  | zero => rfl
  | succ n ih =>
    obtain ⟨de,read,_⟩ := readDirent_short repr sound locked (bound 0 (Nat.succ_pos n))
    have next := ih (l + 1) fun m below => by
      have := bound (m + 1) (by omega)
      rwa [Nat.add_assoc,Nat.add_comm 1]
    rw [Nat.succ_mul] at next
    rw [isdiremptyFromWith,wp_bind]
    refine wp_of_ok read ?_
    dsimp only
    split
    · trivial
    split
    · rfl
    · exact next

theorem isFull_reads : wp (isFull sb k (A.ino d).type) (fun _ t => t = s) (fun _ => True) s := by
  obtain ⟨_,din,_⟩ := repr.at_locked locked
  rw [isFull]
  split
  · rw [wp_bind,isdirempty,isdiremptyWith,wp_bind,wp_getInode,din]
    refine wp_post (isdiremptyFrom_reads repr sound locked _ 2 fun m below => ?_) fun _ _ same => same
    simp only [direntCount,direntSize] at *
    omega
  · rfl

variable (dir : (A.ino d).type = tDir) (whole : direntSize ∣ (A.ino d).size)
include dir whole

theorem dirlookup_run (name : List UInt8) :
    (dirlookup sb k name).run s = (handOut (lookup (entries sb A d) (chop name))).run s := by
  obtain ⟨_,din,_⟩ := repr.at_locked locked
  have loop := dirlookupFrom_start repr sound locked name 0
  rw [Nat.add_zero] at loop
  rw [dirlookup,dirlookupWith,run_getInode,din,direntCount_eq whole]
  refine (congrArg (fun x : Kernel _ => x.run s) (if_neg (not_not.mpr dir))).trans (loop.trans ?_)
  cases lookup (entries sb A d) (chop name) <;> rfl

theorem isMap : IsMap sb s k (lookup (entries sb A d)) := by
  intro name
  rw [wp_congr (dirlookup_run repr sound locked dir whole name)]
  cases value : lookup (entries sb A d) (chop name) with
  | none => exact .inl ⟨rfl,rfl,rfl⟩
  | some x =>
    obtain ⟨inum,m⟩ := x
    rw [handOut,wp_bind]
    refine wp_mono (@iget_iput sb _ _ _ _ _ _ inum repr) (fun ip t taken => ?_) fun e full => ⟨full,by simp⟩
    exact .inr ⟨inum,m,ip,rfl,rfl,taken.1,taken.2.1,taken.2.2.1⟩

end Directory

/-- No entry can be added: the directory has the largest size that there is, or no block is left. -/
def NoRoom (sb : Superblock) (A A' : Abs) (d : Nat) : Prop :=
  (A.ino d).size = maxfile * bsize ∨ ∀ b < sb.size, A'.used b = true

section Write

variable {sb : Superblock} {T : Tables} {s : State} {A : Abs} {R : Multiset (Nat × Nat)} {L : Set (Nat × Nat)}
  {k d : Nat} (layout : sb.Layout) (repr : Repr sb T s A ∅ R L) (sound : Sound sb A) (locked : (k,d) ∈ L)
  (dir : (A.ino d).type = tDir) (whole : direntSize ∣ (A.ino d).size)
include layout repr sound locked dir whole

/-- An entry is written to a slot or behind the last, unless that needs a block and there is none. -/
theorem writeEntry_run {l : Nat} (bound : l ≤ (entries sb A d).length) (inum : Nat) (name : List UInt8) :
    wp (writei sb k (putDirent ⟨inum,name⟩) (l * direntSize) direntSize) (fun r t => ∃ A', Repr sb T t A' ∅ R L ∧
      Sound sb A' ∧ Rewrites sb d (l * direntSize) (l * direntSize + r.toNat) A A' ∧
      (r = direntSize ∧ entries sb A' d = put (entries sb A d) l (Names.entry inum (chop name)) ∧
          (A'.ino d).size = max (A.ino d).size (l * direntSize + direntSize) ∨
        r ≤ 0 ∧ entries sb A' d = entries sb A d ∧ (A'.ino d).size = (A.ino d).size ∧
          l = (entries sb A d).length ∧ NoRoom sb A A' d)) (fun _ => ¬Roomy s.log 7) s := by
  obtain ⟨hd,_,_⟩ := repr.at_locked locked
  have typed := tDir_ne dir
  have size_le := sound.size_le hd typed
  rw [length_entries] at bound ⊢
  have aligned : l * direntSize % bsize + direntSize ≤ bsize := by
    simp only [direntSize,bsize] at *
    omega
  have start : l * direntSize ≤ (A.ino d).size := by
    simp only [direntSize] at *
    omega
  have readable (a : Nat) : putDirent ⟨inum,name⟩ a ≠ none := by
    rw [putDirent]
    split <;> simp
  have spec := writei_spec layout always locked sound
    (putDirent ⟨inum,name⟩) (l * direntSize) direntSize repr
  have costs : Costs 7 (writei sb k (putDirent ⟨inum,name⟩) (l * direntSize) direntSize) := by
    refine (Costs.writei sb k (putDirent ⟨inum,name⟩) (l * direntSize) direntSize).mono ?_
    simp only [direntSize,bsize] at *
    omega
  refine costs.needs (wp_post spec ?_)
  rintro r t ⟨A',repr',sound',_,⟨rfl,rfl,large⟩ | ⟨tot,rfl,small,_,size,content,stops⟩⟩
  · refine ⟨A',repr',sound',Rewrites.refl A',.inr ⟨by decide,rfl,rfl,?_,.inl ?_⟩⟩
    · have := large start
      simp only [direntSize,bsize,maxfile,ndirect,nindirect] at *
      omega
    · have := large start
      simp only [direntSize,bsize,maxfile,ndirect,nindirect] at *
      omega
  obtain ⟨change,stop,why⟩ := stops readable
  obtain rfl | all := eq_or_ne tot direntSize
  · refine ⟨A',repr',sound',change,.inl ⟨rfl,?_,size⟩⟩
    refine entries_writeEntry sound hd dir bound (fun last => ?_) change size fun j below => ?_
    · rw [last,Nat.div_mul_cancel whole]
    · have := content (l * direntSize + j) (by omega) (by omega)
      rwa [Nat.add_sub_cancel_left] at this
  · have none : tot = 0 := by
      simp only [direntSize,bsize] at *
      omega
    subst none
    have same : (A'.ino d).size = (A.ino d).size := by omega
    obtain ⟨missing,full⟩ := why.resolve_left (Ne.symm (by simp [direntSize]))
    refine ⟨A',repr',sound',change,.inr ⟨by decide,entries_unwritten sound hd typed change same,same,?_,.inr full⟩⟩
    by_contra inside
    have there : l * direntSize < (A.ino d).size := by
      simp only [direntSize] at *
      omega
    exact (change.kept d hd (l * direntSize) (sound.block_ne hd typed there) fun _ => Nat.lt_or_ge _ _).1 missing

end Write

/-- Slot `k` of the inode table has the locked directory `d`, and no two of its entries have one name. -/
structure DirectoryAt (sb : Superblock) (T : Tables) (s : State) (A : Abs) (R : Multiset (Nat × Nat))
    (L : Set (Nat × Nat)) (k d : Nat) : Prop where
  repr : Repr sb T s A ∅ R L
  sound : Sound sb A
  locked : (k,d) ∈ L
  dir : (A.ino d).type = tDir
  whole : direntSize ∣ (A.ino d).size
  distinct : Distinct (entries sb A d)

namespace DirectoryAt

variable {sb : Superblock} {T : Tables} {s : State} {A : Abs} {R : Multiset (Nat × Nat)} {L : Set (Nat × Nat)}
  {k d : Nat}

theorem isMap (here : DirectoryAt sb T s A R L k d) : IsMap sb s k (lookup (entries sb A d)) :=
  Fs.isMap here.repr here.sound here.locked here.dir here.whole

/-- The outcome of `dirlink`: the name is added in the first free slot or behind the last, or it was there, or there is
no room. -/
def Linked (sb : Superblock) (T : Tables) (A : Abs) (R : Multiset (Nat × Nat)) (L : Set (Nat × Nat)) (k d : Nat)
    (name : List UInt8) (inum : Nat) (r : Int) (t : State) : Prop :=
  ∃ A', DirectoryAt sb T t A' R L k d ∧ (r = 0 ∧ lookup (entries sb A d) name = none ∧
        IsMap sb t k (update (lookup (entries sb A d)) name (some (inum,vacancy (entries sb A d)))) ∧
        (A'.ino d).size = (A.ino d).size +
          (if vacancy (entries sb A d) < (entries sb A d).length then 0 else direntSize) ∨
      r = -1 ∧ IsMap sb t k (lookup (entries sb A d)) ∧ (A'.ino d).size = (A.ino d).size ∧
        (lookup (entries sb A d) name ≠ none ∨ vacancy (entries sb A d) = (entries sb A d).length ∧ NoRoom sb A A' d))

theorem dirlink_run (layout : sb.Layout) (here : DirectoryAt sb T s A R L k d) (name : List UInt8) {inum : Nat}
    (used : inum ≠ 0) (small : inum < 2 ^ 16) :
    wp (dirlink sb k name inum) (Linked sb T A R L k d (chop name) inum)
      (fun e => e = .igetNoInodes ∧ lookup (entries sb A d) (chop name) ≠ none ∨ ¬Roomy s.log 7) s := by
  obtain ⟨repr,sound,locked,dir,whole,distinct⟩ := here
  obtain ⟨_,din,_⟩ := repr.at_locked locked
  rw [dirlink,wp_bind,wp_congr (dirlookup_run repr sound locked dir whole name)]
  cases value : lookup (entries sb A d) (chop name) with
  | some x =>
    obtain ⟨other,m⟩ := x
    rw [handOut,wp_bind]
    refine wp_mono (iget_iput other repr) (fun ip t taken => ?_) fun e full => .inl ⟨full,by simp⟩
    rw [wp_pure]
    dsimp only
    rw [wp_bind]
    refine wp_mono taken.2.2.2 (fun _ u repr' => ?_) fun _ => False.elim
    have after : DirectoryAt sb T u A R L k d := ⟨repr',sound,locked,dir,whole,distinct⟩
    exact ⟨A,after,.inr ⟨rfl,after.isMap,rfl,.inl (by simp [value])⟩⟩
  | none =>
    rw [handOut,wp_pure]
    dsimp only
    rw [wp_bind,wp_getInode,din,direntCount_eq whole,wp_bind]
    refine wp_of_ok (emptyDirent_start repr sound locked) ?_
    have bound := vacancy_le (entries sb A d)
    have entry : Names.entry inum (chop (strncpy dirsiz name)) = ⟨inum,chop name⟩ := by
      rw [Names.entry,Nat.mod_eq_of_lt small,chop_strncpy]
    rw [wp_bind]
    refine wp_mono (writeEntry_run layout repr sound locked dir whole bound inum (strncpy dirsiz name)) ?_
      fun _ full => .inr full
    rintro r t ⟨A',repr',sound',change,⟨rfl,list,size⟩ | ⟨fails,list,size,last,full⟩⟩
    · have dir' : (A'.ino d).type = tDir := by rw [change.fields]; exact dir
      rw [entry] at list
      have grown : (A'.ino d).size = (A.ino d).size +
          (if vacancy (entries sb A d) < (entries sb A d).length then 0 else direntSize) := by
        rw [length_entries] at bound ⊢
        have unit : direntSize = 16 := rfl
        by_cases inside : vacancy (entries sb A d) < (A.ino d).size / direntSize
        · rw [if_pos inside]
          simp only [unit] at *
          omega
        · rw [if_neg inside]
          simp only [unit] at *
          omega
      have whole' : direntSize ∣ (A'.ino d).size := by
        rw [grown]
        split
        · exact whole
        · exact (Nat.dvd_add_right whole).mpr (Nat.dvd_refl _)
      have after : DirectoryAt sb T t A' R L k d := ⟨repr',sound',locked,dir',whole',by
        rw [list]
        exact distinct.put bound (lookup_eq_none_iff.mp value)⟩
      have map := after.isMap
      rw [list,lookup_put distinct value bound (fun e => vacancy_empty) used] at map
      exact ⟨A',after,.inl ⟨rfl,value,map,grown⟩⟩
    · have dir' : (A'.ino d).type = tDir := by rw [change.fields]; exact dir
      have after : DirectoryAt sb T t A' R L k d := ⟨repr',sound',locked,dir',by rwa [size],by rwa [list]⟩
      have map := after.isMap
      rw [list] at map
      rw [wp_pure,if_pos (by simp only [direntSize]; omega)]
      exact ⟨A',after,.inr ⟨rfl,map,size,.inr ⟨last,full⟩⟩⟩

theorem clear_run (layout : sb.Layout) (here : DirectoryAt sb T s A R L k d) {name : List UInt8} {inum m : Nat}
    (found : lookup (entries sb A d) name = some (inum,m)) :
    wp (writei sb k (putDirent ⟨0,[]⟩) (m * direntSize) direntSize) (fun r t => r = direntSize ∧
      ∃ A', DirectoryAt sb T t A' R L k d ∧ IsMap sb t k (update (lookup (entries sb A d)) name none) ∧
        (A'.ino d).size = (A.ino d).size) (fun _ => ¬Roomy s.log 7) s := by
  obtain ⟨repr,sound,locked,dir,whole,distinct⟩ := here
  obtain ⟨at_,_⟩ := (lookup_eq_some_iff distinct).mp found
  have inside := (List.getElem?_eq_some_iff.mp at_).1
  refine wp_post (writeEntry_run layout repr sound locked dir whole (Nat.le_of_lt inside) 0 []) ?_
  rintro r t ⟨A',repr',sound',change,⟨rfl,list,size⟩ | ⟨_,_,_,last,_⟩⟩
  · have dir' : (A'.ino d).type = tDir := by rw [change.fields]; exact dir
    have same : (A'.ino d).size = (A.ino d).size := by
      rw [length_entries] at inside
      simp only [direntSize] at *
      omega
    have cleared : entries sb A' d = (entries sb A d).set m ⟨0,[]⟩ := list.trans (if_pos inside)
    have after : DirectoryAt sb T t A' R L k d :=
      ⟨repr',sound',locked,dir',by rwa [same],by rw [cleared]; exact distinct.clear m⟩
    have map := after.isMap
    rw [cleared,lookup_clear distinct found] at map
    exact ⟨rfl,A',after,map,same⟩
  · omega

end DirectoryAt

/-- A directory is a finite map. It has the entries in use; `dirlookup` looks names up; `dirlink` adds a name, in a free
slot if there is one, or changes nothing if the name is there or there is no room; clearing an entry removes its name. -/
theorem directory_map {sb : Superblock} {T : Tables} {s : State} {A : Abs} {R : Multiset (Nat × Nat)}
    {L : Set (Nat × Nat)} {k d : Nat} (layout : sb.Layout) (here : DirectoryAt sb T s A R L k d) (name : List UInt8)
    {inum : Nat} (used : inum ≠ 0) (small : inum < 2 ^ 16) :
    (∀ name i m, lookup (entries sb A d) name = some (i,m) ↔ (entries sb A d)[m]? = some ⟨i,name⟩ ∧ i ≠ 0) ∧
    IsMap sb s k (lookup (entries sb A d)) ∧
    wp (dirlink sb k name inum) (DirectoryAt.Linked sb T A R L k d (chop name) inum)
      (fun e => e = .igetNoInodes ∧ lookup (entries sb A d) (chop name) ≠ none ∨ ¬Roomy s.log 7) s ∧
    ∀ i m, lookup (entries sb A d) (chop name) = some (i,m) →
      wp (writei sb k (putDirent ⟨0,[]⟩) (m * direntSize) direntSize) (fun r t => r = direntSize ∧
        ∃ A', DirectoryAt sb T t A' R L k d ∧ IsMap sb t k (update (lookup (entries sb A d)) (chop name) none) ∧
          (A'.ino d).size = (A.ino d).size) (fun _ => ¬Roomy s.log 7) s :=
  ⟨fun _ _ _ => lookup_eq_some_iff here.distinct,here.isMap,here.dirlink_run layout name used small,
    fun _ _ found => here.clear_run layout found⟩

theorem nested_root : DirectoryAt smallSb (holding smallSb nested 1).tables (holding smallSb nested 1)
    (ofDisk smallSb nested) {(0,1)} {(0,1)} 0 1 :=
  ⟨holding_repr (by decide) (by decide +kernel),nested_sound,rfl,by decide +kernel,by decide +kernel,by decide +kernel⟩

/-- A second name for the directory `/a`, and the removal of the first. -/
theorem nested_map : IsMap smallSb (holding smallSb nested 1) 0 (lookup [⟨1,dot⟩,⟨1,dotdot⟩,⟨2,[97]⟩]) ∧
    wp (dirlink smallSb 0 [99] 2) (fun r t => r = 0 ∧
      IsMap smallSb t 0 (update (lookup [⟨1,dot⟩,⟨1,dotdot⟩,⟨2,[97]⟩]) [99] (some (2,3))) ∨ r = -1)
      (fun _ => False) (holding smallSb nested 1) ∧
    wp (writei smallSb 0 (putDirent ⟨0,[]⟩) 32 16) (fun r t => r = 16 ∧
      IsMap smallSb t 0 (update (lookup [⟨1,dot⟩,⟨1,dotdot⟩,⟨2,[97]⟩]) [97] none))
      (fun _ => False) (holding smallSb nested 1) := by
  have root : entries smallSb (ofDisk smallSb nested) 1 = [⟨1,dot⟩,⟨1,dotdot⟩,⟨2,[97]⟩] := by decide +kernel
  have roomy : Roomy (holding smallSb nested 1).log 7 := ⟨by decide,by decide,by decide⟩
  obtain ⟨_,map,link,_⟩ := directory_map small_layout nested_root [99] (show 2 ≠ 0 by decide) (by decide)
  obtain ⟨_,_,_,clear⟩ := directory_map small_layout nested_root [97] (show 2 ≠ 0 by decide) (by decide)
  have clear := clear 2 2 (by decide +kernel)
  have new : lookup (entries smallSb (ofDisk smallSb nested) 1) (chop [99]) = none := by decide +kernel
  have behind : vacancy (entries smallSb (ofDisk smallSb nested) 1) = 3 := by decide +kernel
  rw [root] at map
  refine ⟨map,wp_mono link ?_ ?_,wp_mono clear ?_ fun _ full => full roomy⟩
  · rintro r t ⟨A',_,⟨rfl,_,map,_⟩ | ⟨rfl,_⟩⟩
    · rw [behind,root] at map
      exact .inl ⟨rfl,map⟩
    · exact .inr rfl
  · rintro e (⟨_,there⟩ | full)
    · exact there new
    · exact full roomy
  · rintro r t ⟨rfl,A',_,map,_⟩
    rw [root] at map
    exact ⟨rfl,map⟩

end Xv6.Fs
