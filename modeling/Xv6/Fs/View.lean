import Xv6.Fs.Lookup

/-! The functions of `fs.c` on the name space: how a state shows a name space, and what
references, locks, `dirlookup` and `dirlink` do to it. -/
namespace Xv6.Fs

open Prog Function

/-- The state `s` shows the name space `N`. Between the functions of `fs.c` the disk has what
the inode table has. -/
structure View (sb : Superblock) (O : Set Nat) (T : Tables) (s : State) (N : Names) (R : Multiset (Nat × Nat))
    (L : Set (Nat × Nat)) : Prop where
  shows : ∃ A, names sb A = N ∧ Repr sb T s A ∅ R L ∧ Sound sb A
  range : N.Range sb.ninodes
  kept : N.Kept O L

/-- The inodes that somebody refers to. -/
def heldOf (R : Multiset (Nat × Nat)) : Set Nat := { i | ∃ k, (k,i) ∈ R }

variable {sb : Superblock} {O : Set Nat} {T : Tables} {s : State} {N : Names} {R : Multiset (Nat × Nat)}
  {L : Set (Nat × Nat)} {E : Panic → Prop} {k i d : Nat}

theorem heldOf_cons (R : Multiset (Nat × Nat)) (x : Nat × Nat) : heldOf R ⊆ heldOf (x ::ₘ R) :=
  fun _ ⟨l,inside⟩ => ⟨l,Multiset.mem_cons_of_mem inside⟩

theorem mem_heldOf (member : (k,i) ∈ R) : i ∈ heldOf R := ⟨k,member⟩

namespace View

section

variable (view : View sb O T s N R L)
include view

theorem log (log : Log) : View sb O T { s with log := log } N R L := by
  obtain ⟨A,isN,repr,sound⟩ := view.shows
  exact ⟨⟨A,isN,repr.log log,sound⟩,view.range,view.kept⟩

theorem slot (member : (k,i) ∈ R) : i < sb.ninodes ∧ (s.itable k).inum = i := by
  obtain ⟨A,_,repr,_⟩ := view.shows
  exact (repr.slot k i member).2

theorem held (locked : (k,i) ∈ L) : (k,i) ∈ R := by
  obtain ⟨A,_,repr,_⟩ := view.shows
  exact (repr.locked k i locked).1

theorem din (locked : (k,i) ∈ L) :
    (s.itable k).din.type = N.typ i ∧ (s.itable k).din.nlink = N.nlink i ∧ N.typ i ≠ 0 := by
  obtain ⟨A,rfl,repr,_⟩ := view.shows
  obtain ⟨hi,same,typed⟩ := repr.at_locked locked
  rw [same,names_typ hi,names_nlink hi typed]
  exact ⟨rfl,rfl,typed⟩

theorem plain (other : N.typ i ≠ tDir) : N.ents i = [] := by
  obtain ⟨A,rfl,_,_⟩ := view.shows
  exact names_plain sb A i other

theorem unlinked (free : N.typ i = 0) : N.nlink i = 0 := by
  obtain ⟨A,rfl,_,_⟩ := view.shows
  exact names_unlinked sb A i free

theorem nlink_lt (i : Nat) : N.nlink i < 2 ^ 16 := by
  obtain ⟨A,rfl,_,sound⟩ := view.shows
  simp only [names]
  split
  · rename_i inside
    exact (sound.fits i inside.1).nlink
  · decide

end

end View

theorem sep_of_subset (inside : ∀ x ∈ L, x ∈ R) : { x ∈ L | x ∈ R } = L :=
  Set.ext fun x => ⟨fun h => h.1,fun h => ⟨h,inside x h⟩⟩

/-! References and locks. -/

theorem iget_view (harmless : Harmless E) (hi : i < sb.ninodes) (view : View sb O T s N R L) :
    wp (iget i) (fun k t => View sb O T t N ((k,i) ::ₘ R) L ∧ ((k,i) ∈ R ∨ (t.itable k).valid = false) ∧
      ∀ l, (t.itable l).locked = (s.itable l).locked) E s := by
  obtain ⟨A,isN,repr,sound⟩ := view.shows
  apply wp_post (iget_spec harmless hi repr)
  rintro k t ⟨repr,fresh⟩
  exact ⟨⟨⟨A,isN,repr,sound⟩,view.range,view.kept⟩,fresh⟩

theorem idup_view (member : (k,i) ∈ R) (view : View sb O T s N R L) :
    wp (idup k) (fun l t => l = k ∧ View sb O T t N ((k,i) ::ₘ R) L) E s := by
  obtain ⟨A,isN,repr,sound⟩ := view.shows
  apply wp_post (idup_spec member repr)
  rintro l t ⟨same,repr⟩
  exact ⟨same,⟨A,isN,repr,sound⟩,view.range,view.kept⟩

theorem ilock_view (harmless : Harmless E) (member : (k,i) ∈ R) (typed : N.typ i ≠ 0 ∨ E .ilockNoType)
    (view : View sb O T s N R L) :
    wp (ilock sb k) (fun _ t => View sb O T t N R (insert (k,i) L) ∧ N.typ i ≠ 0 ∧
      (s.itable k).locked = false ∧ (t.itable k).locked = true) E s := by
  obtain ⟨A,rfl,repr,sound⟩ := view.shows
  rw [names_typ (repr.slot k i member).2.1] at typed ⊢
  apply wp_post (ilock_spec harmless member (Set.notMem_empty i) typed repr)
  rintro _ t ⟨repr,typed,flags⟩
  refine ⟨⟨⟨A,rfl,repr,sound⟩,view.range,fun j typed zero => ?_⟩,typed,flags⟩
  rcases view.kept j typed zero with old | ⟨l,inside⟩
  · exact .inl old
  · exact .inr ⟨l,Set.mem_insert_of_mem _ inside⟩

theorem iunlock_view (harmless : Harmless E) (view : View sb O T s N R L) :
    wp (iunlock k) (fun _ t => View sb O T t N R L) E s := by
  obtain ⟨A,isN,repr,sound⟩ := view.shows
  apply wp_post (iunlock_spec harmless repr)
  intro _ t repr
  exact ⟨⟨A,isN,repr,sound⟩,view.range,view.kept⟩

section

variable (layout : sb.Layout) (harmless : Harmless E)
include layout harmless

/-- `iput` frees an inode at most if nobody else holds it and it has no links. -/
theorem iput_view (view : View sb O T s N ((k,i) ::ₘ R) L) :
    wp (iput sb k) (fun _ t => ∃ N', View sb O T t N' R { x ∈ L | x ∈ R } ∧
      (N' = N ∧ (i ∈ heldOf R ∨ N.nlink i ≠ 0 ∨ (k,i) ∉ L) ∨ i ∉ heldOf R ∧ (s.itable k).valid = true ∧ N.typ i ≠ 0 ∧
        N.nlink i = 0 ∧ N' = N.free i)) E s := by
  obtain ⟨A,rfl,repr,sound⟩ := view.shows
  have member : (k,i) ∈ (k,i) ::ₘ R := Multiset.mem_cons_self ..
  obtain ⟨_,hi,_⟩ := repr.slot k i member
  have others {l j : Nat} (inside : (l,j) ∈ L) (ne : (l,j) ∉ R) : (l,j) = (k,i) := by
    rcases Multiset.mem_cons.mp (repr.locked l j inside).1 with same | old
    · exact same
    · exact absurd old ne
  apply wp_post (iput_spec layout harmless sound repr)
  rintro _ t ⟨A',repr',sound',⟨rfl,stays⟩ | ⟨last,valid,zero,typed,cleared,gone⟩⟩
  · refine ⟨_,⟨⟨A',rfl,repr',sound'⟩,view.range,fun j typed zero => ?_⟩,.inl ⟨rfl,?_⟩⟩
    swap
    · rcases stays with held | linked | stale
      · exact .inl (mem_heldOf held)
      · by_cases inL : (k,i) ∈ L
        · rw [names_nlink hi (repr.valid k i member (repr.locked k i inL).2).2]
          exact .inr (.inl linked)
        · exact .inr (.inr inL)
      · exact .inr (.inr stale)
    rcases view.kept j typed zero with old | ⟨l,inside⟩
    · exact .inl old
    · by_cases still : (l,j) ∈ R
      · exact .inr ⟨l,inside,still⟩
      · obtain ⟨rfl,rfl⟩ := Prod.mk.inj (others inside still)
        rw [names_typ hi] at typed
        rw [names_nlink hi typed] at zero
        rcases stays with held | linked | stale
        · exact absurd held still
        · exact absurd zero linked
        · exact absurd inside stale
  · have freed := names_erased hi cleared gone
    refine ⟨_,⟨⟨A',freed,repr',sound'⟩,view.range.free i,fun j typed zero => ?_⟩,
      .inr ⟨?_,valid,by rwa [names_typ hi],by rwa [names_nlink hi typed],rfl⟩⟩
    swap
    · rintro ⟨l,inside⟩
      exact last (repr.unique l k i (Multiset.mem_cons_of_mem inside) member ▸ inside)
    have ne : j ≠ i := by
      rintro rfl
      simp at typed
    rw [Names.free_typ,update_of_ne ne] at typed
    rw [Names.free_nlink,update_of_ne ne] at zero
    rcases view.kept j typed zero with old | ⟨l,inside⟩
    · exact .inl old
    · refine .inr ⟨l,inside,?_⟩
      by_contra gone
      exact ne (Prod.mk.inj (others inside gone)).2

theorem iput_fresh (fresh : (k,i) ∈ R ∨ (s.itable k).valid = false) (inside : ∀ x ∈ L, x ∈ R)
    (view : View sb O T s N ((k,i) ::ₘ R) L) :
    wp (iput sb k) (fun _ t => View sb O T t N R L) E s := by
  apply wp_post (iput_view layout harmless view)
  rintro _ t ⟨N',after,⟨rfl,_⟩ | ⟨last,valid,_⟩⟩
  · rwa [sep_of_subset inside] at after
  · rcases fresh with held | stale
    · exact absurd (mem_heldOf held) last
    · simp [stale] at valid

theorem iunlockput_view (view : View sb O T s N ((k,i) ::ₘ R) L) :
    wp (iunlockput sb k) (fun _ t => ∃ N', View sb O T t N' R { x ∈ L | x ∈ R } ∧
      (N' = N ∧ (i ∈ heldOf R ∨ N.nlink i ≠ 0 ∨ (k,i) ∉ L) ∨
        i ∉ heldOf R ∧ N.typ i ≠ 0 ∧ N.nlink i = 0 ∧ N' = N.free i)) E s := by
  rw [iunlockput]
  apply wp_seq (iunlock_view harmless view)
  intro _ t view
  apply wp_post (iput_view layout harmless view)
  rintro _ u ⟨N',view,stays | ⟨loose,_,freed⟩⟩
  · exact ⟨N',view,.inl stays⟩
  · exact ⟨N',view,.inr ⟨loose,freed⟩⟩

theorem iput_frees (view : View sb O T s N ((k,i) ::ₘ R) L) :
    wp (iput sb k) (fun _ t => ∃ N', View sb O T t N' R { x ∈ L | x ∈ R } ∧ N.Frees (heldOf R) N') E s := by
  apply wp_post (iput_view layout harmless view)
  rintro _ t ⟨N',after,⟨rfl,_⟩ | ⟨loose,_,typed,unlinked,rfl⟩⟩
  · exact ⟨_,after,.refl _⟩
  · exact ⟨_,after,.single (.free typed unlinked loose)⟩

theorem iunlockput_frees (view : View sb O T s N ((k,i) ::ₘ R) L) :
    wp (iunlockput sb k) (fun _ t => ∃ N', View sb O T t N' R { x ∈ L | x ∈ R } ∧ N.Frees (heldOf R) N') E s := by
  apply wp_post (iunlockput_view layout harmless view)
  rintro _ t ⟨N',after,⟨rfl,_⟩ | ⟨loose,typed,unlinked,rfl⟩⟩
  · exact ⟨_,after,.refl _⟩
  · exact ⟨_,after,.single (.free typed unlinked loose)⟩

end

/-! Directories. -/

section Directory

variable (view : View sb O T s N R L) (locked : (k,d) ∈ L) (dir : N.typ d = tDir)
include view locked dir

theorem View.length_ents : (N.ents d).length = (s.itable k).din.size / direntSize := by
  obtain ⟨A,rfl,repr,_⟩ := view.shows
  obtain ⟨hi,din,_⟩ := repr.at_locked locked
  rw [names_typ hi] at dir
  rw [names_ents hi dir,length_entries,din]

theorem View.length_le : (N.ents d).length ≤ direntCount (s.itable k).din.size := by
  rw [view.length_ents locked dir]
  simp only [direntCount,direntSize]
  omega

/-- An entry is written to a slot, or there is no room for it. -/
theorem writeEntry_view (layout : sb.Layout) (harmless : Harmless E) {l inum : Nat} (name : List UInt8)
    (hi : inum < sb.ninodes) (bound : l ≤ (N.ents d).length)
    (last : l = (N.ents d).length → direntCount (s.itable k).din.size = l) :
    wp (writei sb k (putDirent ⟨inum,name⟩) (l * direntSize) direntSize) (fun r t =>
      r = direntSize ∧ View sb O T t (N.setEnts d (put (N.ents d) l (Names.entry inum (chop name)))) R L ∨
      r ≠ direntSize ∧ View sb O T t N R L) E s := by
  obtain ⟨A,rfl,repr,sound⟩ := view.shows
  obtain ⟨hd,din,typed⟩ := repr.at_locked locked
  rw [names_typ hd] at dir
  rw [names_ents hd dir,length_entries] at bound last
  rw [din] at last
  apply wp_post (writei_spec layout harmless locked sound _ _ _ repr)
  rintro r t ⟨A',repr',sound',_,⟨rfl,rfl,_⟩ | ⟨tot,rfl,small,start,size,content,stops⟩⟩
  · exact .inr ⟨by decide,⟨A',rfl,repr',sound'⟩,view.range,view.kept⟩
  obtain ⟨change,aligned,_⟩ := stops fun a => by
    rw [putDirent]
    split <;> simp
  obtain rfl | all := eq_or_ne tot direntSize
  · refine .inl ⟨rfl,⟨A',?_,repr',sound'⟩,view.range.setEnts fun e inside => ?_,view.kept⟩
    · refine names_writeEntry sound hd dir bound (fun here => ?_) change size fun j below => ?_
      · have := last here
        simp only [direntCount,direntSize] at *
        omega
      · have := content (l * direntSize + j) (by omega) (by omega)
        rwa [Nat.add_sub_cancel_left] at this
    · rcases mem_put inside with old | rfl
      · exact view.range.entry d e old
      · exact Nat.lt_of_le_of_lt (Nat.mod_le ..) hi
  · have none : tot = 0 := by
      simp only [direntSize,bsize] at *
      omega
    subst none
    refine .inr ⟨by decide,⟨A',?_,repr',sound'⟩,view.range,view.kept⟩
    exact names_unwritten sound hd typed change (by rw [size]; omega)

/-- The entry that `dirlookup` has found, with a new reference to its inode, or that there is none. -/
def Found (sb : Superblock) (O : Set Nat) (T : Tables) (s : State) (N : Names) (R : Multiset (Nat × Nat))
    (L : Set (Nat × Nat)) (d : Nat) (name : List UInt8) (r : Option (Nat × Nat)) (t : State) : Prop :=
  r = none ∧ t = s ∧ (∀ e ∈ N.ents d, e.inum ≠ 0 → e.name ≠ chop name) ∨
  ∃ l e k, r = some (k,l * direntSize) ∧ (N.ents d)[l]? = some e ∧ e.inum ≠ 0 ∧ e.name = chop name ∧
    View sb O T t N ((k,e.inum) ::ₘ R) L ∧ ((k,e.inum) ∈ R ∨ (t.itable k).valid = false) ∧
      ∀ l, (t.itable l).locked = (s.itable l).locked

theorem View.readDirent {l : Nat} (inside : l < direntCount (s.itable k).din.size) :
    ∃ r de, (Fs.readDirent sb k (l * direntSize)).run s = .ok ((r,de),s) ∧
      (r = direntSize → (N.ents d)[l]? = some ⟨de.inum,chop de.name⟩) := by
  obtain ⟨A,rfl,repr,sound⟩ := view.shows
  obtain ⟨hi,din,_⟩ := repr.at_locked locked
  rw [names_typ hi] at dir
  rw [din] at inside
  have start : l * direntSize ≤ (A.ino d).size := by
    simp only [direntCount,direntSize] at *
    omega
  obtain ⟨de,read,entry⟩ := readDirent_short repr sound locked start
  refine ⟨_,de,read,fun whole => ?_⟩
  rw [names_ents hi dir]
  refine entry ?_
  simp only [direntSize] at *
  omega

theorem emptyDirent_view (whole : direntSize ∣ (s.itable k).din.size) :
    (emptyDirent sb k (direntCount (s.itable k).din.size) 0).run s = .ok (vacancy (N.ents d) * direntSize,s) := by
  obtain ⟨A,rfl,repr,sound⟩ := view.shows
  obtain ⟨hi,din,_⟩ := repr.at_locked locked
  rw [names_typ hi] at dir
  rw [din] at whole ⊢
  rw [names_ents hi dir,direntCount_eq whole]
  exact emptyDirent_start repr sound locked

/-- The loop of `isdirempty`: no slot before `l` is in use, apart from the first two. -/
theorem isdiremptyFrom_view (harmless : Harmless E) (n l : Nat) (bound : direntCount (s.itable k).din.size - l = n)
    (before : ∀ m, 2 ≤ m → m < l → ∀ e, (N.ents d)[m]? = some e → e.inum = 0) :
    wp (isdiremptyFromWith (bmap sb k) k n (l * direntSize)) (fun r t => t = s ∧ (r = true → N.kids d = [])) E s := by
  induction n generalizing l with
  | zero =>
    rw [isdiremptyFromWith,wp_pure]
    refine ⟨rfl,fun _ => List.eq_nil_iff_forall_not_mem.mpr fun c child => ?_⟩
    obtain ⟨some,m,e,low,at_,rfl⟩ := mem_childrenOf.mp child
    have length := view.length_le locked dir
    have below := (List.getElem?_eq_some_iff.mp at_).1
    exact some (before m low (by omega) e at_)
  | succ n ih =>
    obtain ⟨r,de,read,entry⟩ := view.readDirent locked dir (show l < _ by omega)
    rw [isdiremptyFromWith,wp_bind]
    refine wp_of_ok read ?_
    dsimp only
    split
    · exact harmless _ (by decide) (by decide)
    rename_i whole
    have here := entry (not_not.mp whole)
    split
    · rw [wp_pure]
      exact ⟨rfl,fun h => absurd h (by decide)⟩
    · rename_i empty
      rw [← Nat.succ_mul]
      refine ih (l + 1) (by omega) fun m low below e at_ => ?_
      obtain rfl | last := eq_or_ne m l
      · cases here.symm.trans at_
        exact not_not.mp empty
      · exact before m low (by omega) e at_

theorem isdirempty_view (harmless : Harmless E) :
    wp (isdirempty sb k) (fun r t => t = s ∧ (r = true → N.kids d = [])) E s := by
  rw [isdirempty,isdiremptyWith,wp_bind,wp_getInode]
  exact isdiremptyFrom_view view locked dir harmless _ 2 rfl fun m low below => by omega

end Directory

theorem dirlookup_view (harmless : Harmless E) (name : List UInt8) (view : View sb O T s N R L) (locked : (k,d) ∈ L) :
    wp (dirlookup sb k name) (fun r t => (N.typ d = tDir ∧ (r = none → direntSize ∣ (s.itable k).din.size)) ∧
      Found sb O T s N R L d name r t) E s := by
  obtain ⟨A,rfl,repr,sound⟩ := view.shows
  obtain ⟨hi,din,_⟩ := repr.at_locked locked
  refine dirlookup_cases repr sound locked harmless (fun dir whole none => ?_) fun x dir value => ?_
  · rw [names_typ hi,din]
    refine ⟨⟨dir,fun _ => whole⟩,.inl ⟨rfl,rfl,?_⟩⟩
    rw [names_ents hi dir]
    exact lookup_eq_none_iff.mp none
  · obtain ⟨at_,used⟩ := getElem?_of_lookup value
    rw [← names_ents hi dir] at at_
    apply wp_seq (iget_view harmless (view.range.entry d _ (List.mem_iff_getElem?.mpr ⟨_,at_⟩)) view)
    rintro k' t ⟨view',fresh⟩
    rw [wp_pure,names_typ hi]
    exact ⟨⟨dir,fun none => by simp at none⟩,.inr ⟨_,_,k',rfl,at_,used,rfl,view',fresh⟩⟩

/-- `dirlink` fails if the name is there or there is no room; else it takes a vacant slot. -/
theorem dirlink_put (layout : sb.Layout) (harmless : Harmless E) (name : List UInt8) {inum : Nat}
    (hi : inum < sb.ninodes) (view : View sb O T s N R L) (locked : (k,d) ∈ L) :
    wp (dirlink sb k name inum) (fun r t => r < 0 ∧ View sb O T t N R L ∨
      r = 0 ∧ ∃ l, (chop name ≠ [] → N.Vacant d l (chop name)) ∧
        View sb O T t (N.setEnts d (put (N.ents d) l (Names.entry inum (chop name)))) R L) E s := by
  rw [dirlink]
  apply wp_seq (dirlookup_view harmless name view locked)
  rintro r t ⟨⟨dir,whole⟩,⟨rfl,rfl,fresh⟩ | ⟨l,e,k',rfl,_,_,_,found,new,_⟩⟩
  · dsimp only
    have whole := whole rfl
    have length : direntCount (t.itable k).din.size = (N.ents d).length := by
      rw [direntCount_eq whole,view.length_ents locked dir]
    rw [wp_bind,wp_getInode,wp_bind]
    refine wp_of_ok (emptyDirent_view view locked dir whole) ?_
    apply wp_seq (writeEntry_view view locked dir layout harmless (strncpy dirsiz name) hi (vacancy_le _)
      fun last => length.trans last.symm)
    rw [chop_strncpy]
    rintro r v (⟨rfl,view'⟩ | ⟨fails,view'⟩)
    · rw [wp_pure]
      exact .inr ⟨by simp,_,fun nonempty => ⟨dir,vacancy_le _,fun _ => vacancy_empty,fresh,nonempty⟩,view'⟩
    · rw [wp_pure,if_pos fails]
      exact .inl ⟨by decide,view'⟩
  · apply wp_seq (iput_fresh layout harmless new (fun x locked => view.held locked) found)
    intro _ u view'
    rw [wp_pure]
    exact .inl ⟨by decide,view'⟩

theorem dirlink_view (layout : sb.Layout) (harmless : Harmless E) {name : List UInt8} {inum : Nat}
    (nonempty : chop name ≠ []) (hi : inum < sb.ninodes) (view : View sb O T s N R L) (locked : (k,d) ∈ L) :
    wp (dirlink sb k name inum) (fun r t => r < 0 ∧ View sb O T t N R L ∨ r = 0 ∧ ∃ l, N.Vacant d l (chop name) ∧
        View sb O T t (N.setEnts d (put (N.ents d) l (Names.entry inum (chop name)))) R L) E s := by
  apply wp_post (dirlink_put layout harmless name hi view locked)
  rintro r t (failed | ⟨isZero,l,vacant,view⟩)
  · exact .inl failed
  · exact .inr ⟨isZero,l,vacant nonempty,view⟩

/-! Inodes. -/

section

variable (layout : sb.Layout) (harmless : Harmless E) (locked : (k,i) ∈ L)
include layout harmless locked

theorem setNlink_view {g : Nat → Nat} (small : g (N.nlink i) < 2 ^ 16) (view : View sb O T s N R L) {α : Type}
    {rest : Kernel α} {Q : α → State → Prop}
    (next : ∀ t, View sb O T t (N.setNlink i (g (N.nlink i))) R L → wp rest Q E t) :
    wp (do
      setDinode k fun din => { din with nlink := g din.nlink }
      iupdate sb k
      rest) Q E s := by
  obtain ⟨A,rfl,repr,sound⟩ := view.shows
  obtain ⟨hi,_,typed⟩ := repr.at_locked locked
  have fits := sound.fits i hi
  rw [names_nlink hi typed] at small next
  have fits' : Dinode.Fits { A.ino i with nlink := g (A.ino i).nlink } :=
    ⟨fits.type,fits.major,fits.minor,small,fits.size,fits.addrs,fits.beyond⟩
  refine setDinode_iupdate layout harmless locked (by exact typed) fits' repr fun t repr' => next t ?_
  refine ⟨⟨_,@names_setIno sb A i { A.ino i with nlink := g (A.ino i).nlink } hi typed rfl rfl rfl,repr',
    sound.setIno rfl fits' (fun zero => absurd zero typed) ?_⟩,
    ⟨view.range.typed,view.range.entry⟩,fun j typed zero => ?_⟩
  · exact fun _ => sound.whole i hi typed
  · by_cases here : j = i
    · exact .inr ⟨k,here ▸ locked⟩
    · exact view.kept j typed (by simpa [here] using zero)

theorem writei_view (file : N.typ i ≠ tDir) (src : Nat → Option UInt8) (off n : Nat) (view : View sb O T s N R L) :
    wp (writei sb k src off n) (fun _ t => View sb O T t N R L) E s := by
  obtain ⟨A,rfl,repr,sound⟩ := view.shows
  obtain ⟨hi,_,typed⟩ := repr.at_locked locked
  rw [names_typ hi] at file
  apply wp_post (writei_spec layout harmless locked sound src off n repr)
  rintro r t ⟨A',repr',sound',change,_⟩
  exact ⟨⟨A',names_write sound hi typed file change,repr',sound'⟩,view.range,view.kept⟩

theorem itrunc_empties (view : View sb O T s N R L) :
    wp (itrunc sb k) (fun _ t => View sb O T t (N.setEnts i []) R L) E s := by
  obtain ⟨A,rfl,repr,sound⟩ := view.shows
  obtain ⟨hi,_,typed⟩ := repr.at_locked locked
  apply wp_post (itrunc_spec layout harmless locked sound repr)
  rintro r t ⟨A',repr',sound',cleared,gone⟩
  exact ⟨⟨A',names_truncated hi typed cleared gone,repr',sound'⟩,
    view.range.setEnts (fun e none => by simp at none),view.kept⟩

theorem itrunc_view (file : N.typ i ≠ tDir) (view : View sb O T s N R L) :
    wp (itrunc sb k) (fun _ t => View sb O T t N R L) E s := by
  have same : N.setEnts i [] = N := by
    ext1
    · rfl
    · rfl
    · simp [view.plain file]
  have after := @itrunc_empties _ _ _ _ _ _ _ E _ _ layout harmless locked view
  rwa [same] at after

end

/-- A new inode, from `ialloc` to the `iupdate` that gives it its first link. -/
theorem ialloc_view (layout : sb.Layout) (harmless : Harmless E) {type major minor : Nat} (typed : type ≠ 0)
    (small : type < 2 ^ 16) (smallMajor : major < 2 ^ 16) (smallMinor : minor < 2 ^ 16)
    (view : View sb O T s N R L) {α : Type} {none : Kernel α} {rest : Nat → Kernel α} {Q : α → State → Prop}
    (full : ∀ t, View sb O T t N R L → wp none Q E t)
    (next : ∀ k i t, 0 < i → N.typ i = 0 → View sb O T t (N.alloc i type) ((k,i) ::ₘ R) (insert (k,i) L) →
      wp (rest k) Q E t) :
    wp (do
      match ← ialloc sb type with
      | .none => none
      | some ip => do
        ilock sb ip
        setDinode ip fun din => { din with major := major, minor := minor, nlink := 1 }
        iupdate sb ip
        rest ip) Q E s := by
  obtain ⟨A,rfl,repr,sound⟩ := view.shows
  apply wp_seq (ialloc_spec layout harmless small repr)
  rintro r t (⟨rfl,repr'⟩ | ⟨k,i,rfl,pos,hi,free,repr'⟩)
  · exact full t ⟨⟨A,rfl,repr',sound⟩,view.range,view.kept⟩
  · have blank : (A.setIno i (Dinode.blank type)).ino i = Dinode.blank type := update_self ..
    apply wp_seq (ilock_spec harmless (Multiset.mem_cons_self ..) (Set.notMem_empty i)
      (.inl (by rw [blank]; exact typed)) repr')
    rintro _ u ⟨repr',_,_⟩
    have fits : Dinode.Fits ⟨type,major,minor,1,0,fun _ => 0⟩ :=
      ⟨small,smallMajor,smallMinor,show 1 < 2 ^ 16 by decide,Nat.two_pow_pos 32,fun _ => Nat.two_pow_pos 32,
        fun _ _ => rfl⟩
    refine setDinode_iupdate layout harmless (Set.mem_insert ..) (by rw [blank]; exact typed) (by rw [blank]; exact fits)
      repr' fun v repr' => next k i v pos (by rwa [names_typ hi]) ?_
    simp only [Abs.setIno,update_self,update_idem,Dinode.blank] at repr'
    refine ⟨⟨_,names_alloc sound hi free typed rfl rfl rfl,repr',
      sound.setIno (sound.free_addrs hi free).symm fits (fun zero => absurd zero typed) ?_⟩,?_,?_⟩
    · exact fun _ bn inside => absurd inside (Nat.not_lt_zero _)
    · refine ⟨fun j typed => ?_,fun j e inside => ?_⟩
      · by_cases here : j = i
        · rwa [here]
        · exact view.range.typed j (by simpa [here] using typed)
      · by_cases here : j = i
        · simp [here] at inside
        · exact view.range.entry j e (by simpa [here] using inside)
    · intro j typed zero
      by_cases here : j = i
      · simp [here] at zero
      · rcases view.kept j (by simpa [here] using typed) (by simpa [here] using zero) with
          old | ⟨l,inside⟩
        · exact .inl old
        · exact .inr ⟨l,Set.mem_insert_of_mem _ inside⟩

end Xv6.Fs
