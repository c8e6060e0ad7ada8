import Xv6.Fs.Handles

/-! The system calls on the name space, with the references that processes and open files have
between calls. -/
namespace Xv6.Fs

open Prog Function

variable {sb : Superblock} {O : Set Nat} {T : Tables} {s : State} {N : Names} {R : Multiset (Nat × Nat)}
  {L : Set (Nat × Nat)} {E : Panic → Prop} {W : Set Nat} {p f : Nat}

def CwdsIn (T : Tables) (R : Multiset (Nat × Nat)) (W : Set Nat) : Prop :=
  ∀ p pr i, T.proc p = some pr → (pr.cwd,i) ∈ R → i ∈ W

/-- A call has returned from a state with the tables `T` that shows `N`. -/
def Settled (sb : Superblock) (O W : Set Nat) (T : Tables) (N : Names) (R : Multiset (Nat × Nat)) (t : State) : Prop :=
  ∃ T' N' R' L', View sb O T' t N' R' L' ∧ Handles T' N' R' ∧ N.Effect ∅ N' ∧
    (rootino ∈ W → CwdsIn T R W → CwdsIn T' R' W)

/-! The tables. -/

section

variable (view : View sb O T s N R L)
include view

theorem View.setTables (T' : Tables) : View sb O T' { s with ftable := T'.file, proc := T'.proc } N R L := by
  obtain ⟨A,isN,repr,sound⟩ := view.shows
  exact ⟨⟨A,isN,⟨repr.inodes,repr.bits,repr.data,repr.slot,repr.refs,repr.valid,repr.unique,repr.locked,rfl⟩,sound⟩,
    view.range,view.kept⟩

theorem View.inum_unique {k i j : Nat} (hi : (k,i) ∈ R) (hj : (k,j) ∈ R) : i = j := by
  obtain ⟨A,_,repr,_⟩ := view.shows
  exact repr.inum_unique hi hj

theorem wp_getFile {Q : File → State → Prop} (rest : Q (T.file f) s) : wp (getFile f) Q E s := by
  have := view.tables_eq
  subst this
  exact rest

theorem wp_setFile {file : File} {Q : Unit → State → Prop} (rest : ∀ t, View sb O (T.setFile f file) t N R L → Q () t) :
    wp (setFile f file) Q E s := by
  have := view.tables_eq
  subst this
  exact rest _ (view.setTables (s.tables.setFile f file))

theorem wp_setProc {pr : Option Proc} {Q : Unit → State → Prop}
    (rest : ∀ t, View sb O (T.setProc p pr) t N R L → Q () t) : wp (setProc p pr) Q E s := by
  have := view.tables_eq
  subst this
  exact rest _ (view.setTables (s.tables.setProc p pr))

end

theorem wp_proc (harmless : Harmless E) (view : View sb O T s N R L) {Q : Proc → State → Prop}
    (found : ∀ pr, T.proc p = some pr → Q pr s) : wp (myproc p) Q E s := by
  have := view.tables_eq
  subst this
  exact wp_myproc harmless found

/-! Nothing but references. -/

theorem Settled.same (view : View sb O T s N R L) (handles : Handles T N R) : Settled sb O W T N R s :=
  ⟨T,N,R,L,view,handles,(Names.Frees.refl N).effect,fun _ => id⟩

theorem Returned.settled {t : State} (returned : Returned sb O T N R t) (handles : Handles T N R) :
    Settled sb O W T N R t := by
  obtain ⟨N',L',view,effect⟩ := returned
  exact ⟨T,N',R,L',view,handles.effect effect,effect.mono (Set.empty_subset _),fun _ => id⟩

theorem CwdsIn.setProc {pr pr' : Proc} (cwds : CwdsIn T R W) (here : T.proc p = some pr) (same : pr'.cwd = pr.cwd) :
    CwdsIn (T.setProc p (some pr')) R W := by
  intro q pr'' i at_ member
  obtain rfl | eq := eq_or_ne q p
  · simp only [Tables.setProc_proc,update_self] at at_
    cases at_
    exact cwds q pr i here (same ▸ member)
  · simp only [Tables.setProc_proc,update_of_ne eq] at at_
    exact cwds q pr'' i at_ member

section

variable (harmless : Harmless E) (view : View sb O T s N R L)
include harmless view

theorem argfd_view (fd : Nat) : wp (argfd p fd) (fun _ t => t = s) E s := by
  rw [argfd,wp_bind]
  exact wp_proc harmless view fun pr _ => rfl

theorem fdalloc_view (f : Nat) :
    wp (fdalloc p f) (fun r t => r = none ∧ t = s ∨ ∃ fd pr pr', r = some fd ∧ T.proc p = some pr ∧ pr'.cwd = pr.cwd ∧
      View sb O (T.setProc p (some pr')) t N R L) E s := by
  rw [fdalloc,wp_bind]
  refine wp_proc harmless view fun pr here => ?_
  split
  · rename_i fd _
    rw [setOfile,wp_bind]
    refine wp_setProc view fun t view => ?_
    rw [wp_pure]
    exact .inr ⟨fd,pr,{ pr with ofile := update pr.ofile fd (some f) },rfl,here,rfl,view⟩
  · rw [wp_pure]
    exact .inl ⟨rfl,rfl⟩

theorem filedup_view (handles : Handles T N R) (f : Nat) :
    wp (filedup f) (fun _ t => ∃ T', View sb O T' t N R L ∧ Handles T' N R ∧ T'.proc = T.proc) E s := by
  rw [filedup,wp_bind]
  refine wp_getFile view ?_
  split
  · exact harmless _ (by decide) (by decide)
  rename_i positive
  refine wp_setFile view fun t view => ⟨_,view,?_,rfl⟩
  refine handles.setFile (handles.file_lt ?_) (fun zero => ?_) rfl rfl rfl
  · omega
  · dsimp only at zero
    omega

theorem sysDup_view (handles : Handles T N R) (fd : Nat) :
    wp (sysDup p fd) (fun _ t => Settled sb O W T N R t) E s := by
  rw [sysDup]
  apply wp_seq (argfd_view harmless view fd)
  rintro r t rfl
  cases r with
  | none => exact .same view handles
  | some f =>
    apply wp_seq (fdalloc_view harmless view f)
    rintro r u (⟨rfl,rfl⟩ | ⟨fd,pr,pr',rfl,here,same,view⟩)
    · exact .same view handles
    · apply wp_seq (filedup_view harmless view (handles.setProc here same) f)
      rintro _ v ⟨T',view,handles,procs⟩
      refine ⟨T',N,R,L,view,handles,(Names.Frees.refl N).effect,fun _ cwds q pr'' i at_ => ?_⟩
      rw [procs] at at_
      exact cwds.setProc here same q pr'' i at_

end

/-! Writing. -/

theorem filewriteFrom_view (layout : sb.Layout) (harmless : Harmless E) (src : Nat → Option UInt8) (n turns i : Nat)
    (type : (T.file f).type = .inode) (writable : (T.file f).writable = true) (view : View sb O T s N R L)
    (handles : Handles T N R) :
    wp (filewriteFrom sb f src n turns i) (fun _ t => ∃ T' L', View sb O T' t N R L' ∧ Handles T' N R ∧
      T'.proc = T.proc) E s := by
  induction turns generalizing s T L i with
  | zero => exact ⟨T,L,view,handles,rfl⟩
  | succ turns ih =>
    rw [filewriteFrom]
    split
    swap
    · exact ⟨T,L,view,handles,rfl⟩
    dsimp only
    apply wp_seq (beginOp_view harmless view)
    intro _ t view
    rw [wp_bind]
    refine wp_getFile view ?_
    have isOpen : (T.file f).type ≠ .none := by simp [type]
    obtain ⟨j,member⟩ := handles.file isOpen
    apply wp_seq (ilock_view harmless member (.inl (handles.typed _ member)) view)
    rintro _ u ⟨view,_⟩
    apply wp_seq (writei_view layout harmless (Set.mem_insert ..) (handles.writable f j type writable member) _ _ _ view)
    intro r v view
    have rest {T' : Tables} {w : State} (view : View sb O T' w N R (insert ((T.file f).ip,j) L))
        (handles : Handles T' N R) (procs : T'.proc = T.proc) (type : (T'.file f).type = .inode)
        (writable : (T'.file f).writable = true) : wp (do
          iunlock (T.file f).ip
          endOp
          if r ≠ ((min (n - i) writeMax : Nat) : Int) then return i
          filewriteFrom sb f src n turns (i + min (n - i) writeMax)) (fun _ t => ∃ T' L', View sb O T' t N R L' ∧
            Handles T' N R ∧ T'.proc = T.proc) E w := by
      apply wp_seq (iunlock_view harmless view)
      intro _ x view
      apply wp_seq (endOp_view view)
      intro _ y view
      split
      · exact ⟨T',_,view,handles,procs⟩
      · apply wp_post (ih _ type writable view handles)
        rintro _ z ⟨T'',L'',view,handles,same⟩
        exact ⟨T'',L'',view,handles,same.trans procs⟩
    split
    · rw [wp_bind]
      have ref : (T.file f).ref ≠ 0 := fun zero => isOpen (handles.idle f zero)
      exact wp_setFile view fun w view => rest view
        (handles.setFile (handles.file_lt ref) (fun zero => absurd zero ref) rfl rfl rfl) rfl
        (by simpa using type) (by simpa using writable)
    · exact rest view handles rfl type writable

theorem sysWrite_view (layout : sb.Layout) (harmless : Harmless E) (fd : Nat) (src : Nat → Option UInt8) (n : Int)
    (view : View sb O T s N R L) (handles : Handles T N R) :
    wp (sysWrite sb p fd src n) (fun _ t => Settled sb O W T N R t) E s := by
  rw [sysWrite]
  apply wp_seq (argfd_view harmless view fd)
  rintro r t rfl
  cases r with
  | none => exact .same view handles
  | some f =>
    dsimp only
    rw [filewrite,wp_bind]
    refine wp_getFile view ?_
    split
    · exact .same view handles
    rename_i writable
    split
    · split
      · exact .same view handles
      · exact .same view handles
    · rename_i type
      apply wp_seq (filewriteFrom_view layout harmless src _ _ 0 type (by simpa using writable) view handles)
      rintro i u ⟨T',L',view,handles,procs⟩
      refine ⟨T',N,R,L',view,handles,(Names.Frees.refl N).effect,fun _ cwds q pr j at_ => ?_⟩
      rw [procs] at at_
      exact cwds q pr j at_
    · exact harmless _ (by decide) (by decide)

/-! Closing. -/

theorem fileclose_view (layout : sb.Layout) (harmless : Harmless E) (view : View sb O T s N R L)
    (handles : Handles T N R) (f : Nat) :
    wp (fileclose sb f) (fun _ t => ∃ T' N' R' L', View sb O T' t N' R' L' ∧ Handles T' N' R' ∧
      N.Frees (heldOf R') N' ∧ T'.proc = T.proc ∧ ∀ x ∈ R', x ∈ R) E s := by
  rw [fileclose,wp_bind]
  refine wp_getFile view ?_
  dsimp only
  split
  · exact harmless _ (by decide) (by decide)
  rename_i positive
  have hf : f < nfile := handles.file_lt (by omega)
  split
  · rename_i more
    refine wp_setFile view fun t view => ⟨_,N,R,L,view,?_,.refl N,rfl,fun _ => id⟩
    refine handles.setFile hf (fun zero => ?_) rfl rfl rfl
    dsimp only at zero
    omega
  rename_i last
  rw [wp_bind]
  refine wp_setFile view fun t view => ?_
  by_cases closed : (T.file f).type = .none
  · have none : ¬((T.file f).type = .inode ∨ (T.file f).type = .device) := by simp [closed]
    rw [if_neg none,wp_pure]
    exact ⟨_,N,R,L,view,handles.setFile hf (fun _ => rfl) closed.symm rfl rfl,.refl N,rfl,fun _ => id⟩
  · have isOpen : (T.file f).type = .inode ∨ (T.file f).type = .device := by
      cases shape : (T.file f).type <;> simp_all
    obtain ⟨i,member⟩ := handles.file closed
    rw [if_pos isOpen]
    have split := Multiset.cons_erase member
    rw [← split] at view handles
    have handles := @Handles.closeFile _ _ _ _ _ { T.file f with ref := 0, type := .none } handles closed rfl
    apply wp_seq (beginOp_view harmless view)
    intro _ u view
    apply wp_seq (iput_frees layout harmless view)
    rintro _ v ⟨N',view,frees⟩
    apply wp_post (endOp_view view)
    intro _ w view
    exact ⟨_,N',_,_,view,handles.effect frees.effect,frees,rfl,fun x => Multiset.mem_of_mem_erase⟩

theorem sysClose_view (layout : sb.Layout) (harmless : Harmless E) (fd : Nat) (view : View sb O T s N R L)
    (handles : Handles T N R) : wp (sysClose sb p fd) (fun _ t => Settled sb O W T N R t) E s := by
  rw [sysClose]
  apply wp_seq (argfd_view harmless view fd)
  rintro r t rfl
  cases r with
  | none => exact .same view handles
  | some f =>
    dsimp only
    rw [wp_bind]
    refine wp_proc harmless view fun pr here => ?_
    rw [setOfile,wp_bind]
    refine wp_setProc view fun u view => ?_
    apply wp_seq (fileclose_view layout harmless view (handles.setProc here rfl) f)
    rintro _ v ⟨T',N',R',L',view,handles,frees,procs,fewer⟩
    refine ⟨T',N',R',L',view,handles,(frees.mono (Set.empty_subset _)).effect,fun _ cwds q pr' i at_ member => ?_⟩
    rw [procs] at at_
    refine cwds.setProc here ?_ q pr' i at_ (fewer _ member)
    rfl

/-! Current directories. -/

theorem CwdsIn.cons {k i : Nat} (cwds : CwdsIn T R W) (handles : Handles T N R)
    (unique : ∀ j, (k,j) ∈ R → i = j) : CwdsIn T ((k,i) ::ₘ R) W := by
  intro q pr j at_ member
  rcases Multiset.mem_cons.mp member with same | old
  · cases same
    obtain ⟨c,there⟩ := handles.cwd at_
    rw [unique c there]
    exact cwds q pr c at_ there
  · exact cwds q pr j at_ old

theorem walks_of (handles : Handles T N R) (safe : E .ilockNoType ∨ rootino ∈ W ∧ CwdsIn T R W)
    (view : View sb O T s N R L) : Walks E s R W p := by
  intro pr here
  have := view.tables_eq
  subst this
  obtain ⟨c,member⟩ := handles.cwd here
  exact ⟨c,member,safe.imp id fun h => ⟨h.1,h.2 p pr c here member⟩⟩

theorem sysChdir_view (layout : sb.Layout) (harmless : Harmless E) (path : Option (List UInt8))
    (closed : N.Closed W) (safe : E .ilockNoType ∨ rootino ∈ W ∧ CwdsIn T R W) (view : View sb O T s N R L)
    (handles : Handles T N R) : wp (sysChdir sb p path) (fun _ t => Settled sb O W T N R t) E s := by
  rw [sysChdir]
  refine wp_walk harmless (walks_of handles safe view) view fun pr c t here member start view => ?_
  cases path with
  | none => exact wp_post (endOp_return (Names.Frees.refl N).effect view _) fun _ _ h => h.settled handles
  | some path =>
    dsimp only
    apply wp_seq (namei_view layout harmless path member closed start view)
    rintro r u ⟨N₁,L₁,frees,⟨rfl,view⟩ | ⟨ip,i,rfl,view,inside⟩⟩
    · exact wp_post (endOp_return frees.effect view _) fun _ _ h => h.settled handles
    have closed₁ := frees.closed closed
    apply wp_seq (ilock_view harmless (Multiset.mem_cons_self ..)
      (start.symm.imp (fun h => closed₁.typed i (inside h)) id) view)
    rintro _ v ⟨view,_⟩
    rw [wp_bind,wp_getInode,(view.din (Set.mem_insert ..)).1]
    split
    · exact wp_post (iunlockput_endOp layout harmless frees.effect view _) fun _ _ h => h.settled handles
    rename_i dir
    have dir := not_not.mp dir
    apply wp_seq (iunlock_view harmless view)
    intro _ w view
    have erased := Multiset.cons_erase member
    have handles₁ := handles.effect frees.effect
    rw [← erased,Multiset.cons_swap] at view
    rw [← erased] at handles₁
    apply wp_seq (iput_frees layout harmless view)
    rintro _ x ⟨N₂,view,frees₂⟩
    apply wp_seq (endOp_view view)
    intro _ y view
    rw [wp_bind]
    refine wp_setProc view fun z view => ?_
    rw [wp_pure]
    have unique (j : Nat) (old : (ip,j) ∈ R.erase (pr.cwd,c)) : i = j :=
      view.inum_unique (Multiset.mem_cons_self ..) (Multiset.mem_cons_of_mem old)
    have entered : Handles ((T.setProc p none).setProc p (some { pr with cwd := ip })) N₁
        ((ip,i) ::ₘ R.erase (pr.cwd,c)) :=
      (handles₁.leave here).enter (handles.proc_lt here) (by simp) (tDir_ne dir) (.inl dir) unique
    have same : (T.setProc p none).setProc p (some { pr with cwd := ip }) = T.setProc p (some { pr with cwd := ip }) := by
      simp [Tables.setProc]
    rw [same] at entered
    refine ⟨_,N₂,_,_,view,entered.effect frees₂.effect,
      ((frees.mono (Set.empty_subset _)).trans (frees₂.mono (Set.empty_subset _))).effect,
      fun root cwds q pr' j at_ new => ?_⟩
    have walked : i ∈ W := inside ⟨root,cwds p pr c here member⟩
    rcases Multiset.mem_cons.mp new with at' | old
    · rwa [(Prod.mk.inj at').2]
    · obtain rfl | eq := eq_or_ne q p
      · simp only [Tables.setProc_proc,update_self] at at_
        cases at_
        rwa [← unique j old]
      · simp only [Tables.setProc_proc,update_of_ne eq] at at_
        exact cwds q pr' j at_ (Multiset.mem_of_mem_erase old)

/-! New and ending processes. -/

theorem dupFiles_view (harmless : Harmless E) (ofile : Nat → Option Nat) (n fd : Nat) (view : View sb O T s N R L)
    (handles : Handles T N R) :
    wp (dupFiles ofile n fd) (fun _ t => ∃ T', View sb O T' t N R L ∧ Handles T' N R ∧ T'.proc = T.proc) E s := by
  induction n generalizing s T fd with
  | zero => exact ⟨T,view,handles,rfl⟩
  | succ n ih =>
    rw [dupFiles]
    split
    · apply wp_seq (filedup_view harmless view handles _)
      rintro _ t ⟨T₁,view,handles,first⟩
      apply wp_post (ih (fd + 1) view handles)
      rintro _ u ⟨T₂,view,handles,second⟩
      exact ⟨T₂,view,handles,second.trans first⟩
    · exact ih (fd + 1) view handles

theorem fork_view (harmless : Harmless E) (child : Nat) (copied : Bool) (view : View sb O T s N R L)
    (handles : Handles T N R) : wp (fork p child copied) (fun _ t => Settled sb O W T N R t) E s := by
  rw [fork,wp_bind]
  refine wp_proc harmless view fun pr here => ?_
  rw [wp_bind,wp_get]
  have tables := view.tables_eq
  split
  swap
  · exact .same view handles
  rename_i free
  have none : T.proc child = none := by
    rw [← tables]
    exact Option.isNone_iff_eq_none.mp free.2.2
  apply wp_seq (dupFiles_view harmless pr.ofile nofile 0 view handles)
  rintro _ t ⟨T₁,view,handles₁,procs⟩
  obtain ⟨c,member⟩ := handles.cwd here
  apply wp_seq (idup_view member view)
  rintro k u ⟨rfl,view⟩
  rw [wp_bind]
  refine wp_setProc view fun v view => ?_
  rw [wp_pure]
  have unique (j : Nat) (old : (pr.cwd,j) ∈ R) : c = j :=
    view.inum_unique (Multiset.mem_cons_self ..) (Multiset.mem_cons_of_mem old)
  have entered : Handles (T₁.setProc child (some { pr with cwd := pr.cwd })) N ((pr.cwd,c) ::ₘ R) :=
    handles₁.enter free.2.1 (by rw [procs]; exact none) (handles.typed _ member) (handles.dirs p pr c here member) unique
  refine ⟨_,N,_,L,view,entered,(Names.Frees.refl N).effect,fun _ cwds q pr' j at_ new => ?_⟩
  have inside : (pr'.cwd,j) ∈ (pr.cwd,c) ::ₘ R := new
  obtain rfl | eq := eq_or_ne q child
  · simp only [Tables.setProc_proc,update_self] at at_
    cases at_
    rcases Multiset.mem_cons.mp inside with same | old
    · rw [(Prod.mk.inj same).2]
      exact cwds p pr c here member
    · exact cwds p pr j here old
  · simp only [Tables.setProc_proc,update_of_ne eq,procs] at at_
    exact cwds.cons handles unique q pr' j at_ inside

theorem closeFiles_view (layout : sb.Layout) (harmless : Harmless E) (n fd : Nat) (view : View sb O T s N R L)
    (handles : Handles T N R) :
    wp (closeFiles sb p n fd) (fun _ t => ∃ T' N' R' L', View sb O T' t N' R' L' ∧ Handles T' N' R' ∧
      N.Frees ∅ N' ∧ (∀ q pr', T'.proc q = some pr' → ∃ pr, T.proc q = some pr ∧ pr.cwd = pr'.cwd) ∧
      ∀ x ∈ R', x ∈ R) E s := by
  induction n generalizing s T N R L fd with
  | zero => exact ⟨T,N,R,L,view,handles,.refl N,fun q pr here => ⟨pr,here,rfl⟩,fun _ => id⟩
  | succ n ih =>
    rw [closeFiles,wp_bind]
    refine wp_proc harmless view fun pr here => ?_
    split
    · apply wp_seq (fileclose_view layout harmless view handles _)
      rintro _ t ⟨T₁,N₁,R₁,L₁,view,handles,frees,procs,fewer⟩
      rw [← procs] at here
      rw [setOfile,wp_bind]
      refine wp_setProc view fun u view => ?_
      apply wp_post (ih (fd + 1) view (handles.setProc here rfl))
      rintro _ v ⟨T₂,N₂,R₂,L₂,view,handles,frees₂,cwds,fewer₂⟩
      refine ⟨T₂,N₂,R₂,L₂,view,handles,(frees.mono (Set.empty_subset _)).trans frees₂,fun q pr' at_ => ?_,
        fun x h => fewer x (fewer₂ x h)⟩
      obtain ⟨pr'',before,same⟩ := cwds q pr' at_
      rw [← procs]
      obtain rfl | eq := eq_or_ne q p
      · simp only [Tables.setProc_proc,update_self,Option.some.injEq] at before
        exact ⟨pr,here,by rw [← same,← before]⟩
      · simp only [Tables.setProc_proc,update_of_ne eq] at before
        exact ⟨pr'',before,same⟩
    · exact ih (fd + 1) view handles

theorem exit_view (layout : sb.Layout) (harmless : Harmless E) (view : View sb O T s N R L) (handles : Handles T N R) :
    wp (exit sb p) (fun _ t => Settled sb O W T N R t) E s := by
  rw [exit]
  split
  · exact harmless _ (by decide) (by decide)
  apply wp_seq (closeFiles_view layout harmless nofile 0 view handles)
  rintro _ t ⟨T₁,N₁,R₁,L₁,view,handles₁,frees,cwds₁,fewer⟩
  rw [wp_bind]
  refine wp_proc harmless view fun pr here => ?_
  obtain ⟨c,member⟩ := handles₁.cwd here
  have erased := Multiset.cons_erase member
  rw [← erased] at view handles₁
  apply wp_seq (beginOp_view harmless view)
  intro _ u view
  apply wp_seq (iput_frees layout harmless view)
  rintro _ v ⟨N₂,view,frees₂⟩
  apply wp_seq (endOp_view view)
  intro _ w view
  rw [wp_bind]
  refine wp_setProc view fun x view => ?_
  rw [wp_pure]
  refine ⟨_,N₂,_,_,view,(handles₁.leave here).effect frees₂.effect,
    (frees.trans (frees₂.mono (Set.empty_subset _))).effect,fun _ cwds q pr' j at_ old => ?_⟩
  obtain rfl | eq := eq_or_ne q p
  · simp at at_
  · simp only [Tables.setProc_proc,update_of_ne eq] at at_
    obtain ⟨pr'',before,same⟩ := cwds₁ q pr' at_
    exact cwds q pr'' j before (same ▸ fewer _ (Multiset.mem_of_mem_erase old))

/-! Making and opening. -/

theorem makeNode_view (layout : sb.Layout) (harmless : Harmless E) (path : Option (List UInt8)) {type : Nat}
    (major minor : Nat) (typed : type ≠ 0) (small : type < 2 ^ 16) (closed : N.Closed W)
    (safe : E .ilockNoType ∨ rootino ∈ W ∧ CwdsIn T R W) (view : View sb O T s N R L) (handles : Handles T N R) :
    wp (makeNode sb p path type major minor) (fun _ t => Settled sb O W T N R t) E s := by
  rw [makeNode]
  refine wp_walk harmless (walks_of handles safe view) view fun pr c t _ member start view => ?_
  cases path with
  | none => exact wp_post (endOp_return (Names.Frees.refl N).effect view _) fun _ _ h => h.settled handles
  | some path =>
    dsimp only
    apply wp_seq (create_view layout harmless typed small (Nat.mod_lt _ (by decide)) (Nat.mod_lt _ (by decide))
      handles.typed member closed start view)
    rintro r u ⟨N₁,L₁,effect,⟨rfl,view⟩ | ⟨ip,i,rfl,_,view,_⟩⟩
    · exact wp_post (endOp_return effect view _) fun _ _ h => h.settled handles
    · exact wp_post (iunlockput_endOp layout harmless effect view _) fun _ _ h => h.settled handles

theorem filealloc_view (view : View sb O T s N R L) :
    wp filealloc (fun r t => r = none ∧ t = s ∨ ∃ f, r = some f ∧ f < nfile ∧ (T.file f).ref = 0 ∧
      View sb O (T.setFile f { T.file f with ref := 1 }) t N R L) E s := by
  have := view.tables_eq
  subst this
  rw [filealloc,wp_bind,wp_get]
  split
  · rename_i f found
    have hf : f < nfile := List.mem_range.mp (List.mem_of_find?_eq_some found)
    have free := List.find?_some found
    rw [wp_bind]
    refine wp_setFile view fun t view => ?_
    rw [wp_pure]
    exact .inr ⟨f,rfl,hf,of_decide_eq_true free,view⟩
  · rw [wp_pure]
    exact .inl ⟨rfl,rfl⟩

theorem fileclose_unused (view : View sb O T s N R L) (one : (T.file f).ref = 1) (closed : (T.file f).type = .none) :
    wp (fileclose sb f) (fun _ t => View sb O (T.setFile f { T.file f with ref := 0, type := .none }) t N R L) E s := by
  have none : ¬((T.file f).type = .inode ∨ (T.file f).type = .device) := by simp [closed]
  rw [fileclose,wp_bind]
  refine wp_getFile view ?_
  rw [one]
  dsimp only
  rw [if_neg (by decide),if_neg (by decide),wp_bind]
  refine wp_setFile view fun t view => ?_
  rw [if_neg none,wp_pure]
  exact view

section

variable (layout : sb.Layout) (harmless : Harmless E)
include layout harmless

/-- The end of `sys_open`: the file takes over the reference to the inode. -/
theorem openFile_view {ip i fd : Nat} {trunc : Prop} [Decidable trunc] {M : Names} (effect : M.Effect (heldOf R) N)
    (locked : (ip,i) ∈ L) (view : View sb O T s N ((ip,i) ::ₘ R) L) (handles : Handles T N R) (hf : f < nfile)
    {file : File} (ref : file.ref ≠ 0) (closed : (T.file f).type = .none) (isOpen : file.type ≠ .none)
    (isIp : file.ip = ip) (can : file.type = .inode → file.writable = true → N.typ i ≠ tDir)
    (isFile : trunc → N.typ i ≠ tDir) :
    wp (do
      setFile f file
      if trunc then itrunc sb ip
      iunlock ip
      endOp
      return (fd : Int)) (fun _ t => Settled sb O W T M R t) E s := by
  subst isIp
  have typed := (view.din locked).2.2
  have unique (j : Nat) (old : (file.ip,j) ∈ R) : i = j :=
    view.inum_unique (Multiset.mem_cons_self ..) (Multiset.mem_cons_of_mem old)
  have opened := handles.openFile hf ref closed isOpen typed unique can
  have last {t : State} (view : View sb O (T.setFile f file) t N ((file.ip,i) ::ₘ R) L) : wp (do
      iunlock file.ip
      endOp
      return (fd : Int)) (fun _ t => Settled sb O W T M R t) E t := by
    apply wp_seq (iunlock_view harmless view)
    intro _ u view
    apply wp_seq (endOp_view view)
    intro _ v view
    exact ⟨_,N,_,L,view,opened,effect.mono (Set.empty_subset _),fun _ cwds => cwds.cons handles unique⟩
  rw [wp_bind]
  refine wp_setFile view fun t view => ?_
  dsimp only
  split
  · rename_i truncates
    apply wp_seq (itrunc_view layout harmless locked (isFile truncates) view)
    intro _ u view
    exact last view
  · exact last view

theorem openInode_view {ip i omode : Nat} {M : Names} (effect : M.Effect (heldOf R) N) (locked : (ip,i) ∈ L)
    (can : (hasMode omode oWronly || hasMode omode oRdwr) = true → N.typ i ≠ tDir)
    (view : View sb O T s N ((ip,i) ::ₘ R) L) (handles : Handles T N R) (before : Handles T M R) :
    wp (openInode sb p ip omode) (fun _ t => Settled sb O W T M R t) E s := by
  rw [openInode,wp_bind,wp_getInode]
  dsimp only
  rw [(view.din locked).1]
  split
  · exact wp_post (iunlockput_endOp layout harmless effect view _) fun _ _ h => h.settled before
  apply wp_seq (filealloc_view view)
  rintro r t (⟨rfl,rfl⟩ | ⟨f,rfl,hf,zero,view⟩)
  · exact wp_post (iunlockput_endOp layout harmless effect view _) fun _ _ h => h.settled before
  obtain ⟨T₁,isT₁⟩ : ∃ T₁, T₁ = T.setFile f { T.file f with ref := 1 } := ⟨_,rfl⟩
  have one : (T₁.file f).ref = 1 := by simp [isT₁]
  have closed : (T₁.file f).type = .none := by simpa [isT₁] using handles.idle f zero
  have procs : T₁.proc = T.proc := by rw [isT₁]; rfl
  have changed {M : Names} (handles : Handles T M R) : Handles T₁ M R :=
    isT₁ ▸ handles.setFile hf (fun h => absurd (show (1 : Int) = 0 from h) (by decide)) rfl rfl rfl
  rw [← isT₁] at view
  dsimp only
  apply wp_seq (fdalloc_view harmless view f)
  rintro r u (⟨rfl,rfl⟩ | ⟨fd,pr,pr',rfl,here,same,view⟩)
  · apply wp_seq (fileclose_unused view one closed)
    intro _ v view
    have retired : Handles (T₁.setFile f { T₁.file f with ref := 0, type := .none }) M R :=
      (changed before).setFile hf (fun _ => rfl) closed.symm rfl rfl
    apply wp_post (iunlockput_endOp layout harmless effect view _)
    rintro _ w ⟨N',L',view,effect⟩
    refine ⟨_,N',R,L',view,retired.effect effect,effect.mono (Set.empty_subset _),fun _ cwds q pr i at_ => ?_⟩
    rw [Tables.setFile_proc,procs] at at_
    exact cwds q pr i at_
  · rw [wp_bind]
    refine wp_getFile view ?_
    apply wp_post (openFile_view layout harmless effect locked view ((changed handles).setProc here same) hf
      (by simp [one]) (by simpa using closed) (by dsimp only; split <;> simp) rfl (fun _ => can)
      (fun h => by rw [h.2]; decide))
    rintro _ v ⟨T',N',R',L',view,handles,effect,cwds⟩
    refine ⟨T',N',R',L',view,handles,effect,fun root old => cwds root ?_⟩
    refine CwdsIn.setProc (fun q pr'' j at_ => ?_) here same
    rw [procs] at at_
    exact old q pr'' j at_

theorem sysOpen_view (path : Option (List UInt8)) (omode : Nat) (closed : N.Closed W)
    (safe : E .ilockNoType ∨ rootino ∈ W ∧ CwdsIn T R W) (view : View sb O T s N R L) (handles : Handles T N R) :
    wp (sysOpen sb p path omode) (fun _ t => Settled sb O W T N R t) E s := by
  cases path with
  | none => exact .same view handles
  | some path =>
    rw [sysOpen]
    refine wp_walk harmless (walks_of handles safe view) view fun pr c t _ member start view => ?_
    split
    · apply wp_seq (create_view layout harmless (by decide) (by decide) (by decide) (by decide) handles.typed member
        closed start view)
      rintro r u ⟨N₁,L₁,effect,⟨rfl,view⟩ | ⟨ip,i,rfl,locked,view,file⟩⟩
      · exact wp_post (endOp_return effect view _) fun _ _ h => h.settled handles
      · exact openInode_view layout harmless effect locked (fun _ => file rfl) view (handles.effect effect) handles
    · apply wp_seq (namei_view layout harmless path member closed start view)
      rintro r u ⟨N₁,L₁,frees,⟨rfl,view⟩ | ⟨ip,i,rfl,view,inside⟩⟩
      · exact wp_post (endOp_return frees.effect view _) fun _ _ h => h.settled handles
      have closed₁ := frees.closed closed
      apply wp_seq (ilock_view harmless (Multiset.mem_cons_self ..)
        (start.symm.imp (fun h => closed₁.typed i (inside h)) id) view)
      rintro _ v ⟨view,_⟩
      have locked : (ip,i) ∈ insert (ip,i) L₁ := Set.mem_insert ..
      rw [wp_bind,wp_getInode,(view.din locked).1]
      split
      · exact wp_post (iunlockput_endOp layout harmless frees.effect view _) fun _ _ h => h.settled handles
      · rename_i allowed
        refine openInode_view layout harmless frees.effect locked (fun writes dir => allowed ⟨dir,?_⟩) view
          (handles.effect frees.effect) handles
        rintro rfl
        exact absurd writes (by decide)

/-- Every system call: what it does to the name space, and that it leaves the references in
order. In a set that paths do not leave, no inode without a type is locked. -/
theorem syscall_view (call : Call) (closed : N.Closed W) (room : ∀ i ∈ W, N.nlink i < 2 ^ 16 - 1)
    (safe : E .ilockNoType ∨ rootino ∈ W ∧ CwdsIn T R W) (view : View sb O T s N R L) (handles : Handles T N R) :
    wp (syscall sb p call) (fun _ t => Settled sb O W T N R t) E s := by
  cases call with
  | dup fd => exact sysDup_view harmless view handles fd
  | write fd src n => exact sysWrite_view layout harmless fd src n view handles
  | close fd => exact sysClose_view layout harmless fd view handles
  | link old new =>
    exact wp_post (sysLink_view layout harmless (walks_of handles safe view) closed room view)
      fun _ _ h => h.settled handles
  | unlink path =>
    exact wp_post (sysUnlink_view layout harmless (walks_of handles safe view) closed view)
      fun _ _ h => h.settled handles
  | «open» path omode => exact sysOpen_view layout harmless path omode closed safe view handles
  | mkdir path => exact makeNode_view layout harmless path 0 0 (by decide) (by decide) closed safe view handles
  | mknod path major minor =>
    exact makeNode_view layout harmless path major minor (by decide) (by decide) closed safe view handles
  | chdir path => exact sysChdir_view layout harmless path closed safe view handles
  | fork child copied => exact fork_view harmless child copied view handles
  | exit => exact exit_view layout harmless view handles

end

end Xv6.Fs
