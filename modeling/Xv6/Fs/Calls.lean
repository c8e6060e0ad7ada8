import Xv6.Fs.Walk

/-! `create`, `sys_link` and `sys_unlink` on the name space: each is a walk, at most one
operation, and the inodes that are freed when their last reference goes. -/
namespace Xv6.Fs

open Prog

variable {sb : Superblock} {O : Set Nat} {T : Tables} {s : State} {N : Names} {R : Multiset (Nat × Nat)}
  {L : Set (Nat × Nat)} {E : Panic → Prop} {k i : Nat} {W : Set Nat}

/-! The log is not part of the name space. -/

theorem beginOp_view (harmless : Harmless E) (view : View sb O T s N R L) :
    wp beginOp (fun _ t => View sb O T t N R L) E s := by
  simp only [beginOp,wp_bind,wp_get,wp_ite,wp_fail,wp_modify]
  split
  · exact harmless _ (by decide) (by decide)
  · exact view.log _

theorem endOp_view (view : View sb O T s N R L) : wp endOp (fun _ t => View sb O T t N R L) E s := view.log _

theorem iunlockput_return (layout : sb.Layout) (harmless : Harmless E) {α : Type} {a : α} {M : Names} {held : Set Nat}
    (effect : M.Effect held N) (fewer : held ⊆ heldOf R) (view : View sb O T s N ((k,i) ::ₘ R) L) :
    wp (do
      iunlockput sb k
      return a) (fun r t => r = a ∧ ∃ N' L', View sb O T t N' R L' ∧ M.Effect held N') E s := by
  apply wp_seq (iunlockput_frees layout harmless view)
  rintro _ t ⟨N',view,frees⟩
  rw [wp_pure]
  exact ⟨rfl,N',_,view,effect.frees (frees.mono fewer)⟩

namespace Names

theorem setNlink_free_self (N : Names) (i n : Nat) : (N.setNlink i n).free i = N.free i := by
  ext1
  · rfl
  · simp
  · rfl

/-- An inode that `create` has to give up leaves no trace. -/
theorem alloc_free {N : Names} {i : Nat} (typ : N.typ i = 0) (nlink : N.nlink i = 0) (ents : N.ents i = [])
    (type : Nat) (own : List Dirent) : ((N.alloc i type).setEnts i own).free i = N := by
  ext1
  · simp [alloc,typ]
  · simp [alloc,nlink]
  · simp [alloc,ents]

theorem setEnts_setEnts (N : Names) (d : Nat) (l l' : List Dirent) : (N.setEnts d l).setEnts d l' = N.setEnts d l' := by
  simp [setEnts]

end Names

theorem createFail_view (layout : sb.Layout) (harmless : Harmless E) {dp d ip : Nat} {M : Names}
    (locked : (ip,i) ∈ L) (loose : i ∉ heldOf ((dp,d) ::ₘ R)) (gone : M.free i = N)
    (view : View sb O T s M ((ip,i) ::ₘ (dp,d) ::ₘ R) L) :
    wp (createFail sb dp ip) (fun r t => r = none ∧ ∃ N' L', View sb O T t N' R L' ∧
      N.Effect (heldOf R) N') E s := by
  rw [createFail]
  refine @setNlink_view _ _ _ _ _ _ _ _ _ _ layout harmless locked (fun _ => 0) (by decide) view _ _ _ fun t view => ?_
  apply wp_seq (iunlockput_view layout harmless view)
  rintro _ v ⟨N',view,⟨rfl,held | linked | stale⟩ | ⟨_,_,_,rfl⟩⟩
  · exact absurd held loose
  · simp at linked
  · exact absurd locked stale
  · rw [Names.setNlink_free_self,gone] at view
    exact iunlockput_return layout harmless (Names.Frees.refl N).effect (fun _ => id) view

theorem createDots_view (layout : sb.Layout) (harmless : Harmless E) {ip d type : Nat} {M : Names} (locked : (ip,i) ∈ L)
    (hi : i < sb.ninodes) (hd : d < sb.ninodes) (empty : M.ents i = []) (view : View sb O T s M R L) :
    wp (createDots sb ip type i d) (fun r t => ∃ own, View sb O T t (M.setEnts i own) R L ∧
      (r < 0 ∨ r = 0 ∧ (type ≠ tDir → own = []) ∧
        (type = tDir → i % 2 ^ 16 ≠ 0 → own = [Names.entry i dot,Names.entry d dotdot]))) E s := by
  have same : M.setEnts i [] = M := by
    ext1
    · rfl
    · rfl
    · simp [empty]
  rw [createDots]
  split
  swap
  · rename_i other
    rw [wp_pure]
    exact ⟨[],by rwa [same],.inr ⟨rfl,fun _ => rfl,fun dir => absurd dir other⟩⟩
  rename_i dir
  apply wp_seq (dirlink_view layout harmless (by decide) hi view locked)
  rintro r t (⟨fails,view⟩ | ⟨rfl,l,vacant,view⟩)
  · rw [if_pos fails,wp_pure]
    exact ⟨[],by rwa [same],.inl fails⟩
  have first := vacant.bound
  rw [empty] at first view
  obtain rfl : l = 0 := by simpa using first
  rw [if_neg (by decide)]
  apply wp_post (dirlink_view layout harmless (by decide) hd view locked)
  rintro r u (⟨fails,view⟩ | ⟨rfl,l,vacant,view⟩)
  · exact ⟨_,view,.inl fails⟩
  rw [Names.setEnts_setEnts] at view
  refine ⟨_,view,.inr ⟨rfl,fun other => absurd dir other,fun _ nonzero => ?_⟩⟩
  have second := vacant.bound
  have slot := vacant.empty (Names.entry i dot)
  simp only [Names.setEnts_ents,Function.update_self,put] at second slot ⊢
  have : l ≠ 0 := by
    rintro rfl
    exact nonzero (slot rfl)
  obtain rfl : l = 1 := by simp at second; omega
  rfl

/-- What `create` returns: nothing, or an inode that is locked. -/
def Created (sb : Superblock) (O : Set Nat) (T : Tables) (N : Names) (R : Multiset (Nat × Nat)) (type : Nat)
    (r : Option Nat) (t : State) : Prop :=
  ∃ N' L', N.Effect (heldOf R) N' ∧ (r = none ∧ View sb O T t N' R L' ∨
    ∃ k i, r = some k ∧ (k,i) ∈ L' ∧ View sb O T t N' ((k,i) ::ₘ R) L' ∧ (type = tFile → N'.typ i ≠ tDir))

theorem loose_of_free (held : ∀ x ∈ R, N.typ x.2 ≠ 0) (free : N.typ i = 0) : i ∉ heldOf R :=
  fun ⟨_,inside⟩ => held _ inside free

theorem Names.make_eq {d l i type : Nat} (ne : d ≠ i) (name : List UInt8) (own : List Dirent) :
    (if type = tDir then
      ((((N.alloc i type).setEnts i own).setEnts d (put (N.ents d) l (Names.entry i name))).setNlink d
        (Names.inc (N.nlink d)))
    else (((N.alloc i type).setEnts i own).setEnts d (put (N.ents d) l (Names.entry i name)))) =
      N.make d l i type name own := by
  split
  · rename_i dir
    ext1
    · rfl
    · simp [dir]
    · simp
  · rename_i other
    ext1
    · rfl
    · funext j
      obtain rfl | here := eq_or_ne j d
      · simp [other,ne]
      · simp [here]
    · simp

theorem createNew_view (layout : sb.Layout) (harmless : Harmless E) {dp d type major minor : Nat} {name : List UInt8}
    (typed : type ≠ 0) (small : type < 2 ^ 16) (smallMajor : major < 2 ^ 16) (smallMinor : minor < 2 ^ 16)
    (held : ∀ x ∈ (dp,d) ::ₘ R, N.typ x.2 ≠ 0) (nonempty : chop name ≠ []) (locked : (dp,d) ∈ L)
    (view : View sb O T s N ((dp,d) ::ₘ R) L) :
    wp (createNew sb dp name type major minor) (Created sb O T N R type) E s := by
  have done {t : State} {r : Option Nat} (after : r = none ∧ ∃ N' L', View sb O T t N' R L' ∧
      N.Effect (heldOf R) N') : Created sb O T N R type r t := by
    obtain ⟨isNone,N',L',view,effect⟩ := after
    exact ⟨N',L',effect,.inl ⟨isNone,view⟩⟩
  have unlinked (i : Nat) (free : N.typ i = 0) := view.unlinked free
  have plain (i : Nat) (free : N.typ i = 0) := view.plain (by rw [free]; decide : N.typ i ≠ tDir)
  rw [createNew]
  refine ialloc_view layout harmless typed small smallMajor smallMinor view (fun t view => ?_)
    fun ip i t pos free view => ?_
  · exact wp_post (iunlockput_return layout harmless (Names.Frees.refl N).effect (fun _ => id) view)
      fun r t => done
  have new : (ip,i) ∈ insert (ip,i) L := Set.mem_insert ..
  have old : (dp,d) ∈ insert (ip,i) L := Set.mem_insert_of_mem _ locked
  obtain ⟨hi,self⟩ := view.slot (view.held new)
  obtain ⟨hd,up⟩ := view.slot (view.held old)
  have loose := loose_of_free held free
  have ne : d ≠ i := by
    rintro rfl
    exact loose (mem_heldOf (Multiset.mem_cons_self ..))
  have fails {own : List Dirent} {u : State} (view : View sb O T u ((N.alloc i type).setEnts i own)
      ((ip,i) ::ₘ (dp,d) ::ₘ R) (insert (ip,i) L)) :
      wp (createFail sb dp ip) (Created sb O T N R type) E u :=
    wp_post (createFail_view layout harmless new loose
      (Names.alloc_free free (unlinked i free) (plain i free) type own) view) fun r t => done
  rw [wp_bind,wp_getInode,wp_bind,wp_getInode,self,up]
  apply wp_seq (createDots_view layout harmless new hi hd (by simp) view)
  rintro dots u ⟨own,view,failed | ⟨rfl,file,full⟩⟩
  · rw [if_pos failed]
    exact fails view
  rw [if_neg (by decide)]
  apply wp_seq (dirlink_view layout harmless nonempty hi view old)
  rintro r v (⟨failed,view⟩ | ⟨rfl,l,vacant,view⟩)
  · rw [if_pos failed]
    exact fails view
  rw [if_neg (by decide)]
  have ents : ((N.alloc i type).setEnts i own).ents d = N.ents d := by simp [ne]
  have vacant : N.Vacant d l (chop name) := by
    obtain ⟨dir,bound,empty,fresh,nonempty⟩ := vacant
    rw [ents] at bound empty fresh
    exact ⟨by simpa [ne] using dir,bound,empty,fresh,nonempty⟩
  rw [ents] at view
  have last (w : State) (view : View sb O T w (N.make d l i type (chop name) own) ((ip,i) ::ₘ (dp,d) ::ₘ R)
      (insert (ip,i) L)) : wp (do
        iunlockput sb dp
        return some ip) (Created sb O T N R type) E w := by
    rw [Multiset.cons_swap] at view
    apply wp_seq (iunlockput_frees layout harmless view)
    rintro _ x ⟨N',view,frees⟩
    rw [wp_pure]
    refine ⟨N',_,(Names.Op.make vacant free pos typed file full).effect.frees (frees.mono (heldOf_cons R _)),
      .inr ⟨ip,i,rfl,?_,view,fun isFile => ?_⟩⟩
    · exact ⟨new,Multiset.mem_cons_self ..⟩
    rw [(frees.keep (mem_heldOf (Multiset.mem_cons_self ..))).typ]
    simp [isFile]
    decide
  have made := @Names.make_eq N d l i type ne (chop name) own
  split
  · rename_i dir
    rw [if_pos dir] at made
    have count : (((N.alloc i type).setEnts i own).setEnts d (put (N.ents d) l (Names.entry i (chop name)))).nlink d =
        N.nlink d := by simp [ne]
    refine @setNlink_view _ _ _ _ _ _ _ _ _ _ layout harmless old Names.inc (Nat.mod_lt _ (by decide)) view _ _ _
      fun w view => ?_
    rw [count,made] at view
    exact last w view
  · rename_i other
    rw [if_neg other] at made
    rw [made] at view
    exact last v view

theorem create_view (layout : sb.Layout) (harmless : Harmless E) {cwd c type major minor : Nat} {path : List UInt8}
    (typed : type ≠ 0) (small : type < 2 ^ 16) (smallMajor : major < 2 ^ 16) (smallMinor : minor < 2 ^ 16)
    (held : ∀ x ∈ R, N.typ x.2 ≠ 0) (member : (cwd,c) ∈ R) (closed : N.Closed W)
    (safe : E .ilockNoType ∨ rootino ∈ W ∧ c ∈ W) (view : View sb O T s N R L) :
    wp (create sb cwd path type major minor) (Created sb O T N R type) E s := by
  rw [create]
  apply wp_seq (nameiparent_view layout harmless path member closed safe view)
  rintro r t ⟨N₁,L₁,frees,⟨rfl,view⟩ | ⟨dp,d,name,rfl,view,inside,nonempty,dir⟩⟩
  · exact ⟨N₁,L₁,frees.effect,.inl ⟨rfl,view⟩⟩
  have lift {r : Option Nat} {u : State} (created : Created sb O T N₁ R type r u) : Created sb O T N R type r u := by
    obtain ⟨N',L',effect,rest⟩ := created
    exact ⟨N',L',frees.andThen effect,rest⟩
  have typedDir := tDir_ne dir
  apply wp_seq (ilock_view harmless (Multiset.mem_cons_self ..) (.inl typedDir) view)
  rintro _ u ⟨view,_⟩
  have locked : (dp,d) ∈ insert (dp,d) L₁ := Set.mem_insert ..
  apply wp_seq (dirlookup_view harmless name view locked)
  rintro r v ⟨_,⟨rfl,rfl,_⟩ | ⟨l,e,ip,rfl,at_,some,_,view,_⟩⟩
  · refine wp_post (createNew_view layout harmless typed small smallMajor smallMinor (fun x inside => ?_) nonempty
      locked view) fun r t => lift
    rcases Multiset.mem_cons.mp inside with rfl | old
    · exact typedDir
    · rw [(frees.keep (mem_heldOf old)).typ]
      exact held x old
  · dsimp only
    rw [Multiset.cons_swap] at view
    apply wp_seq (iunlockput_frees layout harmless view)
    rintro _ w ⟨N₂,view,more⟩
    have more' := more.mono (heldOf_cons R _)
    have closed₂ := more.closed (frees.closed closed)
    have typed₂ : N₂.typ e.inum ≠ 0 ∨ E .ilockNoType := by
      rcases safe with allowed | start
      · exact .inr allowed
      · exact .inl (closed₂.typed _ ((frees.closed closed).inside d (inside start) e
          (List.mem_iff_getElem?.mpr ⟨l,at_⟩) some))
    apply wp_seq (ilock_view harmless (Multiset.mem_cons_self ..) typed₂ view)
    rintro _ x ⟨view,_⟩
    have new : (ip,e.inum) ∈ insert (ip,e.inum) { y ∈ insert (dp,d) L₁ | y ∈ (ip,e.inum) ::ₘ R } := Set.mem_insert ..
    rw [wp_bind,wp_getInode,(view.din new).1]
    split
    · rename_i file
      rw [wp_pure]
      refine ⟨N₂,_,(frees.trans more').effect,.inr ⟨ip,e.inum,rfl,new,view,fun _ isDir => ?_⟩⟩
      rw [isDir] at file
      exact absurd file.2 (by decide)
    · refine wp_post (iunlockput_return layout harmless (frees.trans more').effect (fun _ => id) view) ?_
      rintro r y ⟨isNone,N',L',view,effect⟩
      exact ⟨N',L',effect,.inl ⟨isNone,view⟩⟩

/-! Removing a name. -/

/-- A call has returned with the references it started with. -/
def Returned (sb : Superblock) (O : Set Nat) (T : Tables) (N : Names) (R : Multiset (Nat × Nat)) (t : State) : Prop :=
  ∃ N' L', View sb O T t N' R L' ∧ N.Effect (heldOf R) N'

theorem endOp_return {M : Names} (effect : M.Effect (heldOf R) N) (view : View sb O T s N R L) (r : Int) :
    wp (do
      endOp
      return r) (fun _ t => Returned sb O T M R t) E s := by
  apply wp_seq (endOp_view view)
  intro _ t view
  exact ⟨N,L,view,effect⟩

theorem iunlockput_endOp (layout : sb.Layout) (harmless : Harmless E) {M : Names} (effect : M.Effect (heldOf R) N)
    (view : View sb O T s N ((k,i) ::ₘ R) L) (r : Int) :
    wp (do
      iunlockput sb k
      endOp
      return r) (fun _ t => Returned sb O T M R t) E s := by
  apply wp_seq (iunlockput_frees layout harmless view)
  rintro _ t ⟨N',view,frees⟩
  exact endOp_return (effect.frees frees) view r

theorem isFull_view (harmless : Harmless E) (locked : (k,i) ∈ L) (view : View sb O T s N R L) :
    wp (isFull sb k (N.typ i)) (fun r t => t = s ∧ (r = false → N.typ i = tDir → N.kids i = [])) E s := by
  rw [isFull]
  split
  · rename_i dir
    apply wp_seq (isdirempty_view view locked dir harmless)
    rintro r t ⟨rfl,empty⟩
    rw [wp_pure]
    exact ⟨rfl,fun h _ => empty (by simpa using h)⟩
  · rename_i other
    rw [wp_pure]
    exact ⟨rfl,fun _ dir => absurd dir other⟩

theorem View.unique {l : Nat} (view : View sb O T s N R L) (hk : (k,i) ∈ R) (hl : (l,i) ∈ R) : k = l := by
  obtain ⟨A,_,repr,_⟩ := view.shows
  exact repr.unique k l i hk hl

theorem Names.unlink_eq {d l j : Nat} :
    ((if N.typ j = tDir then (N.setEnts d ((N.ents d).set l ⟨0,[]⟩)).setNlink d (Names.dec (N.nlink d))
      else N.setEnts d ((N.ents d).set l ⟨0,[]⟩)).setNlink j (Names.dec (N.nlink j))) = N.unlink d l j := by
  split
  · rename_i dir
    ext1
    · rfl
    · simp [Names.unlink,dir]
    · rfl
  · rename_i other
    ext1
    · rfl
    · simp [Names.unlink,other]
    · rfl

theorem unlinkFound_view (layout : sb.Layout) (harmless : Harmless E) {dp d ip l : Nat} {e : Dirent}
    (dir : N.typ d = tDir) (at_ : (N.ents d)[l]? = some e) (some : e.inum ≠ 0)
    (other : e.name ≠ dot ∧ e.name ≠ dotdot) (typed : N.typ e.inum ≠ 0 ∨ E .ilockNoType) (locked : (dp,d) ∈ L)
    (flag : (s.itable dp).locked = true) (view : View sb O T s N ((ip,e.inum) ::ₘ (dp,d) ::ₘ R) L) :
    wp (unlinkFound sb dp ip (l * direntSize)) (fun _ t => Returned sb O T N R t) E s := by
  rw [unlinkFound]
  apply wp_seq (ilock_view harmless (Multiset.mem_cons_self ..) typed view)
  rintro _ t ⟨view,typed,free,_⟩
  have new : (ip,e.inum) ∈ insert (ip,e.inum) L := Set.mem_insert ..
  have old : (dp,d) ∈ insert (ip,e.inum) L := Set.mem_insert_of_mem _ locked
  have apart : d ≠ e.inum := by
    intro same
    have slots : dp = ip := view.unique (same ▸ view.held old) (view.held new)
    rw [slots,free] at flag
    exact absurd flag (by decide)
  rw [wp_bind,wp_getInode]
  dsimp only
  rw [(view.din new).1,(view.din new).2.1]
  split
  · exact harmless _ (by decide) (by decide)
  rename_i linked
  apply wp_seq (isFull_view harmless new view)
  rintro full u ⟨rfl,empty⟩
  split
  · rw [wp_bind]
    apply wp_post (iunlockput_frees layout harmless view)
    rintro _ v ⟨N',view,frees⟩
    exact iunlockput_endOp layout harmless (frees.mono (heldOf_cons R _)).effect view _
  rename_i notFull
  have inside := (List.getElem?_eq_some_iff.mp at_).1
  apply wp_seq (writeEntry_view view old dir layout harmless [] (Nat.lt_of_lt_of_le (by decide) layout.root)
    (Nat.le_of_lt inside) (fun last => by omega))
  rintro r v (⟨rfl,view⟩ | ⟨fails,view⟩)
  swap
  · rw [if_pos fails]
    exact harmless _ (by decide) (by decide)
  rw [if_neg (by decide)]
  have cleared : put (N.ents d) l (Names.entry 0 (chop [])) = (N.ents d).set l ⟨0,[]⟩ := if_pos inside
  rw [cleared] at view
  have op : Names.Op N (N.unlink d l e.inum) := by
    refine .unlink dir at_ some other typed apart ?_ ?_ (empty (by simpa using notFull))
    · simp only [short] at linked
      split at linked <;> omega
    · by_contra large
      have bound := view.nlink_lt e.inum
      simp only [short,large,if_false] at linked
      simp only [Names.setEnts_nlink] at bound
      omega
  have last (M : Names) (w : State) (count : M.nlink e.inum = N.nlink e.inum)
      (done : M.setNlink e.inum (Names.dec (N.nlink e.inum)) = N.unlink d l e.inum)
      (view : View sb O T w M ((ip,e.inum) ::ₘ (dp,d) ::ₘ R) (insert (ip,e.inum) L)) :
      wp (do
        iunlockput sb dp
        nlinkDec ip
        iupdate sb ip
        iunlockput sb ip
        endOp
        return (0 : Int)) (fun _ t => Returned sb O T N R t) E w := by
    rw [Multiset.cons_swap] at view
    apply wp_seq (iunlockput_frees layout harmless view)
    rintro _ x ⟨N',view,frees⟩
    have held := mem_heldOf (Multiset.mem_cons_self (ip,e.inum) R)
    have still : (ip,e.inum) ∈ { y ∈ insert (ip,e.inum) L | y ∈ (ip,e.inum) ::ₘ R } :=
      ⟨new,Multiset.mem_cons_self ..⟩
    refine @setNlink_view _ _ _ _ _ _ _ _ _ _ layout harmless still Names.dec (Nat.mod_lt _ (by decide)) view _ _ _
      fun y view => ?_
    rw [(frees.keep held).nlink,count] at view
    have after := frees.setNlink_right (n := Names.dec (N.nlink e.inum)) held
    rw [done] at after
    exact iunlockput_endOp layout harmless (op.effect.frees (after.mono (heldOf_cons R _))) view _
  have removed := @Names.unlink_eq N d l e.inum
  split
  · rename_i isDir
    rw [if_pos isDir] at removed
    refine @setNlink_view _ _ _ _ _ _ _ _ _ _ layout harmless old Names.dec (Nat.mod_lt _ (by decide)) view _ _ _
      fun w view => last _ w ?_ removed view
    simp [Ne.symm apart]
  · rename_i isFile
    rw [if_neg isFile] at removed
    exact last (N.setEnts d ((N.ents d).set l ⟨0,[]⟩)) v rfl removed view

theorem wp_myproc (harmless : Harmless E) {p : Nat} {Q : Proc → State → Prop}
    (found : ∀ pr, s.proc p = some pr → Q pr s) : wp (myproc p) Q E s := by
  rw [myproc,wp_bind,wp_get]
  cases here : s.proc p with
  | none => exact harmless _ (by decide) (by decide)
  | some pr => exact found pr here

/-- A call of a process starts its walks in a directory that the process holds. -/
def Walks (E : Panic → Prop) (s : State) (R : Multiset (Nat × Nat)) (W : Set Nat) (p : Nat) : Prop :=
  ∀ pr, s.proc p = some pr → ∃ c, (pr.cwd,c) ∈ R ∧ (E .ilockNoType ∨ rootino ∈ W ∧ c ∈ W)

theorem View.tables_eq (view : View sb O T s N R L) : s.tables = T := by
  obtain ⟨A,_,repr,_⟩ := view.shows
  exact repr.tables

theorem wp_walk (harmless : Harmless E) {p : Nat} (walks : Walks E s R W p) (view : View sb O T s N R L)
    {x : Proc → Kernel Int} {Q : Int → State → Prop}
    (rest : ∀ pr c t, T.proc p = some pr → (pr.cwd,c) ∈ R → (E .ilockNoType ∨ rootino ∈ W ∧ c ∈ W) →
      View sb O T t N R L → wp (x pr) Q E t) : wp (myproc p >>= fun pr => beginOp >>= fun _ => x pr) Q E s := by
  rw [wp_bind]
  refine wp_myproc harmless fun pr here => ?_
  obtain ⟨c,member,safe⟩ := walks pr here
  have here : T.proc p = some pr := by rwa [← view.tables_eq]
  apply wp_seq (beginOp_view harmless view)
  intro _ t view
  exact rest pr c t here member safe view

theorem sysUnlink_view (layout : sb.Layout) (harmless : Harmless E) {p : Nat} {path : Option (List UInt8)}
    (walks : Walks E s R W p) (closed : N.Closed W) (view : View sb O T s N R L) :
    wp (sysUnlink sb p path) (fun _ t => Returned sb O T N R t) E s := by
  cases path with
  | none => exact ⟨N,L,view,(Names.Frees.refl N).effect⟩
  | some path =>
    rw [sysUnlink]
    refine wp_walk harmless walks view fun pr c t _ member safe view => ?_
    apply wp_seq (nameiparent_view layout harmless path member closed safe view)
    rintro r u ⟨N₁,L₁,frees,⟨rfl,view⟩ | ⟨dp,d,name,rfl,view,inside,nonempty,dir⟩⟩
    · exact endOp_return frees.effect view _
    apply wp_seq (ilock_view harmless (Multiset.mem_cons_self ..) (.inl (tDir_ne dir)) view)
    rintro _ v ⟨view,_,_,flag⟩
    have locked : (dp,d) ∈ insert (dp,d) L₁ := Set.mem_insert ..
    split
    · exact iunlockput_endOp layout harmless frees.effect view _
    rename_i other
    apply wp_seq (dirlookup_view harmless name view locked)
    rintro r w ⟨_,⟨rfl,rfl,_⟩ | ⟨l,e,ip,rfl,at_,some,named,view,_,flags⟩⟩
    · exact iunlockput_endOp layout harmless frees.effect view _
    simp only [namecmp_eq_zero,not_or,← named] at other
    have typed : N₁.typ e.inum ≠ 0 ∨ E .ilockNoType := by
      rcases safe with allowed | start
      · exact .inr allowed
      · have closed₁ := frees.closed closed
        exact .inl (closed₁.typed _ (closed₁.inside d (inside start) e (List.mem_iff_getElem?.mpr ⟨l,at_⟩) some))
    apply wp_post (unlinkFound_view layout harmless dir at_ some other typed locked ((flags dp).trans flag) view)
    rintro r x ⟨N',L',view,effect⟩
    exact ⟨N',L',view,frees.andThen effect⟩

/-! Adding a name. -/

theorem linkBad_view (layout : sb.Layout) (harmless : Harmless E) {M : Names} (count : N.nlink i < 2 ^ 16)
    (typed : N.typ i ≠ 0) (effect : M.Effect (heldOf R) N)
    (view : View sb O T s (N.setNlink i (Names.inc (N.nlink i))) ((k,i) ::ₘ R) L) :
    wp (linkBad sb k) (fun _ t => Returned sb O T M R t) E s := by
  rw [linkBad]
  apply wp_seq (ilock_view harmless (Multiset.mem_cons_self ..) (.inl (by exact typed)) view)
  rintro _ t ⟨view,_⟩
  refine @setNlink_view _ _ _ _ _ _ _ _ _ _ layout harmless (Set.mem_insert ..) Names.dec (Nat.mod_lt _ (by decide))
    view _ _ _ fun u view => ?_
  have back : (N.setNlink i (Names.inc (N.nlink i))).setNlink i
      (Names.dec ((N.setNlink i (Names.inc (N.nlink i))).nlink i)) = N := by
    have same : Names.dec (Names.inc (N.nlink i)) = N.nlink i := by
      simp only [Names.dec,Names.inc]
      omega
    ext1
    · rfl
    · simp [same]
    · rfl
  rw [back] at view
  exact iunlockput_endOp layout harmless effect view _

theorem sysLink_view (layout : sb.Layout) (harmless : Harmless E) {p : Nat} {old new : Option (List UInt8)}
    (walks : Walks E s R W p) (closed : N.Closed W) (room : ∀ i ∈ W, N.nlink i < 2 ^ 16 - 1)
    (view : View sb O T s N R L) :
    wp (sysLink sb p old new) (fun _ t => Returned sb O T N R t) E s := by
  have nothing : Returned sb O T N R s := ⟨N,L,view,(Names.Frees.refl N).effect⟩
  cases old with
  | none => exact nothing
  | some old =>
  cases new with
  | none => exact nothing
  | some new =>
  rw [sysLink]
  refine wp_walk harmless walks view fun pr c t _ member safe view => ?_
  apply wp_seq (namei_view layout harmless old member closed safe view)
  rintro r u ⟨N₁,L₁,frees,⟨rfl,view⟩ | ⟨ip,i,rfl,view,inside⟩⟩
  · exact endOp_return frees.effect view _
  have closed₁ := frees.closed closed
  apply wp_seq (ilock_view harmless (Multiset.mem_cons_self ..) (safe.symm.imp (fun h => closed₁.typed i (inside h)) id)
    view)
  rintro _ v ⟨view,typed,_⟩
  have locked : (ip,i) ∈ insert (ip,i) L₁ := Set.mem_insert ..
  rw [wp_bind,wp_getInode,(view.din locked).1]
  split
  · exact iunlockput_endOp layout harmless frees.effect view _
  rename_i file
  have count := view.nlink_lt i
  refine @setNlink_view _ _ _ _ _ _ _ _ _ _ layout harmless locked Names.inc (Nat.mod_lt _ (by decide)) view _ _ _
    fun w view => ?_
  apply wp_seq (iunlock_view harmless view)
  intro _ x view
  have closed₂ : (N₁.setNlink i (Names.inc (N₁.nlink i))).Closed W := by
    refine ⟨closed₁.typed,fun j h => ?_,closed₁.inside⟩
    obtain rfl | here := eq_or_ne j i
    · have small := room j h
      rw [← (frees.linked (closed.linked _ h)).nlink] at small
      simp only [Names.setNlink_nlink,Function.update_self,Names.inc]
      omega
    · simpa [here] using closed₁.linked j h
  apply wp_seq (nameiparent_view layout harmless new (Multiset.mem_cons_of_mem member) closed₂ safe view)
  have held := mem_heldOf (Multiset.mem_cons_self (ip,i) R)
  rintro r y ⟨M,L₂,more,rest⟩
  obtain ⟨N₂,frees₂,rfl⟩ := more.setNlink held
  have same := frees₂.keep held
  have reach : N.Frees (heldOf R) N₂ := frees.trans (frees₂.mono (heldOf_cons R _))
  rw [← same.nlink] at rest count
  rw [← same.typ] at typed file
  rcases rest with ⟨rfl,view⟩ | ⟨dp,d,name,rfl,view,_,nonempty,dir⟩
  · exact linkBad_view layout harmless count typed reach.effect view
  apply wp_seq (ilock_view harmless (Multiset.mem_cons_self ..) (.inl (tDir_ne dir)) view)
  rintro _ z ⟨view,_⟩
  have lockedDir : (dp,d) ∈ insert (dp,d) L₂ := Set.mem_insert ..
  obtain ⟨hi,inum⟩ := view.slot (Multiset.mem_cons_of_mem (Multiset.mem_cons_self (ip,i) R))
  rw [wp_bind,wp_getInode,inum]
  apply wp_seq (dirlink_view layout harmless nonempty hi view lockedDir)
  rintro r a (⟨fails,view⟩ | ⟨rfl,l,vacant,view⟩)
  · apply wp_seq (iunlockput_frees layout harmless view)
    rintro _ b ⟨M,view,more⟩
    obtain ⟨N₃,frees₃,rfl⟩ := more.setNlink held
    have same₃ := frees₃.keep held
    rw [← same₃.nlink] at view count
    rw [← same₃.typ] at typed
    rw [if_pos fails]
    exact linkBad_view layout harmless count typed (reach.trans (frees₃.mono (heldOf_cons R _))).effect view
  · have op : Names.Op N₂ (N₂.link d l i (chop name)) :=
      .link ⟨vacant.dir,vacant.bound,vacant.empty,vacant.fresh,vacant.nonempty⟩ typed file
    apply wp_seq (iunlockput_frees layout harmless view)
    rintro _ b ⟨N₃,view,frees₃⟩
    rw [if_neg (by decide)]
    apply wp_seq (iput_frees layout harmless view)
    rintro _ e ⟨N₄,view,frees₄⟩
    exact endOp_return (((reach.andThen op.effect).frees (frees₃.mono (heldOf_cons R _))).frees frees₄) view _

end Xv6.Fs
