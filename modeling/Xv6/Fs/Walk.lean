import Xv6.Fs.View

/-! Path lookup on the name space. A walk may free inodes without links that nobody holds; in a
set that paths do not leave it finds only allocated inodes. -/
namespace Xv6.Fs

open Prog

variable {sb : Superblock} {O : Set Nat} {T : Tables} {s : State} {N : Names} {R : Multiset (Nat × Nat)}
  {L : Set (Nat × Nat)} {E : Panic → Prop} {k i : Nat} {W : Set Nat}

/-- What a walk returns: nothing, or a reference to an inode. With `parent` it is a directory,
and the name is that of the last path element. -/
def Walked (sb : Superblock) (O : Set Nat) (T : Tables) (N : Names) (R : Multiset (Nat × Nat)) (W : Set Nat)
    (start : Prop) (parent : Bool) (r : Option (Nat × List UInt8)) (t : State) : Prop :=
  ∃ N' L', N.Frees (heldOf R) N' ∧ (r = none ∧ View sb O T t N' R L' ∨
    ∃ k i name, r = some (k,name) ∧ View sb O T t N' ((k,i) ::ₘ R) L' ∧ (start → i ∈ W) ∧
      (parent = true → chop name ≠ [] ∧ N'.typ i = tDir))

section

variable (layout : sb.Layout) (harmless : Harmless E)
include layout harmless

theorem namexFrom_view (parent : Bool) (turns : Nat) (path : List UInt8) (closed : N.Closed W)
    (safe : E .ilockNoType ∨ i ∈ W) (view : View sb O T s N ((k,i) ::ₘ R) L) :
    wp (namexFrom sb parent turns k path) (Walked sb O T N R W (i ∈ W) parent) E s := by
  induction turns generalizing s N L k i path with
  | zero => exact harmless _ (by decide) (by decide)
  | succ turns ih =>
    have member : (k,i) ∈ (k,i) ::ₘ R := Multiset.mem_cons_self ..
    have gives (t : State) (L : Set (Nat × Nat)) (view : View sb O T t N ((k,i) ::ₘ R) L) :
        wp (do
          iunlockput sb k
          return none) (Walked sb O T N R W (i ∈ W) parent) E t := by
      apply wp_seq (iunlockput_frees layout harmless view)
      rintro _ u ⟨N',view,frees⟩
      rw [wp_pure]
      exact ⟨N',_,frees,.inl ⟨rfl,view⟩⟩
    rw [namexFrom]
    cases elem : skipelem path with
    | none =>
      dsimp only
      split
      · apply wp_seq (iput_frees layout harmless view)
        rintro _ u ⟨N',view,frees⟩
        rw [wp_pure]
        exact ⟨N',_,frees,.inl ⟨rfl,view⟩⟩
      · rename_i whole
        rw [wp_pure]
        exact ⟨N,L,.refl N,.inr ⟨k,i,[],rfl,view,id,fun h => absurd h whole⟩⟩
    | some found =>
      obtain ⟨name,rest⟩ := found
      dsimp only
      apply wp_seq (ilock_view harmless member (safe.symm.imp (closed.typed i) id) view)
      rintro _ t ⟨view,typed⟩
      have locked : (k,i) ∈ insert (k,i) L := Set.mem_insert ..
      rw [wp_bind,wp_getInode,(view.din locked).1]
      split
      · exact gives t _ view
      rename_i dir
      have dir := not_not.mp dir
      split
      · apply wp_seq (iunlock_view harmless view)
        intro _ u view
        rw [wp_pure]
        exact ⟨N,_,.refl N,.inr ⟨k,i,name,rfl,view,id,fun _ => ⟨skipelem_nonempty elem,dir⟩⟩⟩
      apply wp_seq (dirlookup_view harmless name view locked)
      rintro r u ⟨_,⟨rfl,rfl,_⟩ | ⟨l,e,k',rfl,at_,some,_,view,_⟩⟩
      · exact gives u _ view
      dsimp only
      rw [Multiset.cons_swap] at view
      apply wp_seq (iunlockput_frees layout harmless view)
      rintro _ v ⟨N',view,frees⟩
      have inside (h : i ∈ W) : e.inum ∈ W := closed.inside i h e (List.mem_iff_getElem?.mpr ⟨l,at_⟩) some
      have frees := frees.mono (heldOf_cons R _)
      apply wp_post (ih rest (frees.closed closed) (safe.imp id inside) view)
      rintro r w ⟨N'',L'',more,none | ⟨k'',i'',name',isR,view,closed',last⟩⟩
      · exact ⟨N'',L'',frees.trans more,.inl none⟩
      · exact ⟨N'',L'',frees.trans more,.inr ⟨k'',i'',name',isR,view,fun h => closed' (inside h),last⟩⟩

/-- A walk starts at the root or at the current directory. -/
theorem namex_view (path : List UInt8) (parent : Bool) {cwd c : Nat} (member : (cwd,c) ∈ R) (closed : N.Closed W)
    (safe : E .ilockNoType ∨ rootino ∈ W ∧ c ∈ W) (view : View sb O T s N R L) :
    wp (namex sb cwd path parent) (Walked sb O T N R W (rootino ∈ W ∧ c ∈ W) parent) E s := by
  have weaken (i : Nat) (start : rootino ∈ W ∧ c ∈ W → i ∈ W) (r : Option (Nat × List UInt8)) (t : State)
      (walked : Walked sb O T N R W (i ∈ W) parent r t) : Walked sb O T N R W (rootino ∈ W ∧ c ∈ W) parent r t := by
    obtain ⟨N',L',frees,none | ⟨k,j,name,isR,view,inside,last⟩⟩ := walked
    · exact ⟨N',L',frees,.inl none⟩
    · exact ⟨N',L',frees,.inr ⟨k,j,name,isR,view,fun h => inside (start h),last⟩⟩
  rw [namex]
  split
  · apply wp_seq (iget_view harmless layout.root view)
    rintro k t ⟨view,_⟩
    exact wp_post (namexFrom_view layout harmless parent _ path closed (safe.imp id And.left) view)
      (weaken rootino And.left)
  · apply wp_seq (idup_view member view)
    rintro k t ⟨rfl,view⟩
    exact wp_post (namexFrom_view layout harmless parent _ path closed (safe.imp id And.right) view)
      (weaken c And.right)

theorem namei_view (path : List UInt8) {cwd c : Nat} (member : (cwd,c) ∈ R) (closed : N.Closed W)
    (safe : E .ilockNoType ∨ rootino ∈ W ∧ c ∈ W) (view : View sb O T s N R L) :
    wp (namei sb cwd path) (fun r t => ∃ N' L', N.Frees (heldOf R) N' ∧ (r = none ∧ View sb O T t N' R L' ∨
      ∃ k i, r = some k ∧ View sb O T t N' ((k,i) ::ₘ R) L' ∧ (rootino ∈ W ∧ c ∈ W → i ∈ W))) E s := by
  rw [namei]
  apply wp_seq (namex_view layout harmless path false member closed safe view)
  rintro r t ⟨N',L',frees,⟨rfl,view⟩ | ⟨k,i,name,rfl,view,inside,_⟩⟩
  · exact ⟨N',L',frees,.inl ⟨rfl,view⟩⟩
  · exact ⟨N',L',frees,.inr ⟨k,i,rfl,view,inside⟩⟩

theorem nameiparent_view (path : List UInt8) {cwd c : Nat} (member : (cwd,c) ∈ R) (closed : N.Closed W)
    (safe : E .ilockNoType ∨ rootino ∈ W ∧ c ∈ W) (view : View sb O T s N R L) :
    wp (nameiparent sb cwd path) (fun r t => ∃ N' L', N.Frees (heldOf R) N' ∧ (r = none ∧ View sb O T t N' R L' ∨
      ∃ k i name, r = some (k,name) ∧ View sb O T t N' ((k,i) ::ₘ R) L' ∧ (rootino ∈ W ∧ c ∈ W → i ∈ W) ∧
        chop name ≠ [] ∧ N'.typ i = tDir)) E s := by
  apply wp_post (namex_view layout harmless path true member closed safe view)
  rintro r t ⟨N',L',frees,none | ⟨k,i,name,isR,view,inside,last⟩⟩
  · exact ⟨N',L',frees,.inl none⟩
  · exact ⟨N',L',frees,.inr ⟨k,i,name,isR,view,inside,last rfl⟩⟩

end

end Xv6.Fs
