import Xv6.Fs.Refine

/-! The inode table: what `iget`, `ilock`, `iupdate` and the other functions that handle its
slots do to the represented disk. -/
namespace Xv6.Fs

open Prog Function

variable {sb : Superblock} {T : Tables} {s : State} {A : Abs} {D : Set Nat}
  {R : Multiset (Nat × Nat)} {L : Set (Nat × Nat)} {E : Panic → Prop} {k i : Nat}

namespace Repr

theorem recount (repr : Repr sb T s A D R L) {itable : Nat → Inode} {R' : Multiset (Nat × Nat)}
    (same : ∀ l, (itable l).inum = (s.itable l).inum ∧ (itable l).valid = (s.itable l).valid ∧
      (itable l).din = (s.itable l).din)
    (members : ∀ x ∈ R', x ∈ R) (refs : ∀ l < ninode, (itable l).ref = (R'.map Prod.fst).count l)
    (locked : ∀ x ∈ L, x ∈ R') : Repr sb T { s with itable := itable } A D R' L := by
  refine ⟨repr.inodes,repr.bits,repr.data,fun l j member => ?_,refs,fun l j member valid => ?_,
    fun l m j hl hm => repr.unique l m j (members _ hl) (members _ hm),fun l j member => ?_,repr.tables⟩
  · obtain ⟨hl,hj,inum⟩ := repr.slot l j (members _ member)
    exact ⟨hl,hj,(same l).1.trans inum⟩
  · have := repr.valid l j (members _ member) (by rw [← (same l).2.1]; exact valid)
    rwa [← (same l).2.2] at this
  · exact ⟨locked _ member,(same l).2.1.trans (repr.locked l j member).2⟩

theorem update_same {k l : Nat} {ip : Inode} (inum : ip.inum = (s.itable k).inum)
    (valid : ip.valid = (s.itable k).valid) (din : ip.din = (s.itable k).din) :
    (update s.itable k ip l).inum = (s.itable l).inum ∧
    (update s.itable k ip l).valid = (s.itable l).valid ∧
    (update s.itable k ip l).din = (s.itable l).din := by
  obtain rfl | here := eq_or_ne l k
  · simp [inum,valid,din]
  · simp [here]

theorem update_locked {k l : Nat} {ip : Inode} (same : ip.locked = (s.itable k).locked) :
    (update s.itable k ip l).locked = (s.itable l).locked := by
  by_cases here : l = k
  · simp [here,same]
  · simp [here]

theorem addRef (repr : Repr sb T s A D R L) (member : (k,i) ∈ R) :
    Repr sb T (s.setSlot k { s.itable k with ref := (s.itable k).ref + 1 }) A D ((k,i) ::ₘ R) L := by
  refine repr.recount (fun l => ?_) ?_ ?_ ?_
  · exact update_same rfl rfl rfl
  · intro x inside
    rcases Multiset.mem_cons.mp inside with rfl | old
    · exact member
    · exact old
  · intro l hl
    obtain rfl | here := eq_or_ne l k
    · simp [repr.refs l hl]
    · simp [here,repr.refs l hl]
  · exact fun x locked => Multiset.mem_cons_of_mem (repr.locked x.1 x.2 locked).1

theorem dropRef (repr : Repr sb T s A D ((k,i) ::ₘ R) L) (locked : ∀ x ∈ L, x ∈ R) :
    Repr sb T (s.setSlot k { s.itable k with ref := (s.itable k).ref - 1 }) A D R L := by
  refine repr.recount (fun l => ?_) ?_ ?_ locked
  · exact update_same rfl rfl rfl
  · exact fun x => Multiset.mem_cons_of_mem
  · intro l hl
    have old := repr.refs l hl
    rw [Multiset.map_cons] at old
    obtain rfl | here := eq_or_ne l k
    · rw [Multiset.count_cons_self] at old
      simp [old]
    · rw [Multiset.count_cons_of_ne here] at old
      simp [here,old]

section

variable (repr : Repr sb T s A D R L)
include repr

theorem setLock (lock : Bool) : Repr sb T (s.setSlot k { s.itable k with locked := lock }) A D R L := by
  refine repr.recount (fun l => ?_) (fun _ => id) ?_ (fun x h => (repr.locked x.1 x.2 h).1)
  · exact update_same rfl rfl rfl
  · intro l hl
    obtain rfl | here := eq_or_ne l k
    · simpa using repr.refs l hl
    · simpa [here] using repr.refs l hl

theorem lock (member : (k,i) ∈ R) (valid : (s.itable k).valid = true) : Repr sb T s A D R (insert (k,i) L) := by
  refine ⟨repr.inodes,repr.bits,repr.data,repr.slot,repr.refs,repr.valid,repr.unique,fun l j inside => ?_,
    repr.tables⟩
  rcases inside with same | old
  · cases same
    exact ⟨member,valid⟩
  · exact repr.locked l j old

theorem fresh (hk : k < ninode) (hi : i < sb.ninodes) (empty : (s.itable k).ref = 0) (absent : ∀ l, (l,i) ∉ R) :
    Repr sb T (s.setSlot k { s.itable k with inum := i, ref := 1, valid := false }) A D ((k,i) ::ₘ R) L := by
  have unused (j : Nat) : (k,j) ∉ R := by
    intro member
    have := repr.ref_pos member
    omega
  have none : (R.map Prod.fst).count k = 0 := by
    have count := repr.refs k hk
    rw [empty] at count
    exact_mod_cast count.symm
  refine ⟨repr.inodes,repr.bits,repr.data,?_,?_,?_,?_,?_,repr.tables⟩
  · intro l j member
    rcases Multiset.mem_cons.mp member with same | old
    · cases same
      exact ⟨hk,hi,by simp⟩
    · have ne : l ≠ k := by
        rintro rfl
        exact unused j old
      simpa [ne] using repr.slot l j old
  · intro l hl
    obtain rfl | here := eq_or_ne l k
    · simp [none]
    · simp [here,repr.refs l hl]
  · intro l j member valid
    rcases Multiset.mem_cons.mp member with same | old
    · cases same
      simp at valid
    · have ne : l ≠ k := by
        rintro rfl
        exact unused j old
      simp only [State.setSlot_itable,update_of_ne ne] at valid ⊢
      exact repr.valid l j old valid
  · intro l m j hl hm
    rcases Multiset.mem_cons.mp hl with same | old <;> rcases Multiset.mem_cons.mp hm with same' | old'
    · rw [(Prod.mk.inj same).1,(Prod.mk.inj same').1]
    · rw [(Prod.mk.inj same).2] at old'
      exact absurd old' (absent m)
    · rw [(Prod.mk.inj same').2] at old
      exact absurd old (absent l)
    · exact repr.unique l m j old old'
  · intro l j member
    obtain ⟨inR,valid⟩ := repr.locked l j member
    have ne : l ≠ k := by
      rintro rfl
      exact unused j inR
    exact ⟨Multiset.mem_cons_of_mem inR,by simpa [ne] using valid⟩

theorem idle (unused : (s.itable k).ref = 0) {ip : Inode} (empty : ip.ref = 0) :
    Repr sb T (s.setSlot k ip) A D R L := by
  have ne {l j : Nat} (member : (l,j) ∈ R) : l ≠ k := by
    rintro rfl
    have := repr.ref_pos member
    omega
  refine ⟨repr.inodes,repr.bits,repr.data,?_,?_,?_,repr.unique,?_,repr.tables⟩
  · intro l j member
    simpa [ne member] using repr.slot l j member
  · intro l hl
    obtain rfl | here := eq_or_ne l k
    · simp [empty,← repr.refs l hl,unused]
    · simp [here,repr.refs l hl]
  · intro l j member valid
    simp only [State.setSlot_itable,update_of_ne (ne member)] at valid ⊢
    exact repr.valid l j member valid
  · intro l j inL
    obtain ⟨member,valid⟩ := repr.locked l j inL
    exact ⟨member,by simpa [ne member] using valid⟩

theorem load (member : (k,i) ∈ R) (clean : i ∉ D) (typed : (A.ino i).type ≠ 0) :
    Repr sb T (s.setSlot k { s.itable k with locked := true, valid := true, din := dinode sb s.disk i })
      A D R (insert (k,i) L) := by
  obtain ⟨hk,hi,inum⟩ := repr.slot k i member
  refine ⟨repr.inodes,repr.bits,repr.data,?_,?_,?_,repr.unique,?_,repr.tables⟩
  · intro l j inR
    obtain rfl | here := eq_or_ne l k
    · simpa using repr.slot l j inR
    · simpa [here] using repr.slot l j inR
  · intro l hl
    obtain rfl | here := eq_or_ne l k
    · simpa using repr.refs l hl
    · simpa [here] using repr.refs l hl
  · intro l j inR valid
    obtain rfl | here := eq_or_ne l k
    · obtain rfl := repr.inum_unique member inR
      simpa using ⟨repr.inodes i hi clean,typed⟩
    · simp only [State.setSlot_itable,update_of_ne here] at valid ⊢
      exact repr.valid l j inR valid
  · rintro l j (same | old)
    · cases same
      exact ⟨member,by simp⟩
    · obtain rfl | here := eq_or_ne l k
      · exact ⟨(repr.locked l j old).1,by simp⟩
      · simpa [here] using repr.locked l j old

theorem assign (locked : (k,i) ∈ L) {din : Dinode} (typed : din.type ≠ 0) :
    Repr sb T (s.setSlot k { s.itable k with din := din }) (A.setIno i din) (insert i D) R L := by
  obtain ⟨member,_⟩ := repr.locked k i locked
  refine ⟨?_,repr.bits,repr.data,?_,?_,?_,repr.unique,?_,repr.tables⟩
  · intro j hj clean
    have ne : j ≠ i := by
      rintro rfl
      exact clean (Set.mem_insert j D)
    simpa [Abs.setIno,ne] using repr.inodes j hj (fun h => clean (Set.mem_insert_of_mem i h))
  · intro l j inR
    obtain rfl | here := eq_or_ne l k
    · simpa using repr.slot l j inR
    · simpa [here] using repr.slot l j inR
  · intro l hl
    obtain rfl | here := eq_or_ne l k
    · simpa using repr.refs l hl
    · simpa [here] using repr.refs l hl
  · intro l j inR valid
    obtain rfl | here := eq_or_ne l k
    · obtain rfl := repr.inum_unique member inR
      simpa [Abs.setIno] using typed
    · have ne : j ≠ i := by
        rintro rfl
        exact here (repr.unique l k j inR member)
      simp only [State.setSlot_itable,update_of_ne here] at valid ⊢
      simpa [Abs.setIno,ne] using repr.valid l j inR valid
  · intro l j inL
    obtain rfl | here := eq_or_ne l k
    · simpa using repr.locked l j inL
    · simpa [here] using repr.locked l j inL

theorem reassign (stale : ∀ l, (l,i) ∈ R → (s.itable l).valid = false) (din : Dinode) :
    Repr sb T s (A.setIno i din) (insert i D) R L := by
  refine ⟨?_,repr.bits,repr.data,repr.slot,repr.refs,?_,repr.unique,repr.locked,repr.tables⟩
  · intro j hj clean
    have ne : j ≠ i := by
      rintro rfl
      exact clean (Set.mem_insert j D)
    simpa [Abs.setIno,ne] using repr.inodes j hj (fun h => clean (Set.mem_insert_of_mem i h))
  · intro l j inR valid
    have ne : j ≠ i := by
      rintro rfl
      simp [stale l inR] at valid
    simpa [Abs.setIno,ne] using repr.valid l j inR valid

end

theorem vacate (repr : Repr sb T s A D ((k,i) ::ₘ R) L) (last : ∀ j, (k,j) ∉ R) {ip : Inode} (empty : ip.ref = 0) :
    Repr sb T (s.setSlot k ip) A D R { x ∈ L | x ∈ R } := by
  have ne {l j : Nat} (member : (l,j) ∈ R) : l ≠ k := by
    rintro rfl
    exact last j member
  refine ⟨repr.inodes,repr.bits,repr.data,?_,?_,?_,?_,?_,repr.tables⟩
  · intro l j member
    simpa [ne member] using repr.slot l j (Multiset.mem_cons_of_mem member)
  · intro l hl
    have old := repr.refs l hl
    rw [Multiset.map_cons] at old
    obtain rfl | here := eq_or_ne l k
    · have none : (R.map Prod.fst).count l = 0 := by
        rw [Multiset.count_eq_zero,Multiset.mem_map]
        rintro ⟨⟨m,j⟩,member,rfl⟩
        exact last j member
      simp [empty,none]
    · rw [Multiset.count_cons_of_ne here] at old
      simp [here,old]
  · intro l j member valid
    simp only [State.setSlot_itable,update_of_ne (ne member)] at valid ⊢
    exact repr.valid l j (Multiset.mem_cons_of_mem member) valid
  · exact fun l m j hl hm => repr.unique l m j (Multiset.mem_cons_of_mem hl) (Multiset.mem_cons_of_mem hm)
  · rintro l j ⟨inL,member⟩
    exact ⟨member,by simpa [ne member] using (repr.locked l j inL).2⟩

end Repr

/-- `iget` hands out a reference; a slot that nobody else refers to is not valid. -/
theorem iget_spec (harmless : Harmless E) (hi : i < sb.ninodes) (repr : Repr sb T s A D R L) :
    wp (iget i) (fun k t => Repr sb T t A D ((k,i) ::ₘ R) L ∧ ((k,i) ∈ R ∨ (t.itable k).valid = false) ∧
      ∀ l, (t.itable l).locked = (s.itable l).locked) E s := by
  simp only [iget,strict_eq,wp_bind,wp_get]
  split
  · rename_i k found
    have hk : k < ninode := List.mem_range.mp (List.mem_of_find?_eq_some found)
    have here := List.find?_some found
    simp only [decide_eq_true_eq] at here
    have member := repr.mem_of_ref hk here.1
    rw [here.2] at member
    simp only [wp_bind,wp_setInode,wp_pure]
    exact ⟨repr.addRef member,.inl member,fun l => Repr.update_locked rfl⟩
  · rename_i absent
    simp only [List.find?_eq_none,List.mem_range,decide_eq_true_eq] at absent
    split
    · exact harmless _ (by decide) (by decide)
    · rename_i k found
      have hk : k < ninode := List.mem_range.mp (List.mem_of_find?_eq_some found)
      have empty := List.find?_some found
      simp only [decide_eq_true_eq] at empty
      simp only [wp_bind,wp_setInode,wp_pure]
      refine ⟨repr.fresh hk hi empty fun l member => ?_,.inr (by simp),fun l => Repr.update_locked rfl⟩
      obtain ⟨hl,_,inum⟩ := repr.slot l i member
      exact absent l hl ⟨repr.ref_pos member,inum⟩

/-- A reference that `iget` hands out may be given back at once, whatever inode it is to. -/
theorem iget_iput (inum : Nat) (repr : Repr sb T s A D R L) :
    wp (iget inum) (fun k t => (t.itable k).inum = inum ∧ 0 < (t.itable k).ref ∧ t.disk = s.disk ∧
      wp (iput sb k) (fun _ u => Repr sb T u A D R L) (fun _ => False) t) (· = .igetNoInodes) s := by
  simp only [iget,strict_eq,wp_bind,wp_get]
  split
  · rename_i k found
    have here := List.find?_some found
    simp only [decide_eq_true_eq] at here
    have more : ¬((s.itable k).ref + 1 = 1 ∧ (s.itable k).valid = true ∧ (s.itable k).din.nlink = 0) := by omega
    simp only [wp_bind,wp_setInode,wp_pure,State.setSlot_itable,update_self,iput,wp_getInode,if_neg more,
      State.setSlot_setSlot,State.setSlot_disk]
    refine ⟨here.2,by omega,trivial,?_⟩
    have same : s.setSlot k { s.itable k with ref := (s.itable k).ref + 1 - 1 } = s := by
      simp [State.setSlot]
    rwa [same]
  · split
    · exact rfl
    · rename_i k found
      have empty := List.find?_some found
      simp only [decide_eq_true_eq] at empty
      simp only [wp_bind,wp_setInode,wp_pure,State.setSlot_itable,update_self,iput,wp_getInode,
        State.setSlot_setSlot,State.setSlot_disk,Bool.false_eq_true,false_and,and_false,if_false]
      exact ⟨trivial,by decide,trivial,repr.idle empty (by simp)⟩

theorem idup_spec (member : (k,i) ∈ R) (repr : Repr sb T s A D R L) :
    wp (idup k) (fun l t => l = k ∧ Repr sb T t A D ((k,i) ::ₘ R) L) E s := by
  simp only [idup,wp_bind,wp_getInode,wp_setInode,wp_pure]
  exact ⟨trivial,repr.addRef member⟩

/-- `ilock` reads the inode if it has to; an inode without a type is its panic. -/
theorem ilock_spec (harmless : Harmless E) (member : (k,i) ∈ R) (clean : i ∉ D)
    (typed : (A.ino i).type ≠ 0 ∨ E .ilockNoType) (repr : Repr sb T s A D R L) :
    wp (ilock sb k) (fun _ t => Repr sb T t A D R (insert (k,i) L) ∧ (A.ino i).type ≠ 0 ∧
      (s.itable k).locked = false ∧ (t.itable k).locked = true) E s := by
  obtain ⟨_,hi,inum⟩ := repr.slot k i member
  simp only [ilock,wp_bind,wp_getInode,wp_ite,wp_fail,wp_pure]
  split
  · exact harmless _ (by decide) (by decide)
  split
  · exact harmless _ (by decide) (by decide)
  rename_i free
  have free : (s.itable k).locked = false := by simpa using free
  split
  · rename_i valid
    rw [wp_setInode]
    refine ⟨(repr.setLock true).lock member ?_,(repr.valid k i member valid).2,free,by simp⟩
    simpa using valid
  · have same : getDinode (s.disk (sb.iblock (s.itable k).inum)) ((s.itable k).inum % ipb * dinodeSize) =
        dinode sb s.disk i := by rw [inum]; rfl
    simp only [wp_bread,wp_setInode,same]
    rw [repr.inodes i hi clean]
    split
    · exact typed.resolve_left (fun h => h ‹_›)
    · rw [← repr.inodes i hi clean]
      refine ⟨repr.load member clean ‹_›,?_,free,by simp⟩
      rw [repr.inodes i hi clean]
      assumption

theorem iunlock_spec (harmless : Harmless E) (repr : Repr sb T s A D R L) :
    wp (iunlock k) (fun _ t => Repr sb T t A D R L) E s := by
  simp only [iunlock,wp_bind,wp_getInode,wp_ite,wp_fail,wp_setInode]
  split
  · exact harmless _ (by decide) (by decide)
  · exact repr.setLock false

theorem setDinode_spec (locked : (k,i) ∈ L) {f : Dinode → Dinode} (typed : (f (A.ino i)).type ≠ 0)
    (repr : Repr sb T s A D R L) :
    wp (setDinode k f) (fun _ t => Repr sb T t (A.setIno i (f (A.ino i))) (insert i D) R L) E s := by
  obtain ⟨_,din,_⟩ := repr.at_locked locked
  simp only [setDinode,wp_bind,wp_getInode,wp_setInode]
  rw [din]
  exact repr.assign locked typed

section

variable (layout : sb.Layout) (harmless : Harmless E)
include layout harmless

theorem iupdate_spec (locked : (k,i) ∈ L) (fits : (A.ino i).Fits) (repr : Repr sb T s A D R L) :
    wp (iupdate sb k) (fun _ t => Repr sb T t A (D \ {i}) R L) E s := by
  obtain ⟨member,valid⟩ := repr.locked k i locked
  obtain ⟨_,hi,inum⟩ := repr.slot k i member
  simp only [iupdate,wp_bind,wp_getInode,wp_bread,wp_setBlock,inum,(repr.valid k i member valid).1]
  apply wp_logWrite harmless
  intro log
  refine (repr.setDisk layout hi ?_ fun a => putDinode_other).log log
  exact getDinode_putDinode fits

theorem setDinode_iupdate (locked : (k,i) ∈ L) {f : Dinode → Dinode} (typed : (f (A.ino i)).type ≠ 0)
    (fits : (f (A.ino i)).Fits) (repr : Repr sb T s A ∅ R L) {α : Type} {rest : Kernel α} {Q : α → State → Prop}
    (next : ∀ t, Repr sb T t (A.setIno i (f (A.ino i))) ∅ R L → wp rest Q E t) :
    wp (do
      setDinode k f
      iupdate sb k
      rest) Q E s := by
  apply wp_seq (setDinode_spec locked typed repr)
  intro _ t repr
  have same : (A.setIno i (f (A.ino i))).ino i = f (A.ino i) := update_self ..
  apply wp_seq (iupdate_spec layout harmless locked (by rwa [same]) repr)
  intro _ u repr
  exact next u (repr.dirty (by simp))

theorem iallocFrom_spec {type : Nat} (small : type < 2 ^ 16) (n inum : Nat) (bound : inum + n ≤ sb.ninodes)
    (repr : Repr sb T s A ∅ R L) :
    wp (iallocFrom sb type n inum) (fun r t =>
      (r = none ∧ Repr sb T t A ∅ R L) ∨
      ∃ k i, r = some k ∧ inum ≤ i ∧ i < sb.ninodes ∧ (A.ino i).type = 0 ∧
        Repr sb T t (A.setIno i (Dinode.blank type)) ∅ ((k,i) ::ₘ R) L) E s := by
  induction n generalizing inum with
  | zero =>
    rw [iallocFrom,wp_pure]
    exact .inl ⟨rfl,repr⟩
  | succ n ih =>
    have hi : inum < sb.ninodes := by omega
    have same : getDinode (s.disk (sb.iblock inum)) (inum % ipb * dinodeSize) = A.ino inum :=
      repr.inodes inum hi (Set.notMem_empty inum)
    simp only [iallocFrom,wp_bind,wp_bread,same]
    split
    · rename_i free
      simp only [wp_bind,wp_setBlock]
      apply wp_logWrite harmless
      intro log
      have blank : (A.setIno inum (Dinode.blank type)).ino inum = Dinode.blank type := update_self ..
      have stale (l : Nat) (member : (l,inum) ∈ R) : (s.itable l).valid = false := by
        by_contra valid
        exact (repr.valid l inum member (by simpa using valid)).2 free
      have written := (repr.reassign stale (Dinode.blank type)).setDisk layout hi
        ((getDinode_blankDinode small).trans blank.symm)
        (fun a => @blankDinode_other (s.disk (sb.iblock inum)) _ a type)
      apply wp_post (iget_spec harmless hi ((written.dirty (by simp)).log log))
      rintro k t ⟨repr,_⟩
      exact .inr ⟨k,inum,rfl,Nat.le_refl _,hi,free,repr⟩
    · apply wp_post (ih (inum + 1) (by omega))
      rintro r t (none | ⟨k,i,found,lower,rest⟩)
      · exact .inl none
      · exact .inr ⟨k,i,found,by omega,rest⟩

theorem ialloc_spec {type : Nat} (small : type < 2 ^ 16) (repr : Repr sb T s A ∅ R L) :
    wp (ialloc sb type) (fun r t =>
      (r = none ∧ Repr sb T t A ∅ R L) ∨
      ∃ k i, r = some k ∧ 0 < i ∧ i < sb.ninodes ∧ (A.ino i).type = 0 ∧
        Repr sb T t (A.setIno i (Dinode.blank type)) ∅ ((k,i) ::ₘ R) L) E s := by
  by_cases some : 1 ≤ sb.ninodes
  · exact iallocFrom_spec layout harmless small (sb.ninodes - 1) 1 (by omega) repr
  · have none : sb.ninodes - 1 = 0 := by omega
    rw [ialloc,none,iallocFrom,wp_pure]
    exact .inl ⟨rfl,repr⟩

end

end Xv6.Fs
