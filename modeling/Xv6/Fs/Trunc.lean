import Xv6.Fs.Write

/-! Giving blocks and inodes back: `itrunc` and `iput` on the represented disk. -/
namespace Xv6.Fs

open Prog Function

structure Cleared (sb : Superblock) (i : Nat) (A A' : Abs) : Prop where
  others : ∀ j, j ≠ i → A'.ino j = A.ino j
  kept : ∀ j, j ≠ i → ∀ m, A'.ptr sb (j,m) = A.ptr sb (j,m)
  data : A'.data = A.data

/-- The blocks that the pointers in `S` of inode `i` lead to are marked free; no block has been
written. -/
structure Released (sb : Superblock) (i : Nat) (S : Nat → Prop) (A A' : Abs) : Prop where
  data : A'.data = A.data
  used : ∀ b, sb.Data b → (A'.used b = true ↔ A.used b = true ∧ ∀ m, S m → A.ptr sb (i,m) ≠ b)
  metadata : ∀ b < sb.datastart, A'.used b = true

section Released

variable {sb : Superblock} {A A' : Abs} {i : Nat} {S : Nat → Prop}

theorem Released.refl (sound : Sound sb A) : Released sb i (fun _ => False) A A :=
  ⟨rfl,fun _ _ => by simp,sound.metadata⟩

theorem Released.null (done : Released sb i S A A') (layout : sb.Layout) {S' : Nat → Prop}
    (more : ∀ m, S' m ↔ S m ∨ A.ptr sb (i,m) = 0 ∧ S' m) : Released sb i S' A A' := by
  refine ⟨done.data,fun b data => (done.used b data).trans (and_congr_right fun _ => ⟨?_,?_⟩),done.metadata⟩
  · intro all m inside meet
    rcases (more m).mp inside with old | ⟨zero,_⟩
    · exact all m old meet
    · exact layout.data_pos data (meet.symm.trans zero)
  · exact fun all m inside => all m ((more m).mpr (.inl inside))

theorem Released.ino (done : Released sb i S A A') (ino : Nat → Dinode) :
    Released sb i S A { A' with ino := ino } := ⟨done.data,done.used,done.metadata⟩

theorem Released.held (done : Released sb i S A A') (sound : Sound sb A) {m : Nat} (some : A.ptr sb (i,m) ≠ 0)
    (left : ¬S m) : sb.Data (A.ptr sb (i,m)) ∧ A'.used (A.ptr sb (i,m)) = true := by
  have data := sound.owned.inside _ some
  refine ⟨data,(done.used _ data).mpr ⟨sound.owned.used_of_ptr some,fun l inside meet => left ?_⟩⟩
  have same := Prod.mk.inj (sound.owned.apart _ _ some meet.symm)
  rwa [same.2]

theorem Released.step (done : Released sb i S A A') (sound : Sound sb A) {m : Nat} (some : A.ptr sb (i,m) ≠ 0)
    {S' : Nat → Prop} (more : ∀ l, S' l ↔ S l ∨ l = m) : Released sb i S' A (A'.release (A.ptr sb (i,m))) := by
  refine ⟨done.data,fun b data => ?_,fun b low => ?_⟩
  · by_cases here : b = A.ptr sb (i,m)
    · subst here
      simp only [Abs.release,update_self,Bool.false_eq_true,false_iff,not_and,not_forall]
      exact fun _ => ⟨m,(more m).mpr (.inr rfl),fun h => h rfl⟩
    · simp only [Abs.release,update_of_ne here,done.used b data]
      refine and_congr_right fun _ => ⟨fun all l inside => ?_,fun all l inside => all l ((more l).mpr (.inl inside))⟩
      rcases (more l).mp inside with old | rfl
      · exact all l old
      · exact Ne.symm here
  · have ne : b ≠ A.ptr sb (i,m) := by
      rintro rfl
      have := (sound.owned.inside _ some).1
      omega
    simpa [Abs.release,ne] using done.metadata b low

/-- An inode all of whose pointers are released and cleared owns nothing. -/
theorem Released.sound (done : Released sb i S A A') (layout : sb.Layout) (sound : Sound sb A)
    (all : ∀ m ≤ ndirect + nindirect, S m) (others : ∀ j, j ≠ i → A'.ino j = A.ino j)
    (cleared : ∀ k, (A'.ino i).addrs k = 0) (fits : (A'.ino i).Fits) (empty : (A'.ino i).size = 0) :
    Sound sb A' ∧ Cleared sb i A A' := by
  have kept (j : Nat) (ne : j ≠ i) (m : Nat) : A'.ptr sb (j,m) = A.ptr sb (j,m) := by
    apply Abs.ptr_congr
    · rw [others j ne]
      exact fun _ _ => rfl
    · rw [done.data]
      exact fun _ => rfl
  have null (m : Nat) : A'.ptr sb (i,m) = 0 := by simp [Abs.ptr,cleared]
  have far (m : Nat) (beyond : ¬S m) : A.ptr sb (i,m) = 0 := by
    have above : ¬m ≤ ndirect + nindirect := fun h => beyond (all m h)
    have direct : ¬m ≤ ndirect := by omega
    simp [Abs.ptr,above,direct]
  refine ⟨⟨?_,done.metadata,fun j hj zero => ?_,fun j hj typed bn inside => ?_,fun j hj => ?_⟩,others,kept,done.data⟩
  · apply sound.owned.drop (data_null layout)
    · exact fun x ne => kept x.1 ne x.2
    · rintro ⟨j,m⟩ rfl
      exact null m
    · intro b data
      rw [done.used b data]
      refine and_congr_right fun _ => ⟨?_,fun none m _ => none (i,m) rfl⟩
      rintro none ⟨j,m⟩ rfl meet
      by_cases inside : S m
      · exact none m inside meet
      · exact layout.data_pos data (meet.symm.trans (far m inside))
  · by_cases here : j = i
    · exact fun k _ => by rw [here,cleared]
    · rw [others j here] at zero ⊢
      exact sound.free j hj zero
  · obtain rfl | here := eq_or_ne j i
    · omega
    · rw [others j here] at typed inside
      rw [Abs.block,kept j here]
      exact sound.whole j hj typed bn inside
  · by_cases here : j = i
    · rwa [here]
    · rw [others j here]
      exact sound.fits j hj

end Released

variable {sb : Superblock} {T : Tables} {s : State} {A : Abs} {D : Set Nat}
  {R : Multiset (Nat × Nat)} {L : Set (Nat × Nat)} {E : Panic → Prop} {k i : Nat}

theorem cleared_below {addrs : Nat → Nat} {j : Nat} :
    update (fun m => if m < j then 0 else addrs m) j 0 = fun m => if m < j + 1 then 0 else addrs m := by
  funext m
  by_cases here : m = j
  · simp [here]
  · have same : m < j + 1 ↔ m < j := by omega
    simp [here,same]

theorem cleared_null {addrs : Nat → Nat} {j : Nat} (null : addrs j = 0) :
    (fun m => if m < j then 0 else addrs m) = fun m => if m < j + 1 then 0 else addrs m := by
  rw [← cleared_below,update_eq_self_iff.mpr]
  simp [null]

section

variable (layout : sb.Layout) (harmless : Harmless E)
include layout harmless

/-- The first loop of `itrunc`: the addresses from `j` on are released and cleared. -/
theorem freeDirect_spec (locked : (k,i) ∈ L) (sound : Sound sb A) (n j : Nat) (bound : j + n = ndirect) {A' : Abs}
    (done : Released sb i (· < j) A A')
    (ino : A'.ino = update A.ino i { A.ino i with addrs := fun m => if m < j then 0 else (A.ino i).addrs m })
    (repr : Repr sb T s A' {i} R L) :
    wp (freeDirect sb k n j) (fun _ t => ∃ A', Released sb i (· < ndirect) A A' ∧ A'.ino = update A.ino i
        { A.ino i with addrs := fun m => if m < ndirect then 0 else (A.ino i).addrs m } ∧
      Repr sb T t A' {i} R L) E s := by
  have hi := (repr.slot k i (repr.locked k i locked).1).2.1
  induction n generalizing j s A' with
  | zero =>
    obtain rfl : j = ndirect := bound
    rw [freeDirect,wp_pure]
    exact ⟨A',done,ino,repr⟩
  | succ n ih =>
    obtain ⟨_,din,typed⟩ := repr.at_locked locked
    have here : A'.ino i = { A.ino i with addrs := fun m => if m < j then 0 else (A.ino i).addrs m } := by
      rw [ino,update_self]
    have addr : (A'.ino i).addrs j = (A.ino i).addrs j := by simp [here]
    have pointer := @Abs.ptr_addr sb A i j hi (by omega)
    simp only [freeDirect,wp_bind,wp_getInode,din,addr]
    split
    · rename_i some
      rw [← pointer] at some ⊢
      obtain ⟨data,used⟩ := done.held sound some (Nat.lt_irrefl j)
      apply wp_seq (bfree_spec layout harmless data.2 used repr)
      intro _ t repr
      apply wp_seq (setDinode_spec locked (by exact typed) repr)
      intro _ u repr
      rw [Set.insert_eq_of_mem (Set.mem_singleton i)] at repr
      refine ih (j + 1) (by omega) ((done.step sound some (fun l => by omega)).ino _) ?_ repr
      simp only [Abs.release,ino,update_idem,update_self,cleared_below]
    · rename_i null
      refine ih (j + 1) (by omega) (done.null layout fun m => ?_) ?_ repr
      · have zero (here : m = j) : A.ptr sb (i,m) = 0 := by
          rw [here,pointer]
          simpa using null
        constructor
        · intro below
          by_cases here : m = j
          · exact .inr ⟨zero here,below⟩
          · exact .inl (by omega)
        · rintro (before | ⟨_,below⟩)
          · omega
          · exact below
      · rw [ino,cleared_null (by simpa using null)]

/-- The second loop of `itrunc`: the entries of the indirect block from `j` on are released. -/
theorem freeEntries_spec (hi : i < sb.ninodes) (sound : Sound sb A) (table : (A.ino i).addrs ndirect ≠ 0) (n j : Nat)
    (bound : j + n = nindirect) {A' : Abs} (done : Released sb i (fun m => m < ndirect + 1 + j ∧ m ≠ ndirect) A A')
    (repr : Repr sb T s A' D R L) :
    wp (freeEntries sb (A.data ((A.ino i).addrs ndirect)) n j) (fun _ t => ∃ A'',
      Released sb i (fun m => m < ndirect + 1 + nindirect ∧ m ≠ ndirect) A A'' ∧
      A''.ino = A'.ino ∧ Repr sb T t A'' D R L) E s := by
  induction n generalizing j s A' with
  | zero =>
    obtain rfl : j = nindirect := bound
    rw [freeEntries,wp_pure]
    exact ⟨A',done,rfl,repr⟩
  | succ n ih =>
    have pointer := @Abs.ptr_entry sb A i j hi table (by omega)
    simp only [freeEntries,← pointer]
    split
    · rename_i some
      obtain ⟨data,used⟩ := done.held sound some (by omega)
      apply wp_seq (bfree_spec layout harmless data.2 used repr)
      intro _ t repr
      exact @ih t (j + 1) (by omega) (A'.release _) (done.step sound some fun l => by omega) repr
    · rename_i null
      refine ih (j + 1) (by omega) (done.null layout fun m => ?_) repr
      have zero (here : m = ndirect + 1 + j) : A.ptr sb (i,m) = 0 := by
        rw [here]
        simpa using null
      constructor
      · intro below
        by_cases here : m = ndirect + 1 + j
        · exact .inr ⟨zero here,below⟩
        · exact .inl (by omega)
      · rintro (before | ⟨_,below⟩)
        · omega
        · exact below

/-- The end of `itrunc`: all pointers are released and cleared. -/
theorem truncated_spec (locked : (k,i) ∈ L) (sound : Sound sb A) {A' : Abs}
    (done : Released sb i (· < ndirect + 1 + nindirect) A A')
    (ino : A'.ino = update A.ino i { A.ino i with addrs := fun m => if m < ndirect + 1 then 0 else (A.ino i).addrs m })
    (repr : Repr sb T s A' {i} R L) :
    wp (do
      setDinode k fun din => { din with size := 0 }
      iupdate sb k) (fun _ t => ∃ A', Repr sb T t A' ∅ R L ∧ Sound sb A' ∧ Cleared sb i A A' ∧
        A'.ino i = { A.ino i with size := 0, addrs := fun _ => 0 }) E s := by
  obtain ⟨hi,_,typed⟩ := repr.at_locked locked
  have fits := sound.fits i hi
  have addrs : (fun m => if m < ndirect + 1 then 0 else (A.ino i).addrs m) = fun _ => 0 := by
    funext m
    split
    · rfl
    · exact fits.beyond m (by omega)
  rw [addrs] at ino
  have last : (A'.setIno i { A'.ino i with size := 0 }).ino i = { A.ino i with size := 0, addrs := fun _ => 0 } := by
    simp [Abs.setIno,ino]
  obtain ⟨sound',cleared⟩ := (done.ino (A'.setIno i { A'.ino i with size := 0 }).ino).sound layout sound
    (fun m inside => by omega) (fun j ne => by simp [Abs.setIno,ino,ne]) (fun m => by rw [last])
    (by rw [last]
        exact ⟨fits.type,fits.major,fits.minor,fits.nlink,Nat.two_pow_pos 32,fun _ => Nat.two_pow_pos 32,fun _ _ => rfl⟩)
    (by rw [last])
  apply wp_seq (setDinode_spec locked (by exact typed) repr)
  intro _ t repr
  apply wp_post (iupdate_spec layout harmless locked (sound'.fits i hi) repr)
  intro _ u repr
  exact ⟨_,repr.dirty (by simp),sound',cleared,last⟩

/-- `itrunc` gives back all blocks of the inode. -/
theorem itrunc_spec (locked : (k,i) ∈ L) (sound : Sound sb A) (repr : Repr sb T s A ∅ R L) :
    wp (itrunc sb k) (fun _ t => ∃ A', Repr sb T t A' ∅ R L ∧ Sound sb A' ∧ Cleared sb i A A' ∧
      A'.ino i = { A.ino i with size := 0, addrs := fun _ => 0 }) E s := by
  have hi := (repr.slot k i (repr.locked k i locked).1).2.1
  have start : Released sb i (· < 0) A A := (Released.refl sound).null layout fun m => by simp
  rw [itrunc]
  apply wp_seq (freeDirect_spec layout harmless locked sound ndirect 0 (Nat.zero_add _) start (by simp)
    (repr.dirty (Set.empty_subset {i})))
  rintro _ t ⟨A₁,done,ino,repr⟩
  obtain ⟨din,typed⟩ := repr.valid k i (repr.locked k i locked).1 (repr.locked k i locked).2
  have here : A₁.ino i = { A.ino i with addrs := fun m => if m < ndirect then 0 else (A.ino i).addrs m } := by
    rw [ino,update_self]
  have addr : (A₁.ino i).addrs ndirect = (A.ino i).addrs ndirect := by simp [here]
  have pointer := @Abs.ptr_addr sb A i ndirect hi (Nat.le_refl _)
  rw [wp_bind,wp_getInode,din,addr]
  by_cases null : (A.ino i).addrs ndirect = 0
  · simp only [null,ne_eq,not_true,if_false]
    refine truncated_spec layout harmless locked sound (done.null layout fun m => ?_) ?_ repr
    · constructor
      · intro below
        by_cases direct : m < ndirect
        · exact .inl direct
        · refine .inr ⟨?_,below⟩
          by_cases last : m = ndirect
          · rw [last,pointer,null]
          · have after : ¬m ≤ ndirect := by omega
            simp [Abs.ptr,null,after]
      · rintro (before | ⟨_,below⟩)
        · omega
        · exact below
    · rw [ino,cleared_null null]
  · rw [if_pos null]
    have data := sound.owned.inside (i,ndirect) (by rwa [pointer])
    rw [pointer] at data
    rw [wp_bind,wp_bread,repr.data _ data,done.data]
    apply wp_seq (freeEntries_spec layout harmless hi sound null nindirect 0 (Nat.zero_add _)
      (done.null layout fun m => by omega) repr)
    rintro _ u ⟨A₂,done,same,repr⟩
    have some : A.ptr sb (i,ndirect) ≠ 0 := by rwa [pointer]
    have used := (done.held sound some (by omega)).2
    rw [← pointer] at data ⊢
    apply wp_seq (bfree_spec layout harmless data.2 used repr)
    intro _ v repr
    apply wp_seq (setDinode_spec locked (by rw [Abs.release,same]; exact typed) repr)
    intro _ w repr
    rw [Set.insert_eq_of_mem (Set.mem_singleton i)] at repr
    refine truncated_spec layout harmless locked sound ((done.step sound some fun l => by omega).ino _) ?_ repr
    simp only [Abs.release,same,ino,update_idem,update_self,cleared_below]

end

theorem Repr.last (repr : Repr sb T s A D ((k,i) ::ₘ R) L) : (s.itable k).ref = 1 ↔ (k,i) ∉ R := by
  have member : (k,i) ∈ (k,i) ::ₘ R := Multiset.mem_cons_self ..
  have count := repr.refs k (repr.slot k i member).1
  rw [Multiset.map_cons,Multiset.count_cons_self] at count
  have same : (k,i) ∈ R ↔ k ∈ R.map Prod.fst := by
    rw [Multiset.mem_map]
    refine ⟨fun inside => ⟨_,inside,rfl⟩,?_⟩
    rintro ⟨⟨l,j⟩,inside,rfl⟩
    rwa [repr.inum_unique member (Multiset.mem_cons_of_mem inside)]
  rw [same,← Multiset.count_eq_zero]
  omega

theorem Repr.erase (repr : Repr sb T s A ∅ ((k,i) ::ₘ R) L) (layout : sb.Layout) (only : (k,i) ∉ R) (ip : Inode)
    (empty : ip.ref = 0) {din : Dinode} (fits : din.Fits) (log : Log) :
    Repr sb T { (s.setSlot k ip).setDisk (sb.iblock i)
      (putDinode (s.disk (sb.iblock i)) (i % ipb * dinodeSize) din) with log := log }
      (A.setIno i din) ∅ R { x ∈ L | x ∈ R } := by
  have member : (k,i) ∈ (k,i) ::ₘ R := Multiset.mem_cons_self ..
  have free (j : Nat) : (k,j) ∉ R := by
    intro inside
    rw [repr.inum_unique (Multiset.mem_cons_of_mem inside) member] at inside
    exact only inside
  have absent (l : Nat) (inside : (l,i) ∈ R) : ((s.setSlot k ip).itable l).valid = false := by
    rw [repr.unique l k i (Multiset.mem_cons_of_mem inside) member] at inside
    exact absurd inside only
  have here : (A.setIno i din).ino i = din := update_self ..
  have written := ((repr.vacate free empty).reassign absent din).setDisk layout (repr.slot k i member).2.1
    ((getDinode_putDinode fits).trans here.symm) (fun a => @putDinode_other (s.disk (sb.iblock i)) _ a din)
  exact (written.log log).dirty (by simp)

/-- What remains of a freed inode. -/
def Dinode.erased (din : Dinode) : Dinode := { din with type := 0, size := 0, addrs := fun _ => 0 }

/-- `iput` gives a reference back. If it was the last one to an inode without links, the inode
is freed. -/
theorem iput_spec (layout : sb.Layout) (harmless : Harmless E) (sound : Sound sb A)
    (repr : Repr sb T s A ∅ ((k,i) ::ₘ R) L) :
    wp (iput sb k) (fun _ t => ∃ A', Repr sb T t A' ∅ R { x ∈ L | x ∈ R } ∧ Sound sb A' ∧
      (A' = A ∧ ((k,i) ∈ R ∨ (A.ino i).nlink ≠ 0 ∨ (k,i) ∉ L) ∨
        (k,i) ∉ R ∧ (s.itable k).valid = true ∧ (A.ino i).nlink = 0 ∧ (A.ino i).type ≠ 0 ∧
          Cleared sb i A A' ∧ A'.ino i = (A.ino i).erased)) E s := by
  have member : (k,i) ∈ (k,i) ::ₘ R := Multiset.mem_cons_self ..
  obtain ⟨_,hi,_⟩ := repr.slot k i member
  rw [iput,wp_bind,wp_getInode]
  split
  swap
  · rename_i stays
    simp only [wp_bind,wp_getInode,wp_setInode]
    refine ⟨A,(repr.unlocked (Set.sep_subset L (· ∈ R))).dropRef fun x inside => inside.2,sound,.inl ⟨rfl,?_⟩⟩
    by_contra none
    simp only [not_or,not_not] at none
    obtain ⟨last,zero,inL⟩ := none
    have valid := (repr.locked k i inL).2
    exact stays ⟨repr.last.mpr last,valid,by rw [(repr.valid k i member valid).1,zero]⟩
  · rename_i frees
    obtain ⟨ref,valid,zero⟩ := frees
    obtain ⟨din,typed⟩ := repr.valid k i member valid
    rw [din] at zero
    split
    · exact harmless _ (by decide) (by decide)
    rw [wp_bind,wp_setInode]
    have only := repr.last.mp ref
    apply wp_seq (itrunc_spec layout harmless (Set.mem_insert ..) sound
      ((repr.setLock true).lock member (by simpa using valid)))
    rintro _ t ⟨A₁,repr₁,sound₁,cleared,here⟩
    obtain ⟨member₁,valid₁⟩ := repr₁.locked k i (Set.mem_insert ..)
    obtain ⟨din₁,typed₁⟩ := repr₁.valid k i member₁ valid₁
    have inum := (repr₁.slot k i member₁).2.2
    simp only [setDinode,iupdate,wp_bind,wp_getInode,wp_setInode,wp_bread,wp_setBlock,State.setSlot_itable,
      update_self,din₁,inum]
    apply wp_logWrite harmless
    intro log
    have fits := sound₁.fits i hi
    have gone : { A₁.ino i with type := 0 } = (A.ino i).erased := by rw [here,Dinode.erased]
    have erased : (A.ino i).erased.Fits :=
      gone ▸ ⟨Nat.two_pow_pos 16,fits.major,fits.minor,fits.nlink,fits.size,fits.addrs,fits.beyond⟩
    have at_ : (A₁.setIno i (A.ino i).erased).ino i = (A.ino i).erased := update_self ..
    have addrs : (A.ino i).erased.addrs = (A₁.ino i).addrs := by rw [here,Dinode.erased]
    refine ⟨A₁.setIno i (A.ino i).erased,?_,?_,.inr ⟨only,valid,zero,typed,?_,at_⟩⟩
    · have fewer : { x ∈ L | x ∈ R } ⊆ { x ∈ insert (k,i) L | x ∈ R } :=
        fun x inside => ⟨Set.mem_insert_of_mem (k,i) inside.1,inside.2⟩
      have vacated := (repr₁.erase layout only { t.itable k with
        inum := i, ref := (t.itable k).ref - 1, locked := false, valid := false, din := (A.ino i).erased }
        (by simp [repr₁.last.mpr only]) erased log).unlocked fewer
      convert vacated using 1
      simp [State.setSlot,State.setDisk,gone]
    · exact sound₁.setIno addrs erased (fun _ _ _ => rfl) (fun typed => absurd rfl typed)
    · refine ⟨fun j ne => (update_of_ne ne ..).trans (cleared.others j ne),fun j ne m => ?_,cleared.data⟩
      rw [Abs.setIno_ptr addrs,cleared.kept j ne m]

end Xv6.Fs
