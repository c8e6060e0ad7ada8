import Xv6.Fs.Table

/-! The contents of inodes: `bmap`, `readi` and `writei` on the represented disk. -/
namespace Xv6.Fs

open Prog Function

variable {sb : Superblock} {T : Tables} {s : State} {A : Abs} {D : Set Nat}
  {R : Multiset (Nat × Nat)} {L : Set (Nat × Nat)} {E : Panic → Prop} {k i : Nat}

theorem block_direct {bn : Nat} (hi : i < sb.ninodes) (direct : bn < ndirect) :
    A.block sb i bn = (A.ino i).addrs bn := by
  rw [Abs.block,place,if_pos direct,Abs.ptr_addr hi (by omega)]

theorem block_indirect {j : Nat} (hi : i < sb.ninodes) (table : (A.ino i).addrs ndirect ≠ 0) (hj : j < nindirect) :
    A.block sb i (ndirect + j) = Bytes.load 4 (A.data ((A.ino i).addrs ndirect)) (4 * j) := by
  have after : ¬ndirect + j < ndirect := by omega
  rw [Abs.block,place,if_neg after,← Abs.ptr_entry hi table hj]
  congr 2
  omega

theorem block_no_table {bn : Nat} (after : ndirect ≤ bn) (none : (A.ino i).addrs ndirect = 0) :
    A.block sb i bn = 0 := by
  have direct : ¬bn < ndirect := by omega
  have beyond : ¬bn + 1 ≤ ndirect := by omega
  simp [Abs.block,place,direct,Abs.ptr,beyond,none]

section Mapped

/-- The indirect block of an inode is a data block, so the disk has what the abstraction has. -/
theorem Repr.table (repr : Repr sb T s A D R L) (sound : Sound sb A) (hi : i < sb.ninodes)
    (some : (A.ino i).addrs ndirect ≠ 0) :
    sb.Data ((A.ino i).addrs ndirect) ∧ s.disk ((A.ino i).addrs ndirect) = A.data ((A.ino i).addrs ndirect) := by
  have data := sound.owned.inside (i,ndirect)
  rw [Abs.ptr_addr hi (Nat.le_refl _)] at data
  exact ⟨data some,repr.data _ (data some)⟩

/-- A block that is there is found without `balloc` and `log_write`, and nothing changes. -/
theorem bmapWith_mapped (locked : (k,i) ∈ L) (sound : Sound sb A) (repr : Repr sb T s A D R L) {bn : Nat}
    (bound : bn < maxfile) (some : A.block sb i bn ≠ 0) (alloc : Kernel Nat) (record : Nat → Kernel Unit) :
    (bmapWith alloc record k bn).run s = .ok (A.block sb i bn,s) := by
  obtain ⟨hi,din,_⟩ := repr.at_locked locked
  rw [bmapWith,run_getInode,din]
  by_cases direct : bn < ndirect
  · rw [block_direct hi direct] at some ⊢
    rw [if_pos direct,if_pos some]
    rfl
  · by_cases table : (A.ino i).addrs ndirect = 0
    · rw [block_no_table (by omega) table] at some
      exact absurd rfl some
    have inside : bn - ndirect < nindirect := by
      simp only [maxfile] at bound
      omega
    have entry := block_indirect hi table inside
    rw [Nat.add_sub_cancel' (Nat.le_of_not_lt direct)] at entry
    have read : (bread ((A.ino i).addrs ndirect)).run s = .ok (s.disk ((A.ino i).addrs ndirect),s) := rfl
    have found : (bmapTableWith alloc k).run s = .ok ((A.ino i).addrs ndirect,s) := by
      rw [bmapTableWith,run_getInode,din,if_pos table]
      rfl
    rw [entry] at some ⊢
    rw [if_neg direct]
    dsimp only
    rw [if_pos inside,run_bind found,if_neg table,run_bind read,(repr.table sound hi table).2,if_pos some]
    rfl

theorem bmap_mapped (locked : (k,i) ∈ L) (sound : Sound sb A) (repr : Repr sb T s A D R L) {bn : Nat}
    (bound : bn < maxfile) (some : A.block sb i bn ≠ 0) : (bmap sb k bn).run s = .ok (A.block sb i bn,s) :=
  bmapWith_mapped locked sound repr bound some (balloc sb) logWrite

end Mapped

section

variable (layout : sb.Layout) (harmless : Harmless E) (locked : (k,i) ∈ L) (sound : Sound sb A)
include layout harmless locked sound

theorem balloc_addr {j : Nat} (hj : j ≤ ndirect) (null : (A.ino i).addrs j = 0) (repr : Repr sb T s A D R L) :
    wp (do
      let addr ← balloc sb
      if addr = 0 then return 0
      setDinode k fun din => { din with addrs := update din.addrs j addr }
      return addr) (fun r t => ∃ A', Repr sb T t A' (insert i D) R L ∧ Sound sb A' ∧ Grows sb i A A' ∧
        (r ≠ 0 → (A'.ino i).addrs j = r) ∧
        (r = 0 → (A'.ino i).addrs j = 0 ∧ ∀ c < sb.size, A'.used c = true)) E s := by
  obtain ⟨hi,_,typed⟩ := repr.at_locked locked
  apply wp_seq (balloc_spec layout harmless sound.metadata repr)
  rintro b t (⟨rfl,full,repr⟩ | ⟨data,free,_,repr⟩)
  · rw [if_pos rfl,wp_pure]
    exact ⟨A,repr.dirty (Set.subset_insert i D),sound,Grows.refl A,fun h => absurd rfl h,fun _ => ⟨null,full⟩⟩
  · rw [if_neg (layout.data_pos data),wp_bind]
    apply wp_post (setDinode_spec locked typed repr)
    intro _ u repr
    rw [wp_pure]
    obtain ⟨_,sound',grows⟩ := sound.growAddr layout hi typed hj null data free rfl
    refine ⟨_,repr,sound',grows,fun _ => ?_,fun zero => absurd zero (layout.data_pos data)⟩
    simp [Abs.setIno]

theorem bmapTable_spec (repr : Repr sb T s A D R L) :
    wp (bmapTable sb k) (fun r t => ∃ A', Repr sb T t A' (insert i D) R L ∧ Sound sb A' ∧ Grows sb i A A' ∧
      (r ≠ 0 → (A'.ino i).addrs ndirect = r) ∧
      (r = 0 → (A'.ino i).addrs ndirect = 0 ∧ ∀ c < sb.size, A'.used c = true)) E s := by
  obtain ⟨_,din,_⟩ := repr.at_locked locked
  rw [bmapTable,bmapTableWith,wp_bind,wp_getInode,din]
  by_cases null : (A.ino i).addrs ndirect = 0
  · simp only [null,ne_eq,not_true,if_false]
    exact balloc_addr layout harmless locked sound (Nat.le_refl _) null repr
  · rw [if_pos null,wp_pure]
    exact ⟨A,repr.dirty (Set.subset_insert i D),sound,Grows.refl A,fun _ => rfl,fun zero => absurd zero null⟩

/-- `bmap` finds the block or gives the inode one, if there is one left. -/
theorem bmap_spec (bn : Nat) (repr : Repr sb T s A D R L) :
    wp (bmap sb k bn) (fun r t => bn < maxfile ∧ ∃ A', Repr sb T t A' (insert i D) R L ∧ Sound sb A' ∧
      Grows sb i A A' ∧ (r ≠ 0 → A'.block sb i bn = r) ∧
      (r = 0 → A'.block sb i bn = 0 ∧ ∀ c < sb.size, A'.used c = true)) E s := by
  obtain ⟨hi,din,_⟩ := repr.at_locked locked
  rw [bmap,bmapWith,wp_bind,wp_getInode,din]
  by_cases direct : bn < ndirect
  · have bound : bn < maxfile := by
      simp only [maxfile]
      omega
    rw [if_pos direct]
    by_cases null : (A.ino i).addrs bn = 0
    · simp only [null,ne_eq,not_true,if_false]
      apply wp_post (balloc_addr layout harmless locked sound (by omega) null repr)
      rintro r t ⟨A',repr,sound,grows,found,full⟩
      exact ⟨bound,A',repr,sound,grows,fun some => (block_direct hi direct).trans (found some),
        fun zero => ⟨(block_direct hi direct).trans (full zero).1,(full zero).2⟩⟩
    · rw [if_pos null,wp_pure]
      exact ⟨bound,A,repr.dirty (Set.subset_insert i D),sound,Grows.refl A,fun _ => block_direct hi direct,
        fun zero => absurd zero null⟩
  · rw [if_neg direct]
    dsimp only
    by_cases inside : bn - ndirect < nindirect
    swap
    · rw [if_neg inside]
      exact harmless _ (by decide) (by decide)
    have bound : bn < maxfile := by
      simp only [maxfile]
      omega
    have here : ndirect + (bn - ndirect) = bn := Nat.add_sub_cancel' (Nat.le_of_not_lt direct)
    rw [if_pos inside]
    apply wp_seq (bmapTable_spec layout harmless locked sound repr)
    rintro table t ⟨A₁,repr,sound₁,grows,found,full⟩
    by_cases none : table = 0
    · rw [if_pos none,wp_pure]
      exact ⟨bound,A₁,repr,sound₁,grows,fun h => absurd rfl h,
        fun _ => ⟨block_no_table (Nat.le_of_not_lt direct) (full none).1,(full none).2⟩⟩
    obtain ⟨_,_,typed⟩ := repr.at_locked locked
    have isTable := found none
    have some : (A₁.ino i).addrs ndirect ≠ 0 := by rwa [isTable]
    obtain ⟨data,contents⟩ := repr.table sound₁ hi some
    have entry := block_indirect hi some inside
    rw [here] at entry
    rw [isTable] at data contents entry
    rw [if_neg none,wp_bind,wp_bread,contents]
    by_cases null : Bytes.load 4 (A₁.data table) (4 * (bn - ndirect)) = 0
    swap
    · rw [if_pos null,wp_pure]
      exact ⟨bound,A₁,repr,sound₁,grows,fun _ => entry,fun zero => absurd zero null⟩
    simp only [null,ne_eq,not_true,if_false]
    apply wp_seq (balloc_spec layout harmless sound₁.metadata repr)
    rintro b u (⟨rfl,full,repr⟩ | ⟨free,unused,_,repr⟩)
    · rw [if_pos rfl,wp_pure]
      exact ⟨bound,A₁,repr,sound₁,grows,fun h => absurd rfl h,fun _ => ⟨entry.trans null,full⟩⟩
    · rw [if_neg (layout.data_pos free)]
      simp only [wp_bind,wp_bread,wp_setBlock]
      apply wp_logWrite harmless
      intro log
      rw [wp_pure]
      obtain ⟨ptrs,sound₂,grows₂⟩ := sound₁.growEntry layout hi typed isTable none inside null free unused rfl
      have written := repr.setData layout data (Bytes.store 4 (u.disk table) (4 * (bn - ndirect)) b)
      rw [repr.data table data] at written ⊢
      refine ⟨bound,_,written.log log,sound₂,grows.trans grows₂,fun _ => ?_,
        fun zero => absurd zero (layout.data_pos free)⟩
      have after : place bn = ndirect + 1 + (bn - ndirect) := by
        rw [place,if_neg direct]
        omega
      rw [Abs.block,after,ptrs,update_self]

end

/-! Reading. -/

/-- How many bytes a copy of `m` bytes to `a` writes. -/
def reach (ok : Nat → Bool) (a : Nat) : Nat → Nat
  | 0 => 0
  | m + 1 => if ok a then reach ok (a + 1) m + 1 else 0

theorem reach_le (ok : Nat → Bool) (a m : Nat) : reach ok a m ≤ m := by
  induction m generalizing a with
  | zero => exact Nat.le_refl 0
  | succ m ih =>
    rw [reach]
    have := ih (a + 1)
    split <;> omega

theorem reach_all (a m : Nat) : reach (fun _ => true) a m = m := by
  induction m generalizing a with
  | zero => rfl
  | succ m ih => rw [reach,if_pos rfl,ih]

theorem reach_add (ok : Nat → Bool) (a m n : Nat) :
    reach ok a (m + n) = if reach ok a m = m then m + reach ok (a + m) n else reach ok a m := by
  induction m generalizing a with
  | zero => simp [reach]
  | succ m ih =>
    rw [Nat.add_right_comm,reach,reach,ih (a + 1)]
    by_cases here : ok a = true
    · simp only [if_pos here,Nat.add_left_inj]
      split
      · rw [Nat.add_assoc a 1 m,Nat.add_comm 1 m]
        omega
      · rfl
    · simp [here]

theorem copyout_reach (dst : Bytes.Storage) (ok : Nat → Bool) (a : Nat) (src : Bytes.Storage) (b m : Nat) :
    copyout dst ok a src b m = (decide (reach ok a m = m),Bytes.copy dst a src b (reach ok a m)) := by
  induction m generalizing dst a b with
  | zero =>
    rw [copyout,reach]
    congr 1
    funext j
    rw [Bytes.copy_outside (by omega)]
  | succ m ih =>
    rw [copyout,reach]
    by_cases here : ok a = true
    swap
    · rw [if_neg here,if_neg here]
      refine Prod.ext (by simp) (funext fun j => ?_)
      exact (Bytes.copy_outside (by omega)).symm
    rw [if_pos here,if_pos here,ih]
    refine Prod.ext (by simp) (funext fun j => ?_)
    obtain ⟨u,isU⟩ : ∃ u, u = reach ok (a + 1) m := ⟨_,rfl⟩
    simp only [← isU]
    by_cases inside : a ≤ j ∧ j < a + (u + 1)
    · obtain ⟨l,rfl⟩ : ∃ l, j = a + l := ⟨j - a,by omega⟩
      rw [Bytes.copy_inside (by omega)]
      cases l with
      | zero =>
        rw [Bytes.copy_outside (by omega)]
        simp
      | succ l =>
        rw [show a + (l + 1) = a + 1 + l by omega,Bytes.copy_inside (by omega)]
        congr 1
        omega
    · rw [Bytes.copy_outside (by omega),Bytes.copy_outside (by omega),update_of_ne (by omega)]

theorem copy_copy (dst src : Bytes.Storage) (b n m : Nat) :
    Bytes.copy (Bytes.copy dst 0 src b n) n src (b + n) m = Bytes.copy dst 0 src b (n + m) := by
  funext j
  simp only [Bytes.copy]
  by_cases first : j < n
  · simp [first,show j < n + m by omega]
  · by_cases second : j < n + m
    · have both : n ≤ j ∧ j < n + m := by omega
      simp only [both,and_self,if_true,Nat.zero_le,Nat.zero_add,true_and]
      congr 1
      omega
    · simp [first,second]

theorem bytes_in_block {off j : Nat} (inside : off % bsize + j < bsize) :
    A.bytes sb i (off + j) = A.data (A.block sb i (off / bsize)) (off % bsize + j) := by
  have quotient : (off + j) / bsize = off / bsize := by
    simp only [bsize] at *
    omega
  have rest : (off + j) % bsize = off % bsize + j := by
    simp only [bsize] at *
    omega
  rw [Abs.bytes,quotient,rest]

theorem Repr.block (repr : Repr sb T s A D R L) (sound : Sound sb A) {bn : Nat} (some : A.block sb i bn ≠ 0) :
    sb.Data (A.block sb i bn) ∧ s.disk (A.block sb i bn) = A.data (A.block sb i bn) :=
  ⟨sound.owned.inside _ some,repr.data _ (sound.owned.inside _ some)⟩

section

variable (locked : (k,i) ∈ L) (sound : Sound sb A) (repr : Repr sb T s A D R L)
include locked sound repr

/-- The loop of `readi` inside the file: each turn reads to the end of a block, or to the first byte that cannot be
written. -/
theorem readFrom_until (off n : Nat) (inside : off + n ≤ (A.ino i).size) (dst : Bytes.Storage) (ok : Nat → Bool)
    (turns tot : Nat) (bound : tot ≤ n) (room : n - tot ≤ turns * bsize - (off + tot) % bsize) :
    (readFromWith (bmap sb k) n ok turns tot (off + tot) (Bytes.copy dst 0 (A.bytes sb i) off tot)).run s =
      .ok ((if reach ok tot (n - tot) = n - tot then n else -1,
        Bytes.copy dst 0 (A.bytes sb i) off (tot + reach ok tot (n - tot))),s) := by
  obtain ⟨hi,_,typed⟩ := repr.at_locked locked
  induction turns generalizing tot with
  | zero =>
    obtain rfl : tot = n := by omega
    rw [readFromWith,Nat.sub_self]
    rfl
  | succ turns ih =>
    rw [readFromWith]
    by_cases more : tot < n
    swap
    · obtain rfl : tot = n := by omega
      rw [if_neg more,Nat.sub_self]
      rfl
    obtain ⟨low,some⟩ := sound.whole i hi typed ((off + tot) / bsize) (by
      have := Nat.div_mul_le_self (off + tot) bsize
      omega)
    have read : (bread (A.block sb i ((off + tot) / bsize))).run s =
        .ok (A.data (A.block sb i ((off + tot) / bsize)),s) := by
      rw [← (repr.block sound some).2]
      rfl
    rw [if_pos more,run_bind (bmap_mapped locked sound repr low some),if_neg some,run_bind read]
    obtain ⟨m,isM⟩ : ∃ m, m = min (n - tot) (bsize - (off + tot) % bsize) := ⟨_,rfl⟩
    have part := Nat.mod_lt (off + tot) (show 0 < bsize by decide)
    have upto := reach_le ok tot m
    have rest : n - tot = m + (n - (tot + m)) := by omega
    have same {u : Nat} (within : u ≤ m) : Bytes.copy (Bytes.copy dst 0 (A.bytes sb i) off tot) tot
        (A.data (A.block sb i ((off + tot) / bsize))) ((off + tot) % bsize) u =
        Bytes.copy dst 0 (A.bytes sb i) off (tot + u) := by
      rw [← copy_copy]
      funext j
      by_cases here : tot ≤ j ∧ j < tot + u
      · obtain ⟨l,rfl⟩ : ∃ l, j = tot + l := ⟨j - tot,by omega⟩
        rw [Bytes.copy_inside (by omega),Bytes.copy_inside (by omega),bytes_in_block (by omega)]
      · simp only [Bytes.copy,here,if_false]
    dsimp only
    rw [← isM,copyout_reach,same upto,rest,reach_add]
    by_cases all : reach ok tot m = m
    swap
    · have short : reach ok tot m ≠ m + (n - (tot + m)) := by omega
      rw [decide_eq_false all,if_neg all,if_neg short]
      rfl
    rw [decide_eq_true all,if_pos all,all]
    dsimp only
    have next := ih (tot + m) (by omega) (by
      rw [Nat.add_mul,Nat.one_mul] at room
      by_cases last : m = n - tot
      · omega
      · have aligned : (off + (tot + m)) % bsize = 0 := by
          have whole : off + (tot + m) = off + tot + (bsize - (off + tot) % bsize) := by omega
          rw [whole]
          simp only [bsize] at *
          omega
        omega)
    rw [Nat.add_assoc,next]
    simp only [Nat.add_left_cancel_iff,Nat.add_assoc]

/-- `readi` reads what is there between `off` and the end of the file, up to the first byte that cannot be written. -/
theorem readi_until {off n : Nat} (start : off ≤ (A.ino i).size) (small : off + n < 2 ^ 32) (dst : Bytes.Storage)
    (ok : Nat → Bool) :
    (readi sb k dst ok off n).run s =
      .ok ((if reach ok 0 (min n ((A.ino i).size - off)) = min n ((A.ino i).size - off) then
          ((min n ((A.ino i).size - off) : Nat) : Int) else -1,
        Bytes.copy dst 0 (A.bytes sb i) off (reach ok 0 (min n ((A.ino i).size - off)))),s) := by
  obtain ⟨_,din,_⟩ := repr.at_locked locked
  have fine : ¬((A.ino i).size < off ∨ (off + n) % 2 ^ 32 < off) := by omega
  have length : (if (A.ino i).size < off + n then (A.ino i).size - off else n) = min n ((A.ino i).size - off) := by
    split <;> omega
  have whole := readFrom_until locked sound repr off (min n ((A.ino i).size - off)) (by omega) dst ok
    (min n ((A.ino i).size - off) / bsize + 2) 0 (by omega) (by
      have := Nat.mod_lt off (show 0 < bsize by decide)
      simp only [bsize] at *
      omega)
  have none : Bytes.copy dst 0 (A.bytes sb i) off 0 = dst := by
    funext j
    exact Bytes.copy_outside (by omega)
  simp only [none,Nat.add_zero,Nat.sub_zero,Nat.zero_add] at whole
  rw [readi,readiWith,run_getInode,din,if_neg fine]
  dsimp only
  rw [length,whole]

theorem readi_run {off n : Nat} (start : off ≤ (A.ino i).size) (small : off + n < 2 ^ 32) (dst : Bytes.Storage) :
    (readi sb k dst (fun _ => true) off n).run s = .ok ((min n ((A.ino i).size - off),
        Bytes.copy dst 0 (A.bytes sb i) off (min n ((A.ino i).size - off))),s) := by
  rw [readi_until locked sound repr start small dst,reach_all,if_pos rfl]
  norm_cast

end

end Xv6.Fs
