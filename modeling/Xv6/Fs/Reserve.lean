import Xv6.Fs.FileBytes
import Xv6.Fs.Syscall
import Mathlib.Data.Finset.Card

/-! A chunk of `filewrite` fits its reservation in the log. -/
namespace Xv6.Fs

open Prog Function

/-- The block numbers that a call passes to `log_write`, each of them once: what it leaves in a log that was empty. -/
def passed {α : Type} (x : Kernel α) (s : State) : Option (List Nat) :=
  (resultOf x { s with log := ⟨s.log.start,logSize + 1,1,false,[]⟩ }).map fun r => r.2.log.lh

def State.table (s : State) (k : Nat) : Nat := (s.itable k).din.addrs ndirect

theorem State.setDisk_table (s : State) (b : Nat) (blk : Block) (k : Nat) : (s.setDisk b blk).table k = s.table k := rfl

/-- At most `c` numbers besides those in `Y` and the indirect block have been passed; one of them is kept for the bitmap
until there is an indirect block. -/
structure Spent (k : Nat) (Y : Finset Nat) (c : Nat) (s : State) : Prop where
  once : s.log.lh.Nodup
  within : ∃ X : Finset Nat, X.card + (if s.table k = 0 then 1 else 0) ≤ c ∧
    ∀ b ∈ s.log.lh, b ∈ Y ∨ b ∈ X ∨ b = s.table k ∧ s.table k ≠ 0

section Spent

variable {sb : Superblock} {k c : Nat} {Y : Finset Nat} {s t : State}

namespace Spent

theorem mono (spent : Spent k Y c s) {Y' : Finset Nat} {d : Nat} (sub : Y ⊆ Y') (more : c ≤ d) : Spent k Y' d s := by
  obtain ⟨once,X,card,within⟩ := spent
  exact ⟨once,X,card.trans more,fun b member => (within b member).imp_left (@sub b)⟩

theorem count_insert {b : Nat} (spent : Spent k (insert b Y) c s) : Spent k Y (c + 1) s := by
  obtain ⟨once,X,card,within⟩ := spent
  refine ⟨once,insert b X,?_,fun d member => ?_⟩
  · have := Finset.card_insert_le b X
    omega
  · rcases within d member with here | there | table
    · rcases Finset.mem_insert.mp here with rfl | other
      · exact .inr (.inl (Finset.mem_insert_self ..))
      · exact .inl other
    · exact .inr (.inl (Finset.mem_insert_of_mem there))
    · exact .inr (.inr table)

theorem same (spent : Spent k Y c s) (log : t.log = s.log) (table : t.table k = s.table k) : Spent k Y c t := by
  obtain ⟨once,X,card,within⟩ := spent
  exact ⟨log ▸ once,X,table ▸ card,by rw [log,table]; exact within⟩

theorem length_le (spent : Spent k ∅ c s) : s.log.lh.length ≤ c + 1 := by
  obtain ⟨once,X,card,within⟩ := spent
  have sub : s.log.lh.toFinset ⊆ insert (s.table k) X := fun b member => by
    rcases within b (List.mem_toFinset.mp member) with none | there | ⟨rfl,_⟩
    · cases none
    · exact Finset.mem_insert_of_mem there
    · exact Finset.mem_insert_self ..
  rw [← List.toFinset_card_of_nodup once]
  have := Finset.card_le_card sub
  have := Finset.card_insert_le (s.table k) X
  omega

end Spent

theorem logWrite_spent (b : Nat) (spent : Spent k Y c s) :
    wp (logWrite b) (fun _ t => Spent k (insert b Y) c t ∧ t.itable = s.itable ∧ t.disk = s.disk) (fun _ => True) s := by
  obtain ⟨once,X,card,within⟩ := spent
  simp only [logWrite,wp_bind,wp_get,wp_ite,wp_fail,wp_modify]
  split
  · trivial
  split
  · trivial
  refine ⟨⟨?_,X,card,fun d member => ?_⟩,trivial,trivial⟩
  · unfold Log.absorb
    split
    · exact once
    · rename_i fresh
      simpa using once.concat fresh
  · have old : d = b ∨ d ∈ s.log.lh := by
      unfold Log.absorb at member
      split at member
      · exact .inr member
      · rw [List.mem_append,List.mem_singleton] at member
        exact member.symm
    rcases old with rfl | old
    · exact .inl (Finset.mem_insert_self ..)
    · exact (within d old).imp_left Finset.mem_insert_of_mem

theorem logWrite_again {b : Nat} (spent : Spent k Y c s) (again : b ∈ Y ∨ b = s.table k ∧ s.table k ≠ 0) :
    wp (logWrite b) (fun _ t => Spent k Y c t ∧ t.itable = s.itable) (fun _ => True) s := by
  apply wp_post (logWrite_spent b spent)
  rintro - t ⟨⟨once,X,card,within⟩,slots,-⟩
  have table : t.table k = s.table k := by rw [State.table,slots,State.table]
  refine ⟨⟨once,X,card,fun d member => ?_⟩,slots⟩
  rcases within d member with here | rest
  · rcases Finset.mem_insert.mp here with rfl | old
    · rw [table]
      exact again.imp id .inr
    · exact .inl old
  · exact .inr rest

/-- A block that is allocated costs itself and a block of the bitmap. -/
theorem ballocFrom_spent (n b : Nat) (spent : Spent k Y c s) :
    wp (ballocFrom sb n b) (fun addr t => Spent k (insert addr Y) (c + 1) t ∧ t.itable = s.itable) (fun _ => True) s := by
  induction n generalizing b with
  | zero => exact ⟨spent.mono (Finset.subset_insert ..) (Nat.le_succ c),rfl⟩
  | succ n ih =>
    rw [ballocFrom,wp_bind,wp_bread]
    cases clearFrom (s.disk (sb.bblock b)) (min bpb (sb.size - b)) 0 with
    | none => exact ih (b + bpb)
    | some bi =>
      simp only [wp_bind,wp_setBlock]
      have start : Spent k Y c (s.setDisk (sb.bblock b) (setBit (s.disk (sb.bblock b)) bi)) := spent.same rfl rfl
      apply wp_post (logWrite_spent (sb.bblock b) start)
      rintro - t ⟨marked,slots,-⟩
      rw [bzero,wp_bind,wp_bread,wp_bind,wp_setBlock]
      have zeroed := (marked.count_insert).same (t := t.setDisk (b + bi) (Bytes.fill (t.disk (b + bi)) 0 bsize 0)) rfl rfl
      apply wp_post (logWrite_spent (b + bi) zeroed)
      rintro - u ⟨spent,slots',-⟩
      exact ⟨spent,slots'.trans slots⟩

theorem balloc_spent (spent : Spent k Y c s) :
    wp (balloc sb) (fun addr t => Spent k (insert addr Y) (c + 1) t ∧ t.itable = s.itable) (fun _ => True) s :=
  ballocFrom_spent _ 0 spent

theorem setDinode_spent {f : Dinode → Dinode} (spent : Spent k Y c s)
    (table : (f (s.itable k).din).addrs ndirect = (s.itable k).din.addrs ndirect) :
    wp (setDinode k f) (fun _ t => Spent k Y c t) (fun _ => True) s := by
  rw [setDinode,wp_bind,wp_getInode,wp_setInode]
  exact spent.same rfl (by simpa [State.table] using table)

theorem bmapTable_spent (spent : Spent k Y c s) :
    wp (bmapTable sb k) (fun r t => r = 0 ∧ Spent k (insert 0 Y) (c + 1) t ∨ r = t.table k ∧ r ≠ 0 ∧ Spent k Y c t)
      (fun _ => True) s := by
  rw [bmapTable,bmapTableWith,wp_bind,wp_getInode]
  by_cases there : (s.itable k).din.addrs ndirect ≠ 0
  · rw [if_pos there,wp_pure]
    exact .inr ⟨rfl,there,spent⟩
  rw [if_neg there]
  have missing : s.table k = 0 := not_not.mp there
  apply wp_seq (balloc_spent spent)
  rintro addr t ⟨spent,slots⟩
  by_cases none : addr = 0
  · rw [if_pos none,wp_pure]
    exact .inl ⟨rfl,none ▸ spent⟩
  rw [if_neg none,wp_bind,setDinode,wp_bind,wp_getInode,wp_setInode,wp_pure]
  obtain ⟨once,X,card,within⟩ := spent
  have before : t.table k = 0 := by rw [State.table,slots]; exact missing
  have after : (t.setSlot k { t.itable k with din := { (t.itable k).din with
      addrs := update (t.itable k).din.addrs ndirect addr } }).table k = addr := by simp [State.table]
  rw [before,if_pos rfl] at card
  refine .inr ⟨after.symm,none,once,X,?_,fun b member => ?_⟩
  · rw [after,if_neg none]
    omega
  · rw [after]
    rcases within b member with here | there | ⟨-,absent⟩
    · rcases Finset.mem_insert.mp here with rfl | old
      · exact .inr (.inr ⟨rfl,none⟩)
      · exact .inl old
    · exact .inr (.inl there)
    · exact absurd before absent

theorem bmap_spent (bn : Nat) (spent : Spent k Y c s) :
    wp (bmap sb k bn) (fun addr t => Spent k (insert addr Y) (c + 1) t) (fun _ => True) s := by
  have free {addr : Nat} {t : State} (spent : Spent k Y c t) : Spent k (insert addr Y) (c + 1) t :=
    spent.mono (Finset.subset_insert ..) (Nat.le_succ c)
  rw [bmap,bmapWith,wp_bind,wp_getInode]
  by_cases direct : bn < ndirect
  · rw [if_pos direct]
    split
    · exact free spent
    apply wp_seq (balloc_spent spent)
    rintro addr t ⟨spent,slots⟩
    by_cases none : addr = 0
    · rw [if_pos none,wp_pure]
      exact none ▸ spent
    · rw [if_neg none]
      apply wp_seq (setDinode_spent spent (update_of_ne (by omega) ..))
      exact fun _ u spent => spent
  rw [if_neg direct]
  dsimp only
  split
  swap
  · trivial
  apply wp_seq (bmapTable_spent spent)
  rintro table t (⟨rfl,spent⟩ | ⟨rfl,some,spent⟩)
  · rw [if_pos rfl,wp_pure]
    exact spent
  rw [if_neg some,wp_bind,wp_bread]
  split
  · exact free spent
  apply wp_seq (balloc_spent spent)
  rintro addr u ⟨spent,slots⟩
  by_cases none : addr = 0
  · rw [if_pos none,wp_pure]
    exact none ▸ spent
  have table : u.table k = t.table k := by rw [State.table,slots,State.table]
  rw [if_neg none,wp_bind,wp_bread,wp_bind,wp_setBlock,wp_bind]
  have written := spent.same
    (t := u.setDisk (t.table k) (Bytes.store 4 (u.disk (t.table k)) (4 * (bn - ndirect)) addr)) rfl rfl
  apply wp_post (logWrite_again written (.inr ⟨table.symm,by rw [State.setDisk_table,table]; exact some⟩))
  exact fun _ v spent => spent.1

def HasBlock (s : State) (k bn : Nat) : Prop :=
  if bn < ndirect then (s.itable k).din.addrs bn ≠ 0
  else s.table k ≠ 0 ∧ Bytes.load 4 (s.disk (s.table k)) (4 * (bn - ndirect)) ≠ 0

theorem bmap_there {bn : Nat} (there : HasBlock s k bn) :
    wp (bmap sb k bn) (fun _ t => t = s) (fun _ => True) s := by
  rw [bmap,bmapWith,wp_bind,wp_getInode]
  unfold HasBlock at there
  by_cases direct : bn < ndirect
  · rw [if_pos direct] at there ⊢
    rw [if_pos there]
    rfl
  · rw [if_neg direct] at there ⊢
    dsimp only
    split
    · obtain ⟨table,entry⟩ : (s.itable k).din.addrs ndirect ≠ 0 ∧ _ ≠ 0 := there
      rw [bmapTableWith,wp_bind,wp_bind,wp_getInode,if_pos table,wp_pure,if_neg table,wp_bind,wp_bread,
        if_pos (by exact entry)]
      rfl
    · trivial

/-- A turn of the loop of `writei` from where it has the block. -/
theorem copy_spent {addr : Nat} (spent : Spent k (insert addr ∅) c s) (blk : Block) (o : Nat)
    (src : Nat → Option UInt8) (tot m : Nat) {next : Kernel (Nat × Nat)} {last : Nat × Nat}
    {Q : Nat × Nat → State → Prop} (stop : ∀ t, Spent k ∅ (c + 1) t → Q last t)
    (go : ∀ t, Spent k ∅ (c + 1) t → wp next Q (fun _ => True) t) :
    wp (match copyin blk o src tot m with
      | (true,blk) => do
        setBlock addr blk
        logWrite addr
        next
      | (false,blk) => do
        setBlock addr blk
        return last) Q (fun _ => True) s := by
  cases copyin blk o src tot m with
  | mk all blk =>
    have written := spent.same (t := s.setDisk addr blk) rfl rfl
    cases all with
    | false =>
      rw [wp_bind,wp_setBlock,wp_pure]
      exact stop _ written.count_insert
    | true =>
      rw [wp_bind,wp_setBlock]
      apply wp_seq (logWrite_again written (.inl (Finset.mem_insert_self ..)))
      exact fun _ t logged => go t logged.1.count_insert

theorem writeFrom_spent (src : Nat → Option UInt8) (off n turns tot : Nat) {d : Nat}
    (enough : tot < n → 2 * (((off + tot) % bsize + (n - tot) + (bsize - 1)) / bsize) ≤ d) (spent : Spent k ∅ c s) :
    wp (writeFrom sb k n src turns tot (off + tot)) (fun _ t => Spent k ∅ (c + d) t) (fun _ => True) s := by
  induction turns generalizing tot c d s with
  | zero => exact spent.mono (Finset.Subset.refl _) (Nat.le_add_right ..)
  | succ turns ih =>
    rw [writeFrom]
    by_cases more : tot < n
    swap
    · rw [if_neg more]
      exact spent.mono (Finset.Subset.refl _) (Nat.le_add_right ..)
    obtain ⟨m,isM⟩ : ∃ m, m = min (n - tot) (bsize - (off + tot) % bsize) := ⟨_,rfl⟩
    have cost := enough more
    have part := Nat.mod_lt (off + tot) (show 0 < bsize by decide)
    have least : 2 ≤ d := by
      simp only [bsize] at *
      omega
    have rest : tot + m < n → 2 * (((off + (tot + m)) % bsize + (n - (tot + m)) + (bsize - 1)) / bsize) ≤ d - 2 := by
      intro more
      simp only [bsize] at *
      omega
    rw [if_pos more]
    apply wp_seq (bmap_spent ((off + tot) / bsize) spent)
    intro addr t spent
    have stops (u : State) (spent : Spent k ∅ (c + 1 + 1) u) : Spent k ∅ (c + d) u :=
      spent.mono (Finset.Subset.refl _) (by omega)
    split
    · exact stops t spent.count_insert
    rw [wp_bind,wp_bread]
    dsimp only
    rw [← isM]
    refine copy_spent spent _ _ _ _ _ stops fun u spent => ?_
    have next := ih (tot + m) rest spent
    rw [← Nat.add_assoc off tot m] at next
    exact wp_post next fun _ v spent => spent.mono (Finset.Subset.refl _) (by omega)

/-- The loop from an offset inside a block that is there: one number for this block. -/
theorem writeFrom_there (src : Nat → Option UInt8) (off n turns : Nat) (inside : off % bsize ≠ 0)
    (there : HasBlock s k (off / bsize)) (bound : n ≤ writeMax) (spent : Spent k ∅ c s) :
    wp (writeFrom sb k n src turns 0 off) (fun _ t => Spent k ∅ (c + 7) t) (fun _ => True) s := by
  cases turns with
  | zero => exact spent.mono (Finset.Subset.refl _) (Nat.le_add_right ..)
  | succ turns =>
    rw [writeFrom]
    split
    swap
    · exact spent.mono (Finset.Subset.refl _) (Nat.le_add_right ..)
    obtain ⟨m,isM⟩ : ∃ m, m = min (n - 0) (bsize - off % bsize) := ⟨_,rfl⟩
    have part := Nat.mod_lt off (show 0 < bsize by decide)
    have positive := Nat.pos_of_ne_zero inside
    have rest : 0 + m < n → 2 * (((off + (0 + m)) % bsize + (n - (0 + m)) + (bsize - 1)) / bsize) ≤ 6 := by
      intro more
      simp only [writeMax,maxOpBlocks,bsize] at *
      omega
    apply wp_seq (bmap_there there)
    rintro addr t rfl
    have stops (u : State) (spent : Spent k ∅ (c + 1) u) : Spent k ∅ (c + 7) u :=
      spent.mono (Finset.Subset.refl _) (by omega)
    split
    · exact spent.mono (Finset.Subset.refl _) (Nat.le_add_right ..)
    rw [wp_bind,wp_bread]
    dsimp only
    rw [← isM]
    refine copy_spent (spent.mono (Finset.empty_subset _) (Nat.le_refl c)) _ _ _ _ _ stops fun u spent => ?_
    have next := @writeFrom_spent sb _ _ _ src off n turns (0 + m) _ rest spent
    rwa [show off + (0 + m) = off + m by omega] at next

end Spent

/-- `writei` of a chunk into an empty log. -/
theorem writei_spent {sb : Superblock} {k c : Nat} {s : State} (src : Nat → Option UInt8) (off n : Nat)
    (bound : n ≤ writeMax) (there : off % bsize ≠ 0 → HasBlock s k (off / bsize)) (spent : Spent k ∅ c s) :
    wp (writei sb k src off n) (fun _ t => Spent k ∅ (c + 8) t) (fun _ => True) s := by
  have unchanged : Spent k ∅ (c + 8) s := spent.mono (Finset.Subset.refl _) (Nat.le_add_right ..)
  have loop : wp (writeFrom sb k n src (n / bsize + 2) 0 off) (fun _ t => Spent k ∅ (c + 7) t) (fun _ => True) s := by
    by_cases aligned : off % bsize = 0
    · have enough : 0 < n → 2 * (((off + 0) % bsize + (n - 0) + (bsize - 1)) / bsize) ≤ 6 := fun _ => by
        simp only [Nat.add_zero,aligned,writeMax,maxOpBlocks,bsize] at *
        omega
      have first := @writeFrom_spent sb _ _ _ src off n (n / bsize + 2) 0 _ enough spent
      exact wp_post first fun _ t spent => spent.mono (Finset.Subset.refl _) (by omega)
    · exact writeFrom_there src off n _ aligned (there aligned) bound spent
  have finish {t : State} {tot : Nat} (spent : Spent k ∅ (c + 7) t) : wp (do
      iupdate sb k
      return (tot : Int)) (fun _ t => Spent k ∅ (c + 8) t) (fun _ => True) t := by
    simp only [iupdate,wp_bind,wp_getInode,wp_bread,wp_setBlock]
    exact wp_post (logWrite_spent _ (spent.same rfl rfl)) fun _ u spent => spent.1.count_insert
  rw [writei,wp_bind,wp_getInode]
  split
  · exact unchanged
  split
  · exact unchanged
  apply wp_seq loop
  rintro ⟨tot,last⟩ t spent
  rw [wp_bind,wp_getInode]
  split
  · exact wp_seq (setDinode_spent spent rfl) fun _ u spent => finish spent
  · exact finish spent

theorem writei_returns {sb : Superblock} {k : Nat} {s : State} (src : Nat → Option UInt8) (off n : Nat)
    (bound : n ≤ writeMax) (roomy : Roomy s.log logSize) :
    wp (writei sb k src off n) (fun _ _ => True) (fun _ => False) s := by
  refine (Costs.writei sb k src off n).returns (roomy.fewer ?_)
  have := Nat.mod_lt off (show 0 < bsize by decide)
  simp only [writeMax,maxOpBlocks,logSize,bsize] at *
  omega

theorem passed_of {α : Type} {x : Kernel α} {s s' : State}
    (empty : s' = { s with log := ⟨s.log.start,logSize + 1,1,false,[]⟩ })
    {P : State → Prop} (does : wp x (fun _ t => P t) (fun _ => True) s')
    (returns : wp x (fun _ _ => True) (fun _ => False) s') : ∃ t, passed x s = some t.log.lh ∧ P t := by
  have both := wp_and does returns
  rw [passed,resultOf,← empty]
  cases out : x.run s' with
  | error e => exact (wp_error both out).2.elim
  | ok r => exact ⟨r.2,rfl,(wp_ok both out).1⟩

theorem roomy_empty (start : Nat) : Roomy ⟨start,logSize + 1,1,false,[]⟩ logSize := ⟨Int.le_refl 1,by simp,by simp⟩

/-- What a chunk passes to `log_write` fits the reservation, if it does not start inside a block that is missing. -/
theorem chunk_fits (sb : Superblock) (s : State) (k : Nat) (src : Nat → Option UInt8) (off n : Nat) (bound : n ≤ writeMax)
    (there : off % bsize ≠ 0 → HasBlock s k (off / bsize)) :
    ∃ blocks, passed (writei sb k src off n) s = some blocks ∧ blocks.Nodup ∧ blocks.length ≤ maxOpBlocks := by
  have empty : Spent k ∅ 1 { s with log := ⟨s.log.start,logSize + 1,1,false,[]⟩ } :=
    ⟨List.nodup_nil,∅,by split <;> simp,by simp⟩
  obtain ⟨t,out,spent⟩ := passed_of rfl (@writei_spent sb _ _ _ src off n bound (by exact there) empty)
    (writei_returns src off n bound (roomy_empty _))
  exact ⟨t.log.lh,out,spent.once,spent.length_le⟩

/-- A write that starts in the last direct block and goes on in blocks that are missing. -/
theorem boundary_fits : ∃ blocks, passed (writei ⟨2000,1900,32,30,2,50,100⟩ 0 (fun _ => some 7) 11265 writeMax)
    ⟨fun _ _ => 0,⟨2,30,1,false,[]⟩,fun _ => ⟨1,1,true,true,⟨2,0,0,1,11265,fun i => if i < ndirect then 300 + i else 0⟩⟩,
      fun _ => ⟨.none,0,false,false,0,0,0⟩,fun _ => none⟩ = some blocks ∧ blocks.Nodup ∧ blocks.length ≤ maxOpBlocks :=
  chunk_fits _ _ 0 _ 11265 writeMax (Nat.le_refl _) fun _ => by simp [HasBlock,ndirect,bsize]

/-! A chunk that starts inside a missing block. -/

def fiveMaps : Superblock := ⟨40000,39000,32,30,2,50,100⟩

def scattered (log : Log) : State where
  disk _ x := if x = 25 then 127 else 255
  log
  itable _ := ⟨1,1,true,true,⟨2,0,0,1,20000,fun _ => 0⟩⟩
  ftable _ := ⟨.none,0,false,false,0,0,0⟩
  proc _ := none

theorem clearFrom_add (blk : Block) (m n bi : Nat) :
    clearFrom blk (m + n) bi = (clearFrom blk m bi).or (clearFrom blk n (bi + m)) := by
  induction m generalizing bi with
  | zero => simp [clearFrom]
  | succ m ih =>
    rw [Nat.add_right_comm,clearFrom,clearFrom]
    split
    · rw [ih,Nat.add_assoc bi 1 m,Nat.add_comm 1 m]
    · rfl

/-- The loop of `balloc`, a byte at a time. -/
def clearBytes (blk : Block) : Nat → Nat → Option Nat
  | 0, _ => none
  | n + 1, x =>
    if blk x = 255 then clearBytes blk n (x + 1) else (clearFrom blk 8 (8 * x)).or (clearBytes blk n (x + 1))

theorem clearFrom_bytes (blk : Block) (n x : Nat) : clearFrom blk (8 * n) (8 * x) = clearBytes blk n x := by
  induction n generalizing x with
  | zero => rfl
  | succ n ih =>
    rw [clearBytes,Nat.mul_succ,Nat.add_comm,clearFrom_add,← Nat.mul_succ,ih]
    split
    case isTrue full =>
      have used (i : Nat) (hi : i < 8) : getBit blk (8 * x + i) = true := by
        rw [getBit,show (8 * x + i) / 8 = x by omega,show (8 * x + i) % 8 = i by omega,full]
        interval_cases i <;> rfl
      have none : clearFrom blk 8 (8 * x) = none := by
        have first := used 0 (by decide)
        rw [Nat.add_zero] at first
        simp [clearFrom,Nat.add_assoc,used,first]
      rw [none,Option.none_or]
    · rfl

theorem clearFrom_zero (blk : Block) (n : Nat) :
    clearFrom blk n 0 = (clearBytes blk (n / 8) 0).or (clearFrom blk (n % 8) (8 * (n / 8))) := by
  have parts := clearFrom_add blk (8 * (n / 8)) (n % 8) 0
  rwa [Nat.div_add_mod,Nat.zero_add,← Nat.mul_zero 8,clearFrom_bytes] at parts

theorem hole_exceeds : ∃ blocks, passed (writei fiveMaps 0 (fun _ => some 7) 11265 writeMax)
    (scattered ⟨2,30,1,false,[]⟩) = some blocks ∧ maxOpBlocks < blocks.length := by
  have rounds : balloc fiveMaps = ballocFrom fiveMaps 5 0 := rfl
  have long : (passed (writei fiveMaps 0 (fun _ => some 7) 11265 writeMax) (scattered ⟨2,30,1,false,[]⟩)).any
      (maxOpBlocks < ·.length) = true := by
    rw [writei,show writeMax / bsize + 2 = 5 from rfl]
    simp only [writeFrom,bmap,bmapWith,bmapTableWith,rounds,ballocFrom,clearFrom_zero]
    decide +kernel
  simpa only [Option.any_eq_true,decide_eq_true_eq] using long

end Xv6.Fs
