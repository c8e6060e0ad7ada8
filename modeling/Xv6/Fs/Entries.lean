import Xv6.Fs.Names
import Xv6.Fs.Trunc

/-! The name space that a disk holds, and directories as lists of entries: what is read from
and written to the bytes of a directory. -/
namespace Xv6.Fs

open Prog Function

/-! Names. -/

theorem take_takeWhile_succ (n : Nat) (p : List UInt8) : (p.take (n + 1)).takeWhile (· ≠ 0) =
      if p.headD 0 = 0 then [] else p.headD 0 :: (p.tail.take n).takeWhile (· ≠ 0) := by
  cases p with
  | nil => simp
  | cons c p =>
    by_cases zero : c = 0
    · simp [zero]
    · simp [zero]

theorem strncmp_eq_zero (n : Nat) (p q : List UInt8) :
    strncmp n p q = 0 ↔ (p.take n).takeWhile (· ≠ 0) = (q.take n).takeWhile (· ≠ 0) := by
  induction n generalizing p q with
  | zero => simp [strncmp]
  | succ n ih =>
    rw [take_takeWhile_succ,take_takeWhile_succ,strncmp]
    by_cases zero : p.headD 0 = 0
    · by_cases other : q.headD 0 = 0
      · rw [if_neg (fun h => h.1 zero),if_pos zero,if_pos other,zero,other]
        simp
      · have positive : (q.headD 0).toNat ≠ 0 := fun h => other (UInt8.toNat_inj.mp h)
        rw [if_neg (fun h => h.1 zero),if_pos zero,if_neg other,zero]
        constructor
        · intro equal
          have : (0 : UInt8).toNat = 0 := rfl
          omega
        · intro equal
          simp at equal
    · by_cases same : p.headD 0 = q.headD 0
      · have other : q.headD 0 ≠ 0 := by rwa [← same]
        rw [if_pos ⟨zero,same⟩,if_neg zero,if_neg other,ih,same]
        simp
      · have bytes : (p.headD 0).toNat ≠ (q.headD 0).toNat := fun h => same (UInt8.toNat_inj.mp h)
        rw [if_neg (fun h => same h.2),if_neg zero]
        constructor
        · omega
        · intro equal
          split at equal
          · simp at equal
          · exact absurd (List.cons.inj equal).1 same

/-- `namecmp` compares names up to what `chop` removes. -/
theorem namecmp_eq_zero (p q : List UInt8) : namecmp p q = 0 ↔ chop p = chop q := strncmp_eq_zero dirsiz p q

theorem takeWhile_strncpy (n : Nat) (t : List UInt8) :
    ((strncpy n t).take n).takeWhile (· ≠ 0) = (t.take n).takeWhile (· ≠ 0) := by
  induction n generalizing t with
  | zero => simp
  | succ n ih =>
    rw [take_takeWhile_succ,take_takeWhile_succ,strncpy]
    by_cases zero : t.headD 0 = 0
    · rw [if_neg (not_not.mpr zero),if_pos zero,List.replicate_succ,List.headD_cons,if_pos rfl]
    · rw [if_pos zero,if_neg zero,List.headD_cons,if_neg zero,List.tail_cons,ih]

theorem chop_strncpy (t : List UInt8) : chop (strncpy dirsiz t) = chop t := takeWhile_strncpy dirsiz t

theorem takeWhile_padded (n : Nat) (t : List UInt8) :
    (((List.range n).map fun j => t.getD j 0).take n).takeWhile (· ≠ 0) = (t.take n).takeWhile (· ≠ 0) := by
  induction n generalizing t with
  | zero => simp
  | succ n ih =>
    have shift : (List.range (n + 1)).map (fun j => t.getD j 0) =
        t.headD 0 :: (List.range n).map fun j => t.tail.getD j 0 := by
      rw [List.range_succ_eq_map]
      cases t <;> simp [Function.comp_def]
    rw [shift,take_takeWhile_succ,take_takeWhile_succ]
    simp only [List.headD_cons,List.tail_cons,ih]

theorem chop_padded (t : List UInt8) : chop ((List.range dirsiz).map fun j => t.getD j 0) = chop t :=
  takeWhile_padded dirsiz t

theorem skipelem_nonempty {path name rest : List UInt8} (found : skipelem path = some (name,rest)) : chop name ≠ [] := by
  simp only [skipelem] at found
  split at found
  · exact absurd found (by simp)
  rename_i present
  obtain ⟨rfl,_⟩ := Prod.mk.inj (Option.some.inj found)
  cases shape : skipSlashes path with
  | nil => simp [shape] at present
  | cons c p =>
    rw [shape] at present
    have nonzero : c ≠ 0 := by simpa using present
    have other : c ≠ slash := by
      have first := List.head?_dropWhile_not (· == slash) path
      rw [← skipSlashes,shape] at first
      simpa using first
    have byte : elemByte c = true := by simp [elemByte,nonzero,other]
    simp [chop,byte,nonzero,dirsiz]

/-! Entries. -/

def entryAt (m : Bytes.Storage) (off : Nat) : Dirent := ⟨(getDirent m off).inum,chop (getDirent m off).name⟩

def entries (sb : Superblock) (A : Abs) (d : Nat) : List Dirent :=
  (List.range ((A.ino d).size / direntSize)).map fun l => entryAt (A.bytes sb d) (l * direntSize)

def names (sb : Superblock) (A : Abs) : Names where
  typ i := if i < sb.ninodes then (A.ino i).type else 0
  nlink i := if i < sb.ninodes ∧ (A.ino i).type ≠ 0 then (A.ino i).nlink else 0
  ents i := if i < sb.ninodes ∧ (A.ino i).type = tDir then entries sb A i else []

theorem getDirent_copy (m src : Bytes.Storage) (b : Nat) :
    getDirent (Bytes.copy m 0 src b direntSize) 0 = getDirent src b := by
  have inum := @Bytes.load_copy_inside m src 0 2 0 b direntSize (by decide)
  simp only [getDirent,Dirent.mk.injEq]
  refine ⟨by simpa using inum,List.map_congr_left fun j inside => ?_⟩
  have small := List.mem_range.mp inside
  simp only [dirsiz] at small
  have byte := @Bytes.copy_inside m src 0 (2 + j) b direntSize (by simp only [direntSize]; omega)
  rw [Nat.zero_add] at byte
  rw [Nat.zero_add,byte,Nat.add_assoc]

theorem getDirent_congr {m m' : Bytes.Storage} {off : Nat} (same : ∀ j < direntSize, m' (off + j) = m (off + j)) :
    getDirent m' off = getDirent m off := by
  simp only [direntSize] at same
  simp only [getDirent,Dirent.mk.injEq]
  constructor
  · apply Bytes.load_congr
    intro a lower upper
    have := same (a - off) (by omega)
    rwa [Nat.add_sub_cancel' lower] at this
  · refine List.map_congr_left fun j inside => ?_
    have small := List.mem_range.mp inside
    simp only [dirsiz] at small
    have := same (2 + j) (by omega)
    rwa [← Nat.add_assoc] at this

theorem entryAt_congr {m m' : Bytes.Storage} {off : Nat} (same : ∀ j < direntSize, m' (off + j) = m (off + j)) :
    entryAt m' off = entryAt m off := by
  rw [entryAt,getDirent_congr same,entryAt]

theorem entryAt_written {m : Bytes.Storage} {off inum : Nat} {name : List UInt8}
    (written : ∀ j < direntSize, putDirent ⟨inum,name⟩ j = some (m (off + j))) :
    entryAt m off = Names.entry inum (chop name) := by
  simp only [direntSize] at written
  have number : Bytes.load 2 m off = inum % 2 ^ 16 := by
    apply Bytes.load_digits
    intro j small
    have := written j (by omega)
    rw [putDirent,if_pos small] at this
    exact (Option.some.inj this).symm
  have bytes : ((List.range dirsiz).map fun j => m (off + 2 + j)) = (List.range dirsiz).map fun j => name.getD j 0 := by
    refine List.map_congr_left fun j inside => ?_
    have small := List.mem_range.mp inside
    simp only [dirsiz] at small
    have := written (2 + j) (by omega)
    rw [putDirent,if_neg (by omega),Nat.add_sub_cancel_left,← Nat.add_assoc] at this
    exact (Option.some.inj this).symm
  simp only [entryAt,getDirent,number,bytes,chop_padded,Names.entry]

theorem getElem?_entries (sb : Superblock) (A : Abs) (d l : Nat) : (entries sb A d)[l]? =
      if l < (A.ino d).size / direntSize then some (entryAt (A.bytes sb d) (l * direntSize)) else none := by
  rw [entries,List.getElem?_map]
  by_cases inside : l < (A.ino d).size / direntSize
  · simp [inside]
  · rw [if_neg inside,List.getElem?_eq_none (by simpa using inside),Option.map_none]

theorem length_entries (sb : Superblock) (A : Abs) (d : Nat) :
    (entries sb A d).length = (A.ino d).size / direntSize := by
  simp [entries]

theorem entries_congr {sb : Superblock} {A A' : Abs} {d : Nat} (size : (A'.ino d).size = (A.ino d).size)
    (same : ∀ o < (A.ino d).size, A'.bytes sb d o = A.bytes sb d o) : entries sb A' d = entries sb A d := by
  rw [entries,size,entries]
  refine List.map_congr_left fun l inside => entryAt_congr fun j small => same _ ?_
  have := List.mem_range.mp inside
  simp only [direntSize] at *
  omega

section Change

variable {sb : Superblock} {A A' : Abs} {i : Nat}

theorem Sound.block_ne (sound : Sound sb A) (hi : i < sb.ninodes) (typed : (A.ino i).type ≠ 0) {o : Nat}
    (inside : o < (A.ino i).size) : A.block sb i (o / bsize) ≠ 0 :=
  (sound.whole i hi typed _ (Nat.lt_of_le_of_lt (Nat.div_mul_le_self o bsize) inside)).2

theorem tDir_ne {type : Nat} (dir : type = tDir) : type ≠ 0 := by
  rw [dir]
  decide

theorem names_typ (hi : i < sb.ninodes) : (names sb A).typ i = (A.ino i).type := by simp [names,hi]

theorem names_nlink (hi : i < sb.ninodes) (typed : (A.ino i).type ≠ 0) : (names sb A).nlink i = (A.ino i).nlink := by
  simp [names,hi,typed]

theorem names_ents (hi : i < sb.ninodes) (dir : (A.ino i).type = tDir) : (names sb A).ents i = entries sb A i := by
  simp [names,hi,dir]

theorem names_beyond (sb : Superblock) (A : Abs) (j : Nat) (far : sb.ninodes ≤ j) : (names sb A).typ j = 0 := by
  simp [names,Nat.not_lt.mpr far]

theorem names_unlinked (sb : Superblock) (A : Abs) (j : Nat) (zero : (names sb A).typ j = 0) :
    (names sb A).nlink j = 0 := by
  by_cases hj : j < sb.ninodes
  · rw [names_typ hj] at zero
    simp [names,zero]
  · simp [names,hj]

theorem names_plain (sb : Superblock) (A : Abs) (j : Nat) (other : (names sb A).typ j ≠ tDir) :
    (names sb A).ents j = [] := by
  by_cases hj : j < sb.ninodes
  · rw [names_typ hj] at other
    simp [names,other]
  · simp [names,hj]

theorem names_update (hi : i < sb.ninodes) (others : ∀ j, j ≠ i → A'.ino j = A.ino j)
    (bytes : ∀ j < sb.ninodes, j ≠ i → (A.ino j).type ≠ 0 → ∀ o < (A.ino j).size, A'.bytes sb j o = A.bytes sb j o) :
    names sb A' = ⟨update (names sb A).typ i (A'.ino i).type,
      update (names sb A).nlink i (if (A'.ino i).type ≠ 0 then (A'.ino i).nlink else 0),
      update (names sb A).ents i (if (A'.ino i).type = tDir then entries sb A' i else [])⟩ := by
  ext1
  · funext j
    by_cases here : j = i
    · simp [names,here,hi]
    · simp [names,here,others j here]
  · funext j
    by_cases here : j = i
    · simp [names,here,hi]
    · simp [names,here,others j here]
  · funext j
    by_cases here : j = i
    · simp [names,here,hi]
    · simp only [update_of_ne here,names,others j here]
      split
      · rename_i dir
        exact entries_congr (by rw [others j here]) (bytes j dir.1 here (tDir_ne dir.2))
      · rfl

theorem Rewrites.bytes {lo up : Nat} (change : Rewrites sb i lo up A A') (sound : Sound sb A) (j : Nat)
    (hj : j < sb.ninodes) (ne : j ≠ i) (typed : (A.ino j).type ≠ 0) (o : Nat) (inside : o < (A.ino j).size) :
    A'.bytes sb j o = A.bytes sb j o :=
  (change.kept j hj o (sound.block_ne hj typed inside) fun here => absurd here ne).2

section

variable (sound : Sound sb A) (hi : i < sb.ninodes) (typed : (A.ino i).type ≠ 0)
include sound hi typed

theorem names_write {lo up : Nat} (file : (A.ino i).type ≠ tDir) (change : Rewrites sb i lo up A A') :
    names sb A' = names sb A := by
  rw [names_update hi change.others (change.bytes sound),change.fields]
  ext1
  · exact (update_eq_self_iff.mpr (names_typ hi).symm)
  · exact update_eq_self_iff.mpr (by simp [typed,names_nlink hi typed])
  · exact update_eq_self_iff.mpr (by simp [file,names_plain sb A i (by rwa [names_typ hi])])

theorem entries_unwritten {lo : Nat} (change : Rewrites sb i lo lo A A') (size : (A'.ino i).size = (A.ino i).size) :
    entries sb A' i = entries sb A i :=
  entries_congr size fun o inside =>
    (change.kept i hi o (sound.block_ne hi typed inside) fun _ => Nat.lt_or_ge o lo).2

theorem names_unwritten {lo : Nat} (change : Rewrites sb i lo lo A A') (size : (A'.ino i).size = (A.ino i).size) :
    names sb A' = names sb A := by
  have list := entries_unwritten sound hi typed change size
  rw [names_update hi change.others (change.bytes sound),list,change.fields]
  ext1
  · exact (update_eq_self_iff.mpr (names_typ hi).symm)
  · exact update_eq_self_iff.mpr (by simp [typed,names_nlink hi typed])
  · refine update_eq_self_iff.mpr ?_
    split
    · rename_i dir
      exact (names_ents hi dir).symm
    · rename_i other
      exact (names_plain sb A i (by rwa [names_typ hi])).symm

end

section Write

variable {l inum : Nat} {name : List UInt8} (sound : Sound sb A) (hi : i < sb.ninodes) (dir : (A.ino i).type = tDir)
  (bound : l ≤ (A.ino i).size / direntSize)
  (last : l = (A.ino i).size / direntSize → (A.ino i).size = l * direntSize)
  (change : Rewrites sb i (l * direntSize) (l * direntSize + direntSize) A A')
  (size : (A'.ino i).size = max (A.ino i).size (l * direntSize + direntSize))
  (written : ∀ j < direntSize, putDirent ⟨inum,name⟩ j = some (A'.bytes sb i (l * direntSize + j)))
include sound hi dir bound last change size written

theorem entries_writeEntry : entries sb A' i = put (entries sb A i) l (Names.entry inum (chop name)) := by
  have typed := tDir_ne dir
  apply List.ext_getElem?
  intro m
  rw [getElem?_entries,size,put,length_entries]
  obtain rfl | entry := eq_or_ne m l
  · have below : m < max (A.ino i).size (m * direntSize + direntSize) / direntSize := by
      simp only [direntSize] at *
      omega
    rw [if_pos below,entryAt_written written]
    split
    · rw [List.getElem?_set_self (by rwa [length_entries])]
    · rw [List.getElem?_append_right (by rw [length_entries]; omega),length_entries,
        show m - (A.ino i).size / direntSize = 0 by omega]
      rfl
  · have kept (below : m < (A.ino i).size / direntSize) :
        entryAt (A'.bytes sb i) (m * direntSize) = entryAt (A.bytes sb i) (m * direntSize) := by
      refine entryAt_congr fun j small => ?_
      have inside : m * direntSize + j < (A.ino i).size := by
        simp only [direntSize] at *
        omega
      refine (change.kept i hi _ (sound.block_ne hi typed inside) fun _ => ?_).2
      simp only [direntSize] at *
      omega
    have count : m < max (A.ino i).size (l * direntSize + direntSize) / direntSize ↔
        m < (A.ino i).size / direntSize := by
      simp only [direntSize] at *
      omega
    simp only [count]
    split
    · rename_i below
      rw [kept below]
      split
      · rw [List.getElem?_set_ne (Ne.symm entry),getElem?_entries,if_pos below]
      · rw [List.getElem?_append_left (by rwa [length_entries]),getElem?_entries,if_pos below]
    · rename_i beyond
      split
      · rw [List.getElem?_set_ne (Ne.symm entry),getElem?_entries,if_neg beyond]
      · rw [List.getElem?_eq_none]
        rw [List.length_append,length_entries,List.length_singleton]
        omega

theorem names_writeEntry :
    names sb A' = (names sb A).setEnts i (put ((names sb A).ents i) l (Names.entry inum (chop name))) := by
  have typed := tDir_ne dir
  have list := entries_writeEntry sound hi dir bound last change size written
  rw [names_update hi change.others (change.bytes sound),list,change.fields,names_ents hi dir]
  ext1
  · exact (update_eq_self_iff.mpr (names_typ hi).symm)
  · exact update_eq_self_iff.mpr (by simp [typed,names_nlink hi typed])
  · simp [Names.setEnts,dir]

end Write

theorem names_setIno {din : Dinode} (hi : i < sb.ninodes) (typed : (A.ino i).type ≠ 0) (type : din.type = (A.ino i).type)
    (size : din.size = (A.ino i).size) (addrs : din.addrs = (A.ino i).addrs) :
    names sb (A.setIno i din) = (names sb A).setNlink i din.nlink := by
  have here : (A.setIno i din).ino i = din := update_self ..
  have bytes (j : Nat) : (A.setIno i din).bytes sb j = A.bytes sb j := by
    unfold Abs.bytes Abs.block
    rw [Abs.setIno_ptr addrs]
    rfl
  have list : entries sb (A.setIno i din) i = entries sb A i :=
    entries_congr (by rw [here,size]) (fun o _ => by rw [bytes])
  rw [names_update hi (fun j ne => update_of_ne ne ..) (fun j _ _ _ o _ => by rw [bytes]),here,list,type]
  ext1
  · exact update_eq_self_iff.mpr (names_typ hi).symm
  · simp [Names.setNlink,typed]
  · refine update_eq_self_iff.mpr ?_
    split
    · rename_i dir
      exact (names_ents hi dir).symm
    · rename_i other
      exact (names_plain sb A i (by rwa [names_typ hi])).symm

theorem Sound.free_addrs (sound : Sound sb A) (hi : i < sb.ninodes) (free : (A.ino i).type = 0) :
    (A.ino i).addrs = fun _ => 0 := by
  funext k
  by_cases direct : k ≤ ndirect
  · exact sound.free i hi free k direct
  · exact (sound.fits i hi).beyond k (by omega)

theorem names_alloc {din : Dinode} (sound : Sound sb A) (hi : i < sb.ninodes) (free : (A.ino i).type = 0)
    (typed : din.type ≠ 0) (empty : din.size = 0) (addrs : din.addrs = fun _ => 0) (nlink : din.nlink = 1) :
    names sb (A.setIno i din) = (names sb A).alloc i din.type := by
  have here : (A.setIno i din).ino i = din := update_self ..
  have same : din.addrs = (A.ino i).addrs := addrs.trans (sound.free_addrs hi free).symm
  have bytes (j : Nat) : (A.setIno i din).bytes sb j = A.bytes sb j := by
    unfold Abs.bytes Abs.block
    rw [Abs.setIno_ptr same]
    rfl
  have list : entries sb (A.setIno i din) i = [] := by
    rw [← List.length_eq_zero_iff,length_entries,here,empty]
    rfl
  rw [names_update hi (fun j ne => update_of_ne ne ..) (fun j _ _ _ o _ => by rw [bytes]),here,list]
  simp [typed,nlink]

theorem Cleared.bytes (cleared : Cleared sb i A A') {j : Nat} (ne : j ≠ i) : A'.bytes sb j = A.bytes sb j := by
  unfold Abs.bytes Abs.block
  funext o
  rw [cleared.kept j ne,cleared.data]

theorem names_erased (hi : i < sb.ninodes) (cleared : Cleared sb i A A') (gone : A'.ino i = (A.ino i).erased) :
    names sb A' = (names sb A).free i := by
  rw [names_update hi cleared.others (fun j _ ne _ o _ => by rw [cleared.bytes ne]),gone]
  simp [Names.free,Dinode.erased,tDir]

theorem names_truncated (hi : i < sb.ninodes) (typed : (A.ino i).type ≠ 0) (cleared : Cleared sb i A A')
    (gone : A'.ino i = { A.ino i with size := 0, addrs := fun _ => 0 }) :
    names sb A' = (names sb A).setEnts i [] := by
  have list : entries sb A' i = [] := by
    rw [← List.length_eq_zero_iff,length_entries,gone]
    exact Nat.zero_div _
  rw [names_update hi cleared.others (fun j _ ne _ o _ => by rw [cleared.bytes ne]),list,gone]
  ext1
  · exact update_eq_self_iff.mpr (names_typ hi).symm
  · exact update_eq_self_iff.mpr (by simp [typed,names_nlink hi typed])
  · simp

end Change

end Xv6.Fs
