import Xv6.Fs.Entries

/-! The loops of `dirlookup` and `dirlink` over the entries of a directory. -/
namespace Xv6.Fs

open Prog

/-- The inode number and the slot of the entry with a name. -/
def lookup (l : List Dirent) (name : List UInt8) : Option (Nat × Nat) :=
  (l.zipIdx.find? fun x => x.1.inum ≠ 0 ∧ x.1.name = name).map fun x => (x.1.inum,x.2)

/-- The first slot that is not in use, or the one behind the last. -/
def vacancy (l : List Dirent) : Nat := l.findIdx (·.inum = 0)

section Map

variable {l : List Dirent} {name : List UInt8} {inum m : Nat}

theorem lookup_eq_none_iff : lookup l name = none ↔ ∀ e ∈ l, e.inum ≠ 0 → e.name ≠ name := by
  rw [lookup,Option.map_eq_none_iff,List.find?_eq_none]
  constructor
  · intro none e inside used same
    obtain ⟨m,at_⟩ := List.mem_iff_getElem?.mp inside
    exact none (e,m) (List.mk_mem_zipIdx_iff_getElem?.mpr at_) (by simpa using ⟨used,same⟩)
  · rintro none ⟨e,m⟩ inside
    have at_ := List.mk_mem_zipIdx_iff_getElem?.mp inside
    simpa using none e (List.mem_iff_getElem?.mpr ⟨m,at_⟩)

theorem getElem?_of_lookup (found : lookup l name = some (inum,m)) : l[m]? = some ⟨inum,name⟩ ∧ inum ≠ 0 := by
  obtain ⟨⟨e,m⟩,here,same⟩ := Option.map_eq_some_iff.mp found
  cases same
  have at_ := List.mk_mem_zipIdx_iff_getElem?.mp (List.mem_of_find?_eq_some here)
  have used := List.find?_some here
  simp only [ne_eq,decide_eq_true_eq] at used
  obtain ⟨used,rfl⟩ := used
  exact ⟨at_,used⟩

theorem lookup_first (at_ : l[m]? = some ⟨inum,name⟩) (used : inum ≠ 0)
    (before : ∀ j < m, ∀ e, l[j]? = some e → e.inum ≠ 0 → e.name ≠ name) : lookup l name = some (inum,m) := by
  obtain ⟨inside,here⟩ := List.getElem?_eq_some_iff.mp at_
  have found : (l.zipIdx.find? fun x => x.1.inum ≠ 0 ∧ x.1.name = name) = some (⟨inum,name⟩,m) := by
    refine List.find?_eq_some_iff_getElem.mpr ⟨by simpa using used,m,by simpa using inside,?_,fun j below => ?_⟩
    · simp [here]
    · have first := before j below _ (List.getElem?_eq_getElem (Nat.lt_trans below inside))
      simpa [or_iff_not_imp_left] using first
  rw [lookup,found]
  rfl

theorem vacancy_le (l : List Dirent) : vacancy l ≤ l.length := List.findIdx_le_length

theorem vacancy_empty {e : Dirent} (at_ : l[vacancy l]? = some e) : e.inum = 0 := by
  obtain ⟨inside,rfl⟩ := List.getElem?_eq_some_iff.mp at_
  exact of_decide_eq_true (List.findIdx_getElem (w := inside))

theorem vacancy_eq (free : ∀ e, l[m]? = some e → e.inum = 0) (bound : m ≤ l.length)
    (before : ∀ j < m, ∀ e, l[j]? = some e → e.inum ≠ 0) : vacancy l = m := by
  refine Nat.le_antisymm ?_ (Nat.le_of_not_lt fun less => ?_)
  · by_cases inside : m < l.length
    · have zero := free _ (List.getElem?_eq_getElem inside)
      by_contra large
      have used := List.not_of_lt_findIdx (Nat.lt_of_not_le large)
      simp [zero] at used
    · exact Nat.le_trans (vacancy_le l) (by omega)
  · have inside : vacancy l < l.length := by omega
    exact before _ less _ (List.getElem?_eq_getElem inside) (vacancy_empty (List.getElem?_eq_getElem inside))

end Map

/-- What `dirlookup` returns for a value of the map. -/
def handOut : Option (Nat × Nat) → Kernel (Option (Nat × Nat))
  | none => pure none
  | some (inum,m) => do
    let ip ← iget inum
    return some (ip,m * direntSize)

theorem direntCount_eq {size : Nat} (whole : direntSize ∣ size) : direntCount size = size / direntSize := by
  simp only [direntCount,direntSize] at *
  omega

theorem Sound.size_le {sb : Superblock} {A : Abs} {i : Nat} (sound : Sound sb A) (hi : i < sb.ninodes)
    (typed : (A.ino i).type ≠ 0) : (A.ino i).size ≤ maxfile * bsize := by
  by_contra large
  obtain ⟨bound,_⟩ := sound.whole i hi typed maxfile (by omega)
  exact Nat.lt_irrefl _ bound

section Directory

variable {sb : Superblock} {T : Tables} {s : State} {A : Abs} {R : Multiset (Nat × Nat)} {L : Set (Nat × Nat)}
  {k d : Nat} (repr : Repr sb T s A ∅ R L) (sound : Sound sb A) (locked : (k,d) ∈ L)
include repr sound locked

theorem readDirent_short {l : Nat} (start : l * direntSize ≤ (A.ino d).size) :
    ∃ de, (readDirent sb k (l * direntSize)).run s =
        .ok ((min (direntSize : Int) ((A.ino d).size - (l * direntSize : Nat)),de),s) ∧
      (l < (A.ino d).size / direntSize → (entries sb A d)[l]? = some ⟨de.inum,chop de.name⟩) := by
  obtain ⟨hi,_,typed⟩ := repr.at_locked locked
  have small := sound.size_le hi typed
  have limit : maxfile * bsize + direntSize < 2 ^ 32 := by decide
  have read := readi_run locked sound repr start (show l * direntSize + direntSize < 2 ^ 32 by omega) (fun _ => 0)
  refine ⟨_,(run_bind read).trans rfl,fun inside => ?_⟩
  have count : min direntSize ((A.ino d).size - l * direntSize) = direntSize := by
    simp only [direntSize] at *
    omega
  rw [getElem?_entries,if_pos inside,count,getDirent_copy]
  rfl

theorem readDirent_run {l : Nat} (inside : l < (A.ino d).size / direntSize) :
    ∃ de, (readDirent sb k (l * direntSize)).run s = .ok (((direntSize : Int),de),s) ∧
      (entries sb A d)[l]? = some ⟨de.inum,chop de.name⟩ := by
  have fits : l * direntSize + direntSize ≤ (A.ino d).size := by
    simp only [direntSize] at *
    omega
  obtain ⟨de,read,entry⟩ := readDirent_short repr sound locked (show l * direntSize ≤ _ by omega)
  have count : min (direntSize : Int) ((A.ino d).size - (l * direntSize : Nat)) = direntSize := by omega
  rw [count] at read
  exact ⟨de,read,entry inside⟩

/-- The loop of `dirlookup`: no entry before `l` has the name. What is left of it after the last whole entry is `rest`
turns. -/
theorem dirlookupFrom_run (name : List UInt8) (n l rest : Nat) (bound : l + n = (A.ino d).size / direntSize)
    (before : ∀ m < l, ∀ e, (entries sb A d)[m]? = some e → e.inum ≠ 0 → e.name ≠ chop name) :
    (dirlookupFromWith (bmap sb k) k name (n + rest) (l * direntSize)).run s = match lookup (entries sb A d)
      (chop name) with
      | none => (dirlookupFromWith (bmap sb k) k name rest ((A.ino d).size / direntSize * direntSize)).run s
      | some x => (handOut (some x)).run s := by
  induction n generalizing l with
  | zero =>
    have none : lookup (entries sb A d) (chop name) = none := lookup_eq_none_iff.mpr fun e inside => by
      obtain ⟨m,at_⟩ := List.mem_iff_getElem?.mp inside
      have below := (List.getElem?_eq_some_iff.mp at_).1
      rw [length_entries] at below
      exact before m (by omega) e at_
    rw [none,← bound,Nat.add_zero,Nat.zero_add]
  | succ n ih =>
    obtain ⟨de,read,here⟩ := readDirent_run repr sound locked (show l < _ by omega)
    rw [Nat.succ_add,dirlookupFromWith]
    refine (run_bind read).trans ?_
    dsimp only
    rw [if_neg (not_not.mpr rfl)]
    by_cases found : de.inum ≠ 0 ∧ namecmp name de.name = 0
    · have same := (namecmp_eq_zero _ _).mp found.2
      have isFound : lookup (entries sb A d) (chop name) = some (de.inum,l) :=
        lookup_first (by rw [here,same]) found.1 before
      rw [isFound]
      exact congrArg (fun x : Kernel _ => x.run s) (if_pos found)
    · have next := ih (l + 1) (by omega) fun m below e at_ used same => ?_
      · rw [← next,Nat.succ_mul]
        exact congrArg (fun x : Kernel _ => x.run s) (if_neg found)
      · obtain rfl | last := eq_or_ne m l
        · cases here.symm.trans at_
          exact found ⟨used,(namecmp_eq_zero _ _).mpr same.symm⟩
        · exact before m (by omega) e at_ used same

theorem dirlookupFrom_start (name : List UInt8) (rest : Nat) :
    (dirlookupFromWith (bmap sb k) k name ((A.ino d).size / direntSize + rest) 0).run s =
      match lookup (entries sb A d) (chop name) with
      | none => (dirlookupFromWith (bmap sb k) k name rest ((A.ino d).size / direntSize * direntSize)).run s
      | some x => (handOut (some x)).run s := by
  have loop := dirlookupFrom_run repr sound locked name _ 0 rest (Nat.zero_add _) fun m below => by omega
  rwa [Nat.zero_mul] at loop

theorem dirlookupFrom_torn (torn : ¬direntSize ∣ (A.ino d).size) (name : List UInt8) :
    (dirlookupFromWith (bmap sb k) k name 1 ((A.ino d).size / direntSize * direntSize)).run s =
      .error .dirlookupRead := by
  have start := Nat.div_mul_le_self (A.ino d).size direntSize
  have short : (A.ino d).size - (A.ino d).size / direntSize * direntSize < direntSize := by
    simp only [direntSize] at *
    omega
  obtain ⟨de,read,_⟩ := readDirent_short repr sound locked start
  rw [dirlookupFromWith]
  refine (run_bind read).trans ?_
  exact congrArg (fun x : Kernel _ => x.run s) (if_pos (by omega))

/-- The second loop of `dirlink`: all entries before `l` are in use. -/
theorem emptyDirent_run (n l : Nat) (bound : l + n = (A.ino d).size / direntSize)
    (before : ∀ m < l, ∀ e, (entries sb A d)[m]? = some e → e.inum ≠ 0) :
    (emptyDirent sb k n (l * direntSize)).run s = .ok (vacancy (entries sb A d) * direntSize,s) := by
  induction n generalizing l with
  | zero =>
    have last : vacancy (entries sb A d) = l := by
      refine vacancy_eq (fun e at_ => ?_) (by rw [length_entries]; omega) before
      have below := (List.getElem?_eq_some_iff.mp at_).1
      rw [length_entries] at below
      omega
    rw [last]
    rfl
  | succ n ih =>
    obtain ⟨de,read,here⟩ := readDirent_run repr sound locked (show l < _ by omega)
    rw [emptyDirent,run_bind read]
    dsimp only
    rw [if_neg (not_not.mpr rfl)]
    by_cases empty : de.inum = 0
    · have first : vacancy (entries sb A d) = l := by
        refine vacancy_eq (fun e at_ => ?_) (by rw [length_entries]; omega) before
        cases here.symm.trans at_
        exact empty
      rw [first]
      exact congrArg (fun x : Kernel _ => x.run s) (if_pos empty)
    · have next := ih (l + 1) (by omega) fun m below e at_ => ?_
      · rw [← next,Nat.succ_mul]
        exact congrArg (fun x : Kernel _ => x.run s) (if_neg empty)
      · obtain rfl | last := eq_or_ne m l
        · cases here.symm.trans at_
          exact empty
        · exact before m (by omega) e at_

theorem emptyDirent_start :
    (emptyDirent sb k ((A.ino d).size / direntSize) 0).run s = .ok (vacancy (entries sb A d) * direntSize,s) := by
  have loop := emptyDirent_run repr sound locked _ 0 (Nat.zero_add _) fun m below => by omega
  rwa [Nat.zero_mul] at loop

/-- `dirlookup` on any inode. It panics unless that is a directory; if it finds nothing, the entries are whole. -/
theorem dirlookup_cases {E : Panic → Prop} (harmless : Harmless E) {name : List UInt8}
    {Q : Option (Nat × Nat) → State → Prop}
    (absent : (A.ino d).type = tDir → direntSize ∣ (A.ino d).size → lookup (entries sb A d) (chop name) = none → Q none s)
    (present : ∀ x, (A.ino d).type = tDir → lookup (entries sb A d) (chop name) = some x →
      wp (handOut (some x)) Q E s) :
    wp (dirlookup sb k name) Q E s := by
  obtain ⟨_,din,_⟩ := repr.at_locked locked
  rw [dirlookup,dirlookupWith,wp_bind,wp_getInode,din]
  split
  · exact harmless _ (by decide) (by decide)
  rename_i dir
  have dir := not_not.mp dir
  obtain ⟨rest,turns,last⟩ : ∃ rest, direntCount (A.ino d).size = (A.ino d).size / direntSize + rest ∧
      (rest = 0 ∧ direntSize ∣ (A.ino d).size ∨ rest = 1 ∧ ¬direntSize ∣ (A.ino d).size) := by
    by_cases whole : direntSize ∣ (A.ino d).size
    · exact ⟨0,direntCount_eq whole,.inl ⟨rfl,whole⟩⟩
    · refine ⟨1,?_,.inr ⟨rfl,whole⟩⟩
      simp only [direntCount,direntSize] at *
      omega
  rw [turns]
  cases value : lookup (entries sb A d) (chop name) with
  | some x =>
    rw [wp_congr (y := handOut (some x)) (by rw [dirlookupFrom_start repr sound locked,value])]
    exact present x dir value
  | none =>
    rw [wp_congr (y := dirlookupFromWith (bmap sb k) k name rest _) (by rw [dirlookupFrom_start repr sound locked,value])]
    rcases last with ⟨rfl,whole⟩ | ⟨rfl,torn⟩
    · exact absent dir whole value
    · rw [wp,dirlookupFrom_torn repr sound locked torn]
      exact harmless _ (by decide) (by decide)

end Directory

end Xv6.Fs
