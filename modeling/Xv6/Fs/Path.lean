import Xv6.Fs.Directory
import Mathlib.Data.List.DropRight

/-! Path resolution: what `namei` and `nameiparent` return, and the references and locks that they leave. -/
namespace Xv6.Fs

open Prog

/-! The elements of a path. -/

/-- The parts of a string between slashes that are not empty. -/
def pieces (str : List UInt8) : List (List UInt8) := (str.splitOn slash).filter (· ≠ [])

/-- The elements of a path: the parts between slashes of the string up to the null byte, cut off after `DIRSIZ`
bytes. -/
def components (path : List UInt8) : List (List UInt8) := (pieces (path.takeWhile (· ≠ 0))).map (List.take dirsiz)

section Pieces

variable {str : List UInt8}

theorem pieces_slash (str : List UInt8) : pieces (slash :: str) = pieces str := by
  have split := List.splitOn_append_cons_self_of_not_mem (List.not_mem_nil (a := slash)) str
  rw [List.nil_append] at split
  simp [pieces,split]

theorem pieces_skip (str : List UInt8) : pieces (str.dropWhile (· == slash)) = pieces str := by
  induction str with
  | nil => rfl
  | cons c str ih =>
    obtain rfl | isSlash := eq_or_ne c slash
    · rw [List.dropWhile_cons_of_pos (by simp),ih,pieces_slash]
    · rw [List.dropWhile_cons_of_neg (by simpa using isSlash)]

theorem pieces_run {c : UInt8} (other : c ≠ slash) : pieces (c :: str) =
    (c :: str).takeWhile (· ≠ slash) :: pieces ((c :: str).dropWhile (· ≠ slash)) := by
  have run : slash ∉ (c :: str).takeWhile (· ≠ slash) := fun inside => by
    simpa using List.mem_takeWhile_imp inside
  have nonempty : (c :: str).takeWhile (· ≠ slash) ≠ [] := by simp [other]
  have whole := List.takeWhile_append_dropWhile (p := (· ≠ slash)) (l := c :: str)
  cases rest : (c :: str).dropWhile (· ≠ slash) with
  | nil =>
    rw [rest,List.append_nil] at whole
    conv_lhs => rw [← whole]
    rw [pieces,List.splitOn_eq_singleton run,List.filter_cons_of_pos (by simpa using nonempty)]
    rfl
  | cons d rest' =>
    have isSlash : d = slash := by
      have stop := List.head?_dropWhile_not (· ≠ slash) (c :: str)
      rw [rest] at stop
      simpa using stop
    subst isSlash
    rw [rest] at whole
    conv_lhs => rw [← whole]
    rw [pieces_slash,pieces,List.splitOn_append_cons_self_of_not_mem run,
      List.filter_cons_of_pos (by simpa using nonempty)]
    rfl

end Pieces

section Elements

theorem takeWhile_skipSlashes (path : List UInt8) :
    (skipSlashes path).takeWhile (· ≠ 0) = (path.takeWhile (· ≠ 0)).dropWhile (· == slash) := by
  induction path with
  | nil => rfl
  | cons c path ih =>
    obtain rfl | isSlash := eq_or_ne c slash
    · rw [skipSlashes,List.dropWhile_cons_of_pos (by simp),List.takeWhile_cons_of_pos (by decide),
        List.dropWhile_cons_of_pos (by simp)]
      exact ih
    · rw [skipSlashes,List.dropWhile_cons_of_neg (by simpa using isSlash)]
      by_cases zero : c = 0
      · rw [List.takeWhile_cons_of_neg (by simpa using zero)]
        rfl
      · rw [List.takeWhile_cons_of_pos (by simpa using zero),List.dropWhile_cons_of_neg (by simpa using isSlash)]

theorem components_skip (path : List UInt8) : components (skipSlashes path) = components path := by
  rw [components,takeWhile_skipSlashes,pieces_skip,components]

theorem takeWhile_elem (path : List UInt8) :
    (path.takeWhile (· ≠ 0)).takeWhile (· ≠ slash) = path.takeWhile elemByte := by
  rw [List.takeWhile_takeWhile]
  congr 1
  funext c
  rw [Bool.eq_iff_iff]
  simp [elemByte]

theorem dropWhile_elem (path : List UInt8) :
    (path.takeWhile (· ≠ 0)).dropWhile (· ≠ slash) = (path.dropWhile elemByte).takeWhile (· ≠ 0) := by
  induction path with
  | nil => rfl
  | cons c path ih =>
    obtain rfl | zero := eq_or_ne c 0
    · rw [List.dropWhile_cons_of_neg (by decide),List.takeWhile_cons_of_neg (by decide)]
      rfl
    · rw [List.takeWhile_cons_of_pos (by simpa using zero)]
      obtain rfl | isSlash := eq_or_ne c slash
      · rw [List.dropWhile_cons_of_neg (by simp),List.dropWhile_cons_of_neg (by decide),
          List.takeWhile_cons_of_pos (by decide)]
      · rw [List.dropWhile_cons_of_pos (by simpa using isSlash),
          List.dropWhile_cons_of_pos (by simp [elemByte,zero,isSlash]),ih]

theorem first_ne_slash {path rest : List UInt8} {c : UInt8} (shape : skipSlashes path = c :: rest) : c ≠ slash := by
  have stop := List.head?_dropWhile_not (· == slash) path
  rw [← skipSlashes,shape] at stop
  simpa using stop

theorem components_eq_nil_iff {path : List UInt8} (skipped : skipSlashes path = path) :
    components path = [] ↔ path.headD 0 = 0 := by
  cases path with
  | nil => simp [components,pieces]
  | cons c path =>
    obtain rfl | zero := eq_or_ne c 0
    · simp [components,pieces]
    · have other : c ≠ slash := first_ne_slash skipped
      rw [components,List.takeWhile_cons_of_pos (by simpa using zero),pieces_run other]
      simpa using zero

theorem skipSlashes_skipSlashes (path : List UInt8) : skipSlashes (skipSlashes path) = skipSlashes path :=
  List.dropWhile_idempotent _ _

theorem chop_elem (path : List UInt8) : chop ((path.takeWhile elemByte).take dirsiz) =
    (path.takeWhile elemByte).take dirsiz := by
  rw [chop,List.take_take,Nat.min_self]
  refine List.takeWhile_eq_self_iff.mpr fun c inside => ?_
  have byte := List.mem_takeWhile_imp (List.mem_of_mem_take inside)
  simp only [elemByte,Bool.and_eq_true,bne_iff_ne] at byte
  simpa using byte.2

theorem skipelem_none {path : List UInt8} (none : skipelem path = none) : components path = [] := by
  rw [← components_skip,components_eq_nil_iff (skipSlashes_skipSlashes path)]
  by_contra present
  rw [skipelem] at none
  simp only [if_neg present] at none
  exact absurd none (by simp)

theorem skipelem_some {path name rest : List UInt8} (found : skipelem path = some (name,rest)) :
    components path = name :: components rest ∧ rest.length < path.length ∧ chop name = name ∧
      (components rest = [] ↔ rest.headD 0 = 0) := by
  simp only [skipelem] at found
  split at found
  · exact absurd found (by simp)
  rename_i present
  cases found
  refine ⟨?_,?_,chop_elem _,components_eq_nil_iff (skipSlashes_skipSlashes _)⟩
  · rw [← components_skip path,components_skip (List.dropWhile ..)]
    cases shape : skipSlashes path with
    | nil => simp [shape] at present
    | cons c p =>
      have zero : c ≠ 0 := by simpa [shape] using present
      have other : c ≠ slash := first_ne_slash shape
      have run : (c :: p).takeWhile (· ≠ 0) = c :: p.takeWhile (· ≠ 0) := List.takeWhile_cons_of_pos (by simpa using zero)
      rw [components,run,pieces_run other,← run,takeWhile_elem,dropWhile_elem,List.map_cons]
      rfl
  · cases shape : skipSlashes path with
    | nil => simp [shape] at present
    | cons c p =>
      have zero : c ≠ 0 := by simpa [shape] using present
      have byte : elemByte c = true := by simp [elemByte,zero,first_ne_slash shape]
      have taken : (c :: p).length ≤ path.length := by
        rw [← shape]
        exact List.length_dropWhile_le ..
      have left : (skipSlashes ((c :: p).dropWhile elemByte)).length ≤ p.length := by
        rw [List.dropWhile_cons_of_pos byte]
        exact Nat.le_trans (List.length_dropWhile_le ..) (List.length_dropWhile_le ..)
      simp only [List.length_cons] at taken
      omega

end Elements

/-! Walks on the abstract disk. -/

section Resolve

variable (sb : Superblock) (A : Abs)

/-- The inode that is reached from `i` by looking up the names in turn. Each one is looked up in a directory. -/
def resolve : Nat → List (List UInt8) → Option Nat
  | i, [] => some i
  | i, name :: rest =>
    if (A.ino i).type = tDir then (lookup (entries sb A i) name).bind fun x => resolve x.1 rest else none

/-- The directory that is reached by all names but the last one, and the last one. -/
def resolveParent (i : Nat) (names : List (List UInt8)) : Option (Nat × List UInt8) :=
  names.getLast?.bind fun last => (resolve sb A i names.dropLast).bind fun d =>
    if (A.ino d).type = tDir then some (d,last) else none

/-- What a walk is to return. -/
def destination (parent : Bool) (i : Nat) (names : List (List UInt8)) : Option (Nat × List UInt8) :=
  if parent then resolveParent sb A i names else (resolve sb A i names).map fun j => (j,[])

variable {sb A} {i : Nat} {name : List UInt8} {rest : List (List UInt8)}

theorem destination_nil (parent : Bool) : destination sb A parent i [] = if parent then none else some (i,[]) := by
  cases parent <;> rfl

theorem destination_file (other : (A.ino i).type ≠ tDir) (parent : Bool) :
    destination sb A parent i (name :: rest) = none := by
  cases parent with
  | false => simp [destination,resolve,other]
  | true => cases rest <;> simp [destination,resolveParent,resolve,other]

theorem destination_last (dir : (A.ino i).type = tDir) : destination sb A true i [name] = some (i,name) := by
  simp [destination,resolveParent,resolve,dir]

theorem destination_cons (dir : (A.ino i).type = tDir) {parent : Bool} (more : parent = true → rest ≠ []) :
    destination sb A parent i (name :: rest) =
      (lookup (entries sb A i) name).bind fun x => destination sb A parent x.1 rest := by
  cases parent with
  | false =>
    simp only [destination,resolve,dir,if_true,Bool.false_eq_true,if_false]
    cases lookup (entries sb A i) name <;> rfl
  | true =>
    obtain ⟨next,rest,rfl⟩ := List.exists_cons_of_ne_nil (more rfl)
    simp only [destination,resolveParent,List.getLast?_cons_cons,List.dropLast_cons_cons,resolve,dir,if_true]
    cases lookup (entries sb A i) name with
    | none => simp
    | some x => rfl

end Resolve

/-- The inodes in `W` are those of a tree of directories: they are allocated, and linked or held; directories have whole
entries, which name inodes in `W`. -/
structure DirTree (sb : Superblock) (A : Abs) (R : Multiset (Nat × Nat)) (W : Set Nat) : Prop where
  range : ∀ i ∈ W, i < sb.ninodes
  typed : ∀ i ∈ W, (A.ino i).type ≠ 0
  steady : ∀ i ∈ W, (A.ino i).nlink ≠ 0 ∨ i ∈ heldOf R
  whole : ∀ d ∈ W, (A.ino d).type = tDir → direntSize ∣ (A.ino d).size
  inside : ∀ d ∈ W, (A.ino d).type = tDir → ∀ e ∈ entries sb A d, e.inum ≠ 0 → e.inum ∈ W

/-- Two slots of the inode table are empty. -/
def Spare (R : Multiset (Nat × Nat)) : Prop :=
  ∃ l < ninode, ∃ m < ninode, l ≠ m ∧ ∀ j, (l,j) ∉ R ∧ (m,j) ∉ R

section Walk

variable {sb : Superblock} {T : Tables} {s : State} {A : Abs} {R : Multiset (Nat × Nat)} {L : Set (Nat × Nat)}
  {k i : Nat} {W : Set Nat} {E : Panic → Prop} {f : Nat → Bool}

theorem ilock_run (member : (k,i) ∈ R) (typed : (A.ino i).type ≠ 0)
    (calm : (s.itable k).locked = false ∨ E .deadlock) (repr : Repr sb T s A ∅ R L) :
    wp (ilock sb k) (fun _ t => Repr sb T t A ∅ R (insert (k,i) L) ∧ (s.itable k).locked = false ∧
      ∀ l, (t.itable l).locked = if l = k then true else (s.itable l).locked) E s := by
  have flags : wp (ilock sb k) (fun _ t => ∀ l, (t.itable l).locked = if l = k then true else (s.itable l).locked)
      (fun e => e = .ilockNoType ∨ E e) s := by
    have held : ¬(s.itable k).ref < 1 := by
      have := repr.ref_pos member
      omega
    have here (ip : Inode) (taken : ip.locked = true) (l : Nat) :
        (Function.update s.itable k ip l).locked = if l = k then true else (s.itable l).locked := by
      by_cases same : l = k
      · simp [same,taken]
      · simp [same]
    simp only [ilock,wp_bind,wp_getInode,if_neg held]
    split
    · rename_i taken
      exact .inr (calm.resolve_left (by simp [taken]))
    split
    · rw [wp_setInode]
      exact here _ rfl
    · simp only [wp_bind,wp_bread,wp_setInode]
      split
      · exact .inl rfl
      · exact here _ rfl
  have harmless : Harmless (· ≠ .ilockNoType) := fun _ _ other => other
  refine wp_mono (wp_and (ilock_spec harmless member (Set.notMem_empty i) (.inl typed) repr) flags) ?_ ?_
  · rintro _ t ⟨⟨repr,_,unlocked,_⟩,flags⟩
    exact ⟨repr,unlocked,flags⟩
  · rintro e ⟨other,error⟩
    exact error.resolve_left other

theorem iunlock_run (member : (k,i) ∈ R) (locked : (s.itable k).locked = true) (repr : Repr sb T s A ∅ R L) :
    wp (iunlock k) (fun _ t => Repr sb T t A ∅ R L ∧
      ∀ l, (t.itable l).locked = if l = k then false else (s.itable l).locked) (fun _ => False) s := by
  have held : ¬(s.itable k).ref < 1 := by
    have := repr.ref_pos member
    omega
  simp only [iunlock,wp_bind,wp_getInode,locked,Bool.not_true,Bool.false_eq_true,false_or,if_neg held,wp_setInode]
  refine ⟨repr.setLock false,fun l => ?_⟩
  by_cases same : l = k
  · simp [same]
  · simp [same]

/-- An allocated inode that is not freed when a reference outside `R` is given back. -/
def Steady (A : Abs) (R : Multiset (Nat × Nat)) (i : Nat) : Prop :=
  (A.ino i).type ≠ 0 → (A.ino i).nlink ≠ 0 ∨ i ∈ heldOf R

theorem Steady.cons (steady : Steady A R i) (x : Nat × Nat) : Steady A (x ::ₘ R) i :=
  fun typed => (steady typed).imp id fun held => heldOf_cons R x held

theorem iput_run (steady : Steady A R i) (repr : Repr sb T s A ∅ ((k,i) ::ₘ R) L) :
    wp (iput sb k) (fun _ t => Repr sb T t A ∅ R ∅ ∧ ∀ l, (t.itable l).locked = (s.itable l).locked)
      (fun _ => False) s := by
  have member : (k,i) ∈ (k,i) ::ₘ R := Multiset.mem_cons_self ..
  have stays : ¬((s.itable k).ref = 1 ∧ (s.itable k).valid = true ∧ (s.itable k).din.nlink = 0) := by
    rintro ⟨one,valid,zero⟩
    obtain ⟨din,typed⟩ := repr.valid k i member valid
    rcases steady typed with linked | ⟨l,inside⟩
    · rw [din] at zero
      exact linked zero
    · obtain rfl := repr.unique l k i (Multiset.mem_cons_of_mem inside) member
      have count := repr.refs l (repr.slot l i member).1
      have others : 0 < (R.map Prod.fst).count l := Multiset.count_pos.mpr (Multiset.mem_map_of_mem Prod.fst inside)
      rw [Multiset.map_cons,Multiset.count_cons_self] at count
      omega
  simp only [iput,wp_bind,wp_getInode,if_neg stays,wp_setInode]
  exact ⟨(repr.unlocked (Set.empty_subset L)).dropRef (fun x h => absurd h (Set.notMem_empty x)),
    fun l => Repr.update_locked rfl⟩

theorem iget_run (hi : i < sb.ninodes) (repr : Repr sb T s A ∅ R L) :
    wp (iget i) (fun k t => Repr sb T t A ∅ ((k,i) ::ₘ R) L ∧ ∀ l, (t.itable l).locked = (s.itable l).locked)
      (fun e => e = .igetNoInodes ∧ ∀ l < ninode, ∃ j, (l,j) ∈ R) s := by
  have errors : wp (iget i) (fun _ _ => True) (fun e => e = .igetNoInodes ∧ ∀ l < ninode, ∃ j, (l,j) ∈ R) s := by
    simp only [iget,strict_eq,wp_bind,wp_get]
    split
    · simp only [wp_bind,wp_setInode,wp_pure]
    · split
      · rename_i full
        simp only [List.find?_eq_none,List.mem_range,decide_eq_true_eq] at full
        refine ⟨rfl,fun l hl => ⟨_,repr.mem_of_ref hl ?_⟩⟩
        have := full l hl
        have := repr.refs l hl
        omega
      · simp only [wp_bind,wp_setInode,wp_pure]
  refine wp_mono (wp_and (iget_spec always hi repr) errors) ?_ fun _ error => error.2
  rintro k t ⟨⟨repr,_,flags⟩,_⟩
  exact ⟨repr,flags⟩

/-- A walk has ended: the locks are as before, and so are the references but for one to the inode that it returns. -/
def Arrived (sb : Superblock) (T : Tables) (A : Abs) (R : Multiset (Nat × Nat)) (f : Nat → Bool)
    (goal : Option (Nat × List UInt8)) (r : Option (Nat × List UInt8)) (t : State) : Prop :=
  (∀ l, (t.itable l).locked = f l) ∧ (goal = none ∧ r = none ∧ Repr sb T t A ∅ R ∅ ∨
    ∃ k i name, goal = some (i,name) ∧ r = some (k,name) ∧ Repr sb T t A ∅ ((k,i) ::ₘ R) ∅)

/-- The error of a walk: there are no two slots for the inodes that it has at a time. -/
def NoSlots (R : Multiset (Nat × Nat)) (e : Panic) : Prop := e = .igetNoInodes ∧ ¬Spare R

theorem noSlots {e : Panic} (full : e = .igetNoInodes ∧ ∀ l < ninode, ∃ j, (l,j) ∈ (k,i) ::ₘ R) : NoSlots R e := by
  refine ⟨full.1,?_⟩
  rintro ⟨l,hl,m,hm,ne,empty⟩
  have only {n : Nat} (hn : n < ninode) (none : ∀ j, (n,j) ∉ R) : n = k := by
    obtain ⟨j,member⟩ := full.2 n hn
    rcases Multiset.mem_cons.mp member with same | old
    · exact (Prod.mk.inj same).1
    · exact absurd old (none j)
  exact ne ((only hl fun j => (empty j).1).trans (only hm fun j => (empty j).2).symm)

theorem iunlockput_run (steady : Steady A R i) (free : f k = false)
    (flags : ∀ l, (s.itable l).locked = if l = k then true else f l) (repr : Repr sb T s A ∅ ((k,i) ::ₘ R) L) :
    wp (iunlockput sb k) (fun _ t => Repr sb T t A ∅ R ∅ ∧ ∀ l, (t.itable l).locked = f l) (fun _ => False) s := by
  rw [iunlockput]
  apply wp_seq (iunlock_run (Multiset.mem_cons_self ..) (by simp [flags]) repr)
  rintro _ t ⟨repr,unlocked⟩
  apply wp_post (iput_run steady repr)
  rintro _ u ⟨repr,same⟩
  refine ⟨repr,fun l => ?_⟩
  rw [same,unlocked,flags]
  by_cases here : l = k
  · simp [here,free]
  · simp [here]

theorem namexFrom_run (sound : Sound sb A) (tree : DirTree sb A R W) (parent : Bool) (turns : Nat) (path : List UInt8)
    (enough : path.length < turns) (inside : i ∈ W) (calm : ∀ l, f l = false ∨ E .deadlock)
    (slots : ∀ e, NoSlots R e → E e) (unlocked : ∀ l, (s.itable l).locked = f l)
    (repr : Repr sb T s A ∅ ((k,i) ::ₘ R) ∅) :
    wp (namexFrom sb parent turns k path) (Arrived sb T A R f (destination sb A parent i (components path))) E s := by
  induction turns generalizing s k i path with
  | zero => omega
  | succ turns ih =>
    have member : (k,i) ∈ (k,i) ::ₘ R := Multiset.mem_cons_self ..
    have steady : Steady A R i := fun _ => tree.steady i inside
    rw [namexFrom]
    cases elem : skipelem path with
    | none =>
      rw [skipelem_none elem,destination_nil]
      cases parent with
      | false => exact ⟨unlocked,.inr ⟨k,i,[],rfl,rfl,repr⟩⟩
      | true =>
        dsimp only
        rw [if_pos rfl]
        apply wp_seq (wp_mono (iput_run steady repr) (fun _ _ => id) fun _ => False.elim)
        rintro _ t ⟨repr,same⟩
        exact ⟨fun l => (same l).trans (unlocked l),.inl ⟨rfl,rfl,repr⟩⟩
    | some found =>
      obtain ⟨name,rest⟩ := found
      obtain ⟨names,shorter,chopped,last⟩ := skipelem_some elem
      rw [names]
      dsimp only
      apply wp_seq (ilock_run member (tree.typed i inside) (by rw [unlocked]; exact calm k) repr)
      rintro _ t ⟨repr,free,flags⟩
      have free : f k = false := by rw [← unlocked,free]
      have flags (l : Nat) : (t.itable l).locked = if l = k then true else f l := by rw [flags,unlocked]
      have locked : (k,i) ∈ insert (k,i) (∅ : Set (Nat × Nat)) := Set.mem_insert ..
      have din := (repr.valid k i member (repr.locked k i locked).2).1
      -- the walk ends without a result
      have gives {goal : Option (Nat × List UInt8)} (none : goal = none) {u : State} {L : Set (Nat × Nat)}
          (flags : ∀ l, (u.itable l).locked = if l = k then true else f l)
          (repr : Repr sb T u A ∅ ((k,i) ::ₘ R) L) :
          wp (do
            iunlockput sb k
            return .none) (Arrived sb T A R f goal) E u := by
        apply wp_seq (wp_mono (iunlockput_run steady free flags repr) (fun _ _ => id) fun _ => False.elim)
        rintro _ v ⟨repr,unlocked⟩
        exact ⟨unlocked,.inl ⟨none,rfl,repr⟩⟩
      rw [wp_bind,wp_getInode,din]
      by_cases dir : (A.ino i).type = tDir
      swap
      · rw [if_pos dir]
        exact gives (destination_file dir parent) flags repr
      rw [if_neg (not_not.mpr dir)]
      by_cases stop : parent = true ∧ rest.headD 0 = 0
      · obtain ⟨rfl,ended⟩ := stop
        rw [if_pos ⟨rfl,ended⟩,last.mpr ended,destination_last dir]
        apply wp_seq (wp_mono (iunlock_run member (by simp [flags]) repr) (fun _ _ => id) fun _ => False.elim)
        rintro _ u ⟨repr,after⟩
        refine ⟨fun l => ?_,.inr ⟨k,i,name,rfl,rfl,repr.unlocked (Set.empty_subset _)⟩⟩
        rw [after,flags]
        by_cases here : l = k
        · simp [here,free]
        · simp [here]
      have more : parent = true → components rest ≠ [] := fun isParent none => stop ⟨isParent,last.mp none⟩
      rw [if_neg stop,destination_cons dir more,wp_bind,
        wp_congr (dirlookup_run repr sound locked dir (tree.whole i inside dir) name),chopped]
      cases value : lookup (entries sb A i) name with
      | none => exact gives rfl flags repr
      | some x =>
        obtain ⟨j,m⟩ := x
        obtain ⟨at_,used⟩ := getElem?_of_lookup value
        have next : j ∈ W := tree.inside i inside dir _ (List.mem_iff_getElem?.mpr ⟨m,at_⟩) used
        rw [handOut,wp_bind]
        refine wp_mono (iget_run (tree.range j next) repr) ?_ fun e full => slots e (noSlots full)
        rintro k' u ⟨repr,same⟩
        have flags (l : Nat) : (u.itable l).locked = if l = k then true else f l := (same l).trans (flags l)
        rw [wp_pure]
        dsimp only
        rw [Multiset.cons_swap] at repr
        apply wp_seq (wp_mono (iunlockput_run (steady.cons (k',j)) free flags repr) (fun _ _ => id) fun _ => False.elim)
        rintro _ v ⟨repr,unlocked⟩
        exact ih rest (by omega) next unlocked repr

def origin (path : List UInt8) (c : Nat) : Nat := if path.headD 0 = slash then rootino else c

theorem namex_run (sound : Sound sb A) (tree : DirTree sb A R W) (root : rootino ∈ W) {cwd c : Nat}
    (member : (cwd,c) ∈ R) (inside : c ∈ W) (calm : ∀ l, f l = false ∨ E .deadlock)
    (slots : ∀ e, NoSlots R e → E e) (unlocked : ∀ l, (s.itable l).locked = f l)
    (repr : Repr sb T s A ∅ R ∅) (path : List UInt8) (parent : Bool) :
    wp (namex sb cwd path parent) (Arrived sb T A R f (destination sb A parent (origin path c) (components path)))
      E s := by
  have walk {k i : Nat} {t : State} (start : i ∈ W) (unlocked : ∀ l, (t.itable l).locked = f l)
      (repr : Repr sb T t A ∅ ((k,i) ::ₘ R) ∅) := namexFrom_run sound tree parent (path.length + 1) path
    (Nat.lt_succ_self _) start calm slots unlocked repr
  rw [namex,origin]
  split
  · apply wp_seq (wp_mono (iget_run (tree.range _ root) repr) (fun _ _ => id) fun e full => ?_)
    · rintro k t ⟨repr,same⟩
      exact walk root (fun l => (same l).trans (unlocked l)) repr
    · refine slots e (@noSlots R 0 0 e ⟨full.1,fun l hl => ?_⟩)
      obtain ⟨j,old⟩ := full.2 l hl
      exact ⟨j,Multiset.mem_cons_of_mem old⟩
  · simp only [idup,wp_bind,wp_getInode,wp_setInode,wp_pure]
    refine walk inside (fun l => ?_) (repr.addRef member)
    rw [← unlocked l]
    exact Repr.update_locked (by rfl)

/-- The file system is as before and nothing is locked. There is one more reference to the slot that is returned, and
no other. -/
structure OneMore (sb : Superblock) (A : Abs) (s : State) (slot : Option Nat) (t : State) : Prop where
  shows : ∃ T R, Repr sb T t A ∅ R ∅
  unlocked : ∀ l, (t.itable l).locked = false
  refs : ∀ l < ninode, (t.itable l).ref = (s.itable l).ref + if slot = some l then 1 else 0

theorem Arrived.oneMore {goal r : Option (Nat × List UInt8)} {t : State} (repr : Repr sb T s A ∅ R L)
    (arrived : Arrived sb T A R (fun _ => false) goal r t) :
    OneMore sb A s (r.map Prod.fst) t ∧ (r.map fun x => ((t.itable x.1).inum,x.2)) = goal := by
  obtain ⟨unlocked,⟨rfl,rfl,repr'⟩ | ⟨k,i,name,rfl,rfl,repr'⟩⟩ := arrived
  · refine ⟨⟨⟨T,R,repr'⟩,unlocked,fun l hl => ?_⟩,rfl⟩
    simp [repr.refs l hl,repr'.refs l hl]
  · refine ⟨⟨⟨T,_,repr'⟩,unlocked,fun l hl => ?_⟩,?_⟩
    · rw [repr.refs l hl,repr'.refs l hl,Multiset.map_cons,Multiset.count_cons]
      by_cases here : l = k
      · simp [here]
      · simp [here,Ne.symm here]
    · rw [Option.map_some,(repr'.slot k i (Multiset.mem_cons_self ..)).2.2]

/-- `namei` returns the inode that the elements of the path lead to from the root or the current directory, or nothing
if a step fails; `nameiparent` stops one element before the end and returns that element. -/
theorem path_resolution (sound : Sound sb A) (tree : DirTree sb A R W) (root : rootino ∈ W) {cwd c : Nat}
    (member : (cwd,c) ∈ R) (inside : c ∈ W) (unlocked : ∀ l, (s.itable l).locked = false)
    (repr : Repr sb T s A ∅ R ∅) (path : List UInt8) :
    wp (namei sb cwd path) (fun r t => OneMore sb A s r t ∧
      (r.map fun k => (t.itable k).inum) = resolve sb A (origin path c) (components path)) (NoSlots R) s ∧
    wp (nameiparent sb cwd path) (fun r t => OneMore sb A s (r.map Prod.fst) t ∧
      (r.map fun x => ((t.itable x.1).inum,x.2)) = resolveParent sb A (origin path c) (components path))
      (NoSlots R) s := by
  have walk := namex_run sound tree root member inside (fun _ => .inl rfl) (fun _ => id) unlocked repr path
  constructor
  · rw [namei]
    apply wp_seq (walk false)
    intro r t arrived
    obtain ⟨oneMore,result⟩ := arrived.oneMore repr
    rw [wp_pure]
    refine ⟨oneMore,?_⟩
    have first := congrArg (Option.map Prod.fst) result
    simpa [destination,Function.comp_def] using first
  · exact wp_post (walk true) fun r t arrived => arrived.oneMore repr

end Walk

theorem nested_dirs : DirTree smallSb (ofDisk smallSb nested) bootRefs {1,2,3} := by
  have checked : ∀ i ∈ [1,2,3], i < smallSb.ninodes ∧ ((ofDisk smallSb nested).ino i).type ≠ 0 ∧
      ((ofDisk smallSb nested).ino i).nlink ≠ 0 ∧ direntSize ∣ ((ofDisk smallSb nested).ino i).size ∧
      ∀ e ∈ entries smallSb (ofDisk smallSb nested) i, e.inum ≠ 0 → e.inum ∈ [1,2,3] := by decide +kernel
  have all (i : Nat) (inside : i ∈ ({1,2,3} : Set Nat)) := checked i (by simpa using inside)
  refine ⟨fun i inside => (all i inside).1,fun i inside => (all i inside).2.1,fun i inside => .inl (all i inside).2.2.1,
    fun i inside _ => (all i inside).2.2.2.1,fun i inside _ e member used => ?_⟩
  simpa using (all i inside).2.2.2.2 e member used

/-- `//a/b/` is the directory `/a/b`, and `b` in `/a` its name. -/
theorem nested_paths :
    wp (namei smallSb 0 [47,47,97,47,98,47])
      (fun r t => OneMore smallSb (ofDisk smallSb nested) (boot smallSb nested) r t ∧
      (r.map fun k => (t.itable k).inum) = some 3) (fun _ => False) (boot smallSb nested) ∧
    wp (nameiparent smallSb 0 [47,47,97,47,98,47]) (fun r t =>
      OneMore smallSb (ofDisk smallSb nested) (boot smallSb nested) (r.map Prod.fst) t ∧
      (r.map fun x => ((t.itable x.1).inum,x.2)) = some (2,[98])) (fun _ => False) (boot smallSb nested) := by
  have spare : Spare bootRefs := ⟨1,by decide,2,by decide,by decide,fun j => by simp [bootRefs]⟩
  obtain ⟨whole,parent⟩ := path_resolution nested_sound nested_dirs (by simp [rootino]) (Multiset.mem_singleton_self _)
    (show rootino ∈ _ by simp [rootino]) (fun l => rfl) (boot_repr nested small_layout) [47,47,97,47,98,47]
  have reached : resolve smallSb (ofDisk smallSb nested) (origin [47,47,97,47,98,47] rootino)
      (components [47,47,97,47,98,47]) = some 3 := by decide +kernel
  have above : resolveParent smallSb (ofDisk smallSb nested) (origin [47,47,97,47,98,47] rootino)
      (components [47,47,97,47,98,47]) = some (2,[98]) := by decide +kernel
  rw [reached] at whole
  rw [above] at parent
  exact ⟨wp_mono whole (fun _ _ => id) fun _ full => full.2 spare,
    wp_mono parent (fun _ _ => id) fun _ full => full.2 spare⟩

end Xv6.Fs
