import Xv6.Fs.Check
import Xv6.Runs

/-! Runs of system calls from an image: block ownership, the tree of directories, link counts
and the panics that are not reached. -/
namespace Xv6.Fs

open Prog Runs

variable {sb : Superblock} {O W : Set Nat} {T : Tables} {s t : State} {N : Names} {R : Multiset (Nat × Nat)}
  {L : Set (Nat × Nat)} {E : Panic → Prop} {image : Disk}

/-- What a file system has on its disk: blocks with one owner each, directories that are a tree
and link counts that are not too small. Inode numbers fit in an entry. -/
structure WellFormed (sb : Superblock) (image : Disk) : Prop where
  layout : sb.Layout
  small : sb.ninodes ≤ 2 ^ 16
  sound : Sound sb (ofDisk sb image)
  range : (namesOf sb image).Range sb.ninodes
  tree : (namesOf sb image).Tree

/-- No link count has reached the sign bit of its field. -/
def FewLinks (sb : Superblock) (s : State) : Prop := ∀ i < sb.ninodes, (namesOf sb s.disk).nlink i ≤ 32767

/-- The inode is the root or has an entry in a directory. -/
def Linked (sb : Superblock) (s : State) (i : Nat) : Prop :=
  i = rootino ∨ ∃ d < sb.ninodes, i ∈ (namesOf sb s.disk).kids d

/-- No current directory has been removed. -/
def CwdsLinked (sb : Superblock) (s : State) : Prop :=
  ∀ p < nproc, ∀ pr ∈ s.proc p, Linked sb s (s.itable pr.cwd).inum

/-- No directory in use has been removed. -/
def DirsLinked (sb : Superblock) (s : State) : Prop :=
  ∀ k < ninode, (s.itable k).ref ≠ 0 → (namesOf sb s.disk).typ (s.itable k).inum = tDir →
    Linked sb s (s.itable k).inum

instance (sb : Superblock) (s : State) : Decidable (FewLinks sb s) :=
  inferInstanceAs (Decidable (∀ i < sb.ninodes, (namesOf sb s.disk).nlink i ≤ 32767))

instance (sb : Superblock) (s : State) (i : Nat) : Decidable (Linked sb s i) :=
  inferInstanceAs (Decidable (i = rootino ∨ ∃ d < sb.ninodes, i ∈ (namesOf sb s.disk).kids d))

instance (sb : Superblock) (s : State) : Decidable (CwdsLinked sb s) :=
  inferInstanceAs (Decidable (∀ p < nproc, ∀ pr ∈ s.proc p, Linked sb s (s.itable pr.cwd).inum))

instance (sb : Superblock) (s : State) : Decidable (DirsLinked sb s) :=
  inferInstanceAs (Decidable (∀ k < ninode, (s.itable k).ref ≠ 0 → (namesOf sb s.disk).typ (s.itable k).inum = tDir →
    Linked sb s (s.itable k).inum))

theorem nested_formed : WellFormed smallSb nested := ⟨small_layout,by decide,nested_sound,nested_range,nested_tree⟩

theorem step_settled (harmless : Harmless E) (layout : sb.Layout) (closed : N.Closed W)
    (room : ∀ i ∈ W, N.nlink i < 2 ^ 16 - 1) (safe : E .ilockNoType ∨ rootino ∈ W ∧ CwdsIn T R W)
    (view : View sb O T s N R L) (handles : Handles T N R) {call : Nat × Call} (stepped : step sb s call = some t) :
    Settled sb O W T N R t := by
  obtain ⟨r,out,rfl⟩ := Option.map_eq_some_iff.mp stepped
  exact wp_resultOf (syscall_view layout harmless call.2 closed room safe view handles) out

def Good (sb : Superblock) (s : State) : Prop := ∃ T N R L, View sb Set.univ T s N R L ∧ Handles T N R

theorem closed_empty (N : Names) : N.Closed ∅ :=
  ⟨fun _ h => absurd h (Set.notMem_empty _),fun _ h => absurd h (Set.notMem_empty _),
    fun _ h => absurd h (Set.notMem_empty _)⟩

/-! Block ownership. -/

theorem harmless_block : Harmless (· ≠ .freeingFreeBlock) := fun _ other _ => other

theorem Good.step (good : Good sb s) (layout : sb.Layout) {call : Nat × Call} (stepped : step sb s call = some t) :
    Good sb t := by
  obtain ⟨T,N,R,L,view,handles⟩ := good
  obtain ⟨T',N',R',L',view,handles,_,_⟩ := step_settled harmless_block layout (closed_empty N)
    (fun _ h => absurd h (Set.notMem_empty _)) (.inl (by decide)) view handles stepped
  exact ⟨T',N',R',L',view,handles⟩

/-- From an image in which blocks have one owner each and entries name inodes that exist, every
run of calls keeps block ownership, and no call frees a free block. -/
theorem blocks_owned (layout : sb.Layout) (sound : Sound sb (ofDisk sb image))
    (range : (namesOf sb image).Range sb.ninodes) (root : (namesOf sb image).typ rootino ≠ 0)
    {calls : List (Nat × Call)} (ran : run (step sb) (boot sb image) calls = some s) :
    Sound sb (ofDisk sb s.disk) ∧ ∀ p call, errorOf (syscall sb p call) s ≠ some .freeingFreeBlock := by
  have start : Good sb (boot sb image) :=
    ⟨_,_,_,_,boot_view layout sound range (fun i _ _ => Set.mem_univ i),boot_handles root⟩
  obtain ⟨T,N,R,L,view,handles⟩ := run_invariant (Good sb) (fun _ _ _ good => good.step layout) start ran
  refine ⟨view.sound layout,fun p call failed => ?_⟩
  exact wp_errorOf (syscall_view (W := ∅) layout harmless_block call (closed_empty N)
    (fun _ h => absurd h (Set.notMem_empty _)) (.inl (by decide)) view handles) failed rfl

theorem blocks_owned_nested : ∃ s, run (step smallSb) (boot smallSb nested)
      [(0,.mkdir (some [99])),(0,.open (some [100]) oCreate),(0,.unlink (some [99]))] = some s ∧
    Sound smallSb (ofDisk smallSb s.disk) ∧ ∀ p call, errorOf (syscall smallSb p call) s ≠ some .freeingFreeBlock :=
  reaches (fun _ => True) (by decide +kernel) fun s ran _ =>
    blocks_owned small_layout nested_sound nested_range (by decide +kernel) ran

/-- An entry for an inode beyond the last one makes `open` with `O_TRUNC` free a block that
another inode has. -/
theorem block_lost : Sound smallSb (ofDisk smallSb outside) ∧
    ∃ s, run (step smallSb) (boot smallSb outside) [(0,.open (some [120]) (oRdwr + oTrunc))] = some s ∧
      ¬Sound smallSb (ofDisk smallSb s.disk) := by
  refine ⟨outside_sound,reaches (fun s => (ofDisk smallSb s.disk).ptr smallSb (1,0) = 34 ∧ bit smallSb s.disk 34 = false)
    (by decide +kernel) fun s ran ⟨at_,free⟩ sound => ?_⟩
  have used := sound.owned.used_of_ptr (x := (1,0)) (by rw [at_]; decide)
  rw [at_] at used
  exact absurd (used.symm.trans free) (by decide)

/-! The tree of directories. -/

theorem View.few (view : View sb O T s N R L) (few : FewLinks sb s) (i : Nat) : N.nlink i < 2 ^ 15 := by
  by_cases free : N.typ i = 0
  · rw [view.unlinked free]
    exact Nat.two_pow_pos 15
  · have := few i (view.range.typed i free)
    rw [view.namesOf] at this
    omega

theorem View.small (view : View sb O T s N R L) (small : sb.ninodes ≤ 2 ^ 16) (i : Nat) (typed : N.typ i ≠ 0) :
    i < 2 ^ 16 := Nat.lt_of_lt_of_le (view.range.typed i typed) small

/-- A state between calls in which the directories are a tree. -/
def Shaped (sb : Superblock) (s : State) : Prop :=
  ∃ T N R L, View sb Set.univ T s N R L ∧ Handles T N R ∧ N.Tree

theorem WellFormed.shaped (formed : WellFormed sb image) : Shaped sb (boot sb image) :=
  ⟨_,_,_,_,boot_view formed.layout formed.sound formed.range (fun i _ _ => Set.mem_univ i),
    boot_handles (tDir_ne formed.tree.root),formed.tree⟩

theorem Shaped.step (shaped : Shaped sb s) (layout : sb.Layout) (small : sb.ninodes ≤ 2 ^ 16) (few : FewLinks sb s)
    {call : Nat × Call} (stepped : step sb s call = some t) :
    Shaped sb t ∧ ∀ d, (namesOf sb s.disk).Reach d → (namesOf sb t.disk).Reach d ∨
      Names.Removed (namesOf sb s.disk) (namesOf sb t.disk) d := by
  obtain ⟨T,N,R,L,view,handles,tree⟩ := shaped
  obtain ⟨T',N',R',L',after,handles',effect,_⟩ := step_settled harmless_block layout (closed_empty N)
    (fun _ h => absurd h (Set.notMem_empty _)) (.inl (by decide)) view handles stepped
  obtain ⟨tree',stays⟩ := tree.effect (view.few few) (view.small small) (after.small small) effect
  refine ⟨⟨T',N',R',L',after,handles',tree'⟩,?_⟩
  rwa [view.namesOf,after.namesOf]

/-- The directories that can be reached from the root are a tree: `.` names the directory and
`..` its parent, the root is its own parent and the others have one entry each, in their
parent. Names are not empty and differ within a directory. -/
structure Names.RootTree (N : Names) : Prop where
  root : N.typ rootino = tDir
  top : (N.ents rootino)[1]? = some ⟨rootino,dotdot⟩
  above : ∀ d k e, N.Reach d → 2 ≤ k → (N.ents d)[k]? = some e → e.inum ≠ rootino
  self : ∀ d, N.Reach d → N.typ d = tDir → (N.ents d)[0]? = some ⟨d,dot⟩
  parent : ∀ c, N.Reach c → N.typ c = tDir → c ≠ rootino → ∃ d k, (N.ents c)[1]? = some ⟨d,dotdot⟩ ∧
    N.Reach d ∧ N.typ d = tDir ∧ 2 ≤ k ∧ (∃ e, (N.ents d)[k]? = some e ∧ e.inum = c) ∧
    ∀ d' k' e', N.Reach d' → 2 ≤ k' → (N.ents d')[k']? = some e' → e'.inum = c → d' = d ∧ k' = k
  named : ∀ d, N.Reach d → ∀ e ∈ N.ents d, e.inum ≠ 0 → e.name ≠ []
  distinct : ∀ d, N.Reach d → Distinct (N.ents d)

theorem index_unique {α : Type} {p : α → Bool} {l : List α} (once : l.countP p ≤ 1) {j k : Nat} {a b : α}
    (at_ : l[j]? = some a) (bt : l[k]? = some b) (pa : p a = true) (pb : p b = true) : j = k := by
  induction l generalizing j k with
  | nil => simp at at_
  | cons x l ih =>
    rw [List.countP_cons] at once
    match j, k with
    | 0, 0 => rfl
    | j + 1, k + 1 => rw [ih (by omega) at_ bt]
    | 0, k + 1 =>
      cases at_
      have := List.countP_pos_iff.mpr ⟨b,(List.mem_of_getElem? bt : b ∈ l),pb⟩
      rw [if_pos pa] at once
      omega
    | j + 1, 0 =>
      cases bt
      have := List.countP_pos_iff.mpr ⟨a,(List.mem_of_getElem? at_ : a ∈ l),pa⟩
      rw [if_pos pb] at once
      omega

theorem Names.Shape.rootTree (shape : N.Shape) : N.RootTree := by
  have kid {d k : Nat} {e : Dirent} (low : 2 ≤ k) (at_ : (N.ents d)[k]? = some e) (used : e.inum ≠ 0) :
      e.inum ∈ N.kids d := mem_childrenOf.mpr ⟨used,k,e,low,at_,rfl⟩
  refine ⟨shape.root,shape.top,fun d k e reach low at_ isRoot => ?_,fun d _ => shape.self d,
    fun c reach dir other => ?_,fun d _ => shape.named d,fun d _ => shape.distinct d⟩
  · have member := kid low at_ (by rw [isRoot]; decide)
    exact (shape.up d _ member (by rw [isRoot,shape.root])).1 isRoot
  · cases shape.below_of_reach reach with
    | root => exact absurd rfl other
    | @kid d _ above member =>
      obtain ⟨used,k,e,low,at_,rfl⟩ := mem_childrenOf.mp member
      have up := (shape.up d _ member dir).2
      refine ⟨d,k,up,above.reach,shape.dir_of_kid member,low,⟨e,at_,rfl⟩,fun d' k' e' _ low' at' same => ?_⟩
      have member' := kid low' at' (same ▸ used)
      rw [same] at member'
      rw [(shape.up d' _ member' dir).2] at up
      obtain rfl := (Dirent.mk.inj (Option.some.inj up)).1
      -- one directory has the inode as a child once
      have once := shape.once d' e.inum dir
      rw [Names.kids,Names.count_childrenOf used] at once
      refine ⟨rfl,?_⟩
      have index (l : Nat) (f : Dirent) (low : 2 ≤ l) (at_ : (N.ents d')[l]? = some f) :
          ((N.ents d').drop 2)[l - 2]? = some f := by
        rw [List.getElem?_drop,← at_]
        congr 1
        omega
      have := index_unique once (index k' e' low' at') (index k e low at_) (by simpa using same) (by simp)
      omega

/-- As long as no inode has more than 32767 links, the directories are a tree, and a call that
removes a directory finds it without entries besides the first two. -/
theorem directories_tree (formed : WellFormed sb image) {calls : List (Nat × Call)}
    (ran : run (step sb) (boot sb image) calls = some s)
    (always : Always (step sb) (FewLinks sb) (boot sb image) calls) :
    (namesOf sb s.disk).RootTree ∧ ∀ call t, step sb s call = some t → ∀ d, (namesOf sb s.disk).Reach d →
      ¬(namesOf sb t.disk).Reach d → (namesOf sb s.disk).kids d = [] := by
  obtain ⟨shaped,few⟩ := run_invariant_always (Shaped sb)
    (fun _ _ _ few _ shaped stepped => (shaped.step formed.layout formed.small few stepped).1) formed.shaped always ran
  refine ⟨?_,fun call t stepped d reach gone => ?_⟩
  · obtain ⟨T,N,R,L,view,_,tree⟩ := shaped
    rw [view.namesOf]
    exact tree.rootTree
  · rcases (shaped.step formed.layout formed.small few stepped).2 d reach with stays | removed
    · exact absurd stays gone
    · exact removed.empty

theorem directories_tree_nested : ∃ s, run (step smallSb) (boot smallSb nested)
      [(0,.mkdir (some [99])),(0,.unlink (some [99]))] = some s ∧
    (namesOf smallSb s.disk).RootTree ∧ ∀ call t, step smallSb s call = some t → ∀ d, (namesOf smallSb s.disk).Reach d →
      ¬(namesOf smallSb t.disk).Reach d → (namesOf smallSb s.disk).kids d = [] :=
  reaches (fun _ => True) (by decide +kernel) fun s ran _ => directories_tree nested_formed ran (by decide +kernel)

/-- A link count that is too small lets `unlink` free a file that still has an entry; the next
directory then has two. -/
theorem directory_named_twice : (namesOf smallSb twice).RootTree ∧
    Always (step smallSb) (FewLinks smallSb) (boot smallSb twice) [(0,.unlink (some [97])),(0,.mkdir (some [99]))] ∧
    ∃ s, run (step smallSb) (boot smallSb twice) [(0,.unlink (some [97])),(0,.mkdir (some [99]))] = some s ∧
      ¬(namesOf smallSb s.disk).RootTree := by
  refine ⟨twice_shape.rootTree,by decide +kernel,reaches (fun s => (namesOf smallSb s.disk).typ 2 = tDir ∧
    (namesOf smallSb s.disk).ents 1 = [⟨1,dot⟩,⟨1,dotdot⟩,⟨2,[99]⟩,⟨2,[98]⟩]) (by decide +kernel)
    fun s ran ⟨dir,ents⟩ tree => ?_⟩
  have reach : (namesOf smallSb s.disk).Reach 2 := .entry .root (e := ⟨2,[98]⟩) (by simp [ents,rootino]) (by decide)
  obtain ⟨d,k,_,_,_,_,_,unique⟩ := tree.parent 2 reach dir (by decide)
  have first := unique 1 2 ⟨2,[99]⟩ .root (by decide) (by rw [ents]; rfl) rfl
  have second := unique 1 3 ⟨2,[98]⟩ .root (by decide) (by rw [ents]; rfl) rfl
  omega

/-! Path lookup. -/

theorem harmless_lookup : Harmless fun e => e ≠ .freeingFreeBlock ∧ e ≠ .ilockNoType := fun _ block type => ⟨block,type⟩

/-- A state between calls in which the current directories can be reached from the root. -/
def Rooted (sb : Superblock) (s : State) : Prop :=
  ∃ T N R L, View sb Set.univ T s N R L ∧ Handles T N R ∧ N.Tree ∧ CwdsIn T R { i | N.Reach i }

theorem WellFormed.rooted (formed : WellFormed sb image) : Rooted sb (boot sb image) := by
  refine ⟨_,_,_,_,boot_view formed.layout formed.sound formed.range (fun i _ _ => Set.mem_univ i),
    boot_handles (tDir_ne formed.tree.root),formed.tree,fun p pr i _ member => ?_⟩
  rw [(Prod.mk.inj (Multiset.mem_singleton.mp member)).2]
  exact .root

theorem Rooted.step (rooted : Rooted sb s) (layout : sb.Layout) (small : sb.ninodes ≤ 2 ^ 16) (few : FewLinks sb s)
    (linked : CwdsLinked sb t) {call : Nat × Call} (stepped : step sb s call = some t) : Rooted sb t := by
  obtain ⟨T,N,R,L,view,handles,tree,cwds⟩ := rooted
  obtain ⟨T',N',R',L',after,handles',effect,stay⟩ := step_settled harmless_lookup layout tree.closed
    (fun i _ => by have := view.few few i; omega) (.inr ⟨.root,cwds⟩) view handles stepped
  obtain ⟨tree',reach⟩ := tree.effect (view.few few) (view.small small) (after.small small) effect
  refine ⟨T',N',R',L',after,handles',tree',fun p pr i here member => ?_⟩
  have old := stay .root cwds p pr i here member
  rcases reach i old with stays | removed
  · exact stays
  · obtain dir | rfl := handles'.dirs p pr i here member
    swap
    · exact .root
    -- a directory that has been removed has no entry any more
    have same := effect.typ_linked (tree.typed_of_reach old) (tree.linked_of_reach old) (by rw [dir]; decide)
    have named := linked p (handles'.proc_lt here) pr (by rw [← after.tables_eq] at here; exact here)
    rw [(after.slot member).2,Linked,after.namesOf] at named
    rcases named with isRoot | ⟨d,_,inside⟩
    · exact isRoot ▸ .root
    · exact absurd inside (removed.unnamed (same ▸ dir) d)

/-- If no current directory is ever removed and no inode gets more than 32767 links, then every
entry of a directory that can be reached, or is a current directory, names an allocated inode,
and no call finds an inode without a type. -/
theorem entries_allocated (formed : WellFormed sb image) {calls : List (Nat × Call)}
    (ran : run (step sb) (boot sb image) calls = some s)
    (always : Always (step sb) (fun t => CwdsLinked sb t ∧ FewLinks sb t) (boot sb image) calls) :
    (∀ d, ((namesOf sb s.disk).Reach d ∨ ∃ p pr, s.proc p = some pr ∧ (s.itable pr.cwd).inum = d) →
      ∀ e ∈ (namesOf sb s.disk).ents d, e.inum ≠ 0 → (namesOf sb s.disk).typ e.inum ≠ 0) ∧
    ∀ p call, errorOf (syscall sb p call) s ≠ some .ilockNoType := by
  obtain ⟨rooted,_,few⟩ := run_invariant_always (Rooted sb)
    (fun _ _ _ before after rooted stepped => rooted.step formed.layout formed.small before.2 after.1 stepped)
    formed.rooted always ran
  obtain ⟨T,N,R,L,view,handles,tree,cwds⟩ := rooted
  rw [view.namesOf]
  refine ⟨fun d where_ e member used => ?_,fun p call failed => ?_⟩
  · refine tree.typed_of_reach (.entry ?_ member used)
    rcases where_ with reach | ⟨p,pr,here,rfl⟩
    · exact reach
    · have here : T.proc p = some pr := by rw [← view.tables_eq]; exact here
      obtain ⟨c,inside⟩ := handles.cwd here
      rw [(view.slot inside).2]
      exact cwds p pr c here inside
  · refine (wp_errorOf (syscall_view formed.layout harmless_lookup call tree.closed ?_ (.inr ⟨.root,cwds⟩) view handles)
      failed).2 rfl
    intro i _
    have := view.few few i
    omega

theorem entries_allocated_nested : ∃ s, run (step smallSb) (boot smallSb nested)
      [(0,.chdir (some [97])),(0,.mkdir (some [99])),(0,.unlink (some [98]))] = some s ∧
    (∀ d, ((namesOf smallSb s.disk).Reach d ∨ ∃ p pr, s.proc p = some pr ∧ (s.itable pr.cwd).inum = d) →
      ∀ e ∈ (namesOf smallSb s.disk).ents d, e.inum ≠ 0 → (namesOf smallSb s.disk).typ e.inum ≠ 0) ∧
    ∀ p call, errorOf (syscall smallSb p call) s ≠ some .ilockNoType :=
  reaches (fun _ => True) (by decide +kernel) fun s ran _ => entries_allocated nested_formed ran (by decide +kernel)

/-- A process in `/a/b` removes `b` and then `a`. Its `..` now leads to an inode that has been
freed, and looking it up panics. -/
theorem dangling_parent : WellFormed smallSb nested ∧ ∃ s, run (step smallSb) (boot smallSb nested)
      [(0,.chdir (some [97,47,98])),(0,.unlink (some [46,46,47,98])),(0,.unlink (some [46,46,47,46,46,47,97]))] = some s ∧
    (∃ pr, s.proc 0 = some pr ∧ (s.itable pr.cwd).inum = 3) ∧ (namesOf smallSb s.disk).ents 3 = [⟨3,dot⟩,⟨2,dotdot⟩] ∧
    (namesOf smallSb s.disk).typ 2 = 0 ∧
    errorOf (syscall smallSb 0 (.chdir (some dotdot))) s = some .ilockNoType := by
  exact ⟨nested_formed,reaches (fun s => (s.proc 0).map (fun pr => (s.itable pr.cwd).inum) = some 3 ∧
    (namesOf smallSb s.disk).ents 3 = [⟨3,dot⟩,⟨2,dotdot⟩] ∧ (namesOf smallSb s.disk).typ 2 = 0 ∧
    errorOf (syscall smallSb 0 (.chdir (some dotdot))) s = some .ilockNoType) (by decide +kernel)
    fun s ran facts => ⟨Option.map_eq_some_iff.mp facts.1,facts.2⟩⟩

/-! Link counts. -/

/-- A state between calls in which the link counts are right. -/
def Counted (sb : Superblock) (s : State) : Prop :=
  ∃ T N R L, View sb ∅ T s N R L ∧ Handles T N R ∧ N.Exact sb.ninodes ∧ N.Alive

theorem Counted.step (counted : Counted sb s) (layout : sb.Layout) (small : sb.ninodes ≤ 2 ^ 16) (few : FewLinks sb s)
    (linked : DirsLinked sb t) {call : Nat × Call} (stepped : step sb s call = some t) : Counted sb t := by
  obtain ⟨T,N,R,L,view,handles,exact,alive⟩ := counted
  obtain ⟨T',N',R',L',after,handles',effect,_⟩ := step_settled harmless_block layout (closed_empty N)
    (fun _ h => absurd h (Set.notMem_empty _)) (.inl (by decide)) view handles stepped
  have exact' := exact.effect alive (view.few few) view.range.typed small (after.small small) effect
  refine ⟨T',N',R',L',after,handles',exact',fun d dir zero => ?_⟩
  -- a directory without links is held by somebody, and then it has an entry
  rcases after.kept d (by rw [dir]; decide) zero with none | ⟨k,locked⟩
  · exact none
  have member := after.held locked
  have slot := after.slot member
  have named := linked k (after.slot_lt member) ((after.ref_ne (after.slot_lt member)).mpr ⟨d,member,slot.2⟩)
  rw [slot.2,Linked,after.namesOf] at named
  rcases named dir with rfl | ⟨e,_,inside⟩
  · exact exact'.linked_root zero
  · exact exact'.linked_kid inside zero

/-- If no directory that is in use is ever removed and no inode gets more than 32767 links, then
every link count is the number of entries, and what is allocated but not in use can be reached
from the root. -/
theorem links_counted (formed : WellFormed sb image) (right : ∀ i, (namesOf sb image).typ i ≠ 0 →
      (namesOf sb image).nlink i = (namesOf sb image).entryLinks sb.ninodes i ∧ (namesOf sb image).Reach i)
    {calls : List (Nat × Call)} (ran : run (step sb) (boot sb image) calls = some s)
    (always : Always (step sb) (fun t => DirsLinked sb t ∧ FewLinks sb t) (boot sb image) calls) (i : Nat)
    (typed : (namesOf sb s.disk).typ i ≠ 0) :
    (namesOf sb s.disk).nlink i = (namesOf sb s.disk).entryLinks sb.ninodes i ∧
    ((∀ k < ninode, (s.itable k).ref ≠ 0 → (s.itable k).inum ≠ i) → (namesOf sb s.disk).Reach i) := by
  obtain ⟨exact,alive⟩ := formed.tree.exact formed.range.typed (fun i typed => (right i typed).2)
    fun i typed => (right i typed).1
  have start : Counted sb (boot sb image) := by
    refine ⟨_,_,_,_,boot_view formed.layout formed.sound formed.range (fun i typed zero => ?_),
      boot_handles (tDir_ne formed.tree.root),exact,alive⟩
    exact absurd zero (formed.tree.linked_of_reach (right i typed).2)
  obtain ⟨⟨T,N,R,L,view,handles,exact,alive⟩,_⟩ := run_invariant_always (Counted sb)
    (fun _ _ _ before after counted stepped => counted.step formed.layout formed.small before.2 after.1 stepped)
    start always ran
  rw [view.namesOf] at typed ⊢
  refine ⟨exact.nlink_eq alive view.range.typed typed,fun loose => exact.reach alive fun zero => ?_⟩
  rcases view.kept i typed zero with none | ⟨k,locked⟩
  · exact none
  have member := view.held locked
  exact loose k (view.slot_lt member) ((view.ref_ne (view.slot_lt member)).mpr ⟨i,member,(view.slot member).2⟩)
    (view.slot member).2

theorem links_counted_nested : ∃ s, run (step smallSb) (boot smallSb nested)
      [(0,.mkdir (some [99])),(0,.unlink (some [97,47,98]))] = some s ∧ (namesOf smallSb s.disk).typ 2 ≠ 0 ∧
    (namesOf smallSb s.disk).nlink 2 = (namesOf smallSb s.disk).entryLinks smallSb.ninodes 2 ∧
    ((∀ k < ninode, (s.itable k).ref ≠ 0 → (s.itable k).inum ≠ 2) → (namesOf smallSb s.disk).Reach 2) := by
  exact reaches (fun s => (namesOf smallSb s.disk).typ 2 ≠ 0) (by decide +kernel) fun s ran typed =>
    ⟨typed,links_counted nested_formed nested_counted ran (by decide +kernel) 2 typed⟩

/-- A process in `/a/b` removes `b`, makes a directory in it and leaves. The link from the new
directory keeps `b` allocated, but nothing leads to it any more. -/
theorem directory_orphaned : WellFormed smallSb nested ∧ (∀ i, (namesOf smallSb nested).typ i ≠ 0 →
      (namesOf smallSb nested).nlink i = (namesOf smallSb nested).entryLinks smallSb.ninodes i ∧
        (namesOf smallSb nested).Reach i) ∧
    ∃ s, run (step smallSb) (boot smallSb nested)
      [(0,.chdir (some [97,47,98])),(0,.unlink (some [46,46,47,98])),(0,.mkdir (some [120])),(0,.chdir (some [47]))] =
        some s ∧ (namesOf smallSb s.disk).typ 3 ≠ 0 ∧
      (∀ k < ninode, (s.itable k).ref ≠ 0 → (s.itable k).inum ≠ 3) ∧ ¬(namesOf smallSb s.disk).Reach 3 := by
  exact ⟨nested_formed,nested_counted,reaches (fun s => (namesOf smallSb s.disk).typ 3 ≠ 0 ∧
    (∀ k < ninode, (s.itable k).ref ≠ 0 → (s.itable k).inum ≠ 3) ∧
    ∀ d ∈ ([1,2] : List Nat), ∀ e ∈ (namesOf smallSb s.disk).ents d, e.inum ≠ 0 → e.inum ∈ [1,2]) (by decide +kernel)
    fun s ran ⟨typed,loose,closed⟩ => ⟨typed,loose,fun reach => absurd (reach.mem (by decide) closed) (by decide)⟩⟩

end Xv6.Fs
