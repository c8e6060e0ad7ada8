import Xv6.Fs.Tree

/-! Link counts that are right and directories that are all reachable. Both last as long as no
directory is used after its removal. -/
namespace Xv6.Fs.Names

open Function

/-- Every link count is the number of links, and the directories that have links are reachable. -/
structure Exact (n : Nat) (N : Names) : Prop extends N.Tree where
  exact : ∀ i, N.links n i = N.nlink i
  barren : ∀ d, N.nlink d = 0 → N.kids d = []
  connected : ∀ d, N.typ d = tDir → N.nlink d ≠ 0 → N.Reach d

/-- The entries of the directory `d` that count as links to `i`: all but `.` and the `..` of
the root. -/
def linksFrom (N : Names) (i d : Nat) : Nat :=
  (N.ents d).countP fun e => e.inum = i ∧ e.name ≠ dot ∧ ¬(d = rootino ∧ e.name = dotdot)

/-- The links to `i` over all directories, and one for the root. -/
def entryLinks (N : Names) (n i : Nat) : Nat := ∑ d ∈ Finset.range n, N.linksFrom i d + if i = rootino then 1 else 0

/-- No directory is without links. -/
def Alive (N : Names) : Prop := ∀ d, N.typ d = tDir → N.nlink d ≠ 0

variable {N N' : Names} {held : Set Nat} {n d k i : Nat}

theorem Frees.alive (frees : N.Frees held N') (alive : N.Alive) : N'.Alive := by
  refine frees.preserve (P := Alive) alive fun M i alive typed unlinked d dir => ?_
  obtain rfl | here := eq_or_ne d i
  · simp only [free_typ,update_self] at dir
    exact absurd dir (by decide)
  · have := alive d (by simpa [here] using dir)
    simpa [here] using this

namespace Exact

theorem free (exact : N.Exact n) (unlinked : N.nlink i = 0) : (N.free i).Exact n := by
  have tree := exact.toTree.free unlinked
  have kids (d : Nat) : (N.free i).kids d = N.kids d := by
    by_cases here : d = i
    · rw [here,exact.barren i unlinked]
      simp [Names.kids,childrenOf]
    · simp [Names.kids,here]
  refine ⟨tree,fun j => ?_,fun d zero => ?_,fun d dir linked => ?_⟩
  · by_cases here : j = i
    · have none := tree.enough n j
      simp only [here,free_nlink,update_self] at none ⊢
      omega
    · have sub : (N.free i).subdirs j = N.subdirs j := by
        refine subdirs_same (kids j) fun c member => ?_
        have ne : c ≠ i := by
          rintro rfl
          exact exact.linked_kid member unlinked
        simp [ne]
      have := exact.exact j
      simp only [links,count,kids,sub,free_nlink,update_of_ne here] at this ⊢
      exact this
  · rw [kids]
    by_cases here : d = i
    · exact exact.barren d (here ▸ unlinked)
    · exact exact.barren d (by simpa [here] using zero)
  · have ne : d ≠ i := by
      rintro rfl
      simp at linked
    have reach := exact.connected d (by simpa [ne] using dir) (by simpa [ne] using linked)
    exact ((exact.below_of_reach reach).mono fun e c member => by rwa [kids]).reach

/-- While no directory is without links, an operation keeps the counts right. -/
theorem op (exact : N.Exact n) (alive : N.Alive) (few : ∀ i, N.nlink i < 2 ^ 15) (range : ∀ i, N.typ i ≠ 0 → i < n)
    (small : n ≤ 2 ^ 16) (new : ∀ i, N'.typ i ≠ 0 → N'.nlink i ≠ 0 → i < 2 ^ 16) (op : Op N N') : N'.Exact n := by
  have old (i : Nat) (typed : N.typ i ≠ 0) : i < 2 ^ 16 := Nat.lt_of_lt_of_le (range i typed) small
  obtain ⟨tree,stays⟩ := exact.toTree.op few old new op
  -- the counts follow the links in each of the three cases
  have keeps {d : Nat} (dir : N.typ d = tDir) (balanced : Balanced N d N') (i : Nat) : N'.links n i = N'.nlink i := by
    have := balanced.links n (range d (by rw [dir]; decide)) i
    have := exact.exact i
    omega
  have linked (d : Nat) (dir : N.typ d = tDir) : N'.Below d ∨ Removed N N' d :=
    stays d (exact.below_of_reach (exact.connected d dir (alive d dir)))
  -- a directory that is removed is left without links and without children
  have removed {d : Nat} (dir : N.typ d = tDir) (right : ∀ i, N'.links n i = N'.nlink i) :
      N'.Reach d ∨ N'.nlink d = 0 ∧ N'.kids d = [] := by
    rcases linked d dir with below | removed
    · exact .inl below.reach
    · by_cases isRoot : d = rootino
      · exact .inl (isRoot ▸ .root)
      · refine .inr ⟨?_,removed.barren⟩
        have none : N'.count n d = 0 := Finset.sum_eq_zero fun e _ => List.count_eq_zero.mpr (removed.unnamed dir e)
        rw [← right d,links,none,subdirs,removed.barren,if_neg isRoot]
        rfl
  have barren (right : ∀ i, N'.links n i = N'.nlink i) (d : Nat) (zero : N'.nlink d = 0)
      (known : N'.typ d = tDir → N.typ d = tDir) : N'.kids d = [] := by
    by_cases dir : N'.typ d = tDir
    · rcases removed (known dir) right with reach | gone
      · exact absurd zero (tree.linked_of_reach reach)
      · exact gone.2
    · exact tree.kids_of_other dir
  cases op with
  | @make d k i type name vacant free pos typed own plain dots =>
    have ne : i ≠ d := by
      rintro rfl
      rw [vacant.dir] at free
      exact absurd free (by decide)
    have one : (N.make d k i type name own).nlink i = 1 := by simp [ne]
    have known {e : Nat} (other : e ≠ i) (dir : (N.make d k i type name own).typ e = tDir) : N.typ e = tDir := by
      simpa [other] using dir
    have hi : i < 2 ^ 16 := new i (by simpa using typed) (by rw [one]; decide)
    obtain ⟨balanced,adds⟩ := exact.toTree.make vacant free pos typed plain dots hi
      (old d (by rw [vacant.dir]; decide)) (by have := few d; omega)
    have right := keeps vacant.dir balanced
    refine ⟨tree,right,fun e zero => ?_,fun e dir nonzero => ?_⟩
    · have other : e ≠ i := by
        rintro rfl
        rw [one] at zero
        exact absurd zero (by decide)
      exact barren right e zero (known other)
    · by_cases here : e = i
      · have above := exact.below_of_reach (exact.connected d vacant.dir (alive d vacant.dir))
        have above := above.mono fun _ _ member => adds.mem.mpr (.inl member)
        exact here ▸ (Below.kid above (adds.mem.mpr (.inr ⟨rfl,rfl⟩))).reach
      · rcases removed (known here dir) right with reach | gone
        · exact reach
        · exact absurd gone.1 nonzero
  | @link d k i name vacant typed file =>
    obtain ⟨balanced,adds⟩ := exact.toTree.link vacant typed file (old i typed) (by have := few i; omega)
    have right := keeps vacant.dir balanced
    refine ⟨tree,right,fun e zero => barren right e zero id,fun e dir nonzero => ?_⟩
    rcases removed dir right with reach | gone
    · exact reach
    · exact absurd gone.1 nonzero
  | @unlink d k e dir at_ used other typed apart linked small empty =>
    obtain ⟨balanced,adds⟩ := exact.toTree.unlink dir at_ used other typed apart fun i => by have := few i; omega
    have right := keeps dir balanced
    refine ⟨tree,right,fun f zero => barren right f zero id,fun f isDir nonzero => ?_⟩
    rcases removed isDir right with reach | gone
    · exact reach
    · exact absurd gone.1 nonzero

theorem effect (exact : N.Exact n) (alive : N.Alive) (few : ∀ i, N.nlink i < 2 ^ 15) (range : ∀ i, N.typ i ≠ 0 → i < n)
    (small : n ≤ 2 ^ 16) (new : ∀ i, N'.typ i ≠ 0 → i < 2 ^ 16) (effect : N.Effect held N') : N'.Exact n := by
  obtain ⟨N₁,N₂,before,op,after⟩ := effect
  obtain ⟨few₁,range₁⟩ := before.bounds few range
  have exact₁ : N₁.Exact n := before.preserve exact fun _ _ exact _ unlinked => exact.free unlinked
  have exact₂ : N₂.Exact n := by
    rcases op with rfl | op
    · exact exact₁
    · refine exact₁.op (before.alive alive) few₁ range₁ small (fun i typed linked => new i ?_) op
      rwa [(after.linked linked).typ]
  exact after.preserve exact₂ fun _ _ exact _ unlinked => exact.free unlinked

end Exact

/-! The count of the entries. -/

theorem count_childrenOf {l : List Dirent} (used : i ≠ 0) : (childrenOf l).count i = (l.drop 2).countP (·.inum = i) := by
  rw [childrenOf,List.count_filter (by simpa using used),List.count_eq_countP,List.countP_map]
  exact List.countP_congr fun e _ => by simp

theorem Shape.linksFrom (shape : N.Shape) (dir : N.typ d = tDir) (used : i ≠ 0) :
    N.linksFrom i d = (N.kids d).count i + if d ≠ rootino ∧ (N.ents d)[1]? = some ⟨i,dotdot⟩ then 1 else 0 := by
  obtain ⟨p,nonzero,second⟩ := shape.parent d dir
  have first := shape.self d dir
  have distinct := shape.distinct d
  rw [Names.linksFrom,Names.kids,count_childrenOf used]
  rcases shapeOf : N.ents d with _ | ⟨a,_ | ⟨b,rest⟩⟩
  · simp [shapeOf] at first
  · simp [shapeOf] at second
  rw [shapeOf] at first second distinct
  obtain rfl : a = ⟨d,dot⟩ := Option.some.inj first
  obtain rfl : b = ⟨p,dotdot⟩ := Option.some.inj second
  have others (e : Dirent) (member : e ∈ rest) (counts : e.inum = i) : e.name ≠ dot ∧ e.name ≠ dotdot := by
    obtain ⟨k,at_⟩ := List.mem_iff_getElem?.mp member
    have at_ : (⟨d,dot⟩ :: ⟨p,dotdot⟩ :: rest : List Dirent)[k + 2]? = some e := at_
    have isUsed : e.inum ≠ 0 := counts ▸ used
    refine ⟨fun same => ?_,fun same => ?_⟩
    · have := distinct (k + 2) 0 e ⟨d,dot⟩ at_ rfl isUsed (shape.ne_null (by rw [dir]; decide)) same
      omega
    · have := distinct (k + 2) 1 e ⟨p,dotdot⟩ at_ rfl isUsed nonzero same
      omega
  have tail : rest.countP (fun e => e.inum = i ∧ e.name ≠ dot ∧ ¬(d = rootino ∧ e.name = dotdot)) =
      rest.countP (·.inum = i) := by
    refine List.countP_congr fun e member => ?_
    simp only [decide_eq_true_eq]
    exact ⟨fun h => h.1,fun h => ⟨h,(others e member h).1,fun both => (others e member h).2 both.2⟩⟩
  have different : dotdot ≠ dot := by decide
  rw [List.countP_cons,List.countP_cons,tail]
  simp [different,and_comm]

section Connected

variable (shape : N.Shape) (connected : ∀ d, N.typ d = tDir → N.Reach d)

include shape connected

theorem parent_iff :
    N.typ d = tDir ∧ d ≠ rootino ∧ (N.ents d)[1]? = some ⟨i,dotdot⟩ ↔ d ∈ N.kids i ∧ N.typ d = tDir := by
  constructor
  · rintro ⟨dir,other,at_⟩
    refine ⟨?_,dir⟩
    cases shape.below_of_reach (connected d dir) with
    | root => exact absurd rfl other
    | kid _ member =>
      rw [(shape.up _ _ member dir).2] at at_
      obtain rfl := (Dirent.mk.inj (Option.some.inj at_)).1
      exact member
  · rintro ⟨member,dir⟩
    exact ⟨dir,shape.up i d member dir⟩

/-- As many `..` lead to a directory as it has subdirectories. -/
theorem sum_parents (range : ∀ i, N.typ i ≠ 0 → i < n) :
    (∑ d ∈ Finset.range n, if N.typ d = tDir ∧ d ≠ rootino ∧ (N.ents d)[1]? = some ⟨i,dotdot⟩ then 1 else 0) =
      N.subdirs i := by
  have nodup : ((N.kids i).filter (N.typ · = tDir)).Nodup := by
    refine List.nodup_iff_count_le_one.mpr fun c => ?_
    by_cases dir : N.typ c = tDir
    · exact Nat.le_trans (List.Sublist.count_le c List.filter_sublist) (shape.once i c dir)
    · rw [List.count_eq_zero.mpr (by simp [dir])]
      decide
  rw [← Finset.sum_filter,← Finset.card_eq_sum_ones,subdirs,List.countP_eq_length_filter,
    ← List.toFinset_card_of_nodup nodup]
  congr 1
  ext c
  rw [Finset.mem_filter,parent_iff shape connected,List.mem_toFinset,List.mem_filter,Finset.mem_range]
  refine ⟨fun h => by simpa using h.2,fun h => ?_⟩
  have h : c ∈ N.kids i ∧ N.typ c = tDir := by simpa using h
  exact ⟨range c (by rw [h.2]; decide),h⟩

/-- If all directories are reachable, the links to an inode are the entries that name it. -/
theorem entryLinks_eq (range : ∀ i, N.typ i ≠ 0 → i < n) (used : i ≠ 0) : N.entryLinks n i = N.links n i := by
  have each (d : Nat) : N.linksFrom i d = (N.kids d).count i +
      if N.typ d = tDir ∧ d ≠ rootino ∧ (N.ents d)[1]? = some ⟨i,dotdot⟩ then 1 else 0 := by
    by_cases dir : N.typ d = tDir
    · simp only [shape.linksFrom dir used,dir,true_and]
    · rw [Names.linksFrom,shape.plain d dir,shape.kids_of_other dir]
      simp [dir]
  rw [entryLinks,Finset.sum_congr rfl fun d _ => each d,Finset.sum_add_distrib,sum_parents shape connected range,
    links,count]

end Connected

theorem Tree.exact (tree : N.Tree) (range : ∀ i, N.typ i ≠ 0 → i < n) (reach : ∀ i, N.typ i ≠ 0 → N.Reach i)
    (counted : ∀ i, N.typ i ≠ 0 → N.nlink i = N.entryLinks n i) : N.Exact n ∧ N.Alive := by
  have linked (i : Nat) (typed : N.typ i ≠ 0) : N.nlink i ≠ 0 := tree.linked_of_reach (reach i typed)
  have typed {d : Nat} (dir : N.typ d = tDir) : N.typ d ≠ 0 := by
    rw [dir]
    decide
  refine ⟨⟨tree,fun i => ?_,fun d zero => tree.kids_of_other fun dir => linked d (typed dir) zero,
    fun d dir _ => reach d (typed dir)⟩,fun d dir => linked d (typed dir)⟩
  by_cases free : N.typ i = 0
  · have := tree.enough n i
    have := tree.unused i free
    omega
  · rw [counted i free,entryLinks_eq tree.toShape (fun d dir => reach d (typed dir)) range (tree.ne_null free)]

namespace Exact

/-- The link count of an inode is the number of entries that name it. -/
theorem nlink_eq (exact : N.Exact n) (alive : N.Alive) (range : ∀ i, N.typ i ≠ 0 → i < n) (typed : N.typ i ≠ 0) :
    N.nlink i = N.entryLinks n i := by
  rw [entryLinks_eq exact.toShape (fun d dir => exact.connected d dir (alive d dir)) range (exact.ne_null typed),
    exact.exact i]

theorem reach (exact : N.Exact n) (alive : N.Alive) (linked : N.nlink i ≠ 0) : N.Reach i := by
  by_cases dir : N.typ i = tDir
  · exact exact.connected i dir linked
  · have other : i ≠ rootino := by
      rintro rfl
      exact dir exact.root
    have named : N.count n i ≠ 0 := by
      have := exact.exact i
      rw [links,subdirs,exact.kids_of_other dir,if_neg other] at this
      simp only [List.countP_nil,Nat.add_zero] at this
      omega
    obtain ⟨d,_,some⟩ := Finset.exists_ne_zero_of_sum_ne_zero named
    have member := List.count_pos_iff.mp (Nat.pos_of_ne_zero some)
    have above := exact.dir_of_kid member
    exact (Below.kid (exact.below_of_reach (exact.connected d above (alive d above))) member).reach

end Exact

end Xv6.Fs.Names
