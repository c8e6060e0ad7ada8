import Xv6.Fs.Shape
import Mathlib.Algebra.Order.BigOperators.Group.Finset

/-! Link counts: how the operations change the links to an inode and its count together, and
what stays reachable. -/
namespace Xv6.Fs.Names

open Function

/-- How often the directories below `n` have `i` as a child. -/
def count (N : Names) (n i : Nat) : Nat := ∑ d ∈ Finset.range n, (N.kids d).count i

def subdirs (N : Names) (i : Nat) : Nat := (N.kids i).countP (N.typ · = tDir)

def links (N : Names) (n i : Nat) : Nat := N.count n i + N.subdirs i + if i = rootino then 1 else 0

/-- No link count is too small, so what can be named is not freed. -/
structure Tree (N : Names) : Prop extends N.Shape where
  unused : ∀ i, N.typ i = 0 → N.nlink i = 0
  enough : ∀ n i, N.links n i ≤ N.nlink i

/-- After a change to the directory `d` the link counts are off by as much as before. -/
structure Balanced (N : Names) (d : Nat) (N' : Names) : Prop where
  shape : N'.Shape
  unused : ∀ i, N'.typ i = 0 → N'.nlink i = 0
  links : ∀ n > d, ∀ i, N'.links n i + N.nlink i = N.links n i + N'.nlink i

/-- From `N` to `N'` the inode lost the way to it from the root; it had no entries besides the
first two. -/
structure Removed (N N' : Names) (x : Nat) : Prop where
  empty : N.kids x = []
  barren : N'.kids x = []
  unnamed : N.typ x = tDir → ∀ d, x ∉ N'.kids d

variable {N N' : Names} {held : Set Nat} {d k i c x : Nat}

theorem count_mono {m n : Nat} (le : m ≤ n) (i : Nat) : N.count m i ≤ N.count n i :=
  Finset.sum_le_sum_of_subset (Finset.range_subset_range.mpr le)

theorem count_pos {n : Nat} (inside : d < n) (member : c ∈ N.kids d) : 0 < N.count n c :=
  Nat.lt_of_lt_of_le (List.count_pos_iff.mpr member)
    (Finset.single_le_sum (f := fun d => (N.kids d).count c) (fun _ _ => Nat.zero_le _) (Finset.mem_range.mpr inside))

theorem links_le {v : Nat} (far : ∀ n > d, N.links n i ≤ v) (n : Nat) : N.links n i ≤ v := by
  refine Nat.le_trans ?_ (far (max n (d + 1)) (by omega))
  have := N.count_mono (Nat.le_max_left n (d + 1)) i
  simp only [links]
  omega

theorem subdirs_same (here : N'.kids i = N.kids i) (same : ∀ c ∈ N.kids i, N'.typ c = N.typ c) :
    N'.subdirs i = N.subdirs i := by
  rw [subdirs,here,subdirs,List.countP_congr fun c member => by rw [same c member]]

theorem Adds.count (adds : Adds N d x N') {n : Nat} (inside : d < n) (i : Nat) :
    N'.count n i = N.count n i + if x = i then 1 else 0 := by
  have member := Finset.mem_range.mpr inside
  rw [Names.count,Names.count,← Finset.add_sum_erase _ _ member,
    ← Finset.add_sum_erase _ (fun e => (N.kids e).count i) member,adds.here.count_eq i,List.count_cons]
  rw [Finset.sum_congr rfl fun e inside => by rw [adds.others e (Finset.ne_of_mem_erase inside)]]
  simp only [beq_iff_eq]
  omega

theorem Adds.subdirs (adds : Adds N d x N') (same : ∀ c ∈ N.kids i, N'.typ c = N.typ c) :
    N'.subdirs i = N.subdirs i + if i = d ∧ N'.typ x = tDir then 1 else 0 := by
  obtain rfl | here := eq_or_ne i d
  · rw [Names.subdirs,adds.here.countP_eq,List.countP_cons,Names.subdirs,
      List.countP_congr fun c member => by rw [same c member]]
    simp
  · rw [subdirs_same (adds.others i here) same]
    simp [here]

namespace Tree

theorem linked_kid (tree : N.Tree) (member : c ∈ N.kids d) : N.nlink c ≠ 0 := by
  have named := count_pos (Nat.lt_add_one d) member
  have := tree.enough (d + 1) c
  simp only [links] at this
  omega

theorem linked_root (tree : N.Tree) : N.nlink rootino ≠ 0 := by
  have := tree.enough 0 rootino
  simp only [links,if_true] at this
  omega

theorem linked_of_reach (tree : N.Tree) (reach : N.Reach i) : N.nlink i ≠ 0 := by
  cases tree.below_of_reach reach with
  | root => exact tree.linked_root
  | kid _ member => exact tree.linked_kid member

theorem closed (tree : N.Tree) : N.Closed { i | N.Reach i } :=
  ⟨fun _ reach => tree.typed_of_reach reach,fun _ reach => tree.linked_of_reach reach,
    fun _ reach _ member used => .entry reach member used⟩

end Tree

theorem Balanced.tree (balanced : Balanced N d N') (tree : N.Tree) : N'.Tree := by
  refine ⟨balanced.shape,balanced.unused,fun n i => links_le (d := d) (fun n far => ?_) n⟩
  have := balanced.links n far i
  have := tree.enough n i
  omega

theorem inc_eq {n : Nat} (few : n < 2 ^ 16 - 1) : inc n = n + 1 := Nat.mod_eq_of_lt (by omega)

theorem dec_eq {n : Nat} (some : 0 < n) (few : n < 2 ^ 16) : dec n = n - 1 := by
  rw [dec]
  omega

/-! The operations. -/

namespace Tree

theorem unnamed (tree : N.Tree) (free : N.typ i = 0) (d : Nat) : i ∉ N.kids d :=
  fun member => tree.typed d i member free

theorem free (tree : N.Tree) (unlinked : N.nlink i = 0) : (N.free i).Tree := by
  have notRoot : rootino ≠ i := by
    rintro rfl
    exact tree.linked_root unlinked
  have unnamed (d : Nat) : i ∉ N.kids d := fun member => tree.linked_kid member unlinked
  have shape : (N.free i).Shape := tree.replace notRoot unnamed (fun _ => rfl) (fun _ => rfl)
    (fun dir => absurd dir (by decide)) rfl rfl
  have kids_self : (N.free i).kids i = [] := by simp [kids,childrenOf]
  have kids_other {d : Nat} (ne : d ≠ i) : (N.free i).kids d = N.kids d := by simp [kids,ne]
  have fewer (d c : Nat) : ((N.free i).kids d).count c ≤ (N.kids d).count c := by
    by_cases here : d = i
    · simp [here,kids_self]
    · rw [kids_other here]
  refine ⟨shape,fun j zero => ?_,fun n j => ?_⟩
  · by_cases here : j = i
    · simp [here]
    · simpa [here] using tree.unused j (by simpa [here] using zero)
  · obtain rfl | here := eq_or_ne j i
    · have none : (N.free j).count n j = 0 := Finset.sum_eq_zero fun d _ =>
        Nat.le_zero.mp (Nat.le_trans (fewer d j) (Nat.le_zero.mpr (List.count_eq_zero.mpr (unnamed d))))
      simp [links,none,subdirs,kids_self,Ne.symm notRoot]
    · have sum : (N.free i).count n j ≤ N.count n j := Finset.sum_le_sum fun d _ => fewer d j
      have sub : (N.free i).subdirs j = N.subdirs j := by
        refine subdirs_same (kids_other here) fun c member => ?_
        have ne : c ≠ i := by
          rintro rfl
          exact unnamed j member
        simp [ne]
      have := tree.enough n j
      simp only [links,sub,free_nlink,update_of_ne here] at this ⊢
      omega

theorem make (tree : N.Tree) {type : Nat} {name : List UInt8} {own : List Dirent} (vacant : N.Vacant d k name)
    (free : N.typ i = 0) (pos : 0 < i) (typed : type ≠ 0) (plain : type ≠ tDir → own = [])
    (dots : type = tDir → i % 2 ^ 16 ≠ 0 → own = [entry i dot,entry d dotdot]) (hi : i < 2 ^ 16) (hd : d < 2 ^ 16)
    (few : N.nlink d < 2 ^ 16 - 1) :
    Balanced N d (N.make d k i type name own) ∧ Adds N d i (N.make d k i type name own) := by
  obtain ⟨N',isN'⟩ : ∃ N', N' = N.make d k i type name own := ⟨_,rfl⟩
  rw [← isN']
  have ne : d ≠ i := by
    rintro rfl
    rw [vacant.dir] at free
    exact absurd free (by decide)
  have notRoot : rootino ≠ i := by
    rintro rfl
    rw [tree.root] at free
    exact absurd free (by decide)
  have used : d ≠ 0 := tree.ne_null (by rw [vacant.dir]; decide)
  have isOwn (dir : type = tDir) : own = [⟨i,dot⟩,⟨d,dotdot⟩] := by
    have whole := Nat.mod_eq_of_lt hi
    rw [dots dir (by omega),entry,entry,whole,Nat.mod_eq_of_lt hd]
  -- first the inode without a name, then its entry
  obtain ⟨M,isM⟩ : ∃ M : Names, M = ⟨update N.typ i type,N'.nlink,update N.ents i own⟩ := ⟨_,rfl⟩
  have shape : M.Shape := tree.replace notRoot (tree.unnamed free) (by omega) plain
    (fun dir => ⟨d,used,isOwn dir⟩) (by rw [isM]) (by rw [isM])
  have kidsM (e : Nat) : M.kids e = N.kids e := by
    by_cases here : e = i
    · rw [here,tree.kids_of_other (by rw [free]; decide),kids,isM]
      simp only [update_self]
      by_cases dir : type = tDir
      · rw [isOwn dir]
        rfl
      · rw [plain dir]
        rfl
    · simp [kids,isM,here]
  have entsM : M.ents d = N.ents d := by simp [isM,ne]
  have vacantM : M.Vacant d k name := by
    refine ⟨?_,?_,?_,?_,vacant.nonempty⟩
    · rw [isM]
      simpa [ne] using vacant.dir
    all_goals rw [entsM]
    · exact vacant.bound
    · exact vacant.empty
    · exact vacant.fresh
  have typM : M.typ i = type := by simp [isM]
  obtain ⟨shape',addsM⟩ : N'.Shape ∧ Adds M d i N' := shape.insert vacantM (by rwa [typM])
    (fun dir => ⟨Ne.symm notRoot,by rw [isM]; simp [isOwn (typM ▸ dir)],fun e => kidsM e ▸ tree.unnamed free e⟩)
    (by rw [isM,isN',Names.make])
    (by rw [entsM,isM,isN',Names.make,entry,Nat.mod_eq_of_lt hi])
  have adds : Adds N d i N' := ⟨kidsM d ▸ addsM.here,fun e other => (addsM.others e other).trans (kidsM e)⟩
  have typ_other {j : Nat} (other : j ≠ i) : N'.typ j = N.typ j := by simp [isN',other]
  refine ⟨⟨shape',fun j zero => ?_,fun n far j => ?_⟩,adds⟩
  · have other : j ≠ i := by
      rintro rfl
      exact typed (by simpa [isN'] using zero)
    rw [typ_other other] at zero
    have notD : j ≠ d := by
      rintro rfl
      rw [vacant.dir] at zero
      exact absurd zero (by decide)
    simpa [isN',other,notD] using tree.unused j zero
  · have sub := adds.subdirs (i := j) fun c member => typ_other fun same => tree.unnamed free j (same ▸ member)
    have type' : N'.typ i = type := by simp [isN']
    rw [Names.links,Names.links,adds.count far j,sub,type']
    obtain rfl | here := eq_or_ne j i
    · have one : N'.nlink j = 1 := by simp [isN',Ne.symm ne]
      rw [one,tree.unused j free]
      simp only [if_true,Ne.symm ne,false_and,if_false]
      omega
    · obtain rfl | parent := eq_or_ne j d
      · have count : N'.nlink j = if type = tDir then N.nlink j + 1 else N.nlink j := by
          simp [isN',inc_eq few]
        rw [count]
        simp only [Ne.symm here,if_false,true_and]
        split <;> omega
      · have count : N'.nlink j = N.nlink j := by simp [isN',here,parent]
        rw [count]
        simp only [Ne.symm here,parent,false_and,if_false]
        omega

theorem link (tree : N.Tree) {name : List UInt8} (vacant : N.Vacant d k name) (typed : N.typ i ≠ 0)
    (file : N.typ i ≠ tDir) (hi : i < 2 ^ 16) (few : N.nlink i < 2 ^ 16 - 1) :
    Balanced N d (N.link d k i name) ∧ Adds N d i (N.link d k i name) := by
  obtain ⟨shape,adds⟩ : (N.link d k i name).Shape ∧ Adds N d i (N.link d k i name) :=
    tree.insert vacant typed (fun dir => absurd dir file) rfl (by
      rw [Names.link,entry,Nat.mod_eq_of_lt hi]
      rfl)
  refine ⟨⟨shape,fun j zero => ?_,fun n far j => ?_⟩,adds⟩
  · have other : j ≠ i := by
      rintro rfl
      exact typed zero
    simpa [Names.link,other] using tree.unused j zero
  · have sub : (N.link d k i name).subdirs j = N.subdirs j := by
      rw [adds.subdirs fun _ _ => rfl,if_neg fun h => file h.2]
      rfl
    rw [Names.links,Names.links,adds.count far j,sub]
    obtain rfl | here := eq_or_ne j i
    · have count : (N.link d k j name).nlink j = N.nlink j + 1 := by simp [Names.link,inc_eq few]
      rw [count]
      simp only [if_true]
      omega
    · have count : (N.link d k i name).nlink j = N.nlink j := by simp [Names.link,here]
      rw [count]
      simp only [Ne.symm here,if_false]
      omega

theorem unlink (tree : N.Tree) {e : Dirent} (dir : N.typ d = tDir) (at_ : (N.ents d)[k]? = some e) (used : e.inum ≠ 0)
    (other : e.name ≠ dot ∧ e.name ≠ dotdot) (typed : N.typ e.inum ≠ 0) (apart : d ≠ e.inum)
    (few : ∀ i, N.nlink i < 2 ^ 16) :
    Balanced N d (N.unlink d k e.inum) ∧ Adds (N.unlink d k e.inum) d e.inum N := by
  obtain ⟨N',isN'⟩ : ∃ N', N' = N.unlink d k e.inum := ⟨_,rfl⟩
  rw [← isN']
  have typ : N'.typ = N.typ := by rw [isN']; rfl
  obtain ⟨shape,adds⟩ := tree.clear (tree.low_of_other dir at_ other) at_ used typ (by rw [isN']; rfl)
  have child : e.inum ∈ N.kids d := adds.mem.mpr (.inr ⟨rfl,rfl⟩)
  refine ⟨⟨shape,fun j zero => ?_,fun n far j => ?_⟩,adds⟩
  · rw [typ] at zero
    have notE : j ≠ e.inum := by
      rintro rfl
      exact typed zero
    have notD : j ≠ d := by
      rintro rfl
      rw [dir] at zero
      exact absurd zero (by decide)
    simpa [isN',Names.unlink,notE,notD] using tree.unused j zero
  · have sub := adds.subdirs (i := j) fun c _ => by rw [typ]
    rw [Names.links,Names.links,adds.count far j,sub]
    by_cases here : j = e.inum
    · have positive := tree.linked_kid child
      have count : N'.nlink j = N.nlink j - 1 := by
        simp [isN',Names.unlink,here,dec_eq (Nat.pos_of_ne_zero positive) (few _)]
      have notD : j ≠ d := here ▸ Ne.symm apart
      rw [count]
      simp only [here.symm,if_true,notD,false_and,if_false]
      rw [← here] at positive
      omega
    · by_cases parent : j = d
      · -- a subdirectory less is a `..` less
        have enough := tree.enough 0 j
        rw [Names.links,sub] at enough
        subst parent
        by_cases isDir : N.typ e.inum = tDir
        · rw [if_pos ⟨rfl,isDir⟩] at enough
          have count : N'.nlink j = N.nlink j - 1 := by
            simp [isN',Names.unlink,here,isDir,dec_eq (show 0 < N.nlink j by omega) (few _)]
          rw [count]
          simp only [Ne.symm here,isDir,if_false,and_self,if_true]
          omega
        · have count : N'.nlink j = N.nlink j := by simp [isN',Names.unlink,here,isDir]
          rw [count]
          simp only [Ne.symm here,isDir,and_false,if_false]
          omega
      · have count : N'.nlink j = N.nlink j := by simp [isN',Names.unlink,here,parent]
        rw [count]
        simp only [Ne.symm here,parent,false_and,if_false]
        omega

end Tree

/-! Whole calls. -/

theorem Frees.tree (frees : N.Frees held N') (tree : N.Tree) : N'.Tree :=
  frees.preserve tree fun _ _ tree _ unlinked => tree.free unlinked

theorem Frees.bounds {a b : Nat} (frees : N.Frees held N') (few : ∀ i, N.nlink i < a) (old : ∀ i, N.typ i ≠ 0 → i < b) :
    (∀ i, N'.nlink i < a) ∧ ∀ i, N'.typ i ≠ 0 → i < b := by
  refine frees.preserve (P := fun M => (∀ i, M.nlink i < a) ∧ ∀ i, M.typ i ≠ 0 → i < b) ⟨few,old⟩
    fun M i h _ unlinked => ⟨fun j => ?_,fun j typed => ?_⟩
  · by_cases here : j = i
    · have := h.1 i
      simp only [free_nlink,here,update_self]
      omega
    · simpa [here] using h.1 j
  · by_cases here : j = i
    · simp [here] at typed
    · exact h.2 j (by simpa [here] using typed)

theorem Frees.kids (frees : N.Frees held N') (member : c ∈ N'.kids d) : c ∈ N.kids d := by
  have fewer : ∀ d c, c ∈ N'.kids d → c ∈ N.kids d := by
    refine frees.preserve (P := fun M => ∀ d c, c ∈ M.kids d → c ∈ N.kids d)
      (fun _ _ => id) fun M i old _ _ d c inside => ?_
    by_cases here : d = i
    · simp [here,Names.kids,childrenOf] at inside
    · exact old d c (by simpa [Names.kids,here] using inside)
  exact fewer d c member

theorem Frees.kids_nil (frees : N.Frees held N') (empty : N.kids d = []) : N'.kids d = [] :=
  List.eq_nil_iff_forall_not_mem.mpr fun c member => by simpa [empty] using frees.kids member

theorem Frees.below (frees : N.Frees held N') (tree : N.Tree) (below : N.Below x) : N'.Below x := by
  induction below with
  | root => exact .root
  | kid above member ih =>
    refine .kid ih ?_
    rwa [Names.kids,(frees.linked (tree.linked_of_reach above.reach)).ents]

namespace Tree

/-- Only the inode that `unlink` is called for can get out of reach. -/
theorem unlink_below (tree : N.Tree) {e : Dirent} (adds : Adds N' d e.inum N) (apart : d ≠ e.inum)
    (empty : N.typ e.inum = tDir → N.kids e.inum = []) (below : N.Below x) : N'.Below x ∨ Removed N N' x := by
  induction below with
  | root => exact .inl .root
  | @kid f c above member ih =>
    rcases ih with old | removed
    · rcases adds.mem.mp member with kept | ⟨rfl,rfl⟩
      · exact .inl (.kid old kept)
      · have childless : N.kids e.inum = [] := by
          by_cases dir : N.typ e.inum = tDir
          · exact empty dir
          · exact tree.kids_of_other dir
        refine .inr ⟨childless,(adds.others _ (Ne.symm apart)).symm.trans childless,fun dir g named => ?_⟩
        -- a second entry would be in the same directory
        have one := (tree.up f _ member dir).2
        rw [(tree.up g _ (adds.mem.mpr (.inl named)) dir).2] at one
        obtain rfl : g = f := (Dirent.mk.inj (Option.some.inj one)).1
        have twice := tree.once g e.inum dir
        rw [adds.here.count_eq,List.count_cons_self] at twice
        exact absurd named (List.count_eq_zero.mp (by omega))
    · rw [removed.empty] at member
      exact absurd member (List.not_mem_nil)

theorem op (tree : N.Tree) (few : ∀ i, N.nlink i < 2 ^ 15) (old : ∀ i, N.typ i ≠ 0 → i < 2 ^ 16)
    (new : ∀ i, N'.typ i ≠ 0 → N'.nlink i ≠ 0 → i < 2 ^ 16) (op : Op N N') :
    N'.Tree ∧ ∀ x, N.Below x → N'.Below x ∨ Removed N N' x := by
  cases op with
  | @make d k i type name vacant free pos typed own plain dots =>
    have ne : i ≠ d := by
      rintro rfl
      rw [vacant.dir] at free
      exact absurd free (by decide)
    have hi : i < 2 ^ 16 := new i (by simpa using typed) (by simp [ne])
    have hd := old d (by rw [vacant.dir]; decide)
    obtain ⟨balanced,adds⟩ := tree.make vacant free pos typed plain dots hi hd (by have := few d; omega)
    exact ⟨balanced.tree tree,fun x below => .inl (below.mono fun _ _ member => adds.mem.mpr (.inl member))⟩
  | @link d k i name vacant typed file =>
    obtain ⟨balanced,adds⟩ := tree.link vacant typed file (old i typed) (by have := few i; omega)
    exact ⟨balanced.tree tree,fun x below => .inl (below.mono fun _ _ member => adds.mem.mpr (.inl member))⟩
  | @unlink d k e dir at_ used other typed apart linked small empty =>
    obtain ⟨balanced,adds⟩ := tree.unlink dir at_ used other typed apart fun i => by have := few i; omega
    exact ⟨balanced.tree tree,fun x below => tree.unlink_below adds apart empty below⟩

/-- What one system call does to the tree. -/
theorem effect (tree : N.Tree) (few : ∀ i, N.nlink i < 2 ^ 15) (old : ∀ i, N.typ i ≠ 0 → i < 2 ^ 16)
    (new : ∀ i, N'.typ i ≠ 0 → i < 2 ^ 16) (effect : N.Effect held N') :
    N'.Tree ∧ ∀ x, N.Reach x → N'.Reach x ∨ Removed N N' x := by
  obtain ⟨N₁,N₂,before,op,after⟩ := effect
  have tree₁ := before.tree tree
  obtain ⟨few₁,old₁⟩ : (∀ i, N₁.nlink i < 2 ^ 15) ∧ ∀ i, N₁.typ i ≠ 0 → i < 2 ^ 16 := before.bounds few old
  have middle : N₂.Tree ∧ ∀ x, N₁.Below x → N₂.Below x ∨ Removed N₁ N₂ x := by
    rcases op with rfl | op
    · exact ⟨tree₁,fun _ => .inl⟩
    · refine tree₁.op few₁ old₁ (fun i typed linked => new i ?_) op
      rwa [(after.linked linked).typ]
  refine ⟨after.tree middle.1,fun x reach => ?_⟩
  have same := before.linked (tree.linked_of_reach reach)
  rcases middle.2 x (before.below tree (tree.below_of_reach reach)) with stays | removed
  · exact .inl (after.below middle.1 stays).reach
  · refine .inr ⟨?_,after.kids_nil removed.barren,fun dir d member => ?_⟩
    · rw [← removed.empty,Names.kids,Names.kids,same.ents]
    · exact removed.unnamed (same.typ ▸ dir) d (after.kids member)

end Tree

end Xv6.Fs.Names
