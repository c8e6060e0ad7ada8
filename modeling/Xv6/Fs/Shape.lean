import Xv6.Fs.Names
import Mathlib.Tactic.Tauto

/-! The shape of the name space: the directories are a tree under the root. -/
namespace Xv6.Fs

open Function

/-- No two entries in use have one name. -/
def Distinct (l : List Dirent) : Prop :=
  ∀ (j k : Nat) (e f : Dirent), l[j]? = some e → l[k]? = some f → e.inum ≠ 0 → f.inum ≠ 0 → e.name = f.name → j = k

variable {l : List Dirent} {e : Dirent}

theorem getElem?_put {k : Nat} (bound : k ≤ l.length) (e : Dirent) (j : Nat) :
    (put l k e)[j]? = if j = k then some e else l[j]? := by
  unfold put
  split
  · rename_i inside
    rw [List.getElem?_set]
    by_cases here : k = j
    · simp [← here,inside]
    · simp [here,Ne.symm here]
  · rename_i outside
    have last : k = l.length := by omega
    rw [List.getElem?_append,last]
    by_cases here : j = l.length
    · simp [here]
    · by_cases before : j < l.length
      · simp [here,before]
      · rw [if_neg before,if_neg here,List.getElem?_eq_none (by simp; omega),List.getElem?_eq_none (by omega)]

theorem Distinct.put {k : Nat} (distinct : Distinct l) (bound : k ≤ l.length)
    (fresh : ∀ f ∈ l, f.inum ≠ 0 → f.name ≠ e.name) : Distinct (put l k e) := by
  intro a b f g at_ bt usedF usedG same
  rw [getElem?_put bound] at at_ bt
  split at at_ <;> split at bt
  · omega
  · cases at_
    exact absurd same.symm (fresh g (List.mem_of_getElem? bt) usedG)
  · cases bt
    exact absurd same (fresh f (List.mem_of_getElem? at_) usedF)
  · exact distinct a b f g at_ bt usedF usedG same

theorem getElem?_clear {k j : Nat} (ne : j ≠ k) : (l.set k ⟨0,[]⟩)[j]? = l[j]? := by
  rw [List.getElem?_set,if_neg (Ne.symm ne)]

theorem mem_clear {k : Nat} (member : e ∈ l.set k ⟨0,[]⟩) (used : e.inum ≠ 0) : e ∈ l := by
  rcases List.mem_or_eq_of_mem_set member with old | rfl
  · exact old
  · exact absurd rfl used

theorem Distinct.clear (distinct : Distinct l) (k : Nat) : Distinct (l.set k ⟨0,[]⟩) := by
  have old (j : Nat) (e : Dirent) (at_ : (l.set k ⟨0,[]⟩)[j]? = some e) (used : e.inum ≠ 0) : l[j]? = some e := by
    obtain rfl | here := eq_or_ne j k
    · rw [List.getElem?_set] at at_
      simp only [if_true] at at_
      split at at_
      · cases at_
        exact absurd rfl used
      · exact absurd at_ (by simp)
    · rwa [getElem?_clear here] at at_
  intro a b f g at_ bt usedF usedG same
  exact distinct a b f g (old a f at_ usedF) (old b g bt usedG) usedF usedG same

theorem distinct_dots (i p : Nat) : Distinct [⟨i,dot⟩,⟨p,dotdot⟩] := by
  intro a b e f at_ bt _ _ same
  match a, b with
  | 0, 0 => rfl
  | 1, 1 => rfl
  | 0, 1 =>
    cases at_
    cases bt
    exact absurd same (show dot ≠ dotdot by decide)
  | 1, 0 =>
    cases at_
    cases bt
    exact absurd same (show dotdot ≠ dot by decide)
  | a + 2, _ => simp at at_
  | _, b + 2 => simp at bt

namespace Names

/-- Reachable from the root through entries. -/
inductive Reach (N : Names) : Nat → Prop
  | root : Reach N rootino
  | entry {d : Nat} {e : Dirent} (above : Reach N d) (member : e ∈ N.ents d) (used : e.inum ≠ 0) : Reach N e.inum

/-- Reachable without going through `.` and `..`. -/
inductive Below (N : Names) : Nat → Prop
  | root : Below N rootino
  | kid {d c : Nat} (above : Below N d) (member : c ∈ N.kids d) : Below N c

/-- The directories are a tree under the root. -/
structure Shape (N : Names) : Prop where
  null : N.typ 0 = 0
  root : N.typ rootino = tDir
  top : (N.ents rootino)[1]? = some ⟨rootino,dotdot⟩
  plain : ∀ i, N.typ i ≠ tDir → N.ents i = []
  self : ∀ d, N.typ d = tDir → (N.ents d)[0]? = some ⟨d,dot⟩
  parent : ∀ d, N.typ d = tDir → ∃ p, p ≠ 0 ∧ (N.ents d)[1]? = some ⟨p,dotdot⟩
  distinct : ∀ d, Distinct (N.ents d)
  named : ∀ d, ∀ e ∈ N.ents d, e.inum ≠ 0 → e.name ≠ []
  typed : ∀ d, ∀ c ∈ N.kids d, N.typ c ≠ 0
  up : ∀ d, ∀ c ∈ N.kids d, N.typ c = tDir → c ≠ rootino ∧ (N.ents c)[1]? = some ⟨d,dotdot⟩
  once : ∀ d c, N.typ c = tDir → (N.kids d).count c ≤ 1

/-- In `N'` the directory `d` has one child more. -/
structure Adds (N : Names) (d x : Nat) (N' : Names) : Prop where
  here : (N'.kids d).Perm (x :: N.kids d)
  others : ∀ e, e ≠ d → N'.kids e = N.kids e

variable {N N' : Names} {held : Set Nat} {d k i c x : Nat}

namespace Adds

theorem mem (adds : Adds N d x N') {e : Nat} : c ∈ N'.kids e ↔ c ∈ N.kids e ∨ e = d ∧ c = x := by
  obtain rfl | here := eq_or_ne e d
  · rw [adds.here.mem_iff,List.mem_cons]
    tauto
  · rw [adds.others e here]
    tauto

end Adds

namespace Shape

theorem dir_of_entry (shape : N.Shape) (member : e ∈ N.ents d) : N.typ d = tDir := by
  by_contra other
  simp [shape.plain d other] at member

theorem dir_of_kid (shape : N.Shape) (member : c ∈ N.kids d) : N.typ d = tDir := by
  obtain ⟨_,_,_,_,at_,_⟩ := mem_childrenOf.mp member
  exact shape.dir_of_entry (List.mem_of_getElem? at_)

theorem kids_of_other (shape : N.Shape) (other : N.typ d ≠ tDir) : N.kids d = [] :=
  List.eq_nil_iff_forall_not_mem.mpr fun _ member => other (shape.dir_of_kid member)

theorem ne_null (shape : N.Shape) (typed : N.typ i ≠ 0) : i ≠ 0 := by
  rintro rfl
  exact typed shape.null

theorem low_of_vacant (shape : N.Shape) {name : List UInt8} (vacant : N.Vacant d k name) : 2 ≤ k := by
  by_contra low
  obtain rfl | rfl : k = 0 ∨ k = 1 := by omega
  · exact shape.ne_null (by rw [vacant.dir]; decide) (vacant.empty _ (shape.self d vacant.dir))
  · obtain ⟨p,used,at_⟩ := shape.parent d vacant.dir
    exact used (vacant.empty _ at_)

theorem low_of_other (shape : N.Shape) (dir : N.typ d = tDir) (at_ : (N.ents d)[k]? = some e)
    (other : e.name ≠ dot ∧ e.name ≠ dotdot) : 2 ≤ k := by
  by_contra low
  obtain rfl | rfl : k = 0 ∨ k = 1 := by omega
  · rw [shape.self d dir] at at_
    exact other.1 (Option.some.inj at_ ▸ rfl)
  · obtain ⟨p,_,isP⟩ := shape.parent d dir
    rw [isP] at at_
    exact other.2 (Option.some.inj at_ ▸ rfl)

/-! Reachability. -/

theorem below_of_reach (shape : N.Shape) (reach : N.Reach i) : N.Below i := by
  induction reach with
  | root => exact .root
  | @entry d e _ member used ih =>
    have dir := shape.dir_of_entry member
    obtain ⟨k,at_⟩ := List.mem_iff_getElem?.mp member
    match k, at_ with
    | 0, at_ =>
      rw [shape.self d dir] at at_
      exact Option.some.inj at_ ▸ ih
    | 1, at_ =>
      -- `..` leads to the directory that `d` was reached from
      cases ih with
      | root =>
        rw [shape.top] at at_
        exact Option.some.inj at_ ▸ .root
      | kid above inside =>
        rw [(shape.up _ _ inside dir).2] at at_
        exact Option.some.inj at_ ▸ above
    | k + 2, at_ => exact .kid ih (mem_childrenOf.mpr ⟨used,k + 2,e,by omega,at_,rfl⟩)

theorem typed_of_reach (shape : N.Shape) (reach : N.Reach i) : N.typ i ≠ 0 := by
  cases shape.below_of_reach reach with
  | root =>
    rw [shape.root]
    decide
  | kid _ member => exact shape.typed _ _ member

end Shape

namespace Below

theorem reach (below : N.Below i) : N.Reach i := by
  induction below with
  | root => exact .root
  | kid _ member ih =>
    obtain ⟨used,k,e,_,at_,rfl⟩ := mem_childrenOf.mp member
    exact .entry ih (List.mem_of_getElem? at_) used

theorem mono (below : N.Below i) (more : ∀ d, ∀ c ∈ N.kids d, c ∈ N'.kids d) : N'.Below i := by
  induction below with
  | root => exact .root
  | kid _ member ih => exact .kid ih (more _ _ member)

end Below

/-! Changes to the shape. -/

namespace Shape

theorem replace (shape : N.Shape) {type : Nat} {own : List Dirent} (notRoot : rootino ≠ i)
    (unnamed : ∀ d, i ∉ N.kids d) (null : i = 0 → type = 0) (plain : type ≠ tDir → own = [])
    (dots : type = tDir → ∃ p, p ≠ 0 ∧ own = [⟨i,dot⟩,⟨p,dotdot⟩]) (typ : N'.typ = update N.typ i type)
    (ents : N'.ents = update N.ents i own) : N'.Shape := by
  have typ_self : N'.typ i = type := by simp [typ]
  have typ_other {j : Nat} (ne : j ≠ i) : N'.typ j = N.typ j := by simp [typ,ne]
  have ents_self : N'.ents i = own := by simp [ents]
  have ents_other {j : Nat} (ne : j ≠ i) : N'.ents j = N.ents j := by simp [ents,ne]
  have childless : childrenOf own = [] := by
    by_cases dir : type = tDir
    · obtain ⟨p,_,rfl⟩ := dots dir
      rfl
    · rw [plain dir]
      rfl
  have old {d c : Nat} (member : c ∈ N'.kids d) : c ∈ N.kids d := by
    by_cases here : d = i
    · simp [here,kids,ents_self,childless] at member
    · rwa [kids,ents_other here] at member
  have other {d c : Nat} (member : c ∈ N'.kids d) : c ≠ i := by
    rintro rfl
    exact unnamed d (old member)
  refine
    { null := ?_, root := ?_, top := ?_, plain := ?_, self := ?_, parent := ?_, distinct := ?_, named := ?_, typed := ?_,
      up := ?_, once := ?_ }
  · obtain rfl | here := eq_or_ne 0 i
    · rw [typ_self,null rfl]
    · rw [typ_other here,shape.null]
  · rw [typ_other notRoot,shape.root]
  · rw [ents_other notRoot,shape.top]
  · intro j file
    obtain rfl | here := eq_or_ne j i
    · rw [ents_self]
      exact plain (typ_self ▸ file)
    · rw [typ_other here] at file
      rw [ents_other here,shape.plain j file]
  · intro d dir
    obtain rfl | here := eq_or_ne d i
    · obtain ⟨p,_,isOwn⟩ := dots (typ_self ▸ dir)
      rw [ents_self,isOwn]
      rfl
    · rw [typ_other here] at dir
      rw [ents_other here,shape.self d dir]
  · intro d dir
    obtain rfl | here := eq_or_ne d i
    · obtain ⟨p,used,isOwn⟩ := dots (typ_self ▸ dir)
      exact ⟨p,used,by rw [ents_self,isOwn]; rfl⟩
    · rw [typ_other here] at dir
      rw [ents_other here]
      exact shape.parent d dir
  · intro d
    by_cases here : d = i
    · rw [here,ents_self]
      by_cases dir : type = tDir
      · obtain ⟨p,_,rfl⟩ := dots dir
        exact distinct_dots i p
      · rw [plain dir]
        intro a b e f at_
        simp at at_
    · rw [ents_other here]
      exact shape.distinct d
  · intro d e member
    by_cases here : d = i
    · rw [here,ents_self] at member
      by_cases dir : type = tDir
      · obtain ⟨p,_,rfl⟩ := dots dir
        simp only [List.mem_cons,List.not_mem_nil,or_false] at member
        rcases member with rfl | rfl
        · exact fun _ => (show dot ≠ [] by decide)
        · exact fun _ => (show dotdot ≠ [] by decide)
      · simp [plain dir] at member
    · rw [ents_other here] at member
      exact shape.named d e member
  · intro d c member
    rw [typ_other (other member)]
    exact shape.typed d c (old member)
  · intro d c member dir
    rw [typ_other (other member)] at dir
    rw [ents_other (other member)]
    exact shape.up d c (old member) dir
  · intro d c dir
    by_cases named : c ∈ N'.kids d
    · rw [typ_other (other named)] at dir
      by_cases here : d = i
      · simp [here,kids,ents_self,childless] at named
      · rw [kids,ents_other here]
        exact shape.once d c dir
    · rw [List.count_eq_zero.mpr named]
      decide

/-- An entry for `x` in a vacant slot: for a directory it is the only one, in its parent. -/
theorem insert (shape : N.Shape) {name : List UInt8} (vacant : N.Vacant d k name) (typed : N.typ x ≠ 0)
    (fits : N.typ x = tDir → x ≠ rootino ∧ (N.ents x)[1]? = some ⟨d,dotdot⟩ ∧ ∀ e, x ∉ N.kids e)
    (typ : N'.typ = N.typ) (ents : N'.ents = update N.ents d (put (N.ents d) k ⟨x,name⟩)) :
    N'.Shape ∧ Adds N d x N' := by
  have low := shape.low_of_vacant vacant
  have ents_self : N'.ents d = put (N.ents d) k ⟨x,name⟩ := by simp [ents]
  have ents_other {j : Nat} (ne : j ≠ d) : N'.ents j = N.ents j := by simp [ents,ne]
  have first (j l : Nat) (small : l < 2) : (N'.ents j)[l]? = (N.ents j)[l]? := by
    by_cases here : j = d
    · rw [here,ents_self,getElem?_put vacant.bound,if_neg (by omega)]
    · rw [ents_other here]
  have adds : Adds N d x N' := by
    refine ⟨?_,fun e ne => by rw [kids,ents_other ne,kids]⟩
    rw [kids,ents_self]
    exact childrenOf_put low vacant.bound vacant.empty (shape.ne_null typed)
  refine ⟨?_,adds⟩
  refine
    { null := ?_, root := ?_, top := ?_, plain := ?_, self := ?_, parent := ?_, distinct := ?_, named := ?_, typed := ?_,
      up := ?_, once := ?_ }
  · rw [typ,shape.null]
  · rw [typ,shape.root]
  · rw [first _ 1 (by decide),shape.top]
  · intro j file
    have ne : j ≠ d := by
      rintro rfl
      exact file (typ ▸ vacant.dir)
    rw [ents_other ne]
    exact shape.plain j (typ ▸ file)
  · intro j dir
    rw [first j 0 (by decide)]
    exact shape.self j (typ ▸ dir)
  · intro j dir
    rw [first j 1 (by decide)]
    exact shape.parent j (typ ▸ dir)
  · intro j
    by_cases here : j = d
    · rw [here,ents_self]
      exact (shape.distinct d).put vacant.bound vacant.fresh
    · rw [ents_other here]
      exact shape.distinct j
  · intro j e member
    by_cases here : j = d
    · rw [here,ents_self] at member
      rcases mem_put member with old | rfl
      · exact shape.named d e old
      · exact fun _ => vacant.nonempty
    · rw [ents_other here] at member
      exact shape.named j e member
  · intro j c member
    rw [typ]
    rcases adds.mem.mp member with old | ⟨_,rfl⟩
    · exact shape.typed j c old
    · exact typed
  · intro j c member dir
    rw [typ] at dir
    rw [first c 1 (by decide)]
    rcases adds.mem.mp member with old | ⟨rfl,rfl⟩
    · exact shape.up j c old dir
    · exact ⟨(fits dir).1,(fits dir).2.1⟩
  · intro j c dir
    rw [typ] at dir
    obtain rfl | here := eq_or_ne j d
    · rw [adds.here.count_eq,List.count_cons]
      obtain rfl | new := eq_or_ne x c
      · rw [List.count_eq_zero.mpr ((fits dir).2.2 j)]
        simp
      · simpa [new] using shape.once j c dir
    · rw [adds.others j here]
      exact shape.once j c dir

theorem clear (shape : N.Shape) (low : 2 ≤ k) (at_ : (N.ents d)[k]? = some e) (used : e.inum ≠ 0)
    (typ : N'.typ = N.typ) (ents : N'.ents = update N.ents d ((N.ents d).set k ⟨0,[]⟩)) :
    N'.Shape ∧ Adds N' d e.inum N := by
  have ents_self : N'.ents d = (N.ents d).set k ⟨0,[]⟩ := by simp [ents]
  have ents_other {j : Nat} (ne : j ≠ d) : N'.ents j = N.ents j := by simp [ents,ne]
  have first (j l : Nat) (small : l < 2) : (N'.ents j)[l]? = (N.ents j)[l]? := by
    by_cases here : j = d
    · rw [here,ents_self,getElem?_clear (by omega)]
    · rw [ents_other here]
  have adds : Adds N' d e.inum N := by
    refine ⟨?_,fun j ne => by rw [kids,kids,ents_other ne]⟩
    rw [kids,kids,ents_self]
    exact childrenOf_clear low at_ used
  have old {j c : Nat} (member : c ∈ N'.kids j) : c ∈ N.kids j := adds.mem.mpr (.inl member)
  refine ⟨?_,adds⟩
  refine
    { null := ?_, root := ?_, top := ?_, plain := ?_, self := ?_, parent := ?_, distinct := ?_, named := ?_, typed := ?_,
      up := ?_, once := ?_ }
  · rw [typ,shape.null]
  · rw [typ,shape.root]
  · rw [first _ 1 (by decide),shape.top]
  · intro j file
    rw [typ] at file
    by_cases here : j = d
    · rw [here,ents_self,← here,shape.plain j file]
      rfl
    · rw [ents_other here,shape.plain j file]
  · intro j dir
    rw [first j 0 (by decide)]
    exact shape.self j (typ ▸ dir)
  · intro j dir
    rw [first j 1 (by decide)]
    exact shape.parent j (typ ▸ dir)
  · intro j
    by_cases here : j = d
    · rw [here,ents_self]
      exact (shape.distinct d).clear k
    · rw [ents_other here]
      exact shape.distinct j
  · intro j f member some
    by_cases here : j = d
    · rw [here,ents_self] at member
      exact shape.named d f (mem_clear member some) some
    · rw [ents_other here] at member
      exact shape.named j f member some
  · intro j c member
    rw [typ]
    exact shape.typed j c (old member)
  · intro j c member dir
    rw [typ] at dir
    rw [first c 1 (by decide)]
    exact shape.up j c (old member) dir
  · intro j c dir
    rw [typ] at dir
    refine Nat.le_trans ?_ (shape.once j c dir)
    obtain rfl | here := eq_or_ne j d
    · rw [adds.here.count_eq,List.count_cons]
      omega
    · rw [adds.others j here]

end Shape

end Names

end Xv6.Fs
