import Mathlib.Data.List.Chain
import Mathlib.Data.List.Nodup
import Mathlib.Data.List.Perm.Basic
import Mathlib.Logic.Function.Basic

/-! Circular doubly linked lists through a head, kept as two link functions on nodes. -/
namespace Linked

open Function

variable {α : Type}

structure Links (α : Type) where
  next : α → α
  prev : α → α

namespace Links

/-- Two nodes that follow each other. -/
def Joined (l : Links α) (a b : α) : Prop := l.next a = b ∧ l.prev b = a

variable [DecidableEq α]

def push (l : Links α) (head b : α) : Links α where
  next := update (update l.next b (l.next head)) head b
  prev := update (update l.prev b head) (l.next head) b

/-- The neighbours of `b` are joined; its own links stay. -/
def unlink (l : Links α) (b : α) : Links α :=
  let prev := update l.prev (l.next b) (l.prev b)
  ⟨update l.next (prev b) (l.next b),prev⟩

end Links

/-- Going round from `head` there are the nodes `xs`. -/
structure Circle (l : Links α) (head : α) (xs : List α) : Prop where
  joined : (head :: (xs ++ [head])).IsChain l.Joined
  nodup : (head :: xs).Nodup

/-- The first node from `x` on with `P`, as a loop finds it that ends at `stop`. -/
def scan [DecidableEq α] (step : α → α) (stop : α) (P : α → Bool) : Nat → α → Option (Option α)
  | 0, _ => none
  | fuel + 1, x => if x = stop then some none else if P x then some (some x) else scan step stop P fuel (step x)

variable {l : Links α} {head b : α} {xs : List α}

theorem prev_next {ys : List α} (chain : ys.IsChain l.Joined) : ∀ x ∈ ys.dropLast, l.prev (l.next x) = x := by
  induction chain with
  | nil => simp
  | singleton => simp
  | cons_cons joined _ ih =>
    intro x member
    rcases List.mem_cons.mp member with rfl | member
    · rw [joined.1,joined.2]
    · exact ih x member

theorem next_prev {ys : List α} (chain : ys.IsChain l.Joined) : ∀ x ∈ ys.tail, l.next (l.prev x) = x := by
  induction chain with
  | nil => simp
  | singleton => simp
  | cons_cons joined _ ih =>
    intro x member
    rcases List.mem_cons.mp member with rfl | member
    · rw [joined.2,joined.1]
    · exact ih x member

namespace Circle

theorem inverse (circle : Circle l head xs) {x : α} (member : x ∈ head :: xs) :
    l.prev (l.next x) = x ∧ l.next (l.prev x) = x := by
  refine ⟨prev_next circle.joined x ?_,next_prev circle.joined x ?_⟩
  · rwa [← List.cons_append,List.dropLast_concat]
  · simpa [or_comm] using member

theorem next_head (circle : Circle l head xs) : l.next head = xs.headD head := by
  have joined := circle.joined
  cases xs with
  | nil | cons x xs => exact (List.isChain_cons_cons.mp joined).1.1

theorem empty (next : l.next head = head) (prev : l.prev head = head) : Circle l head [] :=
  ⟨List.isChain_cons_cons.mpr ⟨⟨next,prev⟩,List.isChain_singleton _⟩,by simp⟩

end Circle

section Scan

variable [DecidableEq α] {step : α → α} {P : α → Bool}

/-- A loop over a list that ends at `head` finds what there is, whatever fuel is left over. -/
theorem scan_eq {ys : List α} (chain : (ys ++ [head]).IsChain fun a b => step a = b) (outside : head ∉ ys) {fuel : Nat}
    (enough : ys.length < fuel) : scan step head P fuel (ys.headD head) = some (ys.find? P) := by
  induction ys generalizing fuel with
  | nil =>
    obtain ⟨fuel,rfl⟩ := Nat.exists_eq_add_of_lt enough
    simp [scan]
  | cons y ys ih =>
    cases fuel with
    | zero => simp at enough
    | succ fuel =>
      have apart : y ≠ head := fun same => outside (same ▸ List.mem_cons_self)
      have next : step y = ys.headD head := by
        cases ys with
        | nil | cons z ys => exact (List.isChain_cons_cons.mp chain).1
      have rest := ih (List.IsChain.tail chain) (fun member => outside (List.mem_cons_of_mem y member))
        (by simpa using enough)
      simp only [List.headD_cons,scan,apart,if_false,List.find?_cons,next,rest]
      cases P y <;> rfl

theorem Circle.scan_next (circle : Circle l head xs) {fuel : Nat} (enough : xs.length < fuel) :
    scan l.next head P fuel (l.next head) = some (xs.find? P) := by
  rw [circle.next_head]
  refine scan_eq (circle.joined.tail.imp fun _ _ joined => joined.1) (List.nodup_cons.mp circle.nodup).1 enough

theorem Circle.scan_prev (circle : Circle l head xs) {fuel : Nat} (enough : xs.length < fuel) :
    scan l.prev head P fuel (l.prev head) = some (xs.reverse.find? P) := by
  have back : (head :: (xs.reverse ++ [head])).IsChain fun a b => l.prev a = b := by
    have turned : (head :: (xs ++ [head])).IsChain fun a b => l.prev b = a := circle.joined.imp fun _ _ joined => joined.2
    simpa using List.isChain_reverse.mpr turned
  have start : l.prev head = xs.reverse.headD head := by
    cases backwards : xs.reverse with
    | nil | cons x ys => rw [backwards] at back; exact (List.isChain_cons_cons.mp back).1
  rw [start]
  exact scan_eq back.tail (by simpa using (List.nodup_cons.mp circle.nodup).1) (by simpa using enough)

end Scan

section Splice

variable [DecidableEq α]

theorem Circle.push (circle : Circle l head xs) (outside : b ∉ head :: xs) : Circle (l.push head b) head (b :: xs) := by
  obtain ⟨apart,fresh⟩ : b ≠ head ∧ b ∉ xs := by simpa using outside
  obtain ⟨headOut,nodup⟩ := List.nodup_cons.mp circle.nodup
  refine ⟨?_,by simp [headOut,nodup,apart.symm,fresh]⟩
  obtain ⟨y,rest,front⟩ : ∃ y rest, xs ++ [head] = y :: rest := by cases xs <;> simp
  have start : l.next head = y := by
    have joined := circle.joined
    rw [front] at joined
    exact (List.isChain_cons_cons.mp joined).1.1
  have around : (y :: rest).Nodup := by
    rw [← front]
    refine List.nodup_append.mpr ⟨nodup,List.nodup_singleton head,fun x member y last same => ?_⟩
    rw [same,List.mem_singleton.mp last] at member
    exact headOut member
  have outside : b ∉ y :: rest := by simp [← front,apart,fresh]
  obtain ⟨by_,bRest⟩ : b ≠ y ∧ b ∉ rest := by simpa using outside
  rw [List.cons_append,front]
  refine List.isChain_cons_cons.mpr ⟨⟨?_,?_⟩,List.isChain_cons_cons.mpr ⟨⟨?_,?_⟩,?_⟩⟩
  · simp [Links.push]
  · simp [Links.push,start,by_]
  · simp [Links.push,start,apart]
  · simp [Links.push,start]
  · have old : (y :: rest).IsChain l.Joined := by
      have joined := circle.joined
      rw [front] at joined
      exact joined.tail
    refine old.imp_of_mem_tail_imp fun u v uMember vMember joined => ?_
    have vRest : v ∈ rest := vMember
    have uHead : u ≠ head := by
      rintro rfl
      rw [joined.1] at start
      exact (List.nodup_cons.mp around).1 (start ▸ vRest)
    have vFirst : v ≠ y := fun same => (List.nodup_cons.mp around).1 (same ▸ vRest)
    have ub : u ≠ b := fun same => outside (same ▸ uMember)
    have vb : v ≠ b := fun same => bRest (same ▸ vRest)
    simpa [Links.Joined,Links.push,start,uHead,vFirst,ub,vb] using joined

theorem Links.Joined.unlink (there : l.next (l.prev b) = b) (back : l.prev (l.next b) = b) (apart : l.next b ≠ b)
    {u v : α} (joined : l.Joined u v) (ub : u ≠ b) (vb : v ≠ b) : (l.unlink b).Joined u v := by
  have own : update l.prev (l.next b) (l.prev b) b = l.prev b := update_of_ne apart.symm _ _
  have uNext : u ≠ l.prev b := fun same => vb (by rw [← joined.1,same,there])
  have vPrev : v ≠ l.next b := fun same => ub (by rw [← joined.2,same,back])
  simp only [Links.Joined,Links.unlink,own,update_of_ne uNext,update_of_ne vPrev]
  exact joined

theorem Circle.unlink {before after : List α} (circle : Circle l head (before ++ b :: after)) :
    Circle (l.unlink b) head (before ++ after) := by
  obtain ⟨headOut,nodup⟩ := List.nodup_cons.mp circle.nodup
  have member : b ∈ before ++ b :: after := List.mem_append_right _ List.mem_cons_self
  have nodup' := List.nodup_append.mp nodup
  have bBefore : b ∉ before := fun early => nodup'.2.2 b early b List.mem_cons_self rfl
  have bAfter : b ∉ after := (List.nodup_cons.mp nodup'.2.1).1
  have bHead : b ≠ head := fun same => headOut (same ▸ member)
  obtain ⟨back,there⟩ := circle.inverse (List.mem_cons_of_mem head member)
  have joined : ((head :: before) ++ b :: (after ++ [head])).IsChain l.Joined := by simpa using circle.joined
  obtain ⟨left,right⟩ := List.isChain_split.mp joined
  obtain ⟨leftJoined,-,last⟩ := List.isChain_append.mp left
  obtain ⟨first,rightJoined⟩ := List.isChain_cons.mp right
  have others : ∀ u ∈ after ++ [head], u ≠ b := by
    rintro u around rfl
    simp [bAfter,bHead] at around
  have apart : l.next b ≠ b := by
    obtain ⟨y,rest,front⟩ : ∃ y rest, after ++ [head] = y :: rest := by cases after <;> simp
    have next := (first y (by simp [front])).1
    exact next ▸ others y (by simp [front])
  have keep := fun u v (joined : l.Joined u v) => joined.unlink there back apart
  refine ⟨?_,?_⟩
  · rw [show head :: (before ++ after ++ [head]) = (head :: before) ++ (after ++ [head]) by simp]
    refine List.isChain_append.mpr ⟨?_,?_,?_⟩
    · refine leftJoined.imp_of_mem_imp fun u v uMember vMember joined => keep u v joined ?_ ?_
      · rintro rfl
        simp [bHead,bBefore] at uMember
      · rintro rfl
        simp [bHead,bBefore] at vMember
    · exact rightJoined.imp_of_mem_imp fun u v uMember vMember joined =>
        keep u v joined (others u uMember) (others v vMember)
    · intro x xLast y yFirst
      have before : l.prev b = x := (last x xLast b (by simp)).2
      have after : l.next b = y := (first y yFirst).1
      have own : update l.prev (l.next b) (l.prev b) b = l.prev b := update_of_ne apart.symm _ _
      simp only [Links.Joined,Links.unlink,own]
      simp [before,after]
  · refine List.nodup_cons.mpr ⟨fun inside => headOut ?_,?_⟩
    · simp only [List.mem_append,List.mem_cons] at inside ⊢
      tauto
    · exact nodup.sublist (List.Sublist.append_left (List.sublist_cons_self b after) before)

end Splice

end Linked
