import Xv6.Pages
import Mathlib.Data.Finset.Basic

/-! The page allocator over a whole run: `kinit`, then calls of `kalloc` and `kfree` in any order, while those who have
been given pages write to them. -/
namespace Xv6.Vm

open Prog

section Model

/-- The loop of `freerange` for at most `turns` pages. -/
def freeFrom (paEnd : Nat) : Nat → Nat → Kernel Unit
  | 0, _ => pure ()
  | turns + 1, p =>
    if p + pgsize ≤ paEnd then do
      kfree p
      freeFrom paEnd turns (p + pgsize)
    else pure ()

-- not to be unfolded to its many turns
@[irreducible]
def freerange (paStart paEnd : Nat) : Kernel Unit := freeFrom paEnd (paEnd / pgsize) (pgroundup paStart)

def kinit : Kernel Unit := do
  let s ← get
  freerange s.kend phystop

/-- The page-aligned addresses in `[PGROUNDUP(end), PHYSTOP)`. -/
structure Managed (kend x : Nat) : Prop where
  aligned : x % pgsize = 0
  low : pgroundup kend ≤ x
  high : x < phystop

/-- The states after `kinit`, each with the pages that `kalloc` has returned and that have not been given back. -/
inductive Reachable (kend : Nat) : State → Finset Nat → Prop
  | kinit {s t : State} : s.kend = kend → s.freelist = 0 → kinit.run s = .ok ((),t) → Reachable kend t ∅
  | kalloc {s t : State} {A : Finset Nat} {page : Nat} : Reachable kend s A → kalloc.run s = .ok (page,t) →
    Reachable kend t (if page = 0 then A else insert page A)
  | kfree {s t : State} {A : Finset Nat} {page : Nat} : Reachable kend s A → page ∈ A →
    (kfree page).run s = .ok ((),t) → Reachable kend t (A.erase page)
  /-- The owners of pages write to them. -/
  | write {s : State} {A : Finset Nat} (mem : Bytes.Storage) : Reachable kend s A →
    (∀ a, pgrounddown a ∉ A → mem a = s.mem a) → Reachable kend { s with mem } A

/-- The free list ends, has each of its pages once, and has the pages that are not allocated. -/
structure Allocator (kend : Nat) (s : State) (A : Finset Nat) (free : List Nat) : Prop where
  linked : Linked s.mem s.freelist free
  distinct : free.Nodup
  apart : ∀ x ∈ free, x ∉ A
  all : ∀ x, x ∈ free ∨ x ∈ A ↔ Managed kend x

end Model

/-! What a call preserves. -/

/-- `Allocator` in terms of the pages that move. -/
structure Owns (kend : Nat) (s : State) (A : Finset Nat) (free : List Nat) : Prop where
  mem : Mem s free A.val
  image : s.kend = kend
  all : ∀ x, x ∈ free ∨ x ∈ A ↔ Managed kend x

variable {kend : Nat} {s t : State} {A : Finset Nat} {free : List Nat} {page : Nat}

theorem Owns.allocator (owns : Owns kend s A free) : Allocator kend s A free :=
  ⟨owns.mem.linked,owns.mem.freeList.distinct,fun _ listed inside => owns.mem.notFree inside listed,owns.all⟩

theorem kalloc_owns (owns : Owns kend s A free) :
    wp kalloc (fun page t => (page = 0 ∧ free = [] ∧ Owns kend t A free) ∨
      page ≠ 0 ∧ ∃ rest, free = page :: rest ∧ Owns kend t (insert page A) rest) (fun _ => False) s := by
  apply wp_mono (kalloc_changes owns.mem _) _ (fun _ errors => errors)
  rintro page t (⟨rfl,rfl,-,changes⟩ | ⟨rest,rfl,isPage,fresh,changes,-⟩)
  · have framed := changes.frame A.val
    rw [zero_add] at framed
    exact .inl ⟨rfl,rfl,framed.mem owns.mem,framed.kend.trans owns.image,owns.all⟩
  · have framed := changes.frame A.val
    have values : ({page} : Multiset Nat) + A.val = (insert page A).val := by
      rw [Multiset.singleton_add,Finset.insert_val_of_notMem fresh]
    rw [zero_add,values] at framed
    refine .inr ⟨isPage.ne_zero,rest,rfl,framed.mem owns.mem,framed.kend.trans owns.image,fun x => ?_⟩
    rw [← owns.all x,List.mem_cons,Finset.mem_insert]
    tauto

theorem kfree_owns (owns : Owns kend s A free) (inside : page ∈ A) :
    wp (kfree page) (fun _ t => Owns kend t (A.erase page) (page :: free)) (fun _ => False) s := by
  have values : A.val = {page} + (A.erase page).val := by
    rw [Multiset.singleton_add,Finset.erase_val,Multiset.cons_erase inside]
  have mem := owns.mem
  rw [values] at mem
  apply wp_mono (kfree_changes mem _) _ (fun _ errors => errors)
  intro _ t changes
  have framed := changes.frame (A.erase page).val
  refine ⟨by simpa using framed.mem mem,framed.kend.trans owns.image,fun x => ?_⟩
  rw [← owns.all x,List.mem_cons,Finset.mem_erase]
  by_cases same : x = page
  · simp [same,inside]
  · simp [same]

theorem Owns.write (owns : Owns kend s A free) {bytes : Bytes.Storage}
    (same : ∀ a, pgrounddown a ∉ A → bytes a = s.mem a) : Owns kend { s with mem := bytes } A free :=
  ⟨(Changes.write owns.mem same).mem owns.mem,owns.image,owns.all⟩

/-! The loop of `freerange`. -/

section Init

variable (low : kernbase ≤ kend) (high : kend + pgsize ≤ 2 ^ 64)

include high in
theorem pgroundup_bounds : kend ≤ pgroundup kend ∧ pgroundup kend % pgsize = 0 := by
  simp only [pgroundup,pgsize] at *
  omega

structure Freed (kend p : Nat) (s : State) (free : List Nat) : Prop where
  mem : Mem s free 0
  image : s.kend = kend
  all : ∀ x, x ∈ free ↔ Managed kend x ∧ x < p

include low high in
theorem Freed.kfree {p : Nat} (freed : Freed kend p s free) (managed : Managed kend p) :
    wp (kfree p) (fun _ t => Freed kend (p + pgsize) t (p :: free)) (fun _ => False) s := by
  have bounds := pgroundup_bounds high
  have aligned := managed.aligned
  have above := managed.low
  have below := managed.high
  have size : pgsize = 4096 := rfl
  have top : phystop = 2281701376 := rfl
  rw [size] at aligned
  have isPage : Page p := ⟨managed.aligned,by omega,by omega⟩
  have absent : p ∉ free := fun listed => Nat.lt_irrefl p ((freed.all p).mp listed).2
  have mem : Mem s free ({p} + 0) := by
    refine ⟨freed.mem.linked,?_,fun x inside => ?_⟩
    · rw [add_zero,add_comm,Multiset.singleton_add]
      exact Multiset.nodup_cons.mpr ⟨by simpa using absent,by simpa using freed.mem.distinct⟩
    · rw [add_zero,add_comm,Multiset.singleton_add] at inside
      rcases Multiset.mem_cons.mp inside with rfl | listed
      · exact ⟨isPage,by rw [freed.image]; omega⟩
      · exact freed.mem.page x (by simpa using listed)
  apply wp_mono (kfree_changes mem _) _ (fun _ errors => errors)
  intro _ t changes
  refine ⟨changes.mem (by simpa using mem),changes.kend.trans freed.image,fun x => ?_⟩
  rw [List.mem_cons,freed.all x]
  constructor
  · rintro (rfl | ⟨inside,before⟩)
    · exact ⟨managed,by omega⟩
    · exact ⟨inside,by omega⟩
  · rintro ⟨inside,before⟩
    have multiple := inside.aligned
    rw [size] at multiple
    rcases Nat.lt_or_ge x p with earlier | later
    · exact .inr ⟨inside,earlier⟩
    · exact .inl (by omega)

theorem Freed.done {p : Nat} (freed : Freed kend p s free) (ends : phystop ≤ p) : Freed kend phystop s free := by
  refine ⟨freed.mem,freed.image,fun x => (freed.all x).trans (and_congr_right fun inside => ?_)⟩
  exact ⟨fun _ => inside.high,fun below => Nat.lt_of_lt_of_le below ends⟩

theorem freeFrom_more {paEnd turns p : Nat} (more : p + pgsize ≤ paEnd) :
    freeFrom paEnd (turns + 1) p = kfree p >>= fun _ => freeFrom paEnd turns (p + pgsize) := by
  rw [freeFrom,if_pos more]

theorem freeFrom_last {paEnd turns p : Nat} (last : paEnd < p + pgsize) : freeFrom paEnd turns p = pure () := by
  cases turns with
  | zero => rfl
  | succ turns => rw [freeFrom,if_neg (Nat.not_le.mpr last)]

include low high in
theorem freeFrom_frees {top : Nat} (isTop : top = phystop) (turns p : Nat) (freed : Freed kend p s free)
    (aligned : p % pgsize = 0) (above : pgroundup kend ≤ p) (enough : top ≤ p + turns * pgsize) :
    wp (freeFrom top turns p) (fun _ t => ∃ free, Freed kend top t free) (fun _ => False) s := by
  have size : pgsize = 4096 := rfl
  have multiple : top % 4096 = 0 := by rw [isTop]; rfl
  induction turns generalizing p s free with
  | zero =>
    refine ⟨free,?_⟩
    rw [isTop]
    exact freed.done (by omega)
  | succ turns ih =>
    rcases Nat.lt_or_ge top (p + pgsize) with last | more
    · rw [freeFrom_last last,wp_pure,isTop]
      rw [size] at aligned
      exact ⟨free,freed.done (by omega)⟩
    · rw [freeFrom_more more]
      apply wp_seq (Freed.kfree low high freed ⟨aligned,above,by omega⟩)
      intro _ t next
      rw [Nat.add_mul] at enough
      exact ih (p + pgsize) next (by rw [Nat.add_mod_right]; exact aligned) (by omega) (by omega)

include low high in
theorem freerange_frees {top : Nat} (isTop : top = phystop) (image : s.kend = kend) (null : s.freelist = 0) :
    wp (freerange kend top) (fun _ t => ∃ free, Freed kend top t free) (fun _ => False) s := by
  have start : Freed kend (pgroundup kend) s [] := by
    refine ⟨⟨null,by simp,by simp⟩,image,fun x => ?_⟩
    simp only [List.not_mem_nil,false_iff]
    rintro ⟨inside,before⟩
    exact absurd inside.low (Nat.not_le.mpr before)
  have whole : top / pgsize * pgsize = top := by rw [isTop]; rfl
  rw [freerange]
  exact freeFrom_frees low high isTop _ _ start (pgroundup_bounds high).2 (Nat.le_refl _) (by omega)

include low high in
theorem kinit_owns (image : s.kend = kend) (null : s.freelist = 0) :
    wp kinit (fun _ t => ∃ free, Owns kend t ∅ free) (fun _ => False) s := by
  rw [kinit,wp_bind,wp_get,image]
  apply wp_post (freerange_frees low high rfl image null)
  rintro _ t ⟨free,freed⟩
  refine ⟨free,by simpa using freed.mem,freed.image,fun x => ?_⟩
  rw [freed.all x]
  exact ⟨fun inside => inside.elim And.left (by simp),fun inside => .inl ⟨inside,inside.high⟩⟩

include low high in
theorem Reachable.owns (reachable : Reachable kend s A) : ∃ free, Owns kend s A free := by
  induction reachable with
  | kinit image null run => exact wp_ok (kinit_owns low high image null) run
  | kalloc _ run ih =>
    obtain ⟨free,owns⟩ := ih
    obtain ⟨rfl,-,same⟩ | ⟨some,rest,-,next⟩ := wp_ok (kalloc_owns owns) run
    · exact ⟨free,by simpa using same⟩
    · exact ⟨rest,by simpa [some] using next⟩
  | kfree _ inside run ih =>
    obtain ⟨free,owns⟩ := ih
    exact ⟨_,wp_ok (kfree_owns owns inside) run⟩
  | write mem _ same ih =>
    obtain ⟨free,owns⟩ := ih
    exact ⟨free,owns.write same⟩

theorem kalloc_returns (owns : Owns kend s A free) : ∃ page t, kalloc.run s = .ok (page,t) ∧
    (page = 0 → ∀ x, Managed kend x → x ∈ A) ∧ (page ≠ 0 → Managed kend page ∧ page ∉ A) := by
  obtain ⟨page,t,run,⟨rfl,rfl,-⟩ | ⟨some,rest,rfl,-⟩⟩ := wp_returns (kalloc_owns owns)
  · refine ⟨0,t,run,fun _ x managed => ?_,fun some => absurd rfl some⟩
    simpa using (owns.all x).mpr managed
  · have listed : page ∈ page :: rest := List.mem_cons_self
    exact ⟨page,t,run,fun null => absurd null some,
      fun _ => ⟨(owns.all page).mp (.inl listed),fun inside => owns.mem.notFree inside listed⟩⟩

/-- `kinit` returns. In every state after it the free list is a list of the pages that are not allocated, and the calls
that are allowed return. -/
theorem kmem_invariant (low : kernbase ≤ kend) (high : kend + pgsize ≤ 2 ^ 64) :
    (∀ s : State, s.kend = kend → s.freelist = 0 → ∃ t, kinit.run s = .ok ((),t)) ∧
      ∀ s A, Reachable kend s A → (∃ free, Allocator kend s A free) ∧
        (∃ page t, kalloc.run s = .ok (page,t) ∧ (page = 0 → ∀ x, Managed kend x → x ∈ A) ∧
          (page ≠ 0 → Managed kend page ∧ page ∉ A)) ∧
        ∀ page ∈ A, ∃ t, (kfree page).run s = .ok ((),t) := by
  refine ⟨fun s image null => ?_,fun s A reachable => ?_⟩
  · obtain ⟨_,t,run,-⟩ := wp_returns (kinit_owns low high image null)
    exact ⟨t,run⟩
  · obtain ⟨free,owns⟩ := reachable.owns low high
    refine ⟨⟨free,owns.allocator⟩,kalloc_returns owns,fun page inside => ?_⟩
    obtain ⟨_,t,run,-⟩ := wp_returns (kfree_owns owns inside)
    exact ⟨t,run⟩

/-- A kernel that leaves two pages, of which one is allocated and freed again. -/
theorem kmem_two_pages : ∃ t page u v, kinit.run ⟨fun _ => 0,0,phystop - 2 * pgsize,0⟩ = .ok ((),t) ∧
    kalloc.run t = .ok (page,u) ∧ page ≠ 0 ∧ (∃ free, Allocator (phystop - 2 * pgsize) u {page} free) ∧
    (kfree page).run u = .ok ((),v) ∧ ∃ free, Allocator (phystop - 2 * pgsize) v ∅ free := by
  obtain ⟨starts,invariant⟩ := kmem_invariant (show kernbase ≤ phystop - 2 * pgsize by decide) (by decide)
  obtain ⟨t,began⟩ := starts ⟨fun _ => 0,0,phystop - 2 * pgsize,0⟩ rfl rfl
  have fresh : Reachable (phystop - 2 * pgsize) t ∅ := .kinit rfl rfl began
  obtain ⟨page,u,took,full,_⟩ := (invariant t ∅ fresh).2.1
  have some : page ≠ 0 := fun null => absurd (full null (phystop - pgsize) ⟨by decide,by decide,by decide⟩) (by simp)
  have held : Reachable (phystop - 2 * pgsize) u {page} := by simpa [some] using fresh.kalloc took
  obtain ⟨v,gave⟩ := (invariant u {page} held).2.2 page (by simp)
  have again : Reachable (phystop - 2 * pgsize) v ∅ := by simpa using held.kfree (by simp) gave
  exact ⟨t,page,u,v,began,took,some,(invariant u {page} held).1,gave,(invariant v ∅ again).1⟩

end Init

end Xv6.Vm
