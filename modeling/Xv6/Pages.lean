import Xv6.Uvm
import Xv6.PageTable
import Mathlib.Algebra.Order.Group.Multiset
import Mathlib.Data.Finset.Card
import Mathlib.Data.Multiset.AddSub

/-! Who has which physical page. A call works on the free list and on the pages it is given;
what it does is to move pages between the two and to write to them, so that calls on different
pages do not disturb each other. -/
namespace Xv6.Vm

open Prog

/-- The free list and some pages in use: none of them is there twice, and all can be given to
`kfree`. -/
structure Mem (s : State) (free : List Nat) (used : Multiset Nat) : Prop where
  linked : Linked s.mem s.freelist free
  distinct : ((free : Multiset Nat) + used).Nodup
  page : ∀ x ∈ (free : Multiset Nat) + used, Page x ∧ s.kend ≤ x

/-- From `s` to `t` pages have moved between the free list and the pages in use, and no other
page has changed. -/
structure Changes (s t : State) (free : List Nat) (used : Multiset Nat) (free' : List Nat)
    (used' : Multiset Nat) : Prop where
  linked : Linked t.mem t.freelist free'
  total : (free' : Multiset Nat) + used' = free + used
  kend : t.kend = s.kend
  same : ∀ a, pgrounddown a ∉ (free : Multiset Nat) + used → t.mem a = s.mem a

variable {s t u : State} {free free' free'' : List Nat} {used used' used'' more : Multiset Nat} {page x : Nat}

def npages : Nat := (phystop - kernbase) / pgsize

theorem Page.number (isPage : Page x) : ∃ k < npages, x = kernbase + k * pgsize := by
  have aligned := isPage.aligned
  have low := isPage.low
  have high := isPage.high
  have base : kernbase = 2147483648 := rfl
  have top : phystop = 2281701376 := rfl
  have count : npages = 32768 := rfl
  have size : pgsize = 4096 := rfl
  rw [size] at aligned high ⊢
  exact ⟨(x - kernbase) / 4096,by omega,by omega⟩

namespace Mem

theorem freeList (mem : Mem s free used) : FreeList s free :=
  ⟨mem.linked,Multiset.coe_nodup.mp (Multiset.nodup_add.mp mem.distinct).1⟩

theorem mono (mem : Mem s free used) (le : more ≤ used) : Mem s free more := by
  have fewer : (free : Multiset Nat) + more ≤ free + used := by gcongr
  exact ⟨mem.linked,Multiset.nodup_of_le fewer mem.distinct,fun x inside => mem.page x (Multiset.mem_of_le fewer inside)⟩

theorem left (mem : Mem s free (used + more)) : Mem s free used := mem.mono (Multiset.le_add_right used more)

theorem usedPage (mem : Mem s free used) (inside : x ∈ used) : Page x ∧ s.kend ≤ x :=
  mem.page x (Multiset.mem_add.mpr (.inr inside))

theorem notFree (mem : Mem s free used) (inside : x ∈ used) : x ∉ free := by
  intro listed
  exact Multiset.disjoint_left.mp (Multiset.nodup_add.mp mem.distinct).2.2 (Multiset.mem_coe.mpr listed) inside

theorem apart (mem : Mem s free (used + more)) (inside : x ∈ used) : x ∉ more := by
  have distinct := (Multiset.nodup_add.mp mem.distinct).2.1
  exact Multiset.disjoint_left.mp (Multiset.nodup_add.mp distinct).2.2 inside

theorem outside (mem : Mem s free (used + more)) (inside : x ∈ more) : x ∉ (free : Multiset Nat) + used := by
  intro other
  obtain listed | other := Multiset.mem_add.mp other
  · exact mem.notFree (Multiset.mem_add.mpr (.inr inside)) listed
  · exact mem.apart other inside

theorem card_le (mem : Mem s free used) : used.card ≤ npages := by
  have distinct := (Multiset.nodup_add.mp mem.distinct).2.1
  have subset : used.toFinset ⊆ (Finset.range npages).image (fun k => kernbase + k * pgsize) := by
    intro x inside
    obtain ⟨k,bound,same⟩ := (mem.usedPage (Multiset.mem_toFinset.mp inside)).1.number
    exact Finset.mem_image.mpr ⟨k,Finset.mem_range.mpr bound,same.symm⟩
  have card := (Finset.card_le_card subset).trans Finset.card_image_le
  rwa [Multiset.toFinset_card_of_nodup distinct,Finset.card_range] at card

end Mem

namespace Changes

theorem refl (linked : Linked s.mem s.freelist free) : Changes s s free used free used :=
  ⟨linked,rfl,rfl,fun _ _ => rfl⟩

theorem trans (first : Changes s t free used free' used') (second : Changes t u free' used' free'' used'') :
    Changes s u free used free'' used'' := by
  refine ⟨second.linked,second.total.trans first.total,second.kend.trans first.kend,fun a outside => ?_⟩
  rw [second.same a (by rwa [first.total]),first.same a outside]

theorem frame (changes : Changes s t free used free' used') (more : Multiset Nat) :
    Changes s t free (used + more) free' (used' + more) := by
  refine ⟨changes.linked,?_,changes.kend,fun a outside => changes.same a fun inside => outside ?_⟩
  · rw [← add_assoc,changes.total,add_assoc]
  · rw [← add_assoc]
    exact Multiset.mem_add.mpr (.inl inside)

theorem mem (changes : Changes s t free used free' used') (mem : Mem s free used) : Mem t free' used' := by
  refine ⟨changes.linked,?_,?_⟩
  · rw [changes.total]
    exact mem.distinct
  · rw [changes.total,changes.kend]
    exact mem.page

theorem write (mem : Mem s free used) {bytes : Bytes.Storage}
    (same : ∀ a, pgrounddown a ∉ used → bytes a = s.mem a) :
    Changes s { s with mem := bytes } free used free used := by
  refine ⟨mem.linked.agree fun a listed => ?_,rfl,rfl,fun a outside => ?_⟩
  · exact same a fun inside => mem.notFree inside listed
  · exact same a fun inside => outside (Multiset.mem_add.mpr (.inr inside))

theorem same_page (changes : Changes s t free used free' used') (mem : Mem s free (used + more)) {a : Nat}
    (inside : pgrounddown a ∈ more) : t.mem a = s.mem a :=
  changes.same a (mem.outside inside)

end Changes

theorem kalloc_changes (mem : Mem s free used) (E : Panic → Prop) :
    wp kalloc (fun page t => (free = [] ∧ page = 0 ∧ t.mem = s.mem ∧ Changes s t free 0 free 0) ∨
      ∃ rest, free = page :: rest ∧ Page page ∧ page ∉ used ∧ Changes s t free 0 rest {page} ∧
        ∀ a, pgrounddown a ≠ page → t.mem a = s.mem a) E s := by
  have ends : wp kalloc (fun _ t => t.kend = s.kend) E s := by
    simp only [kalloc,memsetPage,wp_bind,wp_get]
    by_cases null : s.freelist = 0
    · simp [null]
    · simp [null]
  apply wp_mono (wp_and (kalloc_spec mem.freeList E) ends) _ (fun _ errors => errors.1)
  rintro page t ⟨⟨rfl,rfl,same,list⟩ | ⟨rest,rfl,isPage,list,same⟩,kend⟩
  · exact .inl ⟨rfl,rfl,same,list.linked,rfl,kend,fun a _ => congrFun same a⟩
  · refine .inr ⟨rest,rfl,isPage,fun inside => mem.notFree inside List.mem_cons_self,
      ⟨list.linked,?_,kend,fun a outside => same a ?_⟩,same⟩
    · rw [add_comm,Multiset.singleton_add,Multiset.cons_coe,add_zero]
    · rintro rfl
      simp at outside

theorem kfree_changes (mem : Mem s free ({page} + used)) (E : Panic → Prop) :
    wp (kfree page) (fun _ t => Changes s t free {page} (page :: free) 0) E s := by
  obtain ⟨isPage,high⟩ := mem.usedPage (Multiset.mem_add.mpr (.inl (Multiset.mem_singleton_self page)))
  have notFree : page ∉ free := mem.notFree (Multiset.mem_add.mpr (.inl (Multiset.mem_singleton_self page)))
  have fine : ¬(page % pgsize ≠ 0 ∨ page < s.kend ∨ phystop ≤ page) := by
    have aligned := isPage.aligned
    have top := isPage.high
    simp only [pgsize] at *
    omega
  have ok : mapped page = true := isPage.mapped_word (show 0 < 512 by decide)
  have small : s.freelist < 256 ^ 8 := by
    cases free with
    | nil =>
      rw [show s.freelist = 0 from mem.linked]
      exact Nat.pow_pos (by decide)
    | cons first rest =>
      obtain ⟨head,isFirst,_⟩ := mem.linked
      have high := isFirst.high
      have top : phystop = 2281701376 := rfl
      have size : pgsize = 4096 := rfl
      omega
  simp only [kfree,wp_bind,wp_get,if_neg fine,memsetPage,wp_modify]
  apply wp_of_ok (store64_run ok)
  have same (a : Nat) (outside : pgrounddown a ≠ page) :
      Bytes.store 8 (Bytes.fill s.mem page pgsize 1) page s.freelist a = s.mem a :=
    (store_word_outside (i := 0) isPage (by decide) outside).trans (fill_page_outside isPage outside)
  refine ⟨⟨rfl,isPage,?_⟩,?_,rfl,fun a outside => same a ?_⟩
  · rw [Bytes.load_store_value _ _ small]
    exact mem.linked.agree fun a listed => same a fun hit => notFree (hit ▸ listed)
  · rw [← Multiset.cons_coe,add_zero,add_comm,Multiset.singleton_add]
  · rintro rfl
    simp at outside

end Xv6.Vm
