import Xv6.TableMap
import Mathlib.Tactic.Abel

/-! User address spaces: a table that maps the pages below `PGROUNDUP(sz)`, each to a page of its own, and what
`uvmalloc`, `uvmdealloc` and `growproc` make of one. -/
namespace Xv6.Vm

open Prog Function

/-- The table at `root` maps the pages `us` from address 0 on, and nothing between them and the trapframe. -/
structure Space (s : State) (root sz : Nat) (free : List Nat) (tabs : Multiset Nat) (us : List Nat)
    (pte : Nat → Nat) : Prop where
  mem : Mem s free (tabs + us)
  table : Table s.mem root tabs pte
  covers : sz ≤ us.length * pgsize
  tight : us.length * pgsize < sz + pgsize
  maps : ∀ k pa, us[k]? = some pa → Maps (pte k) pa
  gap : ∀ i, us.length ≤ i → i < trapframe / pgsize → has (pte i) pteV = false

def SameLeaves (pte pte' : Nat → Nat) : Prop :=
  ∀ i < maxva / pgsize, has (pte i) pteV = true ∨ has (pte' i) pteV = true → pte' i = pte i

theorem SameLeaves.refl (pte : Nat → Nat) : SameLeaves pte pte := fun _ _ _ => rfl

def extended (pte : Nat → Nat) (n : Nat) (new : List Nat) (perm i : Nat) : Nat :=
  if n ≤ i then (new[i - n]?).elim (pte i) fun pa => pa2pte pa ||| perm ||| pteV else pte i

section Extended

variable {pte : Nat → Nat} {n perm i pa : Nat} {new : List Nat}

theorem extended_nil : extended pte n [] perm = pte := by
  funext i
  simp [extended]

theorem extended_concat : extended pte n (new ++ [pa]) perm =
    update (extended pte n new perm) (n + new.length) (pa2pte pa ||| perm ||| pteV) := by
  funext i
  by_cases here : i = n + new.length
  · subst here
    simp [extended]
  · rw [update_of_ne here]
    simp only [extended]
    by_cases after : n ≤ i
    · rw [if_pos after,if_pos after]
      by_cases inside : i - n < new.length
      · rw [List.getElem?_append_left inside]
      · rw [List.getElem?_eq_none (by simp; omega),List.getElem?_eq_none (by omega)]
    · rw [if_neg after,if_neg after]

theorem extended_new (k : Nat) (there : new[k]? = some pa) :
    extended pte n new perm (n + k) = pa2pte pa ||| perm ||| pteV := by
  rw [extended,if_pos (Nat.le_add_right n k),Nat.add_sub_cancel_left,there]
  rfl

theorem extended_old (outside : i < n ∨ n + new.length ≤ i) : extended pte n new perm i = pte i := by
  rw [extended]
  split
  · rw [List.getElem?_eq_none (by omega)]
    rfl
  · rfl

theorem maps_new (isPage : Page pa) (flags : perm < 2 ^ 10) (some : has perm pteR = true) :
    Maps (pa2pte pa ||| perm ||| pteV) pa := by
  have small : perm ||| pteV < 2 ^ 10 := Nat.or_lt_two_pow flags (by decide)
  refine ⟨has_or_self _ (by decide),?_,?_⟩
  · rw [Nat.or_assoc,pteFlags_or _ small]
    intro same
    have both := has_or_left pteV some
    rw [same] at both
    exact absurd both (by decide)
  · rw [Nat.or_assoc,pte2pa_or isPage small]

end Extended

/-! Pages are taken away. -/

theorem pgroundup_page {n : Nat} (few : n ≤ npages) : pgroundup (n * pgsize) = n * pgsize := by
  have count : npages = 32768 := rfl
  simp only [pgroundup,pgsize] at *
  omega

theorem ofInt_small {n : Nat} (few : n ≤ npages) : ofInt n = n := by
  have count : npages = 32768 := rfl
  rw [ofInt,if_pos (by omega)]
  omega

section Dealloc

variable {s : State} {root oldsz newsz : Nat} {free : List Nat} {tabs : Multiset Nat} {back : List Nat}
  {pte : Nat → Nat} {m : Nat}

theorem uvmdealloc_frees (mem : Mem s free (tabs + back)) (table : Table s.mem root tabs pte)
    (maps : ∀ k pa, back[k]? = some pa → Maps (pte (m + k)) pa) (few : m + back.length ≤ npages)
    (old : pgroundup oldsz = (m + back.length) * pgsize) (new : pgroundup newsz = m * pgsize) (less : newsz < oldsz)
    (E : Panic → Prop) :
    wp (uvmdealloc root oldsz newsz) (fun r t => r = newsz ∧ Changes s t free (tabs + back) (back.reverse ++ free) tabs ∧
      Table t.mem root tabs (removed pte m back.length)) E s := by
  have count : npages = 32768 := rfl
  rw [uvmdealloc,if_neg (Nat.not_le.mpr less),old,new]
  by_cases none : back = []
  · subst none
    simp only [List.length_nil,Nat.add_zero,Nat.lt_irrefl,if_false,wp_pure,removed_zero]
    exact ⟨trivial,by simpa using Changes.refl mem.linked,table⟩
  · have some : 0 < back.length := List.length_pos_iff.mpr none
    have more : m * pgsize < (m + back.length) * pgsize := Nat.mul_lt_mul_of_pos_right (by omega) (by decide)
    have pages : ((m + back.length) * pgsize - m * pgsize) / pgsize = back.length := by
      rw [Nat.add_mul,Nat.add_sub_cancel_left,Nat.mul_div_cancel _ (by decide)]
    have bound : m + back.length ≤ maxva / pgsize := by
      have : maxva / pgsize = 67108864 := rfl
      omega
    rw [if_pos more,pages,ofInt_small (by omega),uvmunmap_eq bound]
    apply wp_seq (unmapFrom_frees back mem table bound maps E)
    rintro _ t ⟨changes,table⟩
    exact ⟨rfl,changes,table⟩

end Dealloc

/-! Pages are added. -/

theorem Changes.cast {s t : State} {free free' : List Nat} {used used' more more' : Multiset Nat}
    (changes : Changes s t free used free' used') (before : used = more) (after : used' = more') :
    Changes s t free more free' more' := before ▸ after ▸ changes

theorem pgrounddown_inside {page x : Nat} (isPage : Page page) (bound : x < pgsize) : pgrounddown (page + x) = page :=
  pgrounddown_word isPage bound

/-- The leaves are those of `s`, and all pages taken since then are free again or in the table. -/
def Restored (s : State) (root : Nat) (free : List Nat) (tabs : Multiset Nat) (pte : Nat → Nat) (t : State) : Prop :=
  ∃ free' tabs' pte', Changes s t free tabs free' tabs' ∧ Table t.mem root tabs' pte' ∧ SameLeaves pte pte'

/-- The loop of `uvmalloc` has added the pages `new`, which are zero. -/
structure Growing (s t : State) (root n : Nat) (free : List Nat) (tabs : Multiset Nat) (pte : Nat → Nat) (perm : Nat)
    (new free' : List Nat) (tabs' : Multiset Nat) : Prop where
  changes : Changes s t free tabs free' (tabs' + new)
  table : Table t.mem root tabs' (extended pte n new perm)
  zero : ∀ pa ∈ new, ∀ x < pgsize, t.mem (pa + x) = 0

namespace Growing

variable {s t u : State} {root sz perm : Nat} {free free' new us : List Nat} {tabs tabs' : Multiset Nat} {pte : Nat → Nat}

section

variable (space : Space s root sz free tabs us pte)
include space

theorem start (perm : Nat) : Growing s s root us.length free tabs pte perm [] free tabs := by
  refine ⟨(Changes.refl space.mem.linked).cast rfl (by simp),?_,by simp⟩
  rw [extended_nil]
  exact space.table

theorem mem (growing : Growing s t root us.length free tabs pte perm new free' tabs') :
    Mem t free' (tabs' + new + us) := (growing.changes.frame us).mem space.mem

theorem few (growing : Growing s t root us.length free tabs pte perm new free' tabs') :
    us.length + new.length ≤ npages := by
  have card := (growing.mem space).card_le
  simp only [Multiset.card_add,Multiset.coe_card] at card
  omega

theorem page (growing : Growing s t root us.length free tabs pte perm new free' tabs') {pa : Nat} (inside : pa ∈ new) :
    Page pa :=
  ((growing.mem space).usedPage (by simp [inside])).1

theorem keep (growing : Growing s t root us.length free tabs pte perm new free' tabs') {free'' : List Nat}
    {tabs'' : Multiset Nat} (changes : Changes t u free' tabs' free'' tabs'')
    (table : Table u.mem root tabs'' (extended pte us.length new perm)) :
    Growing s u root us.length free tabs pte perm new free'' tabs'' := by
  refine ⟨growing.changes.trans (changes.frame new),table,fun pa inside x bound => ?_⟩
  have mem := growing.mem space
  rw [add_assoc] at mem
  rw [changes.same_page mem,growing.zero pa inside x bound]
  rw [pgrounddown_inside (growing.page space inside) bound]
  simp [inside]

theorem undo (growing : Growing s t root us.length free tabs pte perm new free' tabs') (flags : perm < 2 ^ 10)
    (read : has perm pteR = true) (E : Panic → Prop) :
    wp (uvmdealloc root ((us.length + new.length) * pgsize) (us.length * pgsize))
      (fun _ u => Restored s root free tabs pte u) E t := by
  have few := growing.few space
  by_cases none : new = []
  · subst none
    simp only [List.length_nil,Nat.add_zero,uvmdealloc,Nat.le_refl,if_true,wp_pure]
    have table := growing.table
    rw [extended_nil] at table
    exact ⟨free',tabs',pte,growing.changes.cast rfl (by simp),table,.refl pte⟩
  have some : 0 < new.length := List.length_pos_iff.mpr none
  have less : us.length * pgsize < (us.length + new.length) * pgsize :=
    Nat.mul_lt_mul_of_pos_right (by omega) (by decide)
  apply wp_post (uvmdealloc_frees (growing.mem space).left growing.table (fun k pa there => ?_) few
    (pgroundup_page few) (pgroundup_page (by omega)) less E)
  · rintro _ u ⟨-,changes,table⟩
    refine ⟨_,tabs',_,growing.changes.trans changes,table,fun i bound valid => ?_⟩
    rw [removed]
    by_cases inside : us.length ≤ i ∧ i < us.length + new.length
    · rw [if_pos inside]
      have place : i < trapframe / pgsize := by
        have count : npages = 32768 := rfl
        have top : trapframe / pgsize = 67108862 := rfl
        omega
      rw [removed,if_pos inside,space.gap i inside.1 place,has_zero] at valid
      exact absurd valid (by decide)
    · rw [if_neg inside,extended_old (by omega)]
  · rw [extended_new k there]
    exact maps_new (growing.page space (List.mem_of_getElem? there)) flags read

end

section Concat

variable {v : State} {rest free'' : List Nat} {tabs'' : Multiset Nat} {page : Nat}

section

variable (space : Space s root sz free tabs us pte)
  (growing : Growing s t root us.length free tabs pte perm new (page :: rest) tabs')
  (takes : Changes t u (page :: rest) 0 rest {page})
include space growing takes

theorem taken :
    Mem u rest (tabs' + ({page} + (new + us))) ∧ Table u.mem root tabs' (extended pte us.length new perm) := by
  have mem := growing.mem space
  have frame := takes.frame (tabs' + new + us)
  rw [zero_add] at frame
  have tables : Mem t (page :: rest) (0 + tabs') := mem.mono (by
    rw [zero_add,add_assoc]
    exact Multiset.le_add_right _ _)
  refine ⟨?_,(growing.table.frame tables takes).1⟩
  have after := frame.mem mem
  rwa [show ({page} : Multiset Nat) + (tabs' + new + us) = tabs' + ({page} + (new + us)) by abel] at after

theorem concat (zero : ∀ x < pgsize, u.mem (page + x) = 0) (maps : Changes u v rest tabs' free'' tabs'')
    (table : Table v.mem root tabs'' (update (extended pte us.length new perm) (us.length + new.length)
      (pa2pte page ||| perm ||| pteV)))
    :
    Growing s v root us.length free tabs pte perm (new ++ [page]) free'' tabs'' := by
  obtain ⟨mem,-⟩ := growing.taken space takes
  have first := (takes.frame (tabs' + new)).cast (zero_add _) rfl
  have second := (maps.frame (new + {page})).cast (show tabs' + (↑new + {page}) = {page} + (tabs' + ↑new) by abel) rfl
  refine ⟨growing.changes.trans ((first.trans second).cast rfl ?_),?_,fun pa inside x bound => ?_⟩
  · rw [← Multiset.coe_add,Multiset.coe_singleton]
  · rwa [extended_concat]
  · have inside := List.mem_append.mp inside
    have here : pa ∈ ({page} : Multiset Nat) + (new + us) := by
      simp only [Multiset.mem_add,Multiset.mem_singleton,Multiset.mem_coe]
      exact inside.elim (fun old => .inr (.inl old)) fun last => .inl (List.mem_singleton.mp last)
    have place := pgrounddown_inside (mem.usedPage (Multiset.mem_add.mpr (.inr here))).1 bound
    rw [maps.same_page mem (by rwa [place])]
    rcases inside with old | last
    · have before := growing.mem space
      rw [show tabs' + (new : Multiset Nat) + us = 0 + (tabs' + new + us) from (zero_add _).symm] at before
      rw [takes.same_page before (by rw [place]; simp [old])]
      exact growing.zero pa old x bound
    · rw [List.mem_singleton.mp last]
      exact zero x bound

end

end Concat

end Growing

section Alloc

variable {s t : State} {root sz newsz xperm : Nat} {free free' new us : List Nat} {tabs tabs' : Multiset Nat}
  {pte : Nat → Nat}

/-- What `uvmalloc` returns: 0 with the leaves as they were, or the new size with zeroed pages up to it. -/
def Allocated (s : State) (root newsz perm : Nat) (free : List Nat) (tabs : Multiset Nat) (us : List Nat)
    (pte : Nat → Nat) (r : Nat) (t : State) : Prop :=
  r = 0 ∧ Restored s root free tabs pte t ∨
  r = newsz ∧ ∃ (new free' : List Nat) (tabs' : Multiset Nat), Changes s t free tabs free' (tabs' + new) ∧
    Space t root newsz free' tabs' (us ++ new) (extended pte us.length new perm) ∧
    ∀ pa ∈ new, ∀ x < pgsize, t.mem (pa + x) = 0

theorem Growing.finish (space : Space s root sz free tabs us pte)
    (growing : Growing s t root us.length free tabs pte xperm new free' tabs') (flags : xperm < 2 ^ 10)
    (read : has xperm pteR = true) (covers : newsz ≤ (us.length + new.length) * pgsize)
    (tight : (us.length + new.length) * pgsize < newsz + pgsize) :
    Space t root newsz free' tabs' (us ++ new) (extended pte us.length new xperm) := by
  refine ⟨?_,growing.table,by rwa [List.length_append],by rwa [List.length_append],fun k pa there => ?_,
    fun i after before => ?_⟩
  · have mem := growing.mem space
    rwa [add_assoc,add_comm (new : Multiset Nat),Multiset.coe_add] at mem
  · by_cases old : k < us.length
    · rw [List.getElem?_append_left old] at there
      rw [extended_old (.inl old)]
      exact space.maps k pa there
    · rw [List.getElem?_append_right (by omega)] at there
      obtain ⟨j,rfl⟩ : ∃ j, k = us.length + j := ⟨k - us.length,by omega⟩
      rw [Nat.add_sub_cancel_left] at there
      rw [extended_new j there]
      exact maps_new (growing.page space (List.mem_of_getElem? there)) flags read
  · rw [List.length_append] at after
    rw [extended_old (.inr after)]
    exact space.gap i (by omega) before

theorem allocFrom_spec (space : Space s root sz free tabs us pte) (flags : pteR ||| pteU ||| xperm < 2 ^ 10)
    (turns : Nat) (growing : Growing s t root us.length free tabs pte (pteR ||| pteU ||| xperm) new free' tabs')
    (enough : npages < turns + new.length) (tight : (us.length + new.length) * pgsize < newsz + pgsize)
    (E : Panic → Prop) :
    wp (allocFrom root (us.length * pgsize) newsz xperm turns ((us.length + new.length) * pgsize))
      (Allocated s root newsz (pteR ||| pteU ||| xperm) free tabs us pte) E t := by
  have read : has (pteR ||| pteU ||| xperm) pteR = true := by
    rw [Nat.or_assoc]
    exact has_or_left _ (by decide)
  induction turns generalizing t new free' tabs' with
  | zero =>
    have := growing.few space
    omega
  | succ turns ih =>
    have few := growing.few space
    have count : npages = 32768 := rfl
    rw [allocFrom]
    by_cases done : newsz ≤ (us.length + new.length) * pgsize
    · rw [if_pos done,wp_pure]
      exact .inr ⟨rfl,new,free',tabs',growing.changes,growing.finish space flags read done tight,growing.zero⟩
    rw [if_neg done]
    apply wp_seq (kalloc_changes (growing.mem space) E)
    rintro page u (⟨rfl,rfl,same,taken⟩ | ⟨rest,rfl,isPage,fresh,taken,-⟩)
    · have changes := taken.frame tabs'
      rw [zero_add] at changes
      have growing := growing.keep space changes (by rw [same]; exact growing.table)
      rw [if_pos rfl]
      apply wp_seq (growing.undo space flags read E)
      exact fun _ v restored => .inl ⟨rfl,restored⟩
    rw [if_neg isPage.ne_zero,memsetPage,wp_bind,wp_modify]
    obtain ⟨v,isV⟩ : ∃ v : State, v = { u with mem := Bytes.fill u.mem page pgsize 0 } := ⟨_,rfl⟩
    have takes : Changes t v (page :: rest) 0 rest {page} := by
      have mem : Mem u rest {page} := taken.mem ((growing.mem space).mono (Multiset.zero_le _))
      rw [isV]
      exact taken.trans (.write mem fun a outside => fill_page_outside isPage (by simpa using outside))
    have zero (x : Nat) (bound : x < pgsize) : v.mem (page + x) = 0 := by
      rw [isV]
      exact Bytes.fill_inside bound
    obtain ⟨mem,table⟩ := growing.taken space takes
    have hi : us.length + new.length < maxva / pgsize := by
      have top : maxva / pgsize = 67108864 := rfl
      omega
    have absent : has (extended pte us.length new (pteR ||| pteU ||| xperm) (us.length + new.length)) pteV = false := by
      rw [extended_old (.inr (Nat.le_refl _))]
      refine space.gap _ (Nat.le_add_right ..) ?_
      have top : trapframe / pgsize = 67108862 := rfl
      omega
    have fits := pte_fits (show page < 2 ^ 64 by
      have high := isPage.high
      have top : phystop = 2281701376 := rfl
      omega) (lt_trans flags (by decide))
    rw [← isV]
    apply wp_seq (mappages_done mem.left table hi absent fits E)
    rintro r w ⟨free'',tabs'',maps,⟨rfl,table⟩ | ⟨rfl,table⟩⟩
    · have next : ((us.length + new.length) * pgsize + pgsize) % 2 ^ 64 =
          (us.length + (new ++ [page]).length) * pgsize := by
        simp only [List.length_append,List.length_singleton,pgsize]
        omega
      rw [if_neg (by decide),next]
      refine ih (growing.concat space takes zero maps table) (by simp; omega) ?_
      simp only [List.length_append,List.length_singleton,← Nat.add_assoc]
      rw [Nat.add_mul,Nat.one_mul]
      omega
    · have framed := (maps.frame ({page} + (new + us))).mem mem
      rw [show tabs'' + ({page} + (new + us)) = {page} + (tabs'' + (new + us : Multiset Nat)) by abel] at framed
      rw [if_pos (by decide)]
      apply wp_seq (kfree_changes framed E)
      intro _ x freed
      have changes := ((takes.frame tabs').cast (zero_add _) (add_comm _ _)).trans
        ((maps.frame {page}).trans ((freed.frame tabs'').cast (add_comm _ _) (zero_add _)))
      have table := (table.frame (framed.mono (by rw [← add_assoc]; exact Multiset.le_add_right _ _)) freed).1
      apply wp_seq ((growing.keep space changes table).undo space flags read E)
      exact fun _ y restored => .inl ⟨rfl,restored⟩

end Alloc

theorem onePage_space : Space (onePage userFlags) (frame 0) pgsize [frame 5,frame 6,frame 7] {frame 0,frame 1,frame 2}
    [frame 3] (onePte userFlags) := by
  refine ⟨onePage_mem (by decide),onePage_table (by decide),by decide,by decide,fun k pa => onePage_maps,
    fun i lower _ => ?_⟩
  have later : i ≠ 0 := Nat.ne_of_gt lower
  rw [onePte,if_neg later]
  exact has_zero _

section Space

variable {s : State} {root sz newsz xperm : Nat} {free us : List Nat} {tabs : Multiset Nat} {pte : Nat → Nat}

section

variable (space : Space s root sz free tabs us pte)
include space

theorem Space.few : us.length ≤ npages := by
  have card := space.mem.card_le
  simp only [Multiset.card_add,Multiset.coe_card] at card
  omega

theorem Space.rounded : pgroundup sz = us.length * pgsize := by
  have few := space.few
  have covers := space.covers
  have tight := space.tight
  have count : npages = 32768 := rfl
  simp only [pgroundup,pgsize] at covers tight ⊢
  omega

theorem Space.sz_lt : sz < 2 ^ 28 := by
  have few := space.few
  have covers := space.covers
  have count : npages = 32768 := rfl
  simp only [pgsize] at covers
  omega

theorem uvmalloc_spec (grows : sz ≤ newsz) (flags : xperm < 2 ^ 10) (E : Panic → Prop) :
    wp (uvmalloc root sz newsz xperm) (Allocated s root newsz (pteR ||| pteU ||| xperm) free tabs us pte) E s := by
  have tight := space.tight
  rw [uvmalloc,if_neg (Nat.not_lt.mpr grows),space.rounded]
  exact allocFrom_spec space (Nat.or_lt_two_pow (by decide) flags) (maxva / pgsize + 2) (.start space _) (by decide)
    (by simp only [List.length_nil,Nat.add_zero]; omega) E

end

/-- `uvmalloc` that runs out of memory, for a page or for a page-table page, leaves the leaves as they were, and the
pages it took are free or in the table. If it succeeds, it adds zeroed pages up to the new size. -/
theorem failed_growth_undone (space : Space s root sz free tabs us pte) (grows : sz ≤ newsz) (flags : xperm < 2 ^ 10) :
    ∃ r t, (uvmalloc root sz newsz xperm).run s = .ok (r,t) ∧
      Allocated s root newsz (pteR ||| pteU ||| xperm) free tabs us pte r t :=
  wp_returns (uvmalloc_spec space grows flags _)

theorem onePage_growth : ∃ r t, (uvmalloc (frame 0) pgsize (8 * pgsize) pteW).run (onePage userFlags) = .ok (r,t) ∧
    Allocated (onePage userFlags) (frame 0) (8 * pgsize) (pteR ||| pteU ||| pteW) [frame 5,frame 6,frame 7]
      {frame 0,frame 1,frame 2} [frame 3] (onePte userFlags) r t :=
  failed_growth_undone onePage_space (by decide) (by decide)

theorem Space.shrink (space : Space s root sz free tabs us pte) (less : newsz < sz) (E : Panic → Prop) :
    wp (uvmdealloc root sz newsz) (fun r t => r = newsz ∧ ∃ free' us' pte', Space t root newsz free' tabs us' pte') E
      s := by
  obtain ⟨m,isM⟩ : ∃ m, m = (newsz + pgsize - 1) / pgsize := ⟨_,rfl⟩
  have few := space.few
  have covers := space.covers
  have tight := space.tight
  have count : npages = 32768 := rfl
  have place : pgroundup newsz = m * pgsize ∧ m ≤ us.length ∧ newsz ≤ m * pgsize ∧ m * pgsize < newsz + pgsize := by
    simp only [pgroundup,pgsize] at isM covers tight ⊢
    omega
  obtain ⟨place,inside,below,above⟩ := place
  have length : m + (us.drop m).length = us.length := by
    rw [List.length_drop]
    omega
  have halves : ((us.drop m : List Nat) : Multiset Nat) + (us.take m : List Nat) = us := by
    rw [add_comm,Multiset.coe_add,List.take_append_drop]
  have mem := space.mem
  rw [← halves,← add_assoc] at mem
  apply wp_post (uvmdealloc_frees mem.left space.table (fun k pa there => ?_) (by rwa [length])
    (by rw [length]; exact space.rounded) place less E)
  · rintro _ t ⟨rfl,changes,table⟩
    have after := (changes.frame (us.take m : List Nat)).mem mem
    refine ⟨rfl,_,us.take m,_,after,table,?_,?_,fun k pa there => ?_,fun i lower upper => ?_⟩
    · rwa [List.length_take_of_le inside]
    · rwa [List.length_take_of_le inside]
    · have early : k < m := by
        have := (List.getElem?_eq_some_iff.mp there).1
        rw [List.length_take_of_le inside] at this
        exact this
      rw [List.getElem?_take_of_lt early] at there
      rw [removed,if_neg (by omega)]
      exact space.maps k pa there
    · rw [List.length_take_of_le inside] at lower
      rw [removed]
      split
      · exact has_zero _
      · exact space.gap i (by omega) upper
  · rw [List.getElem?_drop] at there
    exact space.maps _ pa there

end Space

end Xv6.Vm

namespace Xv6.Uvm

open Prog Vm

section Growproc

variable {s : State} {p : Proc} {n : Int} {free us : List Nat} {tabs : Multiset Nat} {pte : Nat → Nat}

/-- `growproc` returns 0 with the size that was asked for and the pages up to it, or -1 with all as it was. -/
def Truthful (s : State) (p : Proc) (n : Int) (free : List Nat) (tabs : Multiset Nat) (pte : Nat → Nat) : Prop :=
  ∃ r p' t, (growproc p n).run s = .ok ((r,p'),t) ∧ (r = 0 ∧ (p'.sz : Int) = p.sz + n ∧
      (∃ free' tabs' us' pte', Space t p.pagetable p'.sz free' tabs' us' pte') ∨
    r = -1 ∧ p' = p ∧ Restored s p.pagetable free tabs pte t)

section

variable (space : Space s p.pagetable p.sz free tabs us pte)
include space

theorem growproc_up (up : 0 < n) (upper : n < 2 ^ 31) : Truthful s p n free tabs pte := by
  have small := space.sz_lt
  have size : ((grown p.sz n : Nat) : Int) = p.sz + n := by
    rw [grown]
    omega
  have grows : p.sz ≤ grown p.sz n := by omega
  obtain ⟨r,t,ran,done⟩ := wp_returns (uvmalloc_spec space grows (show pteW < 2 ^ 10 by decide) _)
  rw [Truthful,growproc,if_pos up,run_bind ran]
  rcases done with ⟨rfl,restored⟩ | ⟨rfl,new,free',tabs',_,space,_⟩
  · exact ⟨-1,p,t,rfl,.inr ⟨rfl,rfl,restored⟩⟩
  · rw [if_neg (by omega)]
    exact ⟨0,_,t,rfl,.inl ⟨rfl,size,free',tabs',_,_,space⟩⟩

theorem growproc_down (down : n < 0) (fits : 0 ≤ p.sz + n) : Truthful s p n free tabs pte := by
  have small := space.sz_lt
  have size : ((grown p.sz n : Nat) : Int) = p.sz + n := by
    rw [grown]
    omega
  have less : grown p.sz n < p.sz := by omega
  obtain ⟨_,t,ran,rfl,free',us',pte',space⟩ := wp_returns (space.shrink less _)
  rw [Truthful,growproc,if_neg (by omega),if_pos down,run_bind ran]
  exact ⟨0,_,t,rfl,.inl ⟨rfl,size,free',tabs,us',pte',space⟩⟩

/-- Below 0 the new size is very large as a `uint64`, and `uvmdealloc` does nothing. -/
theorem growproc_below (lower : -2 ^ 31 ≤ n) (below : p.sz + n < 0) : (growproc p n).run s = .ok ((0,p),s) := by
  have small := space.sz_lt
  have large : p.sz ≤ grown p.sz n := by
    rw [grown]
    omega
  rw [growproc,if_neg (by omega),if_pos (by omega),uvmdealloc,if_pos large]
  rfl

theorem not_truthful_below (lower : -2 ^ 31 ≤ n) (below : p.sz + n < 0) : ¬Truthful s p n free tabs pte := by
  rintro ⟨r,p',t,ran,truth⟩
  rw [growproc_below space lower below] at ran
  obtain ⟨⟨rfl,rfl⟩,rfl⟩ : (0 = r ∧ p = p') ∧ s = t := by simpa using ran
  rcases truth with ⟨_,size,_⟩ | ⟨no,_⟩
  · omega
  · exact absurd no (by decide)

end

/-- `growproc` tells the truth unless it is asked for a size below 0. -/
theorem sbrk_truthful_iff (space : Space s p.pagetable p.sz free tabs us pte) (lower : -2 ^ 31 ≤ n) (upper : n < 2 ^ 31) :
    Truthful s p n free tabs pte ↔ 0 ≤ p.sz + n := by
  constructor
  · intro truthful
    by_contra below
    exact not_truthful_below space lower (by omega) truthful
  · intro fits
    rcases lt_trichotomy n 0 with down | rfl | up
    · exact growproc_down space down fits
    · exact ⟨0,p,s,rfl,.inl ⟨rfl,(Int.add_zero _).symm,free,tabs,us,pte,space⟩⟩
    · exact growproc_up space up upper

end Growproc

theorem onePage_sbrk : Truthful (onePage userFlags) ⟨frame 0,pgsize⟩ (-1) [frame 5,frame 6,frame 7]
    {frame 0,frame 1,frame 2} (onePte userFlags) :=
  (sbrk_truthful_iff onePage_space (by decide) (by decide)).mpr (by decide)

/-- `sbrk(-4097)` of a process of one page returns as if it had been done. -/
theorem onePage_sbrk_below : (growproc ⟨frame 0,pgsize⟩ (-4097)).run (onePage userFlags) =
      .ok ((0,⟨frame 0,pgsize⟩),onePage userFlags) ∧
    ¬Truthful (onePage userFlags) ⟨frame 0,pgsize⟩ (-4097) [frame 5,frame 6,frame 7]
      {frame 0,frame 1,frame 2} (onePte userFlags) :=
  ⟨growproc_below onePage_space (by decide) (by decide),not_truthful_below onePage_space (by decide) (by decide)⟩

end Xv6.Uvm
