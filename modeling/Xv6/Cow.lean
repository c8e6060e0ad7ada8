import Xv6.PageTable

/-! Copy-on-write: `uvmcopy` and the store-fault handler of `usertrap`. Both pass a size in
bytes where `uvmunmap` takes a number of pages, so they take away `PGSIZE` pages at a time. -/
namespace Xv6.Vm

open Prog

def tables (mem : Bytes.Storage) (root : Nat) : Set Nat := fun table =>
  table = root ∨ (∃ i < 512, Valid mem root i ∧ table = down mem root i) ∨
  ∃ i < 512, ∃ j < 512, Valid mem root i ∧ Valid mem (down mem root i) j ∧ table = down mem (down mem root i) j

theorem WellFormed.path {mem : Bytes.Storage} {root : Nat} (wf : WellFormed mem root) (va : Nat) :
    PathIn (tables mem root) mem va 2 root := by
  refine ⟨wf.top,.inl rfl,fun two => ⟨(wf.mid _ (px_lt 2 va) two).1,.inr (.inl ⟨_,px_lt 2 va,two,rfl⟩),
    fun one => ⟨(wf.low _ (px_lt 2 va) _ (px_lt 1 va) two one).1,
      .inr (.inr ⟨_,px_lt 2 va,_,px_lt 1 va,two,one,rfl⟩)⟩⟩⟩

theorem pgrounddown_page {va : Nat} (aligned : va % pgsize = 0) (bound : va < maxva) :
    pgrounddown va = va ∧ pgrounddown ((va + pgsize - 1) % 2 ^ 64) = va := by
  have last : (va + pgsize - 1) % 2 ^ 64 = va + 4095 := by
    simp only [pgsize,maxva] at *
    omega
  rw [last]
  simp only [pgrounddown,pgsize] at *
  omega

theorem wp_mappages_page {root va pa perm : Nat} (aligned : va % pgsize = 0) (bound : va < maxva)
    {Q : Int → State → Prop} {E : Panic → Prop} {s : State} :
    wp (mappages root va pgsize pa perm) Q E s ↔
      wp (walk root va true) (fun slot t => if slot = 0 then Q (-1) t else
        wp (load64 slot) (fun pte u => if has pte pteV = true then E .remap else
          wp (store64 slot (pa2pte pa ||| perm ||| pteV)) (fun _ v => Q 0 v) E u) E t) E s := by
  have first := (pgrounddown_page aligned bound).1
  have last := (pgrounddown_page aligned bound).2
  have some : ¬pgsize = 0 := by decide
  have turns : mapTurns va va = 1 := by simp [mapTurns]
  simp only [mappages,first,last,turns,some,mapFrom,if_false,wp_bind,if_true]
  constructor
  all_goals
    intro h
    refine wp_post h fun slot t h => ?_
    by_cases none : slot = 0
    · simpa [none,wp_ite] using h
    · simp only [none,if_false,wp_bind,wp_ite] at h ⊢
      refine wp_post h fun pte u h => ?_
      by_cases set : has pte pteV = true
      · simpa [set,wp_ite] using h
      · simpa [set,wp_ite] using h

theorem mappages_frame {s : State} {root va pa perm : Nat} {pages : List Nat} (aligned : va % pgsize = 0)
    (bound : va < maxva) (wf : WellFormed s.mem root) (free : FreeList s pages)
    (apart : ∀ page ∈ pages, page ∉ tables s.mem root) :
    wp (mappages root va pgsize pa perm) (fun _ t => ∀ a, pgrounddown a ∉ tables s.mem root →
      pgrounddown a ∉ pages → t.mem a = s.mem a) (fun _ => True) s := by
  rw [wp_mappages_page aligned bound]
  rw [walk,if_neg (Nat.not_le.mpr bound)]
  apply wp_post (walkFrom_frame 2 (wf.path va) free apart)
  rintro slot t ⟨frame,place⟩
  by_cases none : slot = 0
  · simpa [none] using frame
  · obtain ⟨page,i,isPage,home,hi,rfl⟩ := place none
    have ok := isPage.mapped_word hi
    rw [if_neg none]
    apply wp_of_ok (load64_run ok)
    split
    · trivial
    · apply wp_of_ok (store64_run ok)
      intro a notTable notFree
      rw [← frame a notTable notFree]
      apply store_word_outside isPage hi
      intro same
      rcases home with inTables | inPages
      · exact notTable (same ▸ inTables)
      · exact notFree (same ▸ inPages)

section Unmap

variable {root : Nat}

/-- `uvmunmap` without freeing, where it does not panic: every page of the range was mapped
and is mapped no more, and nothing else has changed in the tree. -/
theorem unmapFrom_spec (n : Nat) {a : Nat} {s : State} (aligned : a % pgsize = 0) (wf : WellFormed s.mem root) :
    wp (unmapFrom root false n a) (fun _ t =>
      WellFormed t.mem root ∧ (∀ va, slotOf t.mem root va = slotOf s.mem root va) ∧
      (∀ k < n, a + k * pgsize < maxva ∧ has (leaf s.mem root (a + k * pgsize)) pteV = true ∧
        leaf t.mem root (a + k * pgsize) = 0) ∧
      ∀ va < maxva, (∀ k < n, va / pgsize ≠ a / pgsize + k) → leaf t.mem root va = leaf s.mem root va)
      (fun _ => True) s := by
  induction n generalizing a s with
  | zero =>
    rw [unmapFrom,wp_pure]
    exact ⟨wf,fun _ => rfl,fun k hk => absurd hk (Nat.not_lt_zero k),fun _ _ _ => rfl⟩
  | succ n ih =>
    by_cases bound : a < maxva
    swap
    · rw [unmapFrom,wp_bind,walk,if_pos (Nat.le_of_not_lt bound)]
      trivial
    rw [unmapFrom,wp_bind]
    apply wp_of_ok (wf.walk_lookup bound false (.inr rfl))
    rcases wf.slot_cases a with ⟨none,_⟩ | ⟨_,_,_,slot,ok,word⟩
    · simp [none]
    simp only [wp_bind,wp_ite,slot,if_false]
    apply wp_of_ok (load64_run ok)
    rw [← word]
    by_cases valid : has (leaf s.mem root a) pteV = true
    swap
    · simp [valid]
    simp only [valid,Bool.not_true,Bool.false_eq_true,if_false]
    split
    · trivial
    apply wp_of_ok (store64_run ok)
    obtain ⟨shape,wf'⟩ := wf.store_shape slot 0
    apply wp_post (ih (by simp only [pgsize] at *; omega) wf')
    rintro - t ⟨wfT,slots,range,others⟩
    have zero : leaf t.mem root a = 0 := by
      rw [others a bound,wf.leaf_store_same slot 0 (by decide)]
      intro k hk
      simp only [pgsize] at *
      omega
    refine ⟨wfT,fun va => (slots va).trans (shape va),?_,?_⟩
    · intro k hk
      cases k with
      | zero => simpa using ⟨bound,valid,zero⟩
      | succ k =>
        obtain ⟨inside,was,gone⟩ := range k (by omega)
        have shift : a + (k + 1) * pgsize = a + pgsize + k * pgsize := by ring
        rw [shift]
        refine ⟨inside,?_,gone⟩
        rwa [wf.leaf_store_other slot 0 bound inside] at was
        simp only [pgsize] at *
        omega
    · intro va hva outside
      rw [others va hva,wf.leaf_store_other slot 0 bound hva]
      · have := outside 0 (by omega)
        omega
      · intro k hk
        have := outside (k + 1) (by omega)
        simp only [pgsize] at *
        omega

theorem uvmunmap_pgsize {va : Nat} {s : State} (aligned : va % pgsize = 0) (bound : va < maxva)
    (wf : WellFormed s.mem root) :
    wp (uvmunmap root va pgsize false) (fun _ t =>
      WellFormed t.mem root ∧ (∀ va, slotOf t.mem root va = slotOf s.mem root va) ∧
      va + pgsize < maxva ∧ has (leaf s.mem root (va + pgsize)) pteV = true ∧
      leaf t.mem root (va + pgsize) = 0)
      (fun _ => True) s := by
  have count : ((va + pgsize * pgsize) % 2 ^ 64 - va) / pgsize = pgsize := by
    simp only [pgsize,maxva] at *
    omega
  have fine : ¬va % pgsize ≠ 0 := fun h => h aligned
  simp only [uvmunmap,count,fine,if_false]
  apply wp_post (unmapFrom_spec pgsize aligned wf)
  rintro - t ⟨wfT,slots,range,_⟩
  have next := range 1 (by decide)
  rw [Nat.one_mul] at next
  exact ⟨wfT,slots,next⟩

theorem mappages_present {va pa perm : Nat} {s : State} (aligned : va % pgsize = 0) (bound : va < maxva)
    (wf : WellFormed s.mem root) (slot : slotOf s.mem root va ≠ 0)
    (fits : pa2pte pa ||| perm ||| pteV < 2 ^ 64) :
    wp (mappages root va pgsize pa perm) (fun r t => r = 0 ∧ WellFormed t.mem root ∧
      (∀ va', slotOf t.mem root va' = slotOf s.mem root va') ∧
      leaf t.mem root va = pa2pte pa ||| perm ||| pteV ∧
      ∀ va' < maxva, va / pgsize ≠ va' / pgsize → leaf t.mem root va' = leaf s.mem root va')
      (fun _ => True) s := by
  rw [wp_mappages_page aligned bound]
  apply wp_of_ok (wf.walk_lookup bound true (.inl slot))
  rcases wf.slot_cases va with ⟨none,_⟩ | ⟨_,_,_,_,ok,_⟩
  · exact absurd none slot
  rw [if_neg slot]
  apply wp_of_ok (load64_run ok)
  split
  · trivial
  apply wp_of_ok (store64_run ok)
  obtain ⟨shape,wf'⟩ := wf.store_shape slot (pa2pte pa ||| perm ||| pteV)
  exact ⟨rfl,wf',shape,wf.leaf_store_same slot _ fits,
    fun va' bound' ne => wf.leaf_store_other slot _ bound bound' ne⟩

end Unmap

theorem pte2pa_lt (pte : Nat) : pte2pa pte < 2 ^ 64 := Nat.mod_lt _ (by decide)

theorem pte_fits {pa perm : Nat} (low : pa < 2 ^ 64) (flags : perm < 2 ^ 64) :
    pa2pte pa ||| perm ||| pteV < 2 ^ 64 := by
  apply Nat.or_lt_two_pow
  · apply Nat.or_lt_two_pow _ flags
    simp only [pa2pte]
    omega
  · decide

/-- The parent's page comes back, and the page after it does not. -/
theorem remapParent_spec {old i pa flags turns : Nat} {s : State} (aligned : i % pgsize = 0)
    (bound : i < maxva) (wf : WellFormed s.mem old) (slot : slotOf s.mem old i ≠ 0)
    (fits : pa2pte pa ||| flags ||| pteV < 2 ^ 64) :
    wp (remapParent old i pa flags (turns + 1)) (fun _ t =>
      WellFormed t.mem old ∧ i + pgsize < maxva ∧ has (leaf s.mem old (i + pgsize)) pteV = true ∧
      leaf t.mem old (i + pgsize) = 0) (fun _ => True) s := by
  rw [remapParent]
  apply wp_seq (uvmunmap_pgsize aligned bound wf)
  rintro - t ⟨wfT,slots,inside,was,gone⟩
  apply wp_seq (mappages_present aligned bound wfT (by rwa [slots]) fits)
  rintro r u ⟨rfl,wfU,_,_,others⟩
  have apart : i / pgsize ≠ (i + pgsize) / pgsize := by simp [pgsize]
  simp only [ne_eq,not_true,if_false,wp_pure]
  exact ⟨wfU,inside,was,(others _ inside apart).trans gone⟩

/-! What `fork` needs of `uvmcopy`. -/

/-- `fork` on a process: the child's tables and the free pages are none of the parent's tables. -/
structure ForkState (s : State) (old new : Nat) (pages : List Nat) : Prop where
  oldTree : WellFormed s.mem old
  newTree : WellFormed s.mem new
  free : FreeList s pages
  freeNew : ∀ page ∈ pages, page ∉ tables s.mem new
  apart : Outside s.mem old {page | page ∈ tables s.mem new ∨ page ∈ pages}

def clearW (pte : Nat) : Nat := pte &&& (2 ^ 64 - 1 - pteW)

/-- Parent and child share the pages of `[0, sz)`, and neither can write them. -/
structure Shared (s t : State) (old new sz : Nat) : Prop where
  child : ∀ va < sz, pte2pa (leaf t.mem new va) = pte2pa (leaf s.mem old va) ∧
    pteFlags (leaf t.mem new va) = clearW (pteFlags (leaf s.mem old va))
  parent : ∀ va < sz, leaf t.mem old va = clearW (leaf s.mem old va)
  rest : ∀ va < maxva, sz ≤ pgrounddown va → leaf t.mem old va = leaf s.mem old va

/-- A page-table page could not be allocated; the child maps nothing and the parent what it
mapped before. -/
structure Undone (s t : State) (old new : Nat) : Prop where
  cause : s.failures < t.failures
  child : ∀ va < maxva, has (leaf t.mem new va) pteV = false
  parent : ∀ va < maxva, has (leaf t.mem old va) pteV = has (leaf s.mem old va) pteV ∧
    pte2pa (leaf t.mem old va) = pte2pa (leaf s.mem old va)

/-- `uvmcopy` returns, and has shared the pages or undone what it did. -/
def ForkCorrect (s : State) (old new sz : Nat) : Prop :=
  ∃ r t, (uvmcopy old new sz).run s = .ok (r,t) ∧ (r = 0 ∧ Shared s t old new sz ∨ r = -1 ∧ Undone s t old new)

theorem flags_fit (pte : Nat) : (pteFlags pte ||| pteR) &&& (2 ^ 32 - 1 - pteW) < 2 ^ 64 := by
  refine lt_of_le_of_lt Nat.and_le_right ?_
  decide

theorem has_zero (flag : Nat) : has 0 flag = false := by simp [has]

/-- The loop after its first page: the parent's second page was mapped and is gone. The next
turn finds it missing, or the loop ends there. -/
theorem copyFrom_rest {s t : State} {old new : Nat} (n : Nat) (wf : WellFormed t.mem old)
    (was : has (leaf s.mem old pgsize) pteV = true) (gone : leaf t.mem old pgsize = 0) :
    wp (copyFrom old new n pgsize) (fun r u => r = -1 ∧ ¬Undone s u old new) (fun _ => True) t := by
  cases n with
  | zero =>
    rw [copyFrom,wp_pure]
    refine ⟨rfl,fun undone => ?_⟩
    have same := (undone.parent pgsize (by decide)).1
    rw [gone,was,has_zero] at same
    exact Bool.false_ne_true same
  | succ n =>
    rw [copyFrom,wp_bind]
    apply wp_of_ok (wf.walk_lookup (by decide) false (.inr rfl))
    rcases wf.slot_cases pgsize with ⟨none,_⟩ | ⟨_,_,_,slot,ok,word⟩
    · simp [none]
    simp only [wp_bind,wp_ite,slot,if_false]
    apply wp_of_ok (load64_run ok)
    rw [← word,gone]
    simp [has_zero]

/-- The first page of the loop takes the parent's second page away. -/
theorem copyFrom_first {s : State} {old new : Nat} {pages : List Nat}
    (state : ForkState s old new pages) (n : Nat) :
    wp (copyFrom old new (n + 1) 0) (fun r t => r = -1 ∧ ¬Undone s t old new) (fun _ => True) s := by
  have wf := state.oldTree
  have low : 0 < maxva := by decide
  rw [copyFrom,wp_bind]
  apply wp_of_ok (wf.walk_lookup low false (.inr rfl))
  rcases wf.slot_cases 0 with ⟨none,_⟩ | ⟨_,_,_,slot,ok,_⟩
  · simp [none]
  simp only [wp_bind,wp_ite,slot,if_false]
  apply wp_of_ok (load64_run ok)
  split
  · trivial
  apply wp_post (mappages_frame rfl low state.newTree state.free state.freeNew)
  intro r t frame
  obtain ⟨wfT,slots,leaves⟩ := wf.agree _ state.apart.top state.apart.mid state.apart.low
    (fun a outside => frame a (fun h => outside (.inl h)) (fun h => outside (.inr h)))
  have again := @remapParent_spec old 0 _ _ 2 t rfl low wfT (by rwa [slots])
    (pte_fits (pte2pa_lt (Bytes.load 8 s.mem (slotOf s.mem old 0)))
      (flags_fit (Bytes.load 8 s.mem (slotOf s.mem old 0))))
  apply wp_post again
  rintro - u ⟨wfU,_,was,gone⟩
  rw [Nat.zero_add] at was gone ⊢
  rw [leaves] at was
  exact copyFrom_rest n wfU was gone

/-! A process of one page, an empty table for its child and three free pages. -/

/-- The pages of RAM by number: 0 to 2 are the tables of the process, 3 its memory, 4 the root of
the child's table, 5 to 7 are free. -/
def frame (k : Nat) : Nat := kernbase + k * pgsize

def firstWord (flags : Nat) : Nat → Nat
  | 0 => pa2pte (frame 1) ||| pteV
  | 1 => pa2pte (frame 2) ||| pteV
  | 2 => pa2pte (frame 3) ||| flags
  | 3 => 0x6261
  | 5 => frame 6
  | 6 => frame 7
  | _ => 0

def onePage (flags : Nat) : State where
  mem := Bytes.words fun w =>
    if w % 512 = 0 then firstWord flags (w / 512 - kernbase / pgsize) else 0
  freelist := frame 5
  kend := kernbase
  failures := 0

theorem frame_page {k : Nat} (bound : k < 8) : Page (frame k) := by
  have place : frame k = 2147483648 + k * 4096 := rfl
  have base : kernbase = 2147483648 := rfl
  have top : phystop = 2281701376 := rfl
  have size : pgsize = 4096 := rfl
  refine ⟨?_,by omega,by omega⟩
  rw [place,size]
  omega

theorem onePage_entry {flags k i : Nat} (fits : flags < 2 ^ 10) (hk : k < 8) (hi : i < 512) :
    entry (onePage flags).mem (frame k) i = if i = 0 then firstWord flags k else 0 := by
  have small : firstWord flags k < 2 ^ 64 := by
    unfold firstWord
    split
    case h_3 => exact Nat.or_lt_two_pow (by decide) (lt_trans fits (by decide))
    all_goals decide
  have address : frame k + 8 * i = 8 * (512 * (kernbase / pgsize + k) + i) := by
    simp only [frame,kernbase,pgsize]
    omega
  have word : (512 * (kernbase / pgsize + k) + i) % 512 = i := by omega
  have page : (512 * (kernbase / pgsize + k) + i) / 512 - kernbase / pgsize = k := by omega
  rw [entry,address,onePage,Bytes.load_words]
  · simp only [word,page]
  · simp only [word,page]
    split
    · exact small
    · decide

theorem onePage_valid {flags k i : Nat} (fits : flags < 2 ^ 10) (hk : k < 8) (hi : i < 512) :
    Valid (onePage flags).mem (frame k) i ↔ i = 0 ∧ has (firstWord flags k) pteV = true := by
  rw [Valid,onePage_entry fits hk hi]
  by_cases first : i = 0
  · simp [first]
  · simp [first,has_zero]

theorem onePage_down {flags k : Nat} (fits : flags < 2 ^ 10) (hk : k < 8) :
    down (onePage flags).mem (frame k) 0 = pte2pa (firstWord flags k) := by
  rw [down,onePage_entry fits hk (by decide),if_pos rfl]

section OnePage

variable {flags : Nat} (fits : flags < 2 ^ 10)

include fits

theorem onePage_tables : down (onePage flags).mem (frame 0) 0 = frame 1 ∧
    down (onePage flags).mem (frame 1) 0 = frame 2 := by
  have zero : (0 : Nat) < 8 := by decide
  have one : (1 : Nat) < 8 := by decide
  rw [onePage_down fits zero,onePage_down fits one]
  show pte2pa (pa2pte (frame 1) ||| pteV) = frame 1 ∧ pte2pa (pa2pte (frame 2) ||| pteV) = frame 2
  decide

theorem onePage_upper : Valid (onePage flags).mem (frame 0) 0 ∧ Valid (onePage flags).mem (frame 1) 0 := by
  have zero : (0 : Nat) < 8 := by decide
  have one : (1 : Nat) < 8 := by decide
  have first : (0 : Nat) < 512 := by decide
  rw [onePage_valid fits zero first,onePage_valid fits one first]
  show (0 = 0 ∧ has (pa2pte (frame 1) ||| pteV) pteV = true) ∧ 0 = 0 ∧ has (pa2pte (frame 2) ||| pteV) pteV = true
  decide

theorem onePage_empty {i : Nat} (hi : i < 512) : ¬Valid (onePage flags).mem (frame 4) i := by
  rw [onePage_valid fits (by decide) hi]
  show ¬(i = 0 ∧ has 0 pteV = true)
  simp [has_zero]

theorem onePage_tree : WellFormed (onePage flags).mem (frame 0) := by
  have one := (onePage_tables fits).1
  have two := (onePage_tables fits).2
  have top (i : Nat) (hi : i < 512) (valid : Valid (onePage flags).mem (frame 0) i) : i = 0 :=
    ((onePage_valid fits (by decide) hi).mp valid).1
  have mid (i : Nat) (hi : i < 512) (valid : Valid (onePage flags).mem (frame 1) i) : i = 0 :=
    ((onePage_valid fits (by decide) hi).mp valid).1
  refine ⟨frame_page (by decide),?_,?_,?_,?_⟩
  · intro i hi valid
    obtain rfl := top i hi valid
    rw [one]
    exact ⟨frame_page (by decide),by decide⟩
  · intro i hi j hj valid valid'
    obtain rfl := top i hi valid
    rw [one] at valid' ⊢
    obtain rfl := mid j hj valid'
    rw [two]
    refine ⟨frame_page (by decide),by decide,fun k hk valid => ?_⟩
    obtain rfl := top k hk valid
    rw [one]
    decide
  · intro i hi k hk valid valid' _
    rw [top i hi valid,top k hk valid']
  · intro i hi j hj k hk l hl validI validK validJ validL _
    obtain rfl := top i hi validI
    obtain rfl := top k hk validK
    rw [one] at validJ validL
    exact ⟨rfl,(mid j hj validJ).trans (mid l hl validL).symm⟩

theorem onePage_child : WellFormed (onePage flags).mem (frame 4) := by
  exact ⟨frame_page (by decide),fun i hi valid => absurd valid (onePage_empty fits hi),
    fun i hi _ _ valid => absurd valid (onePage_empty fits hi),fun i hi _ _ valid => absurd valid (onePage_empty fits hi),
    fun i hi _ _ _ _ _ _ valid => absurd valid (onePage_empty fits hi)⟩

theorem onePage_child_tables {page : Nat} (member : page ∈ tables (onePage flags).mem (frame 4)) :
    page = frame 4 := by
  rcases member with root | ⟨i,hi,valid,_⟩ | ⟨i,hi,_,_,valid,_⟩
  · exact root
  · exact absurd valid (onePage_empty fits hi)
  · exact absurd valid (onePage_empty fits hi)

theorem onePage_head {k : Nat} (hk : k < 8) : Bytes.load 8 (onePage flags).mem (frame k) = firstWord flags k := by
  have first := onePage_entry fits hk (show 0 < 512 by decide)
  rwa [if_pos rfl,entry,Nat.mul_zero,Nat.add_zero] at first

theorem onePage_free : FreeList (onePage flags) [frame 5,frame 6,frame 7] := by
  have five : (5 : Nat) < 8 := by decide
  have six : (6 : Nat) < 8 := by decide
  have seven : (7 : Nat) < 8 := by decide
  refine ⟨⟨rfl,frame_page (by decide),?_⟩,by decide⟩
  rw [onePage_head fits five]
  refine ⟨rfl,frame_page (by decide),?_⟩
  rw [onePage_head fits six]
  refine ⟨rfl,frame_page (by decide),?_⟩
  rw [onePage_head fits seven]
  rfl

theorem onePage_outside {S : Set Nat} (zero : frame 0 ∉ S) (one : frame 1 ∉ S) (two : frame 2 ∉ S) :
    Outside (onePage flags).mem (frame 0) S := by
  have top (i : Nat) (hi : i < 512) (valid : Valid (onePage flags).mem (frame 0) i) :
      down (onePage flags).mem (frame 0) i = frame 1 := by
    rw [((onePage_valid fits (by decide) hi).mp valid).1]
    exact (onePage_tables fits).1
  refine ⟨zero,fun i hi valid => ?_,fun i hi j hj valid valid' => ?_⟩
  · rwa [top i hi valid]
  · rw [top i hi valid] at valid' ⊢
    rw [((onePage_valid fits (by decide) hj).mp valid').1,(onePage_tables fits).2]
    exact two

theorem onePage_leaf {va : Nat} (first : va < pgsize) : leaf (onePage flags).mem (frame 0) va = firstWord flags 2 := by
  have index (level : Nat) : px level va = 0 := by
    have small : va / 2 ^ (12 + 9 * level) = 0 := by
      apply Nat.div_eq_of_lt
      exact lt_of_lt_of_le first (Nat.pow_le_pow_right (by decide) (by omega) : 2 ^ 12 ≤ _)
    simp [px,small]
  obtain ⟨two,one⟩ := onePage_upper fits
  obtain ⟨down2,down1⟩ := onePage_tables fits
  have slot : slotOf (onePage flags).mem (frame 0) va = frame 2 := by
    simp [slotOf,index,two,down2,one,down1]
  have some : frame 2 ≠ 0 := (frame_page (by decide)).ne_zero
  rw [leaf,slot,if_neg some]
  exact onePage_head fits (by decide)

end OnePage

/-- `uvmcopy` does what `fork` needs for no process and no amount of free memory. -/
theorem uvmcopy_never_correct {s : State} {old new sz : Nat} {pages : List Nat}
    (state : ForkState s old new pages) : ¬ForkCorrect s old new sz := by
  rintro ⟨r,t,out,outcome⟩
  have loop : wp (uvmcopy old new sz) (fun r t => r = -1 ∧ ¬Undone s t old new) (fun _ => True) s := by
    rw [uvmcopy]
    cases (sz + pgsize - 1) / pgsize with
    | zero =>
      rw [copyFrom,wp_pure]
      exact ⟨rfl,fun undone => absurd undone.cause (Nat.lt_irrefl _)⟩
    | succ n => exact copyFrom_first state n
  obtain ⟨returned,not⟩ := wp_ok loop out
  rcases outcome with ⟨zero,_⟩ | ⟨_,undone⟩
  · omega
  · exact not undone

def userFlags : Nat := pteV ||| pteR ||| pteW ||| pteX ||| pteU

theorem onePage_fork : ForkState (onePage userFlags) (frame 0) (frame 4) [frame 5,frame 6,frame 7] := by
  have fits : userFlags < 2 ^ 10 := by decide
  have child (page : Nat) (member : page ∈ tables (onePage userFlags).mem (frame 4)) : page = frame 4 :=
    onePage_child_tables fits member
  refine ⟨onePage_tree fits,onePage_child fits,onePage_free fits,?_,?_⟩
  · intro page member inTables
    rw [child page inTables] at member
    exact absurd member (by decide)
  · apply onePage_outside fits
    all_goals
      rintro (inTables | member)
      · exact absurd (child _ inTables) (by decide)
      · exact absurd member (by decide)

/-- The page is there and belongs to the user, and the child's table maps nothing. -/
theorem onePage_fork_panics :
    (∀ va < pgsize, has (leaf (onePage userFlags).mem (frame 0) va) pteV = true ∧
      has (leaf (onePage userFlags).mem (frame 0) va) pteU = true) ∧
    (∀ va, leaf (onePage userFlags).mem (frame 4) va = 0) ∧
    errorOf (uvmcopy (frame 0) (frame 4) pgsize) (onePage userFlags) = some .notMapped := by
  have fits : userFlags < 2 ^ 10 := by decide
  refine ⟨?_,?_,by decide +kernel⟩
  · intro va first
    rw [onePage_leaf fits first]
    decide
  · intro va
    simp [leaf,slotOf,onePage_empty fits (px_lt 2 va)]

theorem onePage_fork_incorrect : ¬ForkCorrect (onePage userFlags) (frame 0) (frame 4) pgsize :=
  uvmcopy_never_correct onePage_fork

end Xv6.Vm
