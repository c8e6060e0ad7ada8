import Xv6.Vm
import Mathlib.Data.Set.Basic
import Mathlib.Tactic.Ring

/-! Well-formed user page tables: three levels of page-table pages that form a tree in
physical memory. On them `walk` is a pure lookup, and writing one leaf slot changes the
translation of one page only. -/
namespace Xv6.Vm

open Prog

structure Page (a : Nat) : Prop where
  aligned : a % pgsize = 0
  low : kernbase ≤ a
  high : a + pgsize ≤ phystop

def entry (mem : Bytes.Storage) (table i : Nat) : Nat := Bytes.load 8 mem (table + 8 * i)
def Valid (mem : Bytes.Storage) (table i : Nat) : Prop := has (entry mem table i) pteV = true
def down (mem : Bytes.Storage) (table i : Nat) : Nat := pte2pa (entry mem table i)

instance (mem : Bytes.Storage) (table i : Nat) : Decidable (Valid mem table i) :=
  inferInstanceAs (Decidable (_ = _))

/-- The page-table pages are pages of RAM, and no two places of the tree share one. -/
structure WellFormed (mem : Bytes.Storage) (root : Nat) : Prop where
  top : Page root
  mid : ∀ i < 512, Valid mem root i → Page (down mem root i) ∧ down mem root i ≠ root
  low : ∀ i < 512, ∀ j < 512, Valid mem root i → Valid mem (down mem root i) j →
    Page (down mem (down mem root i) j) ∧ down mem (down mem root i) j ≠ root ∧
    ∀ k < 512, Valid mem root k → down mem (down mem root i) j ≠ down mem root k
  midDistinct : ∀ i < 512, ∀ k < 512, Valid mem root i → Valid mem root k →
    down mem root i = down mem root k → i = k
  lowDistinct : ∀ i < 512, ∀ j < 512, ∀ k < 512, ∀ l < 512, Valid mem root i → Valid mem root k →
    Valid mem (down mem root i) j → Valid mem (down mem root k) l →
    down mem (down mem root i) j = down mem (down mem root k) l → i = k ∧ j = l

/-- The address of the leaf entry of `va`, or 0 if a table on the way is missing. -/
def slotOf (mem : Bytes.Storage) (root va : Nat) : Nat :=
  if Valid mem root (px 2 va) then
    if Valid mem (down mem root (px 2 va)) (px 1 va) then
      down mem (down mem root (px 2 va)) (px 1 va) + 8 * px 0 va
    else 0
  else 0

/-- The leaf entry of `va`, 0 where there is none. -/
def leaf (mem : Bytes.Storage) (root va : Nat) : Nat :=
  if slotOf mem root va = 0 then 0 else Bytes.load 8 mem (slotOf mem root va)

theorem px_lt (level va : Nat) : px level va < 512 := Nat.mod_lt _ (by decide)

theorem Page.mapped_word {a i : Nat} (page : Page a) (bound : i < 512) : mapped (a + 8 * i) = true := by
  have low := page.low
  have high := page.high
  simp only [pgsize] at high
  simp only [mapped,Bool.and_eq_true,decide_eq_true_eq]
  omega

theorem Page.ne_zero {a : Nat} (page : Page a) : a ≠ 0 := by
  have := page.low
  simp only [kernbase] at this
  omega

theorem Page.apart {a b i j : Nat} (pa : Page a) (pb : Page b) (ne : a ≠ b) (hi : i < 512) (hj : j < 512) :
    a + 8 * i + 8 ≤ b + 8 * j ∨ b + 8 * j + 8 ≤ a + 8 * i := by
  have ha := pa.aligned
  have hb := pb.aligned
  simp only [pgsize] at ha hb
  omega

theorem page_of_px {va va' : Nat} (bound : va < maxva) (bound' : va' < maxva)
    (two : px 2 va = px 2 va') (one : px 1 va = px 1 va') (zero : px 0 va = px 0 va') :
    va / pgsize = va' / pgsize := by
  simp only [px,pgsize,maxva] at *
  omega

theorem load64_run {s : State} {a : Nat} (ok : mapped a = true) :
    (load64 a).run s = .ok (Bytes.load 8 s.mem a,s) := by
  rw [load64,if_pos ok]; rfl

theorem store64_run {s : State} {a v : Nat} (ok : mapped a = true) :
    (store64 a v).run s = .ok ((),{ s with mem := Bytes.store 8 s.mem a v }) := by
  rw [store64,if_pos ok]; rfl

theorem walkFrom_valid {s : State} {table va level : Nat} {alloc : Bool}
    (ok : mapped (table + 8 * px (level + 1) va) = true) (valid : Valid s.mem table (px (level + 1) va)) :
    (walkFrom table va alloc (level + 1)).run s =
      (walkFrom (down s.mem table (px (level + 1) va)) va alloc level).run s := by
  have set : has (Bytes.load 8 s.mem (table + 8 * px (level + 1) va)) pteV = true := valid
  rw [walkFrom,run_bind (load64_run ok),if_pos set]
  rfl

theorem walkFrom_absent {s : State} {table va level : Nat}
    (ok : mapped (table + 8 * px (level + 1) va) = true) (invalid : ¬Valid s.mem table (px (level + 1) va)) :
    (walkFrom table va false (level + 1)).run s = .ok (0,s) := by
  have unset : ¬has (Bytes.load 8 s.mem (table + 8 * px (level + 1) va)) pteV = true := invalid
  rw [walkFrom,run_bind (load64_run ok),if_neg unset]
  rfl

namespace WellFormed

variable {mem mem' : Bytes.Storage} {root va : Nat}

theorem slot_cases (wf : WellFormed mem root) (va : Nat) : (slotOf mem root va = 0 ∧ leaf mem root va = 0) ∨
    (Valid mem root (px 2 va) ∧ Valid mem (down mem root (px 2 va)) (px 1 va) ∧
      slotOf mem root va = down mem (down mem root (px 2 va)) (px 1 va) + 8 * px 0 va ∧
      slotOf mem root va ≠ 0 ∧ mapped (slotOf mem root va) = true ∧
      leaf mem root va = Bytes.load 8 mem (slotOf mem root va)) := by
  by_cases two : Valid mem root (px 2 va)
  · by_cases one : Valid mem (down mem root (px 2 va)) (px 1 va)
    · have page := (wf.low _ (px_lt 2 va) _ (px_lt 1 va) two one).1
      have slot : slotOf mem root va = down mem (down mem root (px 2 va)) (px 1 va) + 8 * px 0 va := by
        simp [slotOf,two,one]
      have nonzero : slotOf mem root va ≠ 0 := by
        have := page.ne_zero
        omega
      refine .inr ⟨two,one,slot,nonzero,?_,?_⟩
      · rw [slot]; exact page.mapped_word (px_lt 0 va)
      · simp [leaf,nonzero]
    · have none : slotOf mem root va = 0 := by simp [slotOf,two,one]
      exact .inl ⟨none,by simp [leaf,none]⟩
  · have none : slotOf mem root va = 0 := by simp [slotOf,two]
    exact .inl ⟨none,by simp [leaf,none]⟩

/-- On a well-formed table `walk` finds the slot, and without allocation changes nothing. -/
theorem walk_lookup {s : State} (wf : WellFormed s.mem root) (bound : va < maxva) (alloc : Bool)
    (found : slotOf s.mem root va ≠ 0 ∨ alloc = false) :
    (walk root va alloc).run s = .ok (slotOf s.mem root va,s) := by
  have top := wf.top.mapped_word (px_lt 2 va)
  rw [walk,if_neg (Nat.not_le.mpr bound)]
  by_cases two : Valid s.mem root (px 2 va)
  · have mid := (wf.mid _ (px_lt 2 va) two).1.mapped_word (px_lt 1 va)
    rw [walkFrom_valid top two]
    by_cases one : Valid s.mem (down s.mem root (px 2 va)) (px 1 va)
    · rw [walkFrom_valid mid one,slotOf,if_pos two,if_pos one]
      rfl
    · have none : slotOf s.mem root va = 0 := by simp [slotOf,two,one]
      obtain rfl := found.resolve_left (fun h => h none)
      rw [walkFrom_absent mid one,none]
  · have none : slotOf s.mem root va = 0 := by simp [slotOf,two]
    obtain rfl := found.resolve_left (fun h => h none)
    rw [walkFrom_absent top two,none]

/-- The leaf slot of `va` is in no table of the two upper levels. -/
theorem slot_apart (wf : WellFormed mem root) (slot : slotOf mem root va ≠ 0) :
    (∀ i < 512, root + 8 * i + 8 ≤ slotOf mem root va ∨ slotOf mem root va + 8 ≤ root + 8 * i) ∧
    ∀ k < 512, Valid mem root k → ∀ i < 512, down mem root k + 8 * i + 8 ≤ slotOf mem root va ∨
      slotOf mem root va + 8 ≤ down mem root k + 8 * i := by
  rcases wf.slot_cases va with ⟨none,_⟩ | ⟨two,one,same,_⟩
  · exact absurd none slot
  · obtain ⟨page,apart,others⟩ := wf.low _ (px_lt 2 va) _ (px_lt 1 va) two one
    rw [same]
    exact ⟨fun i hi => Page.apart wf.top page apart.symm hi (px_lt 0 va),
      fun k hk valid i hi => Page.apart (wf.mid k hk valid).1 page (others k hk valid).symm hi (px_lt 0 va)⟩

theorem slot_distinct (wf : WellFormed mem root) {va' : Nat} (bound : va < maxva) (bound' : va' < maxva)
    (slot : slotOf mem root va ≠ 0) (slot' : slotOf mem root va' ≠ 0) (ne : va / pgsize ≠ va' / pgsize) :
    slotOf mem root va + 8 ≤ slotOf mem root va' ∨ slotOf mem root va' + 8 ≤ slotOf mem root va := by
  rcases wf.slot_cases va with ⟨none,_⟩ | ⟨two,one,same,_⟩
  · exact absurd none slot
  rcases wf.slot_cases va' with ⟨none,_⟩ | ⟨two',one',same',_⟩
  · exact absurd none slot'
  have page := (wf.low _ (px_lt 2 va) _ (px_lt 1 va) two one).1
  have page' := (wf.low _ (px_lt 2 va') _ (px_lt 1 va') two' one').1
  rw [same,same']
  by_cases table : down mem (down mem root (px 2 va)) (px 1 va) = down mem (down mem root (px 2 va')) (px 1 va')
  · obtain ⟨eq2,eq1⟩ := wf.lowDistinct _ (px_lt 2 va) _ (px_lt 1 va) _ (px_lt 2 va') _ (px_lt 1 va')
      two two' one one' table
    have eq0 : px 0 va ≠ px 0 va' := fun eq0 => ne (page_of_px bound bound' eq2 eq1 eq0)
    rw [table]
    omega
  · exact Page.apart page page' table (px_lt 0 va) (px_lt 0 va')

theorem same_upper (top : ∀ i < 512, entry mem' root i = entry mem root i)
    (mid : ∀ k < 512, Valid mem root k → ∀ i < 512,
      entry mem' (down mem root k) i = entry mem (down mem root k) i) :
    (∀ va, slotOf mem' root va = slotOf mem root va) ∧ (WellFormed mem root → WellFormed mem' root) := by
  have valid (i : Nat) (hi : i < 512) : Valid mem' root i ↔ Valid mem root i := by
    rw [Valid,Valid,top i hi]
  have next (i : Nat) (hi : i < 512) : down mem' root i = down mem root i := by
    rw [down,down,top i hi]
  have valid1 (k : Nat) (hk : k < 512) (vk : Valid mem root k) (i : Nat) (hi : i < 512) :
      Valid mem' (down mem root k) i ↔ Valid mem (down mem root k) i := by
    rw [Valid,Valid,mid k hk vk i hi]
  have next1 (k : Nat) (hk : k < 512) (vk : Valid mem root k) (i : Nat) (hi : i < 512) :
      down mem' (down mem root k) i = down mem (down mem root k) i := by
    exact congrArg pte2pa (mid k hk vk i hi)
  constructor
  · intro va
    have h2 := px_lt 2 va
    have h1 := px_lt 1 va
    unfold slotOf
    rw [next _ h2]
    by_cases two : Valid mem root (px 2 va)
    · rw [if_pos ((valid _ h2).mpr two),if_pos two,next1 _ h2 two _ h1]
      simp only [valid1 _ h2 two _ h1]
    · rw [if_neg (mt (valid _ h2).mp two),if_neg two]
  · intro wf
    refine ⟨wf.top,?_,?_,?_,?_⟩
    · intro i hi vi
      rw [next i hi]
      exact wf.mid i hi ((valid i hi).mp vi)
    · intro i hi j hj vi vj
      have vi := (valid i hi).mp vi
      rw [next i hi] at vj ⊢
      rw [next1 i hi vi j hj]
      obtain ⟨page,apart,others⟩ := wf.low i hi j hj vi ((valid1 i hi vi j hj).mp vj)
      refine ⟨page,apart,fun k hk vk => ?_⟩
      rw [next k hk]
      exact others k hk ((valid k hk).mp vk)
    · intro i hi k hk vi vk eq
      rw [next i hi,next k hk] at eq
      exact wf.midDistinct i hi k hk ((valid i hi).mp vi) ((valid k hk).mp vk) eq
    · intro i hi j hj k hk l hl vi vk vj vl eq
      have vi := (valid i hi).mp vi
      have vk := (valid k hk).mp vk
      rw [next i hi] at vj eq
      rw [next k hk] at vl eq
      rw [next1 i hi vi j hj,next1 k hk vk l hl] at eq
      exact wf.lowDistinct i hi j hj k hk l hl vi vk ((valid1 i hi vi j hj).mp vj) ((valid1 k hk vk l hl).mp vl) eq

section Store

variable (wf : WellFormed mem root) (slot : slotOf mem root va ≠ 0) (v : Nat)

include wf slot

theorem store_shape : (∀ va', slotOf (Bytes.store 8 mem (slotOf mem root va) v) root va' = slotOf mem root va') ∧
    WellFormed (Bytes.store 8 mem (slotOf mem root va) v) root := by
  obtain ⟨top,mid⟩ := wf.slot_apart slot
  have shape := @same_upper mem (Bytes.store 8 mem (slotOf mem root va) v) root
    (fun i hi => Bytes.load_store_other (top i hi))
    (fun k hk vk i hi => Bytes.load_store_other (mid k hk vk i hi))
  exact ⟨shape.1,shape.2 wf⟩

theorem leaf_store_same (fits : v < 2 ^ 64) : leaf (Bytes.store 8 mem (slotOf mem root va) v) root va = v := by
  have shape := (wf.store_shape slot v).1 va
  rw [leaf,shape,if_neg slot,Bytes.load_store_value _ _ (by simpa using fits)]

theorem leaf_store_other {va' : Nat} (bound : va < maxva) (bound' : va' < maxva)
    (ne : va / pgsize ≠ va' / pgsize) :
    leaf (Bytes.store 8 mem (slotOf mem root va) v) root va' = leaf mem root va' := by
  have shape := (wf.store_shape slot v).1 va'
  by_cases none : slotOf mem root va' = 0
  · rw [leaf,leaf,shape,none]
    simp
  · rw [leaf,leaf,shape,if_neg none,if_neg none]
    apply Bytes.load_store_other
    exact (wf.slot_distinct bound bound' slot none ne).symm

end Store

theorem agree (wf : WellFormed mem root) (S : Set Nat) (root_mem : root ∉ S)
    (mid_mem : ∀ i < 512, Valid mem root i → down mem root i ∉ S)
    (low_mem : ∀ i < 512, ∀ j < 512, Valid mem root i → Valid mem (down mem root i) j →
      down mem (down mem root i) j ∉ S)
    (same : ∀ a, pgrounddown a ∉ S → mem' a = mem a) :
    WellFormed mem' root ∧ (∀ va, slotOf mem' root va = slotOf mem root va) ∧
      ∀ va, leaf mem' root va = leaf mem root va := by
  have words (page : Nat) (isPage : Page page) (outside : page ∉ S) (i : Nat) (hi : i < 512) :
      entry mem' page i = entry mem page i := by
    apply Bytes.load_congr
    intro a lower upper
    apply same
    have aligned := isPage.aligned
    simp only [pgsize] at aligned
    have : pgrounddown a = page := by
      simp only [pgrounddown,pgsize]
      omega
    rwa [this]
  have upper := @same_upper mem mem' root (words root wf.top root_mem)
    (fun k hk vk => words _ (wf.mid k hk vk).1 (mid_mem k hk vk))
  refine ⟨upper.2 wf,upper.1,fun va => ?_⟩
  rw [leaf,leaf,upper.1 va]
  rcases wf.slot_cases va with ⟨none,_⟩ | ⟨two,one,slot,nonzero,_⟩
  · simp [none]
  · rw [if_neg nonzero,if_neg nonzero,slot]
    exact words _ (wf.low _ (px_lt 2 va) _ (px_lt 1 va) two one).1
      (low_mem _ (px_lt 2 va) _ (px_lt 1 va) two one) _ (px_lt 0 va)

end WellFormed

structure Outside (mem : Bytes.Storage) (root : Nat) (S : Set Nat) : Prop where
  top : root ∉ S
  mid : ∀ i < 512, Valid mem root i → down mem root i ∉ S
  low : ∀ i < 512, ∀ j < 512, Valid mem root i → Valid mem (down mem root i) j → down mem (down mem root i) j ∉ S

/-! The free list. -/

/-- `head` starts a list linked through the first word of each of these pages. -/
def Linked (mem : Bytes.Storage) : Nat → List Nat → Prop
  | head, [] => head = 0
  | head, page :: rest => head = page ∧ Page page ∧ Linked mem (Bytes.load 8 mem page) rest

/-- The pages on the free list, each once. -/
structure FreeList (s : State) (pages : List Nat) : Prop where
  linked : Linked s.mem s.freelist pages
  distinct : pages.Nodup

theorem Linked.agree {mem mem' : Bytes.Storage} {head : Nat} {pages : List Nat}
    (linked : Linked mem head pages) (same : ∀ a, pgrounddown a ∈ pages → mem' a = mem a) :
    Linked mem' head pages := by
  induction pages generalizing head with
  | nil => exact linked
  | cons first rest ih =>
    refine ⟨linked.1,linked.2.1,?_⟩
    have next : Bytes.load 8 mem' first = Bytes.load 8 mem first := by
      apply Bytes.load_congr
      intro a lower upper
      apply same
      have aligned := linked.2.1.aligned
      simp only [pgsize] at aligned
      have : pgrounddown a = first := by
        simp only [pgrounddown,pgsize]
        omega
      simp [this]
    rw [next]
    exact ih linked.2.2 (fun a member => same a (List.mem_cons_of_mem first member))

theorem fill_page_outside {mem : Bytes.Storage} {page a : Nat} {byte : UInt8} (isPage : Page page)
    (outside : pgrounddown a ≠ page) : Bytes.fill mem page pgsize byte a = mem a := by
  apply Bytes.fill_outside
  have aligned := isPage.aligned
  simp only [pgrounddown,pgsize] at *
  omega

theorem kalloc_spec {s : State} {pages : List Nat} (free : FreeList s pages) (E : Panic → Prop) :
    wp kalloc (fun page t =>
      (pages = [] ∧ page = 0 ∧ t.mem = s.mem ∧ FreeList t []) ∨
      ∃ rest, pages = page :: rest ∧ Page page ∧ FreeList t rest ∧
        ∀ a, pgrounddown a ≠ page → t.mem a = s.mem a) E s := by
  have linked := free.linked
  simp only [kalloc,memsetPage,wp_bind,wp_get]
  cases pages with
  | nil =>
    have null : s.freelist = 0 := linked
    simp only [null,if_true,wp_bind,wp_modify,wp_pure]
    exact .inl ⟨trivial,trivial,trivial,rfl,free.distinct⟩
  | cons page rest =>
    obtain ⟨head,isPage,tail⟩ := linked
    have distinct := List.nodup_cons.mp free.distinct
    have some : s.freelist ≠ 0 := head ▸ isPage.ne_zero
    simp only [some,if_false,wp_bind,wp_modify,wp_pure]
    rw [head]
    refine .inr ⟨rest,rfl,isPage,⟨?_,distinct.2⟩,fun a outside => fill_page_outside isPage outside⟩
    apply tail.agree
    intro a member
    exact fill_page_outside isPage (fun same => distinct.1 (same ▸ member))

/-- The tables that `walk` visits for `va` from `table` at `level` on are pages of `S`. -/
def PathIn (S : Set Nat) (mem : Bytes.Storage) (va : Nat) : Nat → Nat → Prop
  | 0, table => Page table ∧ table ∈ S
  | level + 1, table => Page table ∧ table ∈ S ∧ (Valid mem table (px (level + 1) va) →
      PathIn S mem va level (down mem table (px (level + 1) va)))

theorem pgrounddown_word {page i : Nat} (isPage : Page page) (bound : i < 4096) :
    pgrounddown (page + i) = page := by
  have aligned := isPage.aligned
  simp only [pgrounddown,pgsize] at *
  omega

theorem store_word_outside {mem : Bytes.Storage} {page i v a : Nat} (isPage : Page page) (bound : i < 512)
    (outside : pgrounddown a ≠ page) : Bytes.store 8 mem (page + 8 * i) v a = mem a := by
  apply Bytes.store_other
  have aligned := isPage.aligned
  simp only [pgrounddown,pgsize] at *
  omega

/-- A walk that allocates changes only the tables on its way and pages it takes from the
free list. -/
theorem walkFrom_frame {va : Nat} {alloc : Bool} (level : Nat) {S : Set Nat} {s : State} {table : Nat}
    {pages : List Nat} (path : PathIn S s.mem va level table) (free : FreeList s pages)
    (apart : ∀ page ∈ pages, page ∉ S) :
    wp (walkFrom table va alloc level) (fun slot t =>
      (∀ a, pgrounddown a ∉ S → pgrounddown a ∉ pages → t.mem a = s.mem a) ∧
      (slot ≠ 0 → ∃ page i, Page page ∧ (page ∈ S ∨ page ∈ pages) ∧ i < 512 ∧ slot = page + 8 * i))
      (fun _ => True) s := by
  induction level generalizing S s table pages with
  | zero =>
    rw [walkFrom,wp_pure]
    exact ⟨fun _ _ _ => rfl,fun _ => ⟨table,px 0 va,path.1,.inl path.2,px_lt 0 va,rfl⟩⟩
  | succ level ih =>
    obtain ⟨isPage,member,next⟩ := path
    have ok := isPage.mapped_word (px_lt (level + 1) va)
    rw [walkFrom,wp_bind]
    apply wp_of_ok (load64_run ok)
    by_cases valid : Valid s.mem table (px (level + 1) va)
    · have set : has (Bytes.load 8 s.mem (table + 8 * px (level + 1) va)) pteV = true := valid
      rw [if_pos set]
      exact ih (next valid) free apart
    · have unset : ¬has (Bytes.load 8 s.mem (table + 8 * px (level + 1) va)) pteV = true := valid
      rw [if_neg unset]
      cases alloc with
      | false => exact ⟨fun _ _ _ => rfl,fun h => absurd rfl h⟩
      | true =>
        simp only [Bool.not_true,Bool.false_eq_true,if_false]
        apply wp_seq (kalloc_spec free _)
        rintro page t (⟨_,rfl,same,_⟩ | ⟨rest,rfl,fresh,left,same⟩)
        · rw [if_pos rfl,wp_pure]
          exact ⟨fun a _ _ => congrFun same a,fun h => absurd rfl h⟩
        · have apartPage : page ∉ S := apart page List.mem_cons_self
          have ne : table ≠ page := fun same => apartPage (same ▸ member)
          have distinct := List.nodup_cons.mp free.distinct
          rw [if_neg fresh.ne_zero]
          simp only [memsetPage,wp_bind,wp_modify]
          apply wp_of_ok (store64_run ok)
          let linked := Bytes.store 8 (Bytes.fill t.mem page pgsize 0)
            (table + 8 * px (level + 1) va) (pa2pte page ||| pteV)
          obtain ⟨u,isU⟩ : ∃ u : State, u = { t with mem := linked } := ⟨_,rfl⟩
          have outside (a : Nat) (notPage : pgrounddown a ≠ page) (notTable : pgrounddown a ≠ table) :
              u.mem a = t.mem a := by
            rw [isU]
            exact (store_word_outside isPage (px_lt _ va) notTable).trans (fill_page_outside fresh notPage)
          have zero (i : Nat) (hi : i < 512) : entry u.mem page i = 0 := by
            rw [isU,entry,Bytes.load_store_other (Page.apart fresh isPage ne.symm hi (px_lt _ va)),
              Bytes.load_fill_zero]
            simp only [pgsize]
            omega
          have freeU : FreeList u rest := by
            refine ⟨?_,distinct.2⟩
            have sameHead : u.freelist = t.freelist := by rw [isU]
            rw [sameHead]
            apply left.linked.agree
            intro a inside
            apply outside
            · exact fun same => distinct.1 (same ▸ inside)
            · exact fun same => apart table (same ▸ List.mem_cons_of_mem page inside) member
          have pathU : PathIn (insert page S) u.mem va level page := by
            cases level with
            | zero => exact ⟨fresh,Set.mem_insert page S⟩
            | succ level =>
              refine ⟨fresh,Set.mem_insert page S,fun valid => ?_⟩
              rw [Valid,zero _ (px_lt _ va)] at valid
              simp [has] at valid
          have later := @ih (insert page S) u page rest pathU freeU (by
            intro p inside hit
            rcases hit with rfl | hit
            · exact distinct.1 inside
            · exact apart p (List.mem_cons_of_mem page inside) hit)
          change wp (walkFrom page va true level) _ _ { t with mem := linked }
          rw [← isU]
          apply wp_post later
          rintro slot v ⟨frame,place⟩
          constructor
          · intro a notS notFree
            rw [List.mem_cons,not_or] at notFree
            rw [frame a (by
              rintro (same | inS)
              · exact notFree.1 same
              · exact notS inS) notFree.2,outside a notFree.1 (fun same => notS (same ▸ member)),
              same a notFree.1]
          · intro nonzero
            obtain ⟨p,i,hp,home,hi,eq⟩ := place nonzero
            refine ⟨p,i,hp,?_,hi,eq⟩
            rcases home with (rfl | inS) | inRest
            · exact .inr List.mem_cons_self
            · exact .inl inS
            · exact .inr (List.mem_cons_of_mem page inRest)

end Xv6.Vm
