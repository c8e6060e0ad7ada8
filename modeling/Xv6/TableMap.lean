import Xv6.UserTable

/-! Page tables refine maps from page numbers to entries: `walk` is the lookup, `mappages` adds a range of pages and
`uvmunmap` removes one. -/
namespace Xv6.Vm

open Prog Function

/-! The process of one page. -/

section OnePage

variable {flags : Nat} (fits : flags < 2 ^ 10)

/-- What the table of the process maps. -/
def onePte (flags i : Nat) : Nat := if i = 0 then pa2pte (frame 3) ||| flags else 0

include fits

theorem onePage_table : Table (onePage flags).mem (frame 0) {frame 0,frame 1,frame 2} (onePte flags) := by
  obtain ⟨one,two⟩ := onePage_tables fits
  obtain ⟨validTop,validMid⟩ := onePage_upper fits
  have top {i : Nat} (hi : i < 512) (valid : Valid (onePage flags).mem (frame 0) i) : i = 0 :=
    ((onePage_valid fits (by decide) hi).mp valid).1
  have mid {i : Nat} (hi : i < 512) (valid : Valid (onePage flags).mem (frame 1) i) : i = 0 :=
    ((onePage_valid fits (by decide) hi).mp valid).1
  refine ⟨onePage_tree fits,fun x => ?_,fun i hi valid => ?_,fun i hi valid j hj valid' => ?_,fun i hi => ?_⟩
  · simp only [Multiset.insert_eq_cons,Multiset.mem_cons,Multiset.mem_singleton]
    constructor
    · rintro (rfl | rfl | rfl)
      · exact .inl rfl
      · exact .inr (.inl ⟨0,by decide,validTop,one.symm⟩)
      · exact .inr (.inr ⟨0,by decide,0,by decide,validTop,by rwa [one],by rw [one,two]⟩)
    · rintro (rfl | ⟨i,hi,valid,rfl⟩ | ⟨i,hi,j,hj,valid,valid',rfl⟩)
      · exact .inl rfl
      · obtain rfl := top hi valid
        exact .inr (.inl one)
      · obtain rfl := top hi valid
        rw [one] at valid' ⊢
        obtain rfl := mid hj valid'
        exact .inr (.inr two)
  · obtain rfl := top hi valid
    rw [onePage_entry fits (by decide) (by decide),if_pos rfl]
    exact ⟨by decide,pteFlags_or _ (by decide)⟩
  · obtain rfl := top hi valid
    rw [one] at valid' ⊢
    obtain rfl := mid hj valid'
    rw [onePage_entry fits (by decide) (by decide),if_pos rfl]
    exact pteFlags_or _ (by decide)
  · obtain rfl | zero := eq_or_ne i 0
    · rw [onePage_leaf fits (by decide)]
      rfl
    · rw [onePte,if_neg zero]
      have h2 := px_lt 2 (i * pgsize)
      have h1 := px_lt 1 (i * pgsize)
      obtain ⟨_,none⟩ | ⟨valid,valid',place,_,_,word⟩ := (onePage_tree fits).slot_cases (i * pgsize)
      · exact none
      · have isTop := top h2 valid
        rw [isTop,one] at valid' place
        have isMid := mid h1 valid'
        rw [isMid,two] at place
        have other : px 0 (i * pgsize) ≠ 0 := by
          simp only [px,pgsize,maxva] at *
          omega
        rw [word,place]
        exact (onePage_entry fits (by decide) (px_lt 0 _)).trans (if_neg other)

theorem onePage_mem : Mem (onePage flags) [frame 5,frame 6,frame 7]
    ({frame 0,frame 1,frame 2} + ([frame 3] : List Nat)) := by
  refine ⟨(onePage_free fits).linked,by decide,fun x inside => ?_⟩
  have small : ∃ k < 8, x = frame k := by
    simp only [Multiset.insert_eq_cons,Multiset.mem_add,Multiset.mem_coe,List.mem_cons,List.not_mem_nil,or_false,
      Multiset.mem_cons,Multiset.mem_singleton] at inside
    rcases inside with (rfl | rfl | rfl) | (rfl | rfl | rfl) | rfl
    all_goals exact ⟨_,by decide,rfl⟩
  obtain ⟨k,bound,rfl⟩ := small
  exact ⟨frame_page bound,Nat.le_add_right _ _⟩

end OnePage

theorem onePage_maps {k pa : Nat} (here : [frame 3][k]? = some pa) : Maps (onePte userFlags k) pa := by
  obtain rfl : k = 0 := by
    have := (List.getElem?_eq_some_iff.mp here).1
    simpa using this
  obtain rfl : frame 3 = pa := by simpa using here
  exact ⟨by decide,by decide,by decide⟩

/-! The map of a table. -/

def lookup (root va : Nat) : Kernel Nat := do
  let slot ← walk root va false
  if slot = 0 then return 0
  load64 slot

/-- The table at `root` is the map `pte`. -/
def Refines (s : State) (root : Nat) (pte : Nat → Nat) : Prop :=
  ∀ i < maxva / pgsize, (lookup root (i * pgsize)).run s = .ok (pte i,s)

/-- `n` pages from number `i` on are mapped to the memory from `pa` on. -/
def added (pte : Nat → Nat) (i n pa perm j : Nat) : Nat :=
  if i ≤ j ∧ j < i + n then pa2pte ((pa + (j - i) * pgsize) % 2 ^ 64) ||| perm ||| pteV else pte j

def removed (pte : Nat → Nat) (i n j : Nat) : Nat := if i ≤ j ∧ j < i + n then 0 else pte j

section Map

variable {s : State} {root : Nat} {free : List Nat} {tabs : Multiset Nat} {pte : Nat → Nat} {i n pa perm : Nat}

theorem Table.refines (table : Table s.mem root tabs pte) : Refines s root pte := by
  intro i hi
  have found := table.tree.walk_lookup (Table.address_lt hi) false (.inr rfl)
  rw [lookup,run_bind found,← table.maps i hi]
  obtain ⟨none,zero⟩ | ⟨_,_,_,some,ok,word⟩ := table.tree.slot_cases (i * pgsize)
  · rw [if_pos none,zero]
    rfl
  · rw [if_neg some,load64_run ok,word]

theorem added_zero (pte : Nat → Nat) (i pa perm : Nat) : added pte i 0 pa perm = pte := by
  funext j
  rw [added,if_neg (by omega)]

theorem added_succ (pte : Nat → Nat) (i n pa perm : Nat) (small : pa < 2 ^ 64) :
    added (update pte i (pa2pte pa ||| perm ||| pteV)) (i + 1) n ((pa + pgsize) % 2 ^ 64) perm =
      added pte i (n + 1) pa perm := by
  funext j
  simp only [added]
  obtain rfl | first := eq_or_ne j i
  · rw [if_neg (by omega),if_pos (by omega),update_self,Nat.sub_self,Nat.zero_mul,Nat.add_zero,
      Nat.mod_eq_of_lt small]
  · rw [update_of_ne first]
    by_cases inside : i + 1 ≤ j ∧ j < i + 1 + n
    · have place : ((pa + pgsize) % 2 ^ 64 + (j - (i + 1)) * pgsize) % 2 ^ 64 = (pa + (j - i) * pgsize) % 2 ^ 64 := by
        rw [Nat.mod_add_mod,show j - i = j - (i + 1) + 1 by omega,Nat.add_mul,Nat.one_mul,Nat.add_assoc,
          Nat.add_comm pgsize]
      rw [if_pos inside,if_pos (by omega),place]
    · rw [if_neg inside,if_neg (by omega)]

theorem removed_zero (pte : Nat → Nat) (i : Nat) : removed pte i 0 = pte := by
  funext j
  rw [removed,if_neg (by omega)]

theorem removed_succ (pte : Nat → Nat) (i n : Nat) :
    removed (update pte i 0) (i + 1) n = removed pte i (n + 1) := by
  funext j
  simp only [removed]
  obtain rfl | first := eq_or_ne j i
  · simp
  · rw [update_of_ne first]
    exact if_congr (by omega) rfl rfl

/-- The table after `mappages` for `n` pages: all of them are mapped, or some of the first. -/
def Mapped (s : State) (root : Nat) (free : List Nat) (tabs : Multiset Nat) (pte : Nat → Nat) (i n pa perm : Nat)
    (r : Int) (t : State) : Prop :=
  ∃ free' tabs' k, Changes s t free tabs free' tabs' ∧ Table t.mem root tabs' (added pte i k pa perm) ∧
    (r = 0 ∧ k = n ∨ r = -1 ∧ k < n)

theorem mapFrom_maps (turns : Nat) (mem : Mem s free tabs) (table : Table s.mem root tabs pte)
    (bound : i + n < maxva / pgsize) (absent : ∀ j, i ≤ j → j ≤ i + n → has (pte j) pteV = false) (small : pa < 2 ^ 64)
    (flags : perm < 2 ^ 64) (enough : n < turns) (E : Panic → Prop) :
    wp (mapFrom root ((i + n) * pgsize) perm turns (i * pgsize) pa)
      (Mapped s root free tabs pte i (n + 1) pa perm) E s := by
  induction turns generalizing s free tabs pte i n pa with
  | zero => omega
  | succ turns ih =>
    have hi : i < maxva / pgsize := by omega
    rw [mapFrom]
    apply wp_seq (walk_alloc mem table (Table.address_lt hi) E)
    rintro slot t ⟨free',tabs',changes,table,place⟩
    by_cases none : slot = 0
    · rw [if_pos none,wp_pure]
      refine ⟨free',tabs',0,changes,?_,.inr ⟨rfl,by omega⟩⟩
      rwa [added_zero]
    obtain rfl := place none
    obtain ⟨missing,_⟩ | ⟨_,_,_,_,ok,word⟩ := table.tree.slot_cases (i * pgsize)
    · exact absurd missing none
    rw [if_neg none,wp_bind]
    apply wp_of_ok (load64_run ok)
    rw [← word,table.maps i hi,absent i (Nat.le_refl i) (by omega),if_neg Bool.false_ne_true,wp_bind]
    apply wp_of_ok (store64_run ok)
    have stored := table.store hi none (pte_fits small flags)
    have changes := changes.trans (table.store_changes (v := pa2pte pa ||| perm ||| pteV) (changes.mem mem) none)
    cases n with
    | zero =>
      rw [Nat.add_zero,if_pos rfl,wp_pure]
      refine ⟨free',tabs',1,changes,?_,.inl ⟨rfl,rfl⟩⟩
      rwa [← added_succ pte i 0 pa perm small,added_zero]
    | succ n =>
      have later : ¬i * pgsize = (i + (n + 1)) * pgsize := by
        simp only [pgsize]
        omega
      have next : (i * pgsize + pgsize) % 2 ^ 64 = (i + 1) * pgsize := by
        simp only [pgsize,maxva] at hi ⊢
        omega
      rw [if_neg later,next,show i + (n + 1) = i + 1 + n by omega]
      apply wp_post (ih (changes.mem mem) stored (by omega) ?_ (Nat.mod_lt _ (by decide)) (by omega))
      · rintro r u ⟨free'',tabs'',k,more,table,result⟩
        rw [added_succ pte i k pa perm small] at table
        exact ⟨free'',tabs'',k + 1,changes.trans more,table,by omega⟩
      · intro j lower upper
        rw [update_of_ne (by omega)]
        exact absent j (by omega) (by omega)

theorem mappages_maps (mem : Mem s free tabs) (table : Table s.mem root tabs pte) {size : Nat} (some : 0 < size)
    (bound : i * pgsize + size ≤ maxva)
    (absent : ∀ j, i ≤ j → j ≤ i + (size - 1) / pgsize → has (pte j) pteV = false) (small : pa < 2 ^ 64)
    (flags : perm < 2 ^ 64) (E : Panic → Prop) :
    wp (mappages root (i * pgsize) size pa perm)
      (Mapped s root free tabs pte i ((size - 1) / pgsize + 1) pa perm) E s := by
  have start : pgrounddown (i * pgsize) = i * pgsize := by rw [pgrounddown,Nat.mul_div_cancel _ (by decide)]
  have last : pgrounddown ((i * pgsize + size - 1) % 2 ^ 64) = (i + (size - 1) / pgsize) * pgsize := by
    simp only [pgrounddown,pgsize,maxva] at bound ⊢
    omega
  have turns : mapTurns (i * pgsize) ((i + (size - 1) / pgsize) * pgsize) = (size - 1) / pgsize + 1 := by
    rw [mapTurns,if_pos (Nat.mul_le_mul_right _ (Nat.le_add_right ..))]
    simp only [pgsize]
    omega
  simp only [mappages,if_neg (Nat.ne_of_gt some),start,last,turns]
  refine mapFrom_maps _ mem table ?_ absent small flags (Nat.lt_succ_self _) E
  simp only [pgsize,maxva] at bound ⊢
  omega

theorem unmapFrom_keeps (mem : Mem s free tabs) (table : Table s.mem root tabs pte) (bound : i + n ≤ maxva / pgsize)
    (maps : ∀ j, i ≤ j → j < i + n → has (pte j) pteV = true ∧ pteFlags (pte j) ≠ pteV) (E : Panic → Prop) :
    wp (unmapFrom root false n (i * pgsize)) (fun _ t =>
      Changes s t free tabs free tabs ∧ Table t.mem root tabs (removed pte i n)) E s := by
  induction n generalizing s pte i with
  | zero =>
    rw [unmapFrom,wp_pure,removed_zero]
    exact ⟨.refl mem.linked,table⟩
  | succ n ih =>
    have hi : i < maxva / pgsize := by omega
    obtain ⟨valid,isLeaf⟩ := maps i (Nat.le_refl i) (by omega)
    apply wp_unmap_turn table hi ⟨valid,isLeaf,rfl⟩
    obtain ⟨some,ok,_⟩ := table.slot_valid hi valid
    simp only [Bool.false_eq_true,if_false,wp_bind]
    apply wp_of_ok (store64_run ok)
    have stored := table.store_changes (v := 0) mem some
    apply wp_post (ih (stored.mem mem) (table.store hi some (by decide)) (by omega) ?_)
    · rintro _ t ⟨changes,table⟩
      rw [removed_succ] at table
      exact ⟨stored.trans changes,table⟩
    · intro j lower upper
      rw [update_of_ne (by omega)]
      exact maps j (by omega) (by omega)

theorem uvmunmap_eq (bound : i + n ≤ maxva / pgsize) (doFree : Bool) :
    uvmunmap root (i * pgsize) n doFree = unmapFrom root doFree n (i * pgsize) := by
  have count : ((i * pgsize + n * pgsize) % 2 ^ 64 - i * pgsize) / pgsize = n := by
    simp only [pgsize,maxva] at bound ⊢
    omega
  simp only [uvmunmap,Nat.mul_mod_left,ne_eq,not_true,if_false,count]

/-- An entry that `mappages` makes: the address with the permissions. -/
theorem added_decodes (pte : Nat → Nat) {j : Nat} (lower : i ≤ j) (upper : j < i + n) (aligned : pa % pgsize = 0)
    (flags : perm < 2 ^ 10) :
    pte2pa (added pte i n pa perm j) = (pa + (j - i) * pgsize) % 2 ^ 64 ∧
      pteFlags (added pte i n pa perm j) = perm ||| pteV := by
  have small : perm ||| pteV < 2 ^ 10 := Nat.or_lt_two_pow flags (by decide)
  rw [added,if_pos ⟨lower,upper⟩,Nat.or_assoc,pteFlags_or _ small,pa2pte_or _ small,pte2pa]
  refine ⟨?_,rfl⟩
  simp only [pgsize] at aligned ⊢
  omega

/-- `walk` is the lookup of a map. Different pages have different entries, tables made on the way map nothing,
`mappages` adds the pages of a range or, out of memory, the first of them,
and `uvmunmap` removes the pages it is given. -/
theorem page_table_refines (mem : Mem s free tabs) (table : Table s.mem root tabs pte) : Refines s root pte ∧
    (∀ i < maxva / pgsize, ∀ j < maxva / pgsize, i ≠ j → ∀ slot ≠ 0,
      (walk root (i * pgsize) false).run s = .ok (slot,s) → (walk root (j * pgsize) false).run s ≠ .ok (slot,s)) ∧
    (∀ i < maxva / pgsize, wp (walk root (i * pgsize) true) (fun _ t => Refines t root pte) (fun _ => False) s) ∧
    (∀ i size pa perm, 0 < size → i * pgsize + size ≤ maxva → pa < 2 ^ 64 → perm < 2 ^ 64 →
      (∀ j, i ≤ j → j ≤ i + (size - 1) / pgsize → has (pte j) pteV = false) →
      wp (mappages root (i * pgsize) size pa perm) (fun r t =>
        r = 0 ∧ Refines t root (added pte i ((size - 1) / pgsize + 1) pa perm) ∧
          (pa % pgsize = 0 → perm < 2 ^ 10 → ∀ j, i ≤ j → j ≤ i + (size - 1) / pgsize →
            ∃ v, (lookup root (j * pgsize)).run t = .ok (v,t) ∧ pte2pa v = (pa + (j - i) * pgsize) % 2 ^ 64 ∧
              pteFlags v = perm ||| pteV) ∨
        r = -1 ∧ ∃ k ≤ (size - 1) / pgsize, Refines t root (added pte i k pa perm)) (fun _ => False) s) ∧
    (∀ i n, i + n ≤ maxva / pgsize → (∀ j, i ≤ j → j < i + n → has (pte j) pteV = true ∧ pteFlags (pte j) ≠ pteV) →
      wp (uvmunmap root (i * pgsize) n false) (fun _ t => Refines t root (removed pte i n)) (fun _ => False) s) ∧
    ∀ (i : Nat) (us : List Nat), i + us.length ≤ maxva / pgsize → Mem s free (tabs + us) →
      (∀ k pa, us[k]? = some pa → Maps (pte (i + k)) pa) →
      wp (uvmunmap root (i * pgsize) us.length true) (fun _ t => Refines t root (removed pte i us.length))
        (fun _ => False) s := by
  refine ⟨table.refines,?_,?_,?_,?_,?_⟩
  · intro i hi j hj ne slot some left right
    have same := (table.tree.walk_lookup (Table.address_lt hi) false (.inr rfl)).symm.trans left
    have same' := (table.tree.walk_lookup (Table.address_lt hj) false (.inr rfl)).symm.trans right
    simp only [Except.ok.injEq,Prod.mk.injEq,and_true] at same same'
    have other : i * pgsize / pgsize ≠ j * pgsize / pgsize := by
      rwa [Nat.mul_div_cancel _ (by decide),Nat.mul_div_cancel _ (by decide)]
    have apart := table.tree.slot_distinct (Table.address_lt hi) (Table.address_lt hj) (same ▸ some) (same' ▸ some) other
    omega
  · intro i hi
    apply wp_post (walk_alloc mem table (Table.address_lt hi) _)
    rintro _ t ⟨_,_,_,table,_⟩
    exact table.refines
  · intro i size pa perm some bound small flags absent
    apply wp_post (mappages_maps mem table some bound absent small flags _)
    rintro r t ⟨_,_,k,_,table,⟨rfl,rfl⟩ | ⟨rfl,less⟩⟩
    · refine .inl ⟨rfl,table.refines,fun aligned flags j lower upper => ?_⟩
      have hj : j < maxva / pgsize := by
        simp only [pgsize,maxva] at bound upper ⊢
        omega
      exact ⟨_,table.refines j hj,added_decodes pte lower (by omega) aligned flags⟩
    · exact .inr ⟨rfl,k,by omega,table.refines⟩
  · intro i n bound maps
    rw [uvmunmap_eq bound]
    apply wp_post (unmapFrom_keeps mem table bound maps _)
    exact fun _ t done => done.2.refines
  · intro i us bound mem maps
    rw [uvmunmap_eq bound]
    apply wp_post (unmapFrom_frees us mem table bound maps _)
    exact fun _ t done => done.2.refines

end Map

/-- Two more pages are mapped, or none for lack of memory, and the page that is there is removed and freed. -/
theorem onePage_refines : Refines (onePage userFlags) (frame 0) (onePte userFlags) ∧
    wp (mappages (frame 0) (1 * pgsize) 5000 (frame 6) (pteR ||| pteU)) (fun r t =>
      r = 0 ∧ Refines t (frame 0) (added (onePte userFlags) 1 2 (frame 6) (pteR ||| pteU)) ∨ r = -1)
      (fun _ => False) (onePage userFlags) ∧
    wp (uvmunmap (frame 0) (0 * pgsize) 1 true) (fun _ t => Refines t (frame 0) (removed (onePte userFlags) 0 1))
      (fun _ => False) (onePage userFlags) := by
  have mem := onePage_mem (show userFlags < 2 ^ 10 by decide)
  obtain ⟨map,_,_,maps,_,frees⟩ := page_table_refines mem.left (onePage_table (by decide))
  refine ⟨map,?_,frees 0 [frame 3] (by decide) mem ?_⟩
  · apply wp_post (maps 1 5000 (frame 6) (pteR ||| pteU) (by decide) (by decide) (by decide) (by decide) ?_)
    · rintro r t (⟨done,map,_⟩ | ⟨failed,_⟩)
      · exact .inl ⟨done,map⟩
      · exact .inr failed
    · intro j lower _
      simp [onePte,Nat.ne_of_gt lower,has_zero]
  · intro k pa here
    simpa using onePage_maps here

end Xv6.Vm
