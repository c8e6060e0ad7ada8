import Xv6.Pages
import Xv6.Cow

/-! User page tables as maps from page numbers to entries: what a table needs in memory, and
what `walk`, `mappages` and `uvmunmap` do to it. -/
namespace Xv6.Vm

open Prog Function

/-! Entries. -/

theorem pa2pte_or {flags : Nat} (pa : Nat) (small : flags < 2 ^ 10) : pa2pte pa ||| flags =
    2 ^ 10 * (pa / 2 ^ 12) + flags := by
  rw [pa2pte,Nat.mul_comm,Nat.two_pow_add_eq_or_of_lt small]

theorem pteFlags_or {flags : Nat} (pa : Nat) (small : flags < 2 ^ 10) : pteFlags (pa2pte pa ||| flags) = flags := by
  rw [pa2pte_or pa small,pteFlags]
  omega

theorem pte2pa_or {pa flags : Nat} (page : Page pa) (small : flags < 2 ^ 10) : pte2pa (pa2pte pa ||| flags) = pa := by
  have aligned := page.aligned
  have high := page.high
  have size : pgsize = 4096 := rfl
  have top : phystop = 2281701376 := rfl
  rw [size] at aligned
  rw [pa2pte_or pa small,pte2pa]
  omega

theorem has_or_self (pte : Nat) {flag : Nat} (some : flag ≠ 0) : has (pte ||| flag) flag = true := by
  simp only [has,bne_iff_ne,ne_eq,Nat.and_or_distrib_right,Nat.and_self]
  exact fun none => some (Nat.or_eq_zero_iff.mp none).2

theorem has_or_left {pte flag : Nat} (other : Nat) (set : has pte flag = true) : has (pte ||| other) flag = true := by
  simp only [has,bne_iff_ne,ne_eq,Nat.and_or_distrib_right] at *
  exact fun none => set (Nat.or_eq_zero_iff.mp none).1

/-! A fresh page-table page. -/

/-- A zeroed page becomes the table under entry `i` of `table`. -/
def link (mem : Bytes.Storage) (table i page : Nat) : Bytes.Storage :=
  Bytes.store 8 (Bytes.fill mem page pgsize 0) (table + 8 * i) (pa2pte page ||| pteV)

section Link

variable {mem : Bytes.Storage} {table i page : Nat} (isTable : Page table) (isPage : Page page) (bound : i < 512)

include isPage in
theorem link_self : entry (link mem table i page) table i = pa2pte page ||| pteV := by
  have high := isPage.high
  have top : phystop = 2281701376 := rfl
  have size : pgsize = 4096 := rfl
  have fits : pa2pte page ||| pteV < 256 ^ 8 := by
    rw [pa2pte_or page (by decide),show pteV = 1 from rfl]
    omega
  exact Bytes.load_store_value _ _ fits

include isTable isPage bound

theorem link_fresh (ne : table ≠ page) {j : Nat} (hj : j < 512) : entry (link mem table i page) page j = 0 := by
  rw [entry,link,Bytes.load_store_other (Page.apart isPage isTable ne.symm hj bound),Bytes.load_fill_zero]
  simp only [pgsize]
  omega

theorem link_other {other j : Nat} (isOther : Page other) (hj : j < 512) (ne : other ≠ page)
    (apart : other ≠ table ∨ j ≠ i) : entry (link mem table i page) other j = entry mem other j := by
  have aligned := isPage.aligned
  have aligned' := isOther.aligned
  have size : pgsize = 4096 := rfl
  rw [size] at aligned aligned'
  rw [entry,link,Bytes.load_store_other,Bytes.load_fill_outside,entry]
  · omega
  · by_cases same : other = table
    · omega
    · exact Page.apart isOther isTable same hj bound

omit isTable bound in
theorem link_congr {mem' : Bytes.Storage} (same : ∀ a, pgrounddown a ≠ page → mem' a = mem a) :
    link mem' table i page = link mem table i page := by
  funext a
  simp only [link,Bytes.store,Bytes.fill]
  split
  · rfl
  split
  · rfl
  · rename_i outside
    apply same
    rintro rfl
    simp only [pgrounddown,pgsize] at outside
    omega

theorem link_outside {a : Nat} (notTable : pgrounddown a ≠ table) (notPage : pgrounddown a ≠ page) :
    link mem table i page a = mem a :=
  (store_word_outside isTable bound notTable).trans (fill_page_outside isPage notPage)

end Link

/-- The table at `root` has the pages `tabs` and maps page number `i` as `pte i` says. Entries
of the upper levels have no permissions, and no address is beyond `MAXVA`. -/
structure Table (mem : Bytes.Storage) (root : Nat) (tabs : Multiset Nat) (pte : Nat → Nat) : Prop where
  tree : WellFormed mem root
  pages : ∀ x, x ∈ tabs ↔ x ∈ tables mem root
  upper : ∀ i < 512, Valid mem root i → i < 256 ∧ pteFlags (entry mem root i) = pteV
  middle : ∀ i < 512, Valid mem root i → ∀ j < 512, Valid mem (down mem root i) j →
    pteFlags (entry mem (down mem root i) j) = pteV
  maps : ∀ i < maxva / pgsize, leaf mem root (i * pgsize) = pte i

namespace Table

variable {mem mem' : Bytes.Storage} {root page : Nat} {tabs : Multiset Nat} {pte : Nat → Nat}

section

variable (table : Table mem root tabs pte)
include table

theorem root_mem : root ∈ tabs := (table.pages root).mpr (.inl rfl)

theorem mid_mem {i : Nat} (hi : i < 512) (valid : Valid mem root i) :
    down mem root i ∈ tabs := (table.pages _).mpr (.inr (.inl ⟨i,hi,valid,rfl⟩))

theorem low_mem {i j : Nat} (hi : i < 512) (hj : j < 512) (valid : Valid mem root i)
    (valid' : Valid mem (down mem root i) j) : down mem (down mem root i) j ∈ tabs :=
  (table.pages _).mpr (.inr (.inr ⟨i,hi,j,hj,valid,valid',rfl⟩))

/-- The two upper levels decide everything but what is mapped. -/
theorem of_upper {pte' : Nat → Nat} (top : ∀ i < 512, entry mem' root i = entry mem root i)
    (mid : ∀ i < 512, Valid mem root i → ∀ j < 512, entry mem' (down mem root i) j = entry mem (down mem root i) j)
    (maps : ∀ i < maxva / pgsize, leaf mem' root (i * pgsize) = pte' i) : Table mem' root tabs pte' := by
  have validTop {i : Nat} (hi : i < 512) : Valid mem' root i ↔ Valid mem root i := by rw [Valid,Valid,top i hi]
  have downTop {i : Nat} (hi : i < 512) : down mem' root i = down mem root i := by rw [down,down,top i hi]
  have validMid {i j : Nat} (hi : i < 512) (hj : j < 512) (valid : Valid mem root i) :
      Valid mem' (down mem root i) j ↔ Valid mem (down mem root i) j := by rw [Valid,Valid,mid i hi valid j hj]
  have downMid {i j : Nat} (hi : i < 512) (hj : j < 512) (valid : Valid mem root i) :
      down mem' (down mem root i) j = down mem (down mem root i) j := congrArg pte2pa (mid i hi valid j hj)
  refine ⟨(WellFormed.same_upper top mid).2 table.tree,fun x => (table.pages x).trans ?_,?_,?_,maps⟩
  · refine or_congr_right (or_congr ?_ ?_)
    · refine exists_congr fun i => and_congr_right fun hi => ?_
      rw [validTop hi,downTop hi]
    · refine exists_congr fun i => and_congr_right fun hi => exists_congr fun j => and_congr_right fun hj => ?_
      rw [validTop hi,downTop hi]
      refine and_congr_right fun valid => ?_
      rw [validMid hi hj valid,downMid hi hj valid]
  · intro i hi valid
    rw [top i hi]
    exact table.upper i hi ((validTop hi).mp valid)
  · intro i hi valid j hj valid'
    have valid := (validTop hi).mp valid
    rw [downTop hi] at valid' ⊢
    rw [mid i hi valid j hj]
    exact table.middle i hi valid j hj ((validMid hi hj valid).mp valid')

theorem agree (same : ∀ a, pgrounddown a ∈ tabs → mem' a = mem a) :
    Table mem' root tabs pte ∧ ∀ va, slotOf mem' root va = slotOf mem root va := by
  have words {page i : Nat} (isPage : Page page) (inside : page ∈ tabs) (hi : i < 512) :
      entry mem' page i = entry mem page i := by
    apply Bytes.load_congr
    intro a lower upper
    apply same
    have : pgrounddown a = page := by
      have := pgrounddown_word (i := a - page) isPage (by omega)
      rwa [Nat.add_sub_cancel' (by omega)] at this
    rwa [this]
  obtain ⟨_,slots,leaves⟩ := table.tree.agree { x | x ∉ tabs } (fun h => h table.root_mem)
    (fun i hi valid h => h (table.mid_mem hi valid)) (fun i hi j hj valid valid' h =>
      h (table.low_mem hi hj valid valid'))
    (fun a outside => same a (not_not.mp outside))
  exact ⟨table.of_upper (fun i hi => words table.tree.top table.root_mem hi)
    (fun i hi valid j hj => words (table.tree.mid i hi valid).1 (table.mid_mem hi valid) hj)
    (fun i hi => (leaves _).trans (table.maps i hi)),slots⟩

end

theorem address_lt {i : Nat} (hi : i < maxva / pgsize) : i * pgsize < maxva := by
  simp only [maxva,pgsize] at *
  omega

theorem store (table : Table mem root tabs pte) {i v : Nat} (hi : i < maxva / pgsize)
    (slot : slotOf mem root (i * pgsize) ≠ 0) (fits : v < 2 ^ 64) :
    Table (Bytes.store 8 mem (slotOf mem root (i * pgsize)) v) root tabs (update pte i v) := by
  have wf := table.tree
  obtain ⟨top,mid⟩ := wf.slot_apart slot
  refine table.of_upper (fun i hi => Bytes.load_store_other (top i hi))
    (fun k hk valid j hj => Bytes.load_store_other (mid k hk valid j hj)) fun j hj => ?_
  obtain rfl | same := eq_or_ne j i
  · rw [wf.leaf_store_same slot v fits,update_self]
  · have apart : i * pgsize / pgsize ≠ j * pgsize / pgsize := by
      rw [Nat.mul_div_cancel _ (by decide),Nat.mul_div_cancel _ (by decide)]
      exact Ne.symm same
    rw [wf.leaf_store_other slot v (address_lt hi) (address_lt hj) apart,update_of_ne same,table.maps j hj]

theorem slot_valid (table : Table mem root tabs pte) {i : Nat} (hi : i < maxva / pgsize)
    (valid : has (pte i) pteV = true) :
    slotOf mem root (i * pgsize) ≠ 0 ∧ mapped (slotOf mem root (i * pgsize)) = true ∧
      Bytes.load 8 mem (slotOf mem root (i * pgsize)) = pte i := by
  have here := table.maps i hi
  obtain ⟨_,zero⟩ | ⟨_,_,_,some,ok,word⟩ := table.tree.slot_cases (i * pgsize)
  · rw [zero] at here
    simp [← here,has] at valid
  · exact ⟨some,ok,by rw [← word,here]⟩

theorem slot_outside (table : Table mem root tabs pte) {va a v : Nat} (slot : slotOf mem root va ≠ 0)
    (outside : pgrounddown a ∉ tabs) : Bytes.store 8 mem (slotOf mem root va) v a = mem a := by
  obtain ⟨none,_⟩ | ⟨two,one,place,_⟩ := table.tree.slot_cases va
  · exact absurd none slot
  · have inside := table.low_mem (px_lt 2 va) (px_lt 1 va) two one
    rw [place]
    exact store_word_outside (table.tree.low _ (px_lt 2 va) _ (px_lt 1 va) two one).1 (px_lt 0 va)
      fun same => outside (same ▸ inside)

end Table

/-- The tree at `root` has one more page-table page in `m` than in `mem`. It is empty, and
`place` is where it hangs: under an entry of the root, or of the table under one. -/
structure Grown (mem m : Bytes.Storage) (root page : Nat) (place : Nat × Option Nat) : Prop where
  isPage : Page page
  fresh : page ∉ tables mem root
  empty : ∀ j < 512, entry m page j = 0
  top : ∀ k < 512, (k,none) ≠ place → entry m root k = entry mem root k
  mid : ∀ k < 512, Valid mem root k → ∀ j < 512, (k,some j) ≠ place →
    entry m (down mem root k) j = entry mem (down mem root k) j
  low : ∀ k < 512, Valid mem root k → ∀ j < 512, Valid mem (down mem root k) j → ∀ l < 512,
    entry m (down mem (down mem root k) j) l = entry mem (down mem (down mem root k) j) l
  newTop : ∀ k, (k,none) = place → k < 256 ∧ ¬Valid mem root k ∧ entry m root k = pa2pte page ||| pteV
  newMid : ∀ k j, (k,some j) = place → k < 256 ∧ j < 512 ∧ Valid mem root k ∧ ¬Valid mem (down mem root k) j ∧
    entry m (down mem root k) j = pa2pte page ||| pteV

namespace Grown

variable {mem m : Bytes.Storage} {root page : Nat} {place : Nat × Option Nat} {k j : Nat}

section

variable (grown : Grown mem m root page place)
include grown

theorem invalid (hj : j < 512) : ¬Valid m page j := by
  rw [Valid,grown.empty j hj]
  simp [has]

theorem new {pte : Nat} (same : pte = pa2pte page ||| pteV) :
    has pte pteV = true ∧ pte2pa pte = page ∧ pteFlags pte = pteV := by
  rw [same]
  exact ⟨has_or_self _ (by decide),pte2pa_or grown.isPage (by decide),pteFlags_or page (by decide)⟩

theorem topCases (hk : k < 512) (valid : Valid m root k) :
    (k,none) = place ∧ down m root k = page ∨ Valid mem root k ∧ down m root k = down mem root k := by
  by_cases here : (k,none) = place
  · exact .inl ⟨here,(grown.new (grown.newTop k here).2.2).2.1⟩
  · have same := grown.top k hk here
    rw [Valid,same] at valid
    exact .inr ⟨valid,congrArg pte2pa same⟩

theorem midCases (hk : k < 512) (hj : j < 512) (above : Valid mem root k) (valid : Valid m (down mem root k) j) :
    (k,some j) = place ∧ down m (down mem root k) j = page ∨
      Valid mem (down mem root k) j ∧ down m (down mem root k) j = down mem (down mem root k) j := by
  by_cases here : (k,some j) = place
  · exact .inl ⟨here,(grown.new (grown.newMid k j here).2.2.2.2).2.1⟩
  · have same := grown.mid k hk above j hj here
    rw [Valid,same] at valid
    exact .inr ⟨valid,congrArg pte2pa same⟩

theorem oldTop (hk : k < 512) (valid : Valid mem root k) : Valid m root k ∧ down m root k = down mem root k := by
  have same := grown.top k hk (fun here => (grown.newTop k here).2.1 valid)
  exact ⟨by rwa [Valid,same],congrArg pte2pa same⟩

theorem oldMid (hk : k < 512) (hj : j < 512) (above : Valid mem root k) (valid : Valid mem (down mem root k) j) :
    Valid m (down mem root k) j ∧ down m (down mem root k) j = down mem (down mem root k) j := by
  have same := grown.mid k hk above j hj (fun here => (grown.newMid k j here).2.2.2.1 valid)
  exact ⟨by rwa [Valid,same],congrArg pte2pa same⟩

theorem lowCases (hk : k < 512) (hj : j < 512) (above : Valid m root k) (valid : Valid m (down m root k) j) :
    Valid mem root k ∧ down m root k = down mem root k ∧ ((k,some j) = place ∧ down m (down m root k) j = page ∨
        Valid mem (down mem root k) j ∧ down m (down m root k) j = down mem (down mem root k) j) := by
  obtain ⟨_,same⟩ | ⟨above,same⟩ := grown.topCases hk above
  · rw [same] at valid
    exact absurd valid (grown.invalid hj)
  · rw [same] at valid ⊢
    exact ⟨above,rfl,grown.midCases hk hj above valid⟩

theorem ne_root : page ≠ root := fun same => grown.fresh (.inl same)

theorem ne_mid (hk : k < 512) (valid : Valid mem root k) :
    page ≠ down mem root k := fun same => grown.fresh (.inr (.inl ⟨k,hk,valid,same⟩))

theorem ne_low (hk : k < 512) (hj : j < 512) (above : Valid mem root k) (valid : Valid mem (down mem root k) j) :
    page ≠ down mem (down mem root k) j :=
  fun same => grown.fresh (.inr (.inr ⟨k,hk,j,hj,above,valid,same⟩))

theorem tree (wf : WellFormed mem root) : WellFormed m root := by
  refine ⟨wf.top,?_,?_,?_,?_⟩
  · intro k hk valid
    obtain ⟨_,same⟩ | ⟨valid,same⟩ := grown.topCases hk valid
    · rw [same]
      exact ⟨grown.isPage,grown.ne_root⟩
    · rw [same]
      exact wf.mid k hk valid
  · intro k hk j hj above valid
    obtain ⟨above,_,⟨here,same⟩ | ⟨valid,same⟩⟩ := grown.lowCases hk hj above valid
    all_goals rw [same]
    · refine ⟨grown.isPage,grown.ne_root,fun l hl validL => ?_⟩
      obtain ⟨there,_⟩ | ⟨validL,same⟩ := grown.topCases hl validL
      · exact absurd (here.trans there.symm) (by simp)
      · rw [same]
        exact grown.ne_mid hl validL
    · obtain ⟨low,notRoot,others⟩ := wf.low k hk j hj above valid
      refine ⟨low,notRoot,fun l hl validL => ?_⟩
      obtain ⟨_,same⟩ | ⟨validL,same⟩ := grown.topCases hl validL
      · rw [same]
        exact (grown.ne_low hk hj above valid).symm
      · rw [same]
        exact others l hl validL
  · intro k hk l hl validK validL eq
    obtain ⟨here,sameK⟩ | ⟨validK,sameK⟩ := grown.topCases hk validK
    all_goals obtain ⟨there,sameL⟩ | ⟨validL,sameL⟩ := grown.topCases hl validL
    all_goals rw [sameK,sameL] at eq
    · exact congrArg Prod.fst (here.trans there.symm)
    · exact absurd eq (grown.ne_mid hl validL)
    · exact absurd eq.symm (grown.ne_mid hk validK)
    · exact wf.midDistinct k hk l hl validK validL eq
  · intro k hk j hj l hl n hn aboveK aboveL validJ validN eq
    obtain ⟨aboveK,_,⟨here,sameK⟩ | ⟨validJ,sameK⟩⟩ := grown.lowCases hk hj aboveK validJ
    all_goals obtain ⟨aboveL,_,⟨there,sameL⟩ | ⟨validN,sameL⟩⟩ := grown.lowCases hl hn aboveL validN
    all_goals rw [sameK,sameL] at eq
    · have both := here.trans there.symm
      exact ⟨congrArg Prod.fst both,Option.some.inj (congrArg Prod.snd both)⟩
    · exact absurd eq (grown.ne_low hl hn aboveL validN)
    · exact absurd eq.symm (grown.ne_low hk hj aboveK validJ)
    · exact wf.lowDistinct k hk j hj l hl n hn aboveK aboveL validJ validN eq

theorem pages (x : Nat) : x ∈ tables m root ↔ x = page ∨ x ∈ tables mem root := by
  constructor
  · rintro (isRoot | ⟨k,hk,valid,rfl⟩ | ⟨k,hk,j,hj,above,valid,rfl⟩)
    · exact .inr (.inl isRoot)
    · obtain ⟨_,same⟩ | ⟨valid,same⟩ := grown.topCases hk valid
      · exact .inl same
      · exact .inr (.inr (.inl ⟨k,hk,valid,same⟩))
    · obtain ⟨above,_,⟨_,same⟩ | ⟨valid,same⟩⟩ := grown.lowCases hk hj above valid
      · exact .inl same
      · exact .inr (.inr (.inr ⟨k,hk,j,hj,above,valid,same⟩))
  · rintro (rfl | isRoot | ⟨k,hk,valid,rfl⟩ | ⟨k,hk,j,hj,above,valid,rfl⟩)
    · obtain ⟨k,_ | j⟩ := place
      · obtain ⟨hk,_,value⟩ := grown.newTop k rfl
        obtain ⟨valid,same,_⟩ := grown.new value
        exact .inr (.inl ⟨k,by omega,valid,same.symm⟩)
      · obtain ⟨hk,hj,above,_,value⟩ := grown.newMid k j rfl
        obtain ⟨valid,same,_⟩ := grown.new value
        obtain ⟨above,sameK⟩ := grown.oldTop (by omega) above
        rw [← sameK] at valid same
        exact .inr (.inr ⟨k,by omega,j,hj,above,valid,same.symm⟩)
    · exact .inl isRoot
    · obtain ⟨valid,same⟩ := grown.oldTop hk valid
      exact .inr (.inl ⟨k,hk,valid,same.symm⟩)
    · obtain ⟨valid,sameJ⟩ := grown.oldMid hk hj above valid
      obtain ⟨above,sameK⟩ := grown.oldTop hk above
      refine .inr (.inr ⟨k,hk,j,hj,above,by rwa [sameK],?_⟩)
      rw [sameK,sameJ]

theorem leaf_same (wf : WellFormed mem root) (va : Nat) : leaf m root va = leaf mem root va := by
  have h2 := px_lt 2 va
  have h1 := px_lt 1 va
  have h0 := px_lt 0 va
  obtain ⟨noneM,zeroM⟩ | ⟨twoM,oneM,placeM,_,_,wordM⟩ := (grown.tree wf).slot_cases va
  · obtain ⟨_,zero⟩ | ⟨two,one,_⟩ := wf.slot_cases va
    · rw [zero,zeroM]
    · obtain ⟨one,_⟩ := grown.oldMid h2 h1 two one
      obtain ⟨two,same⟩ := grown.oldTop h2 two
      rw [← same] at one
      have some := ((grown.tree wf).low _ h2 _ h1 two one).1.ne_zero
      rw [slotOf,if_pos two,if_pos one] at noneM
      omega
  · rw [wordM,placeM]
    obtain ⟨two,same,⟨here,low⟩ | ⟨one,low⟩⟩ := grown.lowCases h2 h1 twoM oneM
    · have none : slotOf mem root va = 0 := by
        rw [slotOf,if_pos two,if_neg (grown.newMid _ _ here).2.2.2.1]
      rw [low,leaf,none,if_pos rfl]
      exact grown.empty _ h0
    · obtain ⟨none,_⟩ | ⟨_,_,place,_,_,word⟩ := wf.slot_cases va
      · have some := (wf.low _ h2 _ h1 two one).1.ne_zero
        rw [slotOf,if_pos two,if_pos one] at none
        omega
      · rw [word,place,low]
        exact grown.low _ h2 two _ h1 one _ h0

theorem table {tabs : Multiset Nat} {pte : Nat → Nat} (table : Table mem root tabs pte) :
    Table m root (page ::ₘ tabs) pte := by
  have wf := table.tree
  refine ⟨grown.tree wf,fun x => ?_,?_,?_,fun i hi => (grown.leaf_same wf _).trans (table.maps i hi)⟩
  · rw [Multiset.mem_cons,table.pages,grown.pages]
  · intro k hk valid
    by_cases here : (k,none) = place
    · obtain ⟨bound,_,value⟩ := grown.newTop k here
      exact ⟨bound,(grown.new value).2.2⟩
    · have same := grown.top k hk here
      rw [Valid,same] at valid
      rw [same]
      exact table.upper k hk valid
  · intro k hk above j hj valid
    obtain ⟨above,sameK,_⟩ := grown.lowCases hk hj above valid
    rw [sameK] at valid ⊢
    by_cases here : (k,some j) = place
    · exact (grown.new (grown.newMid k j here).2.2.2.2).2.2
    · have same := grown.mid k hk above j hj here
      rw [Valid,same] at valid
      rw [same]
      exact table.middle k hk above j hj valid

end

end Grown

section

variable {mem : Bytes.Storage} {root page : Nat} {tabs : Multiset Nat} {pte : Nat → Nat} {i j : Nat}

theorem Table.grow_mid (table : Table mem root tabs pte) (isPage : Page page) (fresh : page ∉ tabs) (bound : i < 256)
    (absent : ¬Valid mem root i) : Grown mem (link mem root i page) root page (i,none) := by
  have wf := table.tree
  have hi : i < 512 := by omega
  have notRoot : root ≠ page := fun same => fresh (same ▸ table.root_mem)
  refine ⟨isPage,fun inside => fresh ((table.pages page).mpr inside),
    fun j hj => link_fresh wf.top isPage hi notRoot hj,?_,?_,?_,?_,by simp⟩
  · intro k hk other
    exact link_other wf.top isPage hi wf.top hk notRoot (.inr fun same => other (same ▸ rfl))
  · intro k hk valid j hj _
    have ne : down mem root k ≠ page := fun same => fresh (same ▸ table.mid_mem hk valid)
    exact link_other wf.top isPage hi (wf.mid k hk valid).1 hj ne (.inl (wf.mid k hk valid).2)
  · intro k hk above j hj valid l hl
    obtain ⟨low,apart,_⟩ := wf.low k hk j hj above valid
    have ne : down mem (down mem root k) j ≠ page := fun same => fresh (same ▸ table.low_mem hk hj above valid)
    exact link_other wf.top isPage hi low hl ne (.inl apart)
  · rintro k ⟨⟩
    exact ⟨bound,absent,link_self isPage⟩

theorem Table.grow_low (table : Table mem root tabs pte) (isPage : Page page) (fresh : page ∉ tabs) (hi : i < 512)
    (hj : j < 512) (above : Valid mem root i) (absent : ¬Valid mem (down mem root i) j) :
    Grown mem (link mem (down mem root i) j page) root page (i,some j) := by
  have wf := table.tree
  obtain ⟨isMid,midRoot⟩ := wf.mid i hi above
  have notMid {k : Nat} (hk : k < 512) (valid : Valid mem root k) : down mem root k ≠ page :=
    fun same => fresh (same ▸ table.mid_mem hk valid)
  refine ⟨isPage,fun inside => fresh ((table.pages page).mpr inside),
    fun l hl => link_fresh isMid isPage hj (notMid hi above) hl,?_,?_,?_,by simp,?_⟩
  · intro k hk _
    exact link_other isMid isPage hj wf.top hk (fun same => fresh (same ▸ table.root_mem)) (.inl midRoot.symm)
  · intro k hk valid l hl other
    refine link_other isMid isPage hj (wf.mid k hk valid).1 hl (notMid hk valid) ?_
    by_cases same : down mem root k = down mem root i
    · obtain rfl := wf.midDistinct k hk i hi valid above same
      exact .inr fun same => other (same ▸ rfl)
    · exact .inl same
  · intro k hk valid l hl valid' n hn
    obtain ⟨low,_,others⟩ := wf.low k hk l hl valid valid'
    have ne : down mem (down mem root k) l ≠ page := fun same => fresh (same ▸ table.low_mem hk hl valid valid')
    exact link_other isMid isPage hj low hn ne (.inl (others i hi above))
  · rintro k l ⟨⟩
    exact ⟨(table.upper i hi above).1,hj,above,absent,link_self isPage⟩

end

variable {s t : State} {root va : Nat} {free : List Nat} {tabs : Multiset Nat} {pte : Nat → Nat}

theorem Table.frame {free' : List Nat} {used used' : Multiset Nat} (table : Table s.mem root tabs pte)
    (mem : Mem s free (used + tabs)) (changes : Changes s t free used free' used') :
    Table t.mem root tabs pte ∧ ∀ va, slotOf t.mem root va = slotOf s.mem root va :=
  table.agree fun _ inside => changes.same_page mem inside

/-- What an allocating walk returns: nothing, or the slot of `va`. The table maps what it
mapped. -/
def WalkDone (s : State) (root va : Nat) (free : List Nat) (tabs : Multiset Nat) (pte : Nat → Nat) (slot : Nat)
    (t : State) : Prop :=
  ∃ free' tabs', Changes s t free tabs free' tabs' ∧ Table t.mem root tabs' pte ∧
    (slot ≠ 0 → slot = slotOf t.mem root va)

theorem linked_changes {rest : List Nat} {page table i : Nat} (mem : Mem s (page :: rest) tabs) (inside : table ∈ tabs)
    (bound : i < 512) (taken : Changes s t (page :: rest) 0 rest {page}) :
    Changes s { t with mem := link t.mem table i page } (page :: rest) tabs rest (page ::ₘ tabs) := by
  have isPage := (mem.page page (by simp)).1
  have isTable := (mem.usedPage inside).1
  have taken := taken.frame tabs
  rw [zero_add,Multiset.singleton_add] at taken
  refine taken.trans (.write (taken.mem mem) fun a outside => ?_)
  refine link_outside isTable isPage bound ?_ ?_
  all_goals
    rintro rfl
    simp_all

theorem walk_mid (mem : Mem s free tabs) (table : Table s.mem root tabs pte) (above : Valid s.mem root (px 2 va))
    (E : Panic → Prop) :
    wp (walkFrom (down s.mem root (px 2 va)) va true 1) (WalkDone s root va free tabs pte) E s := by
  have wf := table.tree
  have h2 := px_lt 2 va
  have h1 := px_lt 1 va
  have isMid := (wf.mid _ h2 above).1
  have ok := isMid.mapped_word h1
  by_cases one : Valid s.mem (down s.mem root (px 2 va)) (px 1 va)
  · have run : (walkFrom (down s.mem root (px 2 va)) va true 1).run s = .ok (slotOf s.mem root va,s) := by
      rw [walkFrom_valid ok one,slotOf,if_pos above,if_pos one]
      rfl
    exact wp_of_ok run ⟨free,tabs,.refl mem.linked,table,fun _ => rfl⟩
  · have unset : has (Bytes.load 8 s.mem (down s.mem root (px 2 va) + 8 * px 1 va)) pteV = false := by
      simpa [Valid,entry] using one
    rw [walkFrom,wp_bind]
    apply wp_of_ok (load64_run ok)
    simp only [unset,Bool.false_eq_true,if_false,Bool.not_true]
    apply wp_seq (kalloc_changes mem _)
    rintro page t (⟨rfl,rfl,same,taken⟩ | ⟨rest,rfl,isPage,fresh,taken,same⟩)
    · rw [if_pos rfl,wp_pure]
      have taken := taken.frame tabs
      rw [zero_add] at taken
      exact ⟨[],tabs,taken,same ▸ table,fun h => absurd rfl h⟩
    · rw [if_neg isPage.ne_zero]
      simp only [memsetPage,wp_bind,wp_modify]
      apply wp_of_ok (store64_run ok)
      have grown := table.grow_low isPage fresh h2 h1 above one
      rw [← link_congr isPage same] at grown
      obtain ⟨above',same'⟩ := grown.oldTop h2 above
      obtain ⟨_,_,_,_,value⟩ := grown.newMid _ _ rfl
      obtain ⟨valid,place,_⟩ := grown.new value
      refine ⟨rest,_,linked_changes mem (table.mid_mem h2 above) h1 taken,grown.table table,fun _ => ?_⟩
      change page + 8 * px 0 va = slotOf (link t.mem (down s.mem root (px 2 va)) (px 1 va) page) root va
      rw [slotOf,if_pos above',same',if_pos (show Valid _ _ _ from valid)]
      exact congrArg (· + 8 * px 0 va) place.symm

theorem walk_alloc (mem : Mem s free tabs) (table : Table s.mem root tabs pte) (bound : va < maxva)
    (E : Panic → Prop) : wp (walk root va true) (WalkDone s root va free tabs pte) E s := by
  have wf := table.tree
  have h2 := px_lt 2 va
  have ok := wf.top.mapped_word h2
  rw [walk,if_neg (Nat.not_le.mpr bound)]
  by_cases two : Valid s.mem root (px 2 va)
  · have same := @walkFrom_valid s root va 1 true ok two
    rw [wp,same]
    exact walk_mid mem table two E
  · have unset : has (Bytes.load 8 s.mem (root + 8 * px 2 va)) pteV = false := by
      simpa [Valid,entry] using two
    have low : px 2 va < 256 := by
      simp only [px,maxva] at *
      omega
    rw [walkFrom,wp_bind]
    apply wp_of_ok (load64_run ok)
    simp only [unset,Bool.false_eq_true,if_false,Bool.not_true]
    apply wp_seq (kalloc_changes mem _)
    rintro page t (⟨rfl,rfl,same,taken⟩ | ⟨rest,rfl,isPage,fresh,taken,same⟩)
    · rw [if_pos rfl,wp_pure]
      have taken := taken.frame tabs
      rw [zero_add] at taken
      exact ⟨[],tabs,taken,same ▸ table,fun h => absurd rfl h⟩
    · rw [if_neg isPage.ne_zero]
      simp only [memsetPage,wp_bind,wp_modify]
      apply wp_of_ok (store64_run ok)
      have grown := table.grow_mid isPage fresh low two
      rw [← link_congr isPage same] at grown
      obtain ⟨_,_,value⟩ := grown.newTop _ rfl
      obtain ⟨valid,place,_⟩ := grown.new value
      have changes := linked_changes mem table.root_mem h2 taken
      have later := walk_mid (changes.mem mem) (grown.table table) valid E
      rw [show down (link t.mem root (px 2 va) page) root (px 2 va) = page from place] at later
      apply wp_post later
      rintro slot u ⟨free',tabs',more,table,slots⟩
      exact ⟨free',tabs',changes.trans more,table,slots⟩

/-- The entry is a leaf for the page `pa`. -/
structure Maps (pte pa : Nat) : Prop where
  valid : has pte pteV = true
  leaf : pteFlags pte ≠ pteV
  target : pte2pa pte = pa

variable {i pa perm : Nat}

theorem Table.store_changes (table : Table s.mem root tabs pte) (mem : Mem s free tabs) {va v : Nat}
    (slot : slotOf s.mem root va ≠ 0) :
    Changes s { s with mem := Bytes.store 8 s.mem (slotOf s.mem root va) v } free tabs free tabs :=
  .write mem fun _ outside => table.slot_outside slot outside

theorem mappages_done (mem : Mem s free tabs) (table : Table s.mem root tabs pte) (hi : i < maxva / pgsize)
    (absent : has (pte i) pteV = false) (fits : pa2pte pa ||| perm ||| pteV < 2 ^ 64) (E : Panic → Prop) :
    wp (mappages root (i * pgsize) pgsize pa perm) (fun r t => ∃ free' tabs', Changes s t free tabs free' tabs' ∧
      (r = 0 ∧ Table t.mem root tabs' (update pte i (pa2pte pa ||| perm ||| pteV)) ∨
        r = -1 ∧ Table t.mem root tabs' pte)) E s := by
  rw [wp_mappages_page (Nat.mul_mod_left i pgsize) (Table.address_lt hi)]
  apply wp_post (walk_alloc mem table (Table.address_lt hi) E)
  rintro slot t ⟨free',tabs',changes,table,place⟩
  split
  · exact ⟨free',tabs',changes,.inr ⟨rfl,table⟩⟩
  · rename_i some
    obtain rfl := place some
    obtain ⟨none,_⟩ | ⟨_,_,_,_,ok,word⟩ := table.tree.slot_cases (i * pgsize)
    · exact absurd none some
    apply wp_of_ok (load64_run ok)
    rw [← word,table.maps i hi,absent,if_neg Bool.false_ne_true]
    apply wp_of_ok (store64_run ok)
    exact ⟨free',tabs',changes.trans (table.store_changes (changes.mem mem) some),.inl ⟨rfl,table.store hi some fits⟩⟩

theorem wp_unmap_turn (table : Table s.mem root tabs pte) (hi : i < maxva / pgsize) (maps : Maps (pte i) pa)
    {doFree : Bool} {n : Nat} {Q : Unit → State → Prop} {E : Panic → Prop}
    (rest : wp (do
      if doFree then kfree pa
      store64 (slotOf s.mem root (i * pgsize)) 0
      unmapFrom root doFree n ((i + 1) * pgsize)) Q E s) :
    wp (unmapFrom root doFree (n + 1) (i * pgsize)) Q E s := by
  obtain ⟨some,ok,word⟩ := table.slot_valid hi maps.valid
  rw [unmapFrom,wp_bind]
  apply wp_of_ok (table.tree.walk_lookup (Table.address_lt hi) false (.inr rfl))
  simp only [some,if_false,wp_bind]
  apply wp_of_ok (load64_run ok)
  rw [word]
  simp only [maps.valid,Bool.not_true,Bool.false_eq_true,if_false,if_neg maps.leaf,maps.target]
  rw [Nat.add_mul,Nat.one_mul] at rest
  simpa only [wp_bind] using rest

theorem unmapFrom_frees (us : List Nat) (mem : Mem s free (tabs + us)) (table : Table s.mem root tabs pte)
    (bound : i + us.length ≤ maxva / pgsize) (maps : ∀ k pa, us[k]? = some pa → Maps (pte (i + k)) pa)
    (E : Panic → Prop) :
    wp (unmapFrom root true us.length (i * pgsize)) (fun _ t =>
      Changes s t free (tabs + us) (us.reverse ++ free) tabs ∧
      Table t.mem root tabs (fun j => if i ≤ j ∧ j < i + us.length then 0 else pte j)) E s := by
  induction us generalizing s free pte i with
  | nil =>
    have none (j : Nat) : ¬(i ≤ j ∧ j < i + 0) := by omega
    simp only [List.length_nil,unmapFrom,wp_pure,none,if_false]
    exact ⟨by simpa using Changes.refl mem.linked,table⟩
  | cons pa us ih =>
    rw [List.length_cons] at bound ⊢
    have split : tabs + ((pa :: us : List Nat) : Multiset Nat) = {pa} + (tabs + us) := by
      rw [← Multiset.cons_coe,← Multiset.singleton_add,add_left_comm]
    rw [split] at mem ⊢
    have here : i < maxva / pgsize := by omega
    have first : Maps (pte i) pa := maps 0 pa rfl
    apply wp_unmap_turn table here first
    rw [if_pos rfl]
    apply wp_seq (kfree_changes mem E)
    intro _ t freed
    obtain ⟨table,slots⟩ := table.frame (mem.mono (by rw [← add_assoc]; exact Multiset.le_add_right _ _)) freed
    have freed := freed.frame (tabs + us)
    rw [zero_add] at freed
    have mem := freed.mem mem
    obtain ⟨some,ok,_⟩ := table.slot_valid here first.valid
    rw [wp_bind,← slots]
    apply wp_of_ok (store64_run ok)
    have stored := (table.store_changes (v := 0) mem.left some).frame us
    have next := table.store here some (show 0 < 2 ^ 64 by decide)
    apply wp_post (ih (stored.mem mem) next (by omega) ?_)
    · rintro _ u ⟨changes,table⟩
      refine ⟨?_,?_⟩
      · rw [List.reverse_cons,List.append_assoc]
        exact freed.trans (stored.trans changes)
      · convert table using 2 with j
        obtain rfl | same := eq_or_ne j i
        · simp
        · rw [update_of_ne same]
          exact if_congr (by omega) rfl rfl
    · intro k pa inside
      rw [update_of_ne (by omega),show i + 1 + k = i + (k + 1) by omega]
      exact maps (k + 1) pa inside

end Xv6.Vm
