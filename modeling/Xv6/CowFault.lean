import Xv6.Cow
import Mathlib.Data.Nat.Bitwise

/-! Store page faults: `usertrap` on scause 15. The handler takes `PTE_R` for the mark of a
copy-on-write page and clears it, and it does not stop where a process is at fault. -/
namespace Xv6.Vm

open Prog

def Copied (pte : Nat) : Prop := has pte pteV = true ∧ has pte pteU = true ∧ has pte pteR = true

instance (pte : Nat) : Decidable (Copied pte) := inferInstanceAs (Decidable (_ ∧ _))

/-- A present user page as `uvmcopy` leaves it. -/
def CopyOnWrite (pte : Nat) : Prop := Copied pte ∧ has pte pteW = false

instance (pte : Nat) : Decidable (CopyOnWrite pte) := inferInstanceAs (Decidable (_ ∧ _))

/-- A process's page table and the free pages, none of which is one of its tables. -/
structure FaultState (s : State) (root : Nat) (pages : List Nat) : Prop where
  tree : WellFormed s.mem root
  free : FreeList s pages
  apart : Outside s.mem root {page | page ∈ pages}

def copyFlags (pte : Nat) : Nat := (pteFlags pte ||| pteW) &&& (2 ^ 32 - 1 - pteR)

theorem has_eq_testBit (pte i : Nat) : has pte (2 ^ i) = pte.testBit i := by
  rw [has,Nat.and_two_pow]
  cases pte.testBit i with
  | false => simp
  | true => simp

theorem copyFlags_unreadable (pa pte : Nat) : has (pa2pte pa ||| copyFlags pte ||| pteV) pteR = false := by
  have address : (pa2pte pa).testBit 1 = false := by
    rw [pa2pte,Nat.testBit_mul_two_pow]
    simp
  have mask : (2 ^ 32 - 1 - pteR).testBit 1 = false := by decide
  have valid : pteV.testBit 1 = false := by decide
  rw [show pteR = 2 ^ 1 from rfl,has_eq_testBit,Nat.testBit_or,Nat.testBit_or,copyFlags,Nat.testBit_and,
    address,mask,valid]
  simp

theorem pgrounddown_aligned (a : Nat) : pgrounddown a % pgsize = 0 := Nat.mul_mod_left _ _

theorem Page.lt {a : Nat} (page : Page a) : a < 2 ^ 64 := by
  have high := page.high
  have top : phystop = 2281701376 := rfl
  omega

theorem memmovePage_frame {s : State} {dst src : Nat} (isPage : Page dst) :
    wp (memmovePage dst src) (fun _ t => ∀ a, pgrounddown a ≠ dst → t.mem a = s.mem a) (fun _ => True) s := by
  rw [memmovePage,wp_ite]
  split
  · intro a outside
    apply Bytes.copy_outside
    have aligned := isPage.aligned
    simp only [pgrounddown,pgsize] at *
    omega
  · trivial

section Handler

variable {s : State} {p : Proc} {stval : Nat} {pages : List Nat}

section

variable (state : FaultState s p.pagetable pages) (bound : pgrounddown stval < maxva)
include state bound

/-- A page that can be read is unmapped with the `PGSIZE - 1` pages after it, and comes back
unreadable. -/
theorem storeFault_copied (copied : Copied (leaf s.mem p.pagetable (pgrounddown stval))) :
    wp (storeFault p stval) (fun _ t =>
      (∀ va, slotOf t.mem p.pagetable va = slotOf s.mem p.pagetable va) ∧
      has (leaf t.mem p.pagetable (pgrounddown stval)) pteR = false) (fun _ => True) s := by
  have wf := state.tree
  obtain ⟨v,u,r⟩ := copied
  rw [storeFault,wp_bind]
  apply wp_of_ok (wf.walk_lookup bound false (.inr rfl))
  rcases wf.slot_cases (pgrounddown stval) with ⟨_,none⟩ | ⟨_,_,_,slot,ok,word⟩
  · rw [none,has_zero] at v
    exact absurd v Bool.false_ne_true
  simp only [slot,if_false]
  rw [wp_bind]
  apply wp_of_ok (load64_run ok)
  rw [← word]
  simp only [v,u,r,Bool.and_self,if_true]
  apply wp_seq (kalloc_spec state.free _)
  rintro page t (⟨_,rfl,_,_⟩ | ⟨rest,rfl,isPage,_,same⟩)
  · rw [wp_bind]
    apply wp_of_ok (load64_run ok)
    have unmapped : mapped 0 = false := by decide
    simp [memmovePage,unmapped]
  rw [wp_bind]
  apply wp_of_ok (load64_run ok)
  apply wp_seq (memmovePage_frame isPage)
  intro _ copy moved
  obtain ⟨wfC,slotsC,_⟩ : WellFormed copy.mem p.pagetable ∧
      (∀ va, slotOf copy.mem p.pagetable va = slotOf s.mem p.pagetable va) ∧
      ∀ va, leaf copy.mem p.pagetable va = leaf s.mem p.pagetable va := by
    apply wf.agree _ state.apart.top state.apart.mid state.apart.low
    intro a outside
    have other : pgrounddown a ≠ page := fun h => outside (by rw [h]; exact List.mem_cons_self)
    rw [moved a other,same a other]
  apply wp_seq (uvmunmap_pgsize (pgrounddown_aligned stval) bound wfC)
  rintro - u ⟨wfU,slotsU,_⟩
  have present : slotOf u.mem p.pagetable (pgrounddown stval) ≠ 0 := by rwa [slotsU,slotsC]
  have low : page < 2 ^ 64 := isPage.lt
  have small : copyFlags (leaf s.mem p.pagetable (pgrounddown stval)) < 2 ^ 64 :=
    lt_of_le_of_lt Nat.and_le_right (by decide)
  have again := mappages_present (pgrounddown_aligned stval) bound wfU present (pte_fits low small)
  simp only [decRef,Int.reduceLE,if_false,wp_bind,wp_pure]
  apply wp_post again
  rintro r w ⟨_,_,slotsW,value,_⟩
  exact ⟨fun va => by rw [slotsW,slotsU,slotsC],by rw [value]; exact copyFlags_unreadable page _⟩

theorem storeFault_ignored (slot : slotOf s.mem p.pagetable (pgrounddown stval) ≠ 0)
    (other : ¬Copied (leaf s.mem p.pagetable (pgrounddown stval))) :
    (storeFault p stval).run s = .ok (p,s) := by
  rcases state.tree.slot_cases (pgrounddown stval) with ⟨none,_⟩ | ⟨_,_,_,_,ok,word⟩
  · exact absurd none slot
  rw [storeFault,run_bind (state.tree.walk_lookup bound false (.inr rfl)),run_bind (load64_run ok),← word]
  rw [if_neg slot,if_neg]
  · rfl
  · rw [Bool.and_eq_true,Bool.and_eq_true]
    exact fun h => other ⟨h.1.1,h.1.2,h.2⟩

/-- Where there is no entry, the handler reads the entry at 0. -/
theorem storeFault_missing (none : slotOf s.mem p.pagetable (pgrounddown stval) = 0) :
    (storeFault p stval).run s = .error .kerneltrap := by
  have fault : (load64 0).run s = .error .kerneltrap := rfl
  rw [storeFault,run_bind (state.tree.walk_lookup bound false (.inr rfl)),none,run_bind_error fault]

end

theorem storeFault_beyond (beyond : maxva ≤ pgrounddown stval) : (storeFault p stval).run s = .error .walk := by
  have panics : (walk p.pagetable (pgrounddown stval) false).run s = .error .walk := by
    rw [walk,if_pos beyond]; rfl
  rw [storeFault,run_bind_error panics]

end Handler

/-- The process has the page at `va` to itself: readable and writable, in a page that was free,
with the old page's bytes. -/
structure Resolved (s t : State) (root va : Nat) (pages : List Nat) : Prop where
  fresh : pte2pa (leaf t.mem root va) ∈ pages
  usable : Copied (leaf t.mem root va) ∧ has (leaf t.mem root va) pteW = true
  copy : ∀ i < pgsize, t.mem (pte2pa (leaf t.mem root va) + i) = s.mem (pte2pa (leaf s.mem root va) + i)
  old : ∀ i < pgsize, t.mem (pte2pa (leaf s.mem root va) + i) = s.mem (pte2pa (leaf s.mem root va) + i)
  others : ∀ va' < maxva, pgrounddown va' ≠ va → leaf t.mem root va' = leaf s.mem root va'

/-- The handler returns, and has killed the process for lack of memory or resolved the fault. -/
def FaultCorrect (s : State) (p : Proc) (stval : Nat) (pages : List Nat) : Prop :=
  ∃ q t, (storeFault p stval).run s = .ok (q,t) ∧ (q.killed = true ∧ s.failures < t.failures ∧
        (∀ va < maxva, leaf t.mem p.pagetable va = leaf s.mem p.pagetable va) ∨
      Resolved s t p.pagetable (pgrounddown stval) pages)

/-- No store fault on a page that `uvmcopy` made read-only is resolved. -/
theorem storeFault_never_resolved {s : State} {p : Proc} {stval : Nat} {pages : List Nat}
    (state : FaultState s p.pagetable pages) (bound : pgrounddown stval < maxva)
    (shared : CopyOnWrite (leaf s.mem p.pagetable (pgrounddown stval))) : ¬FaultCorrect s p stval pages := by
  rintro ⟨q,t,out,outcome⟩
  have copied := shared.1
  have unreadable := (wp_ok (storeFault_copied state bound copied) out).2
  rcases outcome with ⟨_,_,same⟩ | resolved
  · rw [same _ bound,copied.2.2] at unreadable
    exact Bool.false_ne_true unreadable.symm
  · rw [resolved.usable.1.2.2] at unreadable
    exact Bool.false_ne_true unreadable.symm

def cowFlags : Nat := pteV ||| pteR ||| pteX ||| pteU

theorem onePage_fault (flags : Nat) (fits : flags < 2 ^ 10) :
    FaultState (onePage flags) (frame 0) [frame 5,frame 6,frame 7] := by
  refine ⟨onePage_tree fits,onePage_free fits,?_⟩
  apply onePage_outside fits
  all_goals exact fun member => absurd member (by decide)

theorem onePage_store_panics : errorOf (storeFault ⟨frame 0,false⟩ 8) (onePage cowFlags) = some .notMapped := by
  decide +kernel

theorem onePage_store_unresolved :
    ¬FaultCorrect (onePage cowFlags) ⟨frame 0,false⟩ 8 [frame 5,frame 6,frame 7] := by
  have word : leaf (onePage cowFlags).mem (frame 0) (pgrounddown 8) = pa2pte (frame 3) ||| cowFlags :=
    onePage_leaf (by decide) (by decide)
  have state := onePage_fault cowFlags (by decide)
  have never := @storeFault_never_resolved (onePage cowFlags) ⟨frame 0,false⟩ 8 _ state (by decide)
  simp only [word] at never
  exact never (by decide)

/-- The process is marked killed, and no entry of its page table has changed. -/
def KillsOnly (s : State) (p : Proc) (stval : Nat) : Prop :=
  ∃ q t, (storeFault p stval).run s = .ok (q,t) ∧ q.killed = true ∧
    ∀ table ∈ tables s.mem p.pagetable, ∀ i < 512, entry t.mem table i = entry s.mem table i

/-- The handler itself never kills: a store is answered by a killed process only where that
process was marked killed before, and where there is an entry that the handler does not take
for one of its pages. -/
theorem storeFault_killsOnly_iff {s : State} {p : Proc} {stval : Nat} {pages : List Nat}
    (state : FaultState s p.pagetable pages) :
    KillsOnly s p stval ↔ p.killed = true ∧ pgrounddown stval < maxva ∧
      slotOf s.mem p.pagetable (pgrounddown stval) ≠ 0 ∧
      ¬Copied (leaf s.mem p.pagetable (pgrounddown stval)) := by
  constructor
  · rintro ⟨q,t,out,dead,same⟩
    have bound : pgrounddown stval < maxva := by
      by_contra beyond
      rw [storeFault_beyond (Nat.le_of_not_lt beyond)] at out
      exact absurd out (by simp)
    have slot : slotOf s.mem p.pagetable (pgrounddown stval) ≠ 0 := by
      intro none
      rw [storeFault_missing state bound none] at out
      exact absurd out (by simp)
    have other : ¬Copied (leaf s.mem p.pagetable (pgrounddown stval)) := by
      intro copied
      obtain ⟨slots,unreadable⟩ := wp_ok (storeFault_copied state bound copied) out
      rcases state.tree.slot_cases (pgrounddown stval) with ⟨none,_⟩ | ⟨two,one,place,_,_,word⟩
      · exact slot none
      have kept := same _ (.inr (.inr ⟨_,px_lt 2 _,_,px_lt 1 _,two,one,rfl⟩)) _ (px_lt 0 (pgrounddown stval))
      rw [entry,entry,← place,← word] at kept
      rw [leaf,slots,if_neg slot,kept,copied.2.2] at unreadable
      exact Bool.false_ne_true unreadable.symm
    rw [storeFault_ignored state bound slot other] at out
    obtain ⟨rfl,rfl⟩ := Prod.mk.inj (Except.ok.inj out)
    exact ⟨dead,bound,slot,other⟩
  · rintro ⟨dead,bound,slot,other⟩
    exact ⟨p,s,storeFault_ignored state bound slot other,dead,fun _ _ _ _ => rfl⟩

theorem store_at_maxva_panics : errorOf (storeFault ⟨frame 0,false⟩ maxva) (onePage userFlags) = some .walk := by
  decide +kernel

/-- A store to a guard page by a process that is being killed anyway. -/
theorem guard_store_kills : KillsOnly (onePage (pteV ||| pteR ||| pteW)) ⟨frame 0,true⟩ 8 := by
  have word : leaf (onePage (pteV ||| pteR ||| pteW)).mem (frame 0) (pgrounddown 8) =
      pa2pte (frame 3) ||| (pteV ||| pteR ||| pteW) := onePage_leaf (by decide) (by decide)
  have slot : slotOf (onePage (pteV ||| pteR ||| pteW)).mem (frame 0) (pgrounddown 8) ≠ 0 := by
    intro none
    rw [leaf,if_pos none] at word
    exact absurd word (by decide)
  have state := onePage_fault (pteV ||| pteR ||| pteW) (by decide)
  apply (@storeFault_killsOnly_iff _ ⟨frame 0,true⟩ 8 _ state).mpr
  simp only [word]
  exact ⟨trivial,by decide,slot,by decide⟩

end Xv6.Vm
