import Xv6.Files
import Mathlib.Algebra.BigOperators.Group.Finset.Piecewise
import Mathlib.Algebra.Order.BigOperators.Group.Finset
import Mathlib.Algebra.Order.BigOperators.Group.Multiset
import Mathlib.Data.Multiset.AddSub

/-! What the reference counts of the file table count. Between calls they count descriptors; within a call, also the
files in its variables, and not the descriptor that `dup` has not counted yet or that `exit` has not cleared yet. -/
namespace Xv6.Files

open Finset Function

theorem sum_change {ι M : Type} [DecidableEq ι] [AddCommMonoid M] {members : Finset ι} {a b : ι → M} {i : ι}
    (member : i ∈ members) (others : ∀ j ∈ members, j ≠ i → a j = b j) :
    ∑ j ∈ members, a j + b i = ∑ j ∈ members, b j + a i := by
  have rest : ∑ j ∈ members.erase i, a j = ∑ j ∈ members.erase i, b j :=
    sum_congr rfl fun j erased => others j (mem_of_mem_erase erased) (ne_of_mem_erase erased)
  rw [← sum_erase_add _ _ member,← sum_erase_add members b member,rest,add_right_comm]

namespace After

/-- The descriptor that does not count. -/
def hidden : After → Option Nat
  | clear fd => some fd
  | _ => none

def files : After → List Nat
  | close f => [f]
  | _ => []

def resources : After → List Resource
  | put ip => [.inode ip]
  | _ => []

end After

namespace Pc

variable {n : Nat}

def hidden : Pc n → Option Nat
  | dup _ fd => some fd
  | close _ after | drop _ after => after.hidden
  | clear fd => some fd
  | _ => none

def files : Pc n → List Nat
  | openFd _ _ _ f | forkSet _ _ f => [f]
  | close f after => f :: after.files
  | drop _ after => after.files
  | pipeAlloc1 rf => [rf]
  | pipePage rf wf | pipeSet0 rf wf _ | pipeSet1 rf wf _ | pipeFd0 rf wf => [rf,wf]
  | pipeFd1 _ wf _ => [wf]
  | _ => []

/-- What a call has to give back or to put into a file. -/
def resources : Pc n → List Resource
  | openAlloc ip _ _ | openFd ip _ _ _ | openSet ip _ _ _ | put ip => [.inode ip]
  | close _ after => after.resources
  | drop ff after => ff.resources ++ after.resources
  | pipeSet0 _ _ pi => [.pipeEnd pi false,.pipeEnd pi true]
  | pipeSet1 _ _ pi => [.pipeEnd pi true]
  | _ => []

/-- The files whose fields are not set yet. -/
def fresh : Pc n → List Nat
  | openFd _ _ _ f | openSet _ _ _ f => [f]
  | pipeAlloc1 rf => [rf]
  | pipePage rf wf | pipeSet0 rf wf _ => [rf,wf]
  | pipeSet1 _ wf _ => [wf]
  | _ => []

/-- The child of `fork`, with the first descriptor that is not copied yet. -/
def child : Pc n → Option (Fin n × Nat)
  | fork np i | forkSet np i _ => some (np,i)
  | _ => none

/-- What the variables of a call say about the descriptors of its process. -/
def Fits (ofile : Nat → Option Nat) : Pc n → Prop
  | absent => ∀ fd < nofile, ofile fd = none
  | dupFd f => ∃ fd < nofile, ofile fd = some f
  | dup f fd => fd < nofile ∧ ofile fd = some f ∧ ∃ other < nofile, other ≠ fd ∧ ofile other = some f
  | close _ (.clear fd) | drop _ (.clear fd) | clear fd => fd < nofile ∧ ∀ i < fd, ofile i = none
  | pipeFd1 rf _ fd0 => fd0 < nofile ∧ ofile fd0 = some rf
  | pipeOut rf wf fd0 fd1 =>
    fd0 < nofile ∧ fd1 < nofile ∧ fd0 ≠ fd1 ∧ ofile fd0 = some rf ∧ ofile fd1 = some wf
  | forkSet _ i _ => i < nofile
  | exit fd => ∀ i < fd, ofile i = none
  | _ => True

end Pc

def Pc.outside {n : Nat} : Pc n → Bool
  | idle | absent => true
  | _ => false

theorem Pc.of_outside {n : Nat} {pc : Pc n} (outside : pc.outside) :
    pc.hidden = none ∧ pc.files = [] ∧ pc.resources = [] ∧ pc.fresh = [] ∧ pc.child = none := by
  cases pc <;> simp_all [Pc.outside,Pc.hidden,Pc.files,Pc.resources,Pc.fresh,Pc.child]

section After

variable {n : Nat} (after : After)

@[simp] theorem After.hidden_pc : (after.pc : Pc n).hidden = after.hidden := by cases after <;> rfl

@[simp] theorem After.files_pc : (after.pc : Pc n).files = after.files := by cases after <;> rfl

@[simp] theorem After.resources_pc : (after.pc : Pc n).resources = after.resources := by cases after <;> rfl

@[simp] theorem After.fresh_pc : (after.pc : Pc n).fresh = [] := by cases after <;> rfl

@[simp] theorem After.child_pc : (after.pc : Pc n).child = none := by cases after <;> rfl

theorem Pc.Fits.drop {after : After} {ofile : Nat → Option Nat} {f : Nat} (ff : File)
    (fits : (Pc.close f after : Pc n).Fits ofile) : (Pc.drop ff after : Pc n).Fits ofile := by
  cases after <;> exact fits

theorem Pc.Fits.rest {after : After} {ofile : Nat → Option Nat} {ff : File}
    (fits : (Pc.drop ff after : Pc n).Fits ofile) : (after.pc : Pc n).Fits ofile := by
  cases after <;> exact fits

end After

/-- How many descriptors, the hidden one apart, are for the file `f`. -/
def slots (ofile : Nat → Option Nat) (hidden : Option Nat) (f : Nat) : Nat :=
  ∑ fd ∈ range nofile, if hidden ≠ some fd ∧ ofile fd = some f then 1 else 0

section Slots

variable {ofile : Nat → Option Nat} {hidden : Option Nat} {fd f g : Nat}

theorem slots_hide (ofile : Nat → Option Nat) (inside : fd < nofile) (f : Nat) :
    slots ofile none f = slots ofile (some fd) f + if ofile fd = some f then 1 else 0 := by
  have changed := sum_change (a := fun i => if (none : Option Nat) ≠ some i ∧ ofile i = some f then 1 else 0)
    (b := fun i => if some fd ≠ some i ∧ ofile i = some f then 1 else 0) (mem_range.mpr inside)
    fun i _ other => by simp [other.symm]
  simpa [slots] using changed

theorem slots_update_hidden (x : Option Nat) (f : Nat) :
    slots (update ofile fd x) (some fd) f = slots ofile (some fd) f := by
  refine sum_congr rfl fun i _ => ?_
  by_cases same : i = fd
  · simp [same]
  · simp [update_of_ne same]

theorem slots_clear (f : Nat) : slots (update ofile fd none) none f = slots ofile (some fd) f := by
  refine sum_congr rfl fun i _ => ?_
  by_cases same : i = fd
  · simp [same]
  · simp [update_of_ne same,Ne.symm same]

theorem slots_hide_free (free : ofile fd = none) (f : Nat) : slots ofile (some fd) f = slots ofile none f := by
  rw [← slots_clear,← free,update_eq_self]

theorem slots_install (inside : fd < nofile) (free : ofile fd = none) (f g : Nat) :
    slots (update ofile fd (some f)) none g = slots ofile none g + if f = g then 1 else 0 := by
  rw [slots_hide _ inside,slots_update_hidden,slots_hide_free free]
  simp

theorem slots_pos (inside : fd < nofile) (installed : ofile fd = some f) (shown : hidden ≠ some fd) :
    0 < slots ofile hidden f :=
  sum_pos_iff.mpr ⟨fd,mem_range.mpr inside,by simp [installed,shown]⟩

theorem slots_none (empty : ∀ fd < nofile, ofile fd = none) (f : Nat) : slots ofile hidden f = 0 :=
  sum_eq_zero fun fd member => by simp [empty fd (mem_range.mp member)]

end Slots

namespace State

variable {n : Nat} (s : State n)

def uses (p : Fin n) (f : Nat) : Nat :=
  slots (s.ofile p) (s.pc p).hidden f + (s.pc p).files.count f

/-- All that was ever taken for a file. -/
def taken : Multiset Resource :=
  (Multiset.range s.inodes).map Resource.inode +
    ((Multiset.range s.pipes).map (Resource.pipeEnd · false) + (Multiset.range s.pipes).map (Resource.pipeEnd · true))

def held : Multiset Resource :=
  ∑ f ∈ range nfile, ((s.file f).resources : Multiset Resource)

def carried : Multiset Resource :=
  ∑ p, ((s.pc p).resources : Multiset Resource)

end State

variable {n : Nat} {s t : State n} {p q : Fin n} {f g fd : Nat} {ok : Bool}

structure Inv (s : State n) : Prop where
  running : s.panic = none
  counted : ∀ f, (s.file f).ref = ∑ p, s.uses p f
  inside : ∀ f, (s.file f).ref ≠ 0 → f < nfile
  blank : ∀ f, (s.file f).ref = 0 → (s.file f).type = .none
  /-- Nobody else has a reference to a file whose fields are not set yet. -/
  fresh : ∀ p, ∀ f ∈ (s.pc p).fresh, (s.file f).type = .none ∧ (s.file f).ref = 1 ∧ 0 < s.uses p f
  fits : ∀ p, (s.pc p).Fits (s.ofile p)
  kin : ∀ p c i, (s.pc p).child = some (c,i) → s.pc c = .embryo ∧ ∀ fd < nofile, i ≤ fd → s.ofile c fd = none
  siblings : ∀ p q c i j, (s.pc p).child = some (c,i) → (s.pc q).child = some (c,j) → p = q
  ledger : s.held + s.carried + s.released = s.taken
  opened : ∀ pi writable, s.isOpen pi writable = true ↔ pi < s.pipes ∧ .pipeEnd pi writable ∉ s.released
  freed : ∀ pi, s.freed.count pi = if .pipeEnd pi false ∈ s.released ∧ .pipeEnd pi true ∈ s.released then 1 else 0

theorem Inv.uses_le (inv : Inv s) (p : Fin n) (f : Nat) : s.uses p f ≤ (s.file f).ref := by
  rw [inv.counted]
  exact single_le_sum (f := fun q => s.uses q f) (fun q _ => Nat.zero_le _) (mem_univ p)

theorem Inv.fits_at {pc : Pc n} (inv : Inv s) (place : s.pc p = pc) : pc.Fits (s.ofile p) := place ▸ inv.fits p

theorem Inv.uses_two (inv : Inv s) (other : q ≠ p) (f : Nat) : s.uses p f + s.uses q f ≤ (s.file f).ref := by
  rw [inv.counted,← sum_pair (f := fun r => s.uses r f) other.symm]
  exact sum_le_sum_of_subset (subset_univ _)

/-- A step in which `p` changes only its own descriptors. -/
structure Move (s t : State n) (p : Fin n) : Prop where
  ofile : ∀ q ≠ p, t.ofile q = s.ofile q
  pc : ∀ q ≠ p, t.pc q = s.pc q
  panic : t.panic = s.panic
  active : s.pc p ≠ .embryo
  counted : ∀ g, (t.file g).ref + s.uses p g = (s.file g).ref + t.uses p g
  /-- It changes a file only if the file is free or it has a reference to it. -/
  touched : ∀ g, t.file g = s.file g ∨ g < nfile ∧ ((s.file g).ref = 0 ∨ 0 < s.uses p g)
  blank : ∀ g, (t.file g).ref = 0 → (t.file g).type = .none
  fresh : ∀ g ∈ (t.pc p).fresh, (t.file g).type = .none ∧ (t.file g).ref = 1 ∧ 0 < t.uses p g
  fits : (t.pc p).Fits (t.ofile p)
  child : ∀ c i, (t.pc p).child = some (c,i) → ∃ j ≤ i, (s.pc p).child = some (c,j)
  ledger : t.held + ((t.pc p).resources : Multiset Resource) + t.released + s.taken =
    s.held + ((s.pc p).resources : Multiset Resource) + s.released + t.taken
  opened : ∀ pi writable, t.isOpen pi writable = true ↔ pi < t.pipes ∧ .pipeEnd pi writable ∉ t.released
  freed : ∀ pi, t.freed.count pi = if .pipeEnd pi false ∈ t.released ∧ .pipeEnd pi true ∈ t.released then 1 else 0

theorem Move.uses (move : Move s t p) (other : q ≠ p) (g : Nat) : t.uses q g = s.uses q g := by
  rw [State.uses,move.ofile q other,move.pc q other,State.uses]

theorem Move.inv (move : Move s t p) (inv : Inv s) : Inv t := by
  -- A child of another process, or of this one, is an embryo, which does not move.
  have embryo {q c : Fin n} {i : Nat} (child : (s.pc q).child = some (c,i)) : c ≠ p := by
    rintro rfl
    exact move.active (inv.kin q c i child).1
  have parent {q c : Fin n} {i : Nat} (child : (t.pc q).child = some (c,i)) :
      ∃ j ≤ i, (s.pc q).child = some (c,j) := by
    by_cases self : q = p
    · exact self ▸ move.child c i (self ▸ child)
    · exact ⟨i,le_rfl,move.pc q self ▸ child⟩
  refine ⟨move.panic.trans inv.running,?_,?_,move.blank,?_,?_,?_,?_,?_,move.opened,move.freed⟩
  · intro g
    have changed := sum_change (a := fun q => t.uses q g) (b := fun q => s.uses q g) (mem_univ p)
      fun q _ other => move.uses other g
    have own := move.counted g
    have before := inv.counted g
    omega
  · intro g used
    obtain same | ⟨inside,-⟩ := move.touched g
    · exact inv.inside g (same ▸ used)
    · exact inside
  · intro q g member
    by_cases self : q = p
    · exact self ▸ move.fresh g (self ▸ member)
    · rw [move.pc q self] at member
      obtain ⟨type,ref,uses⟩ := inv.fresh q g member
      have same : t.file g = s.file g := by
        refine (move.touched g).resolve_right ?_
        rintro ⟨-,free | mine⟩
        · omega
        · have := inv.uses_two self g
          omega
      rw [same,move.uses self]
      exact ⟨type,ref,uses⟩
  · intro q
    by_cases self : q = p
    · exact self ▸ move.fits
    · rw [move.pc q self,move.ofile q self]
      exact inv.fits q
  · intro q c i child
    obtain ⟨j,le,child⟩ := parent child
    obtain ⟨place,empty⟩ := inv.kin q c j child
    rw [move.pc c (embryo child),move.ofile c (embryo child)]
    exact ⟨place,fun fd inside beyond => empty fd inside (le.trans beyond)⟩
  · intro q r c i j one two
    obtain ⟨i',-,one⟩ := parent one
    obtain ⟨j',-,two⟩ := parent two
    exact inv.siblings q r c i' j' one two
  · have changed : t.carried + _ = s.carried + _ :=
      sum_change (mem_univ p) fun q _ other => by rw [move.pc q other]
    refine Multiset.ext.mpr fun r => ?_
    have own := congrArg (Multiset.count r) move.ledger
    have before := congrArg (Multiset.count r) inv.ledger
    have changed := congrArg (Multiset.count r) changed
    simp only [Multiset.count_add] at own before changed ⊢
    omega

theorem filealloc_cases (s : State n) : s.filealloc = none ∨
    ∃ f < nfile, (s.file f).ref = 0 ∧ s.filealloc = some (f,s.setFile f { s.file f with ref := 1 }) := by
  cases found : s.unused with
  | none => exact .inl (by simp [State.filealloc,found])
  | some f =>
    have inside := List.mem_range.mp (List.mem_of_find?_eq_some found)
    have free := List.find?_some found
    exact .inr ⟨f,inside,by simpa using free,by simp [State.filealloc,found]⟩

theorem fdalloc_cases (s : State n) (p : Fin n) (f : Nat) : s.fdalloc p f = none ∨
    ∃ fd < nofile, s.ofile p fd = none ∧ s.fdalloc p f = some (fd,s.setSlot p fd (some f)) := by
  cases found : s.freeSlot p with
  | none => exact .inl (by simp [State.fdalloc,found])
  | some fd =>
    have inside := List.mem_range.mp (List.mem_of_find?_eq_some found)
    have free := List.find?_some found
    exact .inr ⟨fd,inside,by simpa using free,by simp [State.fdalloc,found]⟩

section Fields

variable (s : State n) (p : Fin n) (pc : Pc n) (f : Nat) (x : File)

@[simp] theorem goto_pc : (s.goto p pc).pc p = pc := update_self ..

@[simp] theorem goto_ofile : (s.goto p pc).ofile = s.ofile := rfl

@[simp] theorem goto_file : (s.goto p pc).file = s.file := rfl

@[simp] theorem setFile_ofile : (s.setFile f x).ofile = s.ofile := rfl

@[simp] theorem setFile_pc : (s.setFile f x).pc = s.pc := rfl

@[simp] theorem setFile_file : (s.setFile f x).file = update s.file f x := rfl

end Fields

/-- How a process may change its own descriptors and variables with no file changing. -/
structure Shift (ofile : Nat → Option Nat) (old : Pc n) (ofile' : Nat → Option Nat) (new : Pc n) : Prop where
  uses : ∀ g, slots ofile' new.hidden g + new.files.count g = slots ofile old.hidden g + old.files.count g
  fits : new.Fits ofile'
  resources : new.resources = old.resources
  fresh : new.fresh ⊆ old.fresh
  child : ∀ c i, new.child = some (c,i) → ∃ j ≤ i, old.child = some (c,j)
  active : old ≠ .embryo

def State.arrange (s : State n) (p : Fin n) (ofile : Nat → Option Nat) (pc : Pc n) : State n :=
  { s with ofile := update s.ofile p ofile, pc := update s.pc p pc }

theorem goto_eq (s : State n) (p : Fin n) (pc : Pc n) : s.goto p pc = s.arrange p (s.ofile p) pc := by
  rw [State.arrange,update_eq_self,State.goto]

@[simp] theorem uses_arrange (s : State n) (p : Fin n) (ofile : Nat → Option Nat) (pc : Pc n) :
    (s.arrange p ofile pc).uses p g = slots ofile pc.hidden g + pc.files.count g := by
  simp [State.uses,State.arrange]

theorem Inv.arrange {old pc : Pc n} {ofile : Nat → Option Nat} (inv : Inv s) (place : s.pc p = old)
    (shift : Shift (s.ofile p) old ofile pc) : Inv (s.arrange p ofile pc) := by
  subst place
  have own : (s.arrange p ofile pc).pc p = pc := update_self ..
  have uses (g : Nat) : (s.arrange p ofile pc).uses p g = s.uses p g := by
    rw [uses_arrange,shift.uses,State.uses]
  suffices move : Move s (s.arrange p ofile pc) p from move.inv inv
  refine ⟨?_,?_,rfl,shift.active,?_,fun _ => .inl rfl,inv.blank,?_,?_,?_,?_,inv.opened,inv.freed⟩
  · exact fun q other => update_of_ne other ..
  · exact fun q other => update_of_ne other ..
  · intro g
    rw [uses]
    rfl
  · intro g member
    rw [uses]
    exact inv.fresh p g (shift.fresh (own ▸ member))
  · rw [own]
    simpa [State.arrange] using shift.fits
  · rw [own]
    exact shift.child
  · rw [own,shift.resources]
    rfl

theorem Inv.goto {old pc : Pc n} (inv : Inv s) (place : s.pc p = old) (shift : Shift (s.ofile p) old (s.ofile p) pc) :
    Inv (s.goto p pc) :=
  goto_eq s p pc ▸ inv.arrange place shift

theorem Inv.setSlot {old pc : Pc n} {x : Option Nat} (inv : Inv s) (place : s.pc p = old)
    (shift : Shift (s.ofile p) old (update (s.ofile p) fd x) pc) : Inv ((s.setSlot p fd x).goto p pc) :=
  inv.arrange place shift

variable {ip rf wf pi fd0 fd1 i : Nat} {device writable : Bool}

section

variable (inv : Inv s) (stepped : s.next p ok = some t)
include inv stepped

theorem Inv.openFd_step (place : s.pc p = .openFd ip device writable f) : Inv t := by
  rw [State.next,place] at stepped
  obtain full | ⟨fd,inside,free,got⟩ := fdalloc_cases s p f
  · simp only [full] at stepped
    cases stepped
    exact inv.goto place ⟨fun _ => rfl,trivial,rfl,List.nil_subset _,nofun,nofun⟩
  · simp only [got] at stepped
    cases stepped
    refine inv.setSlot place ⟨fun g => ?_,trivial,rfl,List.Subset.refl _,nofun,nofun⟩
    simp [Pc.hidden,Pc.files,slots_install inside free,List.count_cons]

theorem Inv.dupFd_step (place : s.pc p = .dupFd f) : Inv t := by
  rw [State.next,place] at stepped
  obtain ⟨other,within,installed⟩ : ∃ fd < nofile, s.ofile p fd = some f := inv.fits_at place
  obtain full | ⟨fd,inside,free,got⟩ := fdalloc_cases s p f
  · simp only [full] at stepped
    cases stepped
    exact inv.goto place ⟨fun _ => rfl,trivial,rfl,List.nil_subset _,nofun,nofun⟩
  · simp only [got,Option.some.injEq] at stepped
    have distinct : other ≠ fd := by
      rintro rfl
      simp [free] at installed
    refine stepped ▸ inv.setSlot place ⟨fun g => ?_,⟨inside,by simp,other,within,distinct,
      by simp [distinct,installed]⟩,rfl,List.nil_subset _,nofun,nofun⟩
    simp [Pc.hidden,Pc.files,slots_update_hidden,slots_hide_free free]

theorem Inv.pipeFd0_step (place : s.pc p = .pipeFd0 rf wf) : Inv t := by
  rw [State.next,place] at stepped
  obtain full | ⟨fd,inside,free,got⟩ := fdalloc_cases s p rf
  · simp only [full] at stepped
    cases stepped
    exact inv.goto place ⟨fun _ => rfl,trivial,rfl,List.nil_subset _,nofun,nofun⟩
  · simp only [got] at stepped
    cases stepped
    refine inv.setSlot place ⟨fun g => ?_,⟨inside,by simp⟩,rfl,List.nil_subset _,nofun,nofun⟩
    simp [Pc.hidden,Pc.files,slots_install inside free,List.count_cons]
    omega

theorem Inv.pipeFd1_step (place : s.pc p = .pipeFd1 rf wf fd0) : Inv t := by
  rw [State.next,place] at stepped
  obtain ⟨within,installed⟩ : fd0 < nofile ∧ s.ofile p fd0 = some rf := inv.fits_at place
  obtain full | ⟨fd,inside,free,got⟩ := fdalloc_cases s p wf
  · simp only [full] at stepped
    cases stepped
    refine inv.setSlot place ⟨fun g => ?_,trivial,rfl,List.nil_subset _,nofun,nofun⟩
    have shown := slots_hide (s.ofile p) within g
    simp only [installed,Option.some.injEq] at shown
    simp [Pc.hidden,Pc.files,After.hidden,After.files,slots_clear,shown,List.count_cons]
    omega
  · simp only [got,Option.some.injEq] at stepped
    have distinct : fd0 ≠ fd := by
      rintro rfl
      simp [free] at installed
    refine stepped ▸ inv.setSlot place ⟨fun g => ?_,⟨within,inside,distinct,by simp [distinct,installed],by simp⟩,rfl,
      List.nil_subset _,nofun,nofun⟩
    simp [Pc.hidden,Pc.files,slots_install inside free,List.count_cons]

theorem Inv.pipeOut_step (place : s.pc p = .pipeOut rf wf fd0 fd1) : Inv t := by
  rw [State.next,place] at stepped
  obtain ⟨inside0,inside1,distinct,installed0,installed1⟩ : fd0 < nofile ∧ fd1 < nofile ∧ fd0 ≠ fd1 ∧
    s.ofile p fd0 = some rf ∧ s.ofile p fd1 = some wf := inv.fits_at place
  cases ok with
  | true =>
    simp only [if_true] at stepped
    cases stepped
    exact inv.goto place ⟨fun _ => rfl,trivial,rfl,List.nil_subset _,nofun,nofun⟩
  | false =>
    simp only [Bool.false_eq_true,if_false,Option.some.injEq] at stepped
    have same : t = s.arrange p (update (update (s.ofile p) fd0 none) fd1 none) (.close rf (.close wf)) := by
      simp [← stepped,State.arrange,State.goto]
    refine same ▸ inv.arrange place ⟨fun g => ?_,trivial,rfl,List.nil_subset _,nofun,nofun⟩
    have first := slots_hide (s.ofile p) inside0 g
    have second := slots_hide (update (s.ofile p) fd0 none) inside1 g
    rw [slots_clear,update_of_ne distinct.symm,installed1] at second
    simp [Pc.hidden,Pc.files,After.hidden,After.files,slots_clear,List.count_cons]
    rw [installed0] at first
    simp only [Option.some.injEq] at first second
    omega

theorem Inv.exit_step (place : s.pc p = .exit fd) : Inv t := by
  rw [State.next,place] at stepped
  have cleared : ∀ i < fd, s.ofile p i = none := inv.fits_at place
  by_cases inside : fd < nofile
  · simp only [inside,if_true] at stepped
    cases slot : s.ofile p fd with
    | none =>
      simp only [slot] at stepped
      cases stepped
      refine inv.goto place ⟨fun _ => rfl,fun i before => ?_,rfl,List.nil_subset _,nofun,nofun⟩
      obtain earlier | rfl := Nat.lt_succ_iff_lt_or_eq.mp before
      · exact cleared i earlier
      · exact slot
    | some f =>
      simp only [slot] at stepped
      cases stepped
      refine inv.goto place ⟨fun g => ?_,⟨inside,cleared⟩,rfl,List.nil_subset _,nofun,nofun⟩
      simp [Pc.hidden,Pc.files,After.hidden,After.files,slots_hide _ inside,slot,List.count_cons]
  · simp only [inside,if_false] at stepped
    cases stepped
    exact inv.goto place ⟨fun _ => rfl,fun i before => cleared i (by omega),rfl,List.nil_subset _,nofun,nofun⟩

theorem Inv.clear_step (place : s.pc p = .clear fd) : Inv t := by
  rw [State.next,place,Option.some.injEq] at stepped
  obtain ⟨inside,cleared⟩ : fd < nofile ∧ ∀ i < fd, s.ofile p i = none := inv.fits_at place
  refine stepped ▸ inv.setSlot place ⟨fun g => ?_,fun i before => ?_,rfl,List.nil_subset _,nofun,nofun⟩
  · simp [Pc.hidden,Pc.files,slots_clear]
  · obtain earlier | rfl := Nat.lt_succ_iff_lt_or_eq.mp before
    · rw [update_of_ne earlier.ne]
      exact cleared i earlier
    · simp

end

structure Touch (s : State n) (p : Fin n) (f : Nat) (x : File) (old new : Pc n) : Prop where
  inside : f < nfile
  mine : (s.file f).ref = 0 ∨ 0 < s.uses p f
  counted : x.ref + s.uses p f = (s.file f).ref + (slots (s.ofile p) new.hidden f + new.files.count f)
  uses : ∀ g ≠ f, slots (s.ofile p) new.hidden g + new.files.count g = s.uses p g
  fits : new.Fits (s.ofile p)
  blank : x.ref = 0 → x.type = .none
  resources : (x.resources + new.resources : Multiset Resource) = (s.file f).resources + old.resources
  child : ∀ c i, new.child = some (c,i) → ∃ j ≤ i, old.child = some (c,j)
  fresh : ∀ g ∈ new.fresh, g = f ∧ x.type = .none ∧ x.ref = 1 ∧ 0 < new.files.count f ∨ g ≠ f ∧ g ∈ old.fresh
  active : old ≠ .embryo

section

variable (inv : Inv s)
include inv

theorem Inv.touch {old pc : Pc n} {x : File} (place : s.pc p = old) (touch : Touch s p f x old pc) :
    Inv ((s.setFile f x).goto p pc) := by
  subst place
  generalize same : (s.setFile f x).goto p pc = t
  have own : t.pc p = pc := by simp [← same]
  have file : t.file = update s.file f x := by simp [← same]
  have uses (g : Nat) : t.uses p g = slots (s.ofile p) pc.hidden g + pc.files.count g := by
    simp [← same,State.uses]
  suffices move : Move s t p from move.inv inv
  refine ⟨?_,?_,?_,touch.active,?_,?_,?_,?_,?_,?_,?_,?_,?_⟩
  · simp [← same]
  · intro q other
    simp [← same,State.goto,other]
  · rw [← same]
    rfl
  · intro g
    rw [file,uses]
    by_cases self : g = f
    · subst g
      simpa using touch.counted
    · simp [self,touch.uses g self]
  · intro g
    by_cases self : g = f
    · exact .inr (self ▸ ⟨touch.inside,touch.mine⟩)
    · exact .inl (by simp [file,self])
  · intro g
    by_cases self : g = f
    · subst g
      simpa [file] using touch.blank
    · simpa [file,self] using inv.blank g
  · intro g member
    rw [own] at member
    rw [file,uses]
    obtain ⟨rfl,type,ref,held⟩ | ⟨other,member⟩ := touch.fresh g member
    · simpa [type,ref] using .inr (List.count_pos_iff.mp held)
    · simpa [other,touch.uses g other] using inv.fresh p g member
  · rw [own]
    simpa [← same] using touch.fits
  · rw [own]
    exact touch.child
  · have changed : t.held + _ = s.held + _ :=
      sum_change (mem_range.mpr touch.inside) fun g _ other => by simp [file,other]
    have released : t.released = s.released := by rw [← same]; rfl
    have taken : t.taken = s.taken := by rw [← same]; rfl
    rw [own,released,taken]
    refine Multiset.ext.mpr fun r => ?_
    have balance := congrArg (Multiset.count r) touch.resources
    have changed := congrArg (Multiset.count r) changed
    simp only [file,update_self,Multiset.count_add] at balance changed ⊢
    omega
  · subst same
    exact inv.opened
  · subst same
    exact inv.freed

theorem Inv.alloc {old pc : Pc n} (place : s.pc p = old) (inside : f < nfile) (free : (s.file f).ref = 0)
    (files : pc.files.Perm (f :: old.files)) (hidden : pc.hidden = old.hidden) (fits : pc.Fits (s.ofile p))
    (fresh : ∀ g ∈ pc.fresh, g = f ∨ g ∈ old.fresh) (resources : pc.resources = old.resources)
    (child : pc.child = none) (active : old ≠ .embryo) :
    Inv ((s.setFile f { s.file f with ref := 1 }).goto p pc) := by
  have blank := inv.blank f free
  have count (g : Nat) : pc.files.count g = old.files.count g + if f = g then 1 else 0 := by
    simp [files.count_eq,List.count_cons]
  refine inv.touch place
    { inside, mine := .inl free, fits, active, blank := fun none => by simp at none, resources := by rw [resources]; rfl,
      child := by simp [child], counted := ?_, uses := ?_, fresh := ?_ }
  · simp only [State.uses,place,hidden,count]
    simp [free]
    omega
  · intro g other
    simp [State.uses,place,hidden,count,other.symm]
  · intro g member
    by_cases self : g = f
    · exact .inl ⟨self,blank,rfl,by simp [count]⟩
    · exact .inr ⟨self,(fresh g member).resolve_left self⟩

theorem Inv.filedup {old pc : Pc n} (place : s.pc p = old) (used : 0 < s.uses p f)
    (uses : ∀ g, slots (s.ofile p) pc.hidden g + pc.files.count g = s.uses p g + if f = g then 1 else 0)
    (fits : pc.Fits (s.ofile p)) (fresh : pc.fresh = []) (resources : pc.resources = old.resources)
    (child : ∀ c i, pc.child = some (c,i) → ∃ j ≤ i, old.child = some (c,j)) (active : old ≠ .embryo) :
    Inv (s.filedup p f pc) := by
  have counted := inv.uses_le p f
  rw [State.filedup,if_neg (by omega)]
  refine inv.touch place
    { inside := inv.inside f (by omega), mine := .inr used, fits, active, blank := fun none => by simp at none,
      resources := by rw [resources]; rfl, child, fresh := by simp [fresh], counted := ?_, uses := ?_ }
  · rw [uses]
    simp
    omega
  · intro g other
    rw [uses,if_neg other.symm,add_zero]

variable (stepped : s.next p ok = some t)
include stepped

theorem Inv.openAlloc_step (place : s.pc p = .openAlloc ip device writable) : Inv t := by
  rw [State.next,place] at stepped
  have refused : Inv (s.goto p (.put ip)) := inv.goto place ⟨fun _ => rfl,trivial,rfl,List.nil_subset _,nofun,nofun⟩
  cases ok with
  | false =>
    simp only [Bool.false_eq_true,if_false] at stepped
    cases stepped
    exact refused
  | true =>
    simp only [if_true] at stepped
    obtain full | ⟨f,inside,free,got⟩ := filealloc_cases s
    · simp only [full] at stepped
      cases stepped
      exact refused
    · simp only [got] at stepped
      cases stepped
      exact inv.alloc place inside free (.refl _) rfl trivial (by simp [Pc.fresh]) rfl rfl (by simp)

theorem Inv.pipeAlloc0_step (place : s.pc p = .pipeAlloc0) : Inv t := by
  rw [State.next,place] at stepped
  obtain full | ⟨f,inside,free,got⟩ := filealloc_cases s
  · simp only [full] at stepped
    cases stepped
    exact inv.goto place ⟨fun _ => rfl,trivial,rfl,List.nil_subset _,nofun,nofun⟩
  · simp only [got] at stepped
    cases stepped
    exact inv.alloc place inside free (.refl _) rfl trivial (by simp [Pc.fresh]) rfl rfl (by simp)

theorem Inv.pipeAlloc1_step (place : s.pc p = .pipeAlloc1 rf) : Inv t := by
  rw [State.next,place] at stepped
  obtain full | ⟨f,inside,free,got⟩ := filealloc_cases s
  · simp only [full] at stepped
    cases stepped
    exact inv.goto place ⟨fun _ => rfl,trivial,rfl,List.nil_subset _,nofun,nofun⟩
  · simp only [got] at stepped
    cases stepped
    exact inv.alloc place inside free (.swap ..) rfl trivial (by simp [Pc.fresh]) rfl rfl (by simp)

theorem Inv.dup_step (place : s.pc p = .dup f fd) : Inv t := by
  rw [State.next,place,Option.some.injEq] at stepped
  obtain ⟨inside,installed,other,within,distinct,first⟩ : fd < nofile ∧ s.ofile p fd = some f ∧
    ∃ other < nofile, other ≠ fd ∧ s.ofile p other = some f := inv.fits_at place
  refine stepped ▸ inv.filedup place ?_ (fun g => ?_) trivial rfl rfl (by simp [Pc.child]) (by simp)
  · have := slots_pos within first (show some fd ≠ some other by simpa using distinct.symm)
    simp [State.uses,place,Pc.hidden,this]
  · simp [State.uses,place,Pc.hidden,Pc.files,slots_hide _ inside,installed]

theorem Inv.close_step {after : After} (place : s.pc p = .close f after) : Inv t := by
  rw [State.next,place] at stepped
  cases stepped
  have uses (g : Nat) : s.uses p g = slots (s.ofile p) after.hidden g + after.files.count g + if f = g then 1 else 0 := by
    simp [State.uses,place,Pc.hidden,Pc.files,List.count_cons,add_assoc]
  have used := uses f
  rw [if_pos rfl] at used
  have counted := inv.uses_le p f
  have inside := inv.inside f (by omega)
  have fits := inv.fits_at place
  rw [State.fileclose,if_neg (by omega)]
  split
  case isTrue more =>
    refine inv.touch place
      { inside, mine := .inr (by omega), counted := ?_, uses := ?_, fits := Pc.Fits.rest (fits.drop (s.file f)),
        blank := fun none => absurd none (by simp; omega), resources := by rw [After.resources_pc]; rfl,
        child := by simp, fresh := by simp, active := nofun }
    · simp only [After.hidden_pc,After.files_pc]
      omega
    · intro g other
      simp [uses,other.symm]
  case isFalse last =>
    refine inv.touch place
      { inside, mine := .inr (by omega), counted := ?_, uses := ?_, fits := fits.drop (s.file f), blank := fun _ => rfl,
        resources := by simp [File.resources,Pc.resources], child := nofun, fresh := nofun, active := nofun }
    · simp only [Pc.hidden,Pc.files]
      omega
    · intro g other
      simp [uses,Pc.hidden,Pc.files,other.symm]

theorem Inv.openSet_step (place : s.pc p = .openSet ip device writable f) : Inv t := by
  rw [State.next,place,Option.some.injEq] at stepped
  obtain ⟨type,ref,used⟩ := inv.fresh p f (by simp [place,Pc.fresh])
  refine stepped ▸ inv.touch place
    { inside := inv.inside f (by omega), mine := .inr used, counted := ?_, uses := ?_, fits := trivial,
      blank := ?_, resources := ?_, child := nofun, fresh := nofun, active := nofun }
  · simp [State.uses,place,Pc.hidden,Pc.files]
  · simp [State.uses,place,Pc.hidden,Pc.files]
  · simp [ref]
  · cases device <;> simp [File.resources,Pc.resources,type]

theorem Inv.fork_step {np : Fin n} (place : s.pc p = .fork np i) (inside : i < nofile) : Inv t := by
  rw [State.next,place] at stepped
  simp only [inside,if_true] at stepped
  cases slot : s.ofile p i with
  | none =>
    simp only [slot] at stepped
    cases stepped
    refine inv.goto place ⟨fun _ => rfl,trivial,rfl,List.nil_subset _,?_,nofun⟩
    simp only [Pc.child,Option.some.injEq,Prod.mk.injEq]
    rintro c j ⟨rfl,rfl⟩
    exact ⟨i,Nat.le_succ i,rfl,rfl⟩
  | some f =>
    simp only [slot] at stepped
    cases stepped
    refine inv.filedup place ?_ (fun g => ?_) inside rfl rfl (by simp [Pc.child]) (by simp)
    · have := slots_pos inside slot (show none ≠ some i by simp)
      simp [State.uses,place,Pc.hidden,this]
    · simp [State.uses,place,Pc.hidden,Pc.files,List.count_cons]

theorem Inv.pipeSet0_step (place : s.pc p = .pipeSet0 rf wf pi) : Inv t := by
  rw [State.next,place,Option.some.injEq] at stepped
  obtain ⟨type,ref,used⟩ := inv.fresh p rf (by simp [place,Pc.fresh])
  -- Two references to one file would count twice.
  have distinct : wf ≠ rf := by
    rintro rfl
    have := inv.uses_le p wf
    simp [State.uses,place,Pc.hidden,Pc.files] at this
    omega
  refine stepped ▸ inv.touch place
    { inside := inv.inside rf (by omega), mine := .inr used, counted := ?_, uses := ?_, fits := trivial,
      blank := fun none => absurd none (by simp [ref]), resources := ?_, child := nofun,
      fresh := by simp [Pc.fresh,distinct], active := nofun }
  · simp [State.uses,place,Pc.hidden,Pc.files]
  · simp [State.uses,place,Pc.hidden,Pc.files]
  · simp only [File.resources,Pc.resources,type]
    rfl

theorem Inv.pipeSet1_step (place : s.pc p = .pipeSet1 rf wf pi) : Inv t := by
  rw [State.next,place,Option.some.injEq] at stepped
  obtain ⟨type,ref,used⟩ := inv.fresh p wf (by simp [place,Pc.fresh])
  refine stepped ▸ inv.touch place
    { inside := inv.inside wf (by omega), mine := .inr used, counted := ?_, uses := ?_, fits := trivial,
      blank := fun none => absurd none (by simp [ref]), resources := ?_, child := nofun, fresh := nofun, active := nofun }
  · simp [State.uses,place,Pc.hidden,Pc.files]
  · simp [State.uses,place,Pc.hidden,Pc.files]
  · simp [File.resources,Pc.resources,type]

end

structure Goes (ofile : Nat → Option Nat) (old new : Pc n) : Prop where
  fits : new.Fits ofile
  hidden : new.hidden = old.hidden
  files : new.files = old.files
  fresh : new.fresh ⊆ old.fresh
  child : new.child = none
  active : old ≠ .embryo

structure Record (s t : State n) (p : Fin n) (old new : Pc n) : Prop where
  goes : Goes (s.ofile p) old new
  ledger : (new.resources + t.released + s.taken : Multiset Resource) = old.resources + s.released + t.taken
  opened : ∀ pi writable, t.isOpen pi writable = true ↔ pi < t.pipes ∧ .pipeEnd pi writable ∉ t.released
  freed : ∀ pi, t.freed.count pi = if .pipeEnd pi false ∈ t.released ∧ .pipeEnd pi true ∈ t.released then 1 else 0
  only : t = { s with
    isOpen := t.isOpen, inodes := t.inodes, pipes := t.pipes, released := t.released, freed := t.freed }

theorem Inv.record {old pc : Pc n} (inv : Inv s) (place : s.pc p = old) (record : Record s t p old pc) :
    Inv (t.goto p pc) := by
  subst place
  have goes := record.goes
  have file : t.file = s.file := by rw [record.only]
  have ofile : t.ofile = s.ofile := by rw [record.only]
  have moved : t.pc = s.pc := by rw [record.only]
  have held : (t.goto p pc).held = s.held := by rw [State.held,goto_file,file,State.held]
  have uses (g : Nat) : (t.goto p pc).uses p g = s.uses p g := by
    rw [State.uses,goto_pc,goto_ofile,ofile,goes.hidden,goes.files,State.uses]
  suffices move : Move s (t.goto p pc) p from move.inv inv
  refine ⟨?_,?_,?_,goes.active,?_,fun g => .inl (by rw [goto_file,file]),?_,?_,?_,?_,?_,record.opened,record.freed⟩
  · simp [ofile]
  · exact fun q other => by simp [State.goto,moved,other]
  · rw [record.only]
    rfl
  · intro g
    rw [goto_file,file,uses]
  · rw [goto_file,file]
    exact inv.blank
  · intro g member
    rw [goto_pc] at member
    rw [goto_file,file,uses]
    exact inv.fresh p g (goes.fresh member)
  · rw [goto_pc,goto_ofile,ofile]
    exact goes.fits
  · simp [goes.child]
  · rw [goto_pc,held]
    show _ + _ + (t.released : Multiset Resource) + _ = _ + _ + _ + t.taken
    have balance := congrArg (s.held + ·) record.ledger
    simpa only [add_assoc] using balance

theorem count_taken (s : State n) (r : Resource) : s.taken.count r = match r with
    | .inode ip => if ip < s.inodes then 1 else 0
    | .pipeEnd pi _ => if pi < s.pipes then 1 else 0 := by
  have range (k i : Nat) : (Multiset.range k).count i = if i < k then 1 else 0 := by
    rw [Multiset.count_eq_of_nodup (Multiset.nodup_range k)]
    simp
  have ends (writable : Bool) : Function.Injective fun pi => Resource.pipeEnd pi writable :=
    fun _ _ same => (Resource.pipeEnd.inj same).1
  cases r with
  | inode ip =>
    rw [State.taken,Multiset.count_add,Multiset.count_map_eq_count' _ _ (fun _ _ => Resource.inode.inj),range]
    simp
  | pipeEnd pi writable =>
    cases writable
    · simp only [State.taken,Multiset.count_add,Multiset.count_map_eq_count' _ _ (ends false),range]
      simp
    · simp only [State.taken,Multiset.count_add,Multiset.count_map_eq_count' _ _ (ends true),range]
      simp

theorem Inv.count (inv : Inv s) (r : Resource) :
    s.held.count r + s.carried.count r + s.released.count r = s.taken.count r := by
  rw [← inv.ledger]
  simp

theorem count_taken_le (s : State n) (r : Resource) : s.taken.count r ≤ 1 := by
  rw [count_taken]
  split <;> split <;> simp

theorem Inv.carried {r : Resource} (inv : Inv s) (carried : r ∈ (s.pc p).resources) :
    r ∉ s.released ∧ s.taken.count r = 1 := by
  have counted : 0 < s.carried.count r := by
    rw [State.carried,Multiset.count_sum',sum_pos_iff]
    exact ⟨p,mem_univ p,by simpa using carried⟩
  have balance := inv.count r
  have once := count_taken_le s r
  exact ⟨List.count_eq_zero.mp (by omega),by omega⟩

theorem given_back {old new released : List Resource} {r : Resource} (taken : Multiset Resource) (had : old = r :: new) :
    (new + (released ++ [r] : List Resource) + taken : Multiset Resource) = old + released + taken := by
  have perm : (new ++ (released ++ [r])).Perm (r :: (new ++ released)) := by
    rw [← List.append_assoc]
    exact List.perm_append_singleton r (new ++ released)
  rw [had,Multiset.coe_add,Multiset.coe_add,Multiset.coe_eq_coe.mpr perm,List.cons_append]

theorem Inv.iput {old pc : Pc n} (inv : Inv s) (place : s.pc p = old)
    (resources : old.resources = .inode ip :: pc.resources) (goes : Goes (s.ofile p) old pc) :
    Inv ((s.iput ip).goto p pc) := by
  have same (pi : Nat) (writable : Bool) :
      .pipeEnd pi writable ∈ (s.iput ip).released ↔ .pipeEnd pi writable ∈ s.released := by simp [State.iput]
  refine inv.record place ⟨goes,given_back s.taken resources,?_,?_,rfl⟩
  · simp only [same]
    exact inv.opened
  · simp only [same]
    exact inv.freed

theorem Inv.pipeclose {old pc : Pc n} (inv : Inv s) (place : s.pc p = old)
    (resources : old.resources = .pipeEnd pi writable :: pc.resources) (goes : Goes (s.ofile p) old pc) :
    Inv ((s.pipeclose pi writable).goto p pc) := by
  obtain ⟨before,taken⟩ := inv.carried (p := p) (r := .pipeEnd pi writable) (by simp [place,resources])
  have inside : pi < s.pipes := by
    rw [count_taken] at taken
    by_contra outside
    simp [outside] at taken
  have opened : ∀ pj end', (s.pipeclose pi writable).isOpen pj end' = true ↔
      pj < s.pipes ∧ .pipeEnd pj end' ∉ (s.pipeclose pi writable).released := by
    intro pj end'
    have same := inv.opened pj end'
    by_cases this : pj = pi
    · subst pj
      by_cases whole : end' = writable
      · simp [State.pipeclose,whole]
      · simpa [State.pipeclose,whole] using same
    · simpa [State.pipeclose,this] using same
  refine inv.record place ⟨goes,given_back s.taken resources,opened,fun pj => ?_,rfl⟩
  have same := inv.freed pj
  by_cases this : pj = pi
  · subst pj
    have closed (end' : Bool) : (s.pipeclose pi writable).isOpen pi end' = false ↔
        .pipeEnd pi end' ∈ (s.pipeclose pi writable).released := by
      have := opened pi end'
      rw [← Bool.not_eq_true,this]
      simp [inside]
    -- One end was still there, so that the page was not freed before.
    have none : s.freed.count pi = 0 := by
      rw [same]
      cases writable <;> simp [before]
    have page : (s.pipeclose pi writable).freed = if (s.pipeclose pi writable).isOpen pi false = false ∧
      (s.pipeclose pi writable).isOpen pi true = false then s.freed ++ [pi] else s.freed := rfl
    rw [page]
    simp only [closed]
    split
    · simp [List.count_append,none]
    · exact none
  · have other (end' : Bool) : .pipeEnd pj end' ∈ (s.pipeclose pi writable).released ↔ .pipeEnd pj end' ∈ s.released := by
      simp [State.pipeclose,this]
    simp only [other]
    rw [← same]
    simp only [State.pipeclose]
    split
    · simp [List.count_append,Ne.symm this]
    · rfl

theorem Inv.put_step (inv : Inv s) (place : s.pc p = .put ip) (stepped : s.next p ok = some t) : Inv t := by
  rw [State.next,place] at stepped
  cases stepped
  exact inv.iput place rfl ⟨trivial,rfl,rfl,List.nil_subset _,rfl,nofun⟩

theorem Inv.drop_step {ff : File} {after : After} (inv : Inv s) (place : s.pc p = .drop ff after)
    (stepped : s.next p ok = some t) : Inv t := by
  rw [State.next,place,Option.some.injEq,State.dropFile] at stepped
  have goes : Goes (s.ofile p) (.drop ff after) after.pc :=
    { fits := Pc.Fits.rest (inv.fits_at place), hidden := after.hidden_pc, files := after.files_pc,
      fresh := by simp, child := after.child_pc, active := nofun }
  have resources : (Pc.drop ff after : Pc n).resources = ff.resources ++ (after.pc : Pc n).resources := by
    rw [After.resources_pc]
    rfl
  cases type : ff.type with
  | none =>
    simp only [type] at stepped
    refine stepped ▸ inv.goto place
      { uses := fun g => by rw [goes.hidden,goes.files], fits := goes.fits, fresh := goes.fresh,
        child := by simp, resources := ?_, active := nofun }
    simp [resources,File.resources,type]
  | pipe =>
    simp only [type] at stepped
    exact stepped ▸ inv.pipeclose place (by simp [resources,File.resources,type]) goes
  | inode | device =>
    simp only [type] at stepped
    exact stepped ▸ inv.iput place (by simp [resources,File.resources,type]) goes

theorem taken_anew (new released : List Resource) {taken taken' : Multiset Resource} (more : taken' = new + taken) :
    (new + released + taken : Multiset Resource) = ([] : List Resource) + released + taken' := by
  rw [more,Multiset.coe_nil,zero_add,add_assoc,add_left_comm]

theorem Inv.pipePage_step (inv : Inv s) (place : s.pc p = .pipePage rf wf) (stepped : s.next p ok = some t) :
    Inv t := by
  rw [State.next,place] at stepped
  cases ok with
  | false =>
    simp only [Bool.false_eq_true,if_false] at stepped
    cases stepped
    exact inv.goto place ⟨fun _ => rfl,trivial,rfl,List.nil_subset _,nofun,nofun⟩
  | true =>
    simp only [if_true,Option.some.injEq] at stepped
    have unused (end' : Bool) : .pipeEnd s.pipes end' ∉ s.released := by
      have balance := inv.count (.pipeEnd s.pipes end')
      rw [count_taken] at balance
      simp only [lt_irrefl,if_false] at balance
      exact List.count_eq_zero.mp (by omega)
    refine stepped ▸ inv.record place ⟨⟨trivial,rfl,rfl,List.Subset.refl _,rfl,nofun⟩,taken_anew _ _ ?_,
      fun pj end' => ?_,inv.freed,rfl⟩
    · simp only [State.taken,Pc.resources,Multiset.range_succ,Multiset.map_cons,← Multiset.cons_coe,Multiset.coe_nil,
        Multiset.cons_add,Multiset.add_cons,zero_add]
      exact Multiset.cons_swap ..
    · have same := inv.opened pj end'
      by_cases this : pj = s.pipes
      · simp [this,unused]
      · simp only [update_of_ne this,same]
        refine and_congr_left fun _ => ⟨fun inside => inside.trans (Nat.lt_succ_self _),fun inside => ?_⟩
        omega

theorem Inv.open_call (inv : Inv s) (place : s.pc p = .idle) :
    Inv ({ s with inodes := s.inodes + 1 }.goto p (.openAlloc s.inodes device writable)) := by
  refine inv.record place ⟨⟨trivial,rfl,rfl,List.Subset.refl _,rfl,nofun⟩,taken_anew _ _ ?_,inv.opened,inv.freed,rfl⟩
  simp [State.taken,Pc.resources,Multiset.range_succ]

end Xv6.Files
