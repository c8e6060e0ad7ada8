import Xv6.ProcsReap

/-! What is left in a slot that is not in use, and which pids the processes have. -/
namespace Xv6.Procs

open Function

variable {nproc p : Nat} {s t : State} {a : Action} {op : Op} {pc pc' : Pc} {w : Write} {e : Effect} {th : Thread}

/-- The fields that `allocproc` does not set. -/
structure Slot.Clear (slot : Slot) : Prop where
  killed : slot.killed = false
  chan : slot.chan = none
  xstate : slot.xstate = 0
  sz : slot.sz = 0
  parent : slot.parent = none
  ofile : ∀ fd, slot.ofile fd = none

namespace Pc

/-- `allocproc` has taken slot `np`, and `fork` has not filled it yet. -/
def empty : Pc → Option Nat
  | .allocTrapframe np | .allocPagetable np | .forkCopy np | .forkFree np => some np
  | _ => none

def victim : Pc → Option Int
  | .killAcquire pid _ | .killTest pid _ => some pid
  | _ => none

/-- The code that a place belongs to. -/
def around : Pc → Option Site
  | .site k | .setkilledAcquire k | .setkilledWrite k | .killedAcquire (.site k) | .killedRead (.site k) |
    .wakeAcquire _ _ (.site k) | .wakeTest _ _ (.site k) | .sleepAcquire (.spin _ _ k) | .sleepRelease (.spin _ _ k) |
    .sleepState (.spin _ _ k) | .sleepSched (.spin _ _ k) | .sleepBack (.spin _ _ k) | .sleepReacquire (.spin _ _ k) =>
    some k
  | _ => none

def Shut (fd : Nat) (pc : Pc) : Prop :=
  match pc.around with
  | some k => ∃ status n, k.closing = some (status,n) ∧ fd < n
  | none => pc.exits = true

end Pc

theorem Does.empty {np : Nat} (does : Does nproc s p a pc op pc' w) (empty : pc'.empty = some np) :
    (∃ pid x, w = .alloc np pid x) ∨
    pc.empty = some np ∧ (w = .none ∨ (∃ page, w = .trapframe np page) ∨ ∃ page, w = .pagetable np page) := by
  cases does <;> simp_all [Pc.empty]

theorem Does.victim {pid : Int} (does : Does nproc s p a pc op pc' w) (victim : pc'.victim = some pid) :
    pc.victim = some pid ∨ a.call = .kill pid := by
  cases does <;> simp_all [Pc.victim]

/-- `exit` closes one descriptor after the other. -/
theorem Does.shut {fd : Nat} (does : Does nproc s p a pc op pc' w) (shut : pc'.Shut fd) :
    pc.Shut fd ∧ (∀ f, w ≠ .file fd (some f)) ∨ w = .file fd none ∨ nofile ≤ fd := by
  cases does
  case close status n bound =>
    obtain ⟨_,_,same,below⟩ := shut
    simp only [Option.some.injEq,Prod.mk.injEq] at same
    obtain ⟨rfl,rfl⟩ := same
    obtain before | rfl := Nat.lt_or_eq_of_le (Nat.le_of_lt_succ below)
    · exact .inl ⟨⟨status,n,rfl,before⟩,by simp⟩
    · exact .inr (.inl rfl)
  case closed status n past =>
    by_cases before : fd < n
    · exact .inl ⟨⟨status,n,rfl,before⟩,by simp⟩
    · exact .inr (.inr (by omega))
  case wakeSelf chan j v _ | wakeAcquire chan j v _ _ | wakeTest chan j v => cases v <;> exact .inl ⟨shut,by simp⟩
  case sleepAcquire z | sleepRelease z | sleepState z | sleepSched z | sleepBack z =>
    cases z <;> exact .inl ⟨shut,by simp⟩
  case killedAcquire r => cases r <;> exact .inl ⟨shut,by simp⟩
  all_goals simp_all [Pc.Shut,Pc.around,Pc.exits,Pc.closing,Site.code]

structure Clean (s : State) : Prop where
  unused : ∀ j, (s.slot j).state = .unused →
    (s.slot j).Clear ∧ (s.slot j).pid = 0 ∧ (s.slot j).pagetable = 0 ∧ (s.slot j).trapframe = 0
  empty : ∀ q np, (s.thread q).pc.empty = some np → (s.slot np).Clear
  limit : ∀ j fd, nofile ≤ fd → (s.slot j).ofile fd = none
  shut : ∀ q fd, (s.slot q).state ≠ .unused ∧ (s.slot q).state ≠ .used → (s.thread q).pc.Shut fd →
    (s.slot q).ofile fd = none
  victims : ∀ q, (s.thread q).pc.victim ≠ some 0

theorem Pc.empty_child {pc : Pc} {np : Nat} (empty : pc.empty = some np) :
    (∃ level, 0 < level ∧ pc.child = some (np,level)) ∧ .proc np ∈ pc.locks p ∧ pc.back = false := by
  cases pc <;> simp_all [Pc.empty,Pc.child,Pc.locks,Pc.back]

theorem next_ofile {j : Nat} (other : w ≠ .copy j) :
    ((s.next p th w).slot j).ofile = (s.slot j).ofile ∨ j = p ∧ ∃ fd f, w = .file fd f := by
  obtain same | aimed := next_slot_cases s p th w j
  · exact .inl (congrArg Slot.ofile same)
  · rw [next_slot]
    cases w <;> cases aimed <;> simp only [State.write,wakeup_slot,State.setThread,State.set,update_self] <;>
      simp_all

theorem next_clear {j : Nat} (clear : (s.slot j).Clear) (ne : j ≠ p) (killed : w ≠ .kill j)
    (parent : ∀ r, w ≠ .parent j r)
    (copy : w ≠ .copy j) : ((s.next p th w).slot j).Clear := by
  obtain same | aimed := next_slot_cases s p th w j
  · rwa [same]
  · obtain ⟨killed',chan,xstate,sz,parent',ofile⟩ := clear
    rw [next_slot]
    cases w <;> cases aimed <;> simp only [State.write,wakeup_slot,State.setThread,State.set,update_self] <;>
      first
        | exact absurd rfl ne
        | exact absurd rfl killed
        | exact absurd rfl (parent _)
        | exact absurd rfl copy
        | exact ⟨killed',chan,xstate,sz,parent',ofile⟩
        | exact ⟨rfl,rfl,rfl,rfl,rfl,ofile⟩

theorem next_unused_same {j : Nat} (ok : w.Ok s) (ne : j ≠ p) (unused : (s.slot j).state = .unused)
    (after : ((s.next p th w).slot j).state = .unused) (killed : w ≠ .kill j) (parent : ∀ r, w ≠ .parent j r) :
    (s.next p th w).slot j = s.slot j := by
  obtain same | aimed := next_slot_cases s p th w j
  · exact same
  · rw [next_slot] at after ⊢
    cases w <;> cases aimed <;> simp_all [Write.Ok]

namespace Clean

theorem next_unused (clean : Clean s) (inv : Inv nproc s) (moved : Moved nproc s a p e t) {j : Nat}
    (unused : ((s.after p e).slot j).state = .unused) :
    ((s.after p e).slot j).Clear ∧ ((s.after p e).slot j).pid = 0 ∧
      ((s.after p e).slot j).pagetable = 0 ∧ ((s.after p e).slot j).trapframe = 0 := by
  by_cases before : (s.slot j).state = .unused
  · have owned := (inv.fine p).1 a.cpu (by simp [moved.mode,Mode.owner])
    have ne : j ≠ p := by
      rintro rfl
      exact owned.in_use.1 before
    have blank := clean.unused j before
    have killed : e.write ≠ .kill j := by
      intro write
      have origin := (moved.origin (by simp [write]) (by simp [write])).2
      rw [write] at origin
      refine clean.victims p ?_
      rw [show (s.thread p).pc = .killTest (s.slot j).pid j from origin,blank.2.1]
      rfl
    have parent (r : Nat) : e.write ≠ .parent j r := by
      intro write
      rcases moved.parent_origin write with ⟨_,⟨place,_⟩ | ⟨_,old,_⟩⟩
      · have build := inv.builds p j 2 (by simp [place,Pc.child])
        simp [(build.used (by decide)).1] at before
      · simp [blank.1.parent] at old
    rw [next_unused_same moved.ok ne before unused killed parent]
    exact blank
  · have files : ∀ fd, (s.slot j).ofile fd = none := by
      rcases Procs.next_unused e.thread moved.ok before unused with write | ⟨stored,write⟩
      · have origin := (moved.origin (by simp [write]) (by simp [write])).2
        rw [write] at origin
        exact (clean.empty p j (by simp [show (s.thread p).pc = .forkFree j from origin,Pc.empty])).ofile
      · -- the files of a zombie have been closed
        have ok := moved.ok
        rw [write] at ok
        have parked := (inv.fine j).2 ok.2
        rw [ok.1] at parked
        intro fd
        refine clean.shut j fd (by simp [ok.1]) ?_
        have rests := parked.2.1
        unfold Thread.Rests at rests
        split at rests
        · simp at rests
        · simp at rests
        · split at rests
          · simp at rests
          · simp at rests
          · rename_i place
            simp [place,Pc.Shut,Pc.around,Pc.exits]
          · rename_i place
            simp [place,Pc.Shut,Pc.around,Pc.exits]
          · exact rests.elim
        · exact rests.elim
    rw [next_slot]
    rcases Procs.next_unused e.thread moved.ok before unused with write | ⟨stored,write⟩
    · simp only [write,State.write,State.set,update_self]
      exact ⟨⟨rfl,rfl,rfl,rfl,rfl,files⟩,rfl,rfl,rfl⟩
    · simp only [write,State.write,State.set,update_self]
      exact ⟨⟨rfl,rfl,rfl,rfl,rfl,files⟩,rfl,rfl,rfl⟩

theorem next_empty (clean : Clean s) (inv : Inv nproc s) (moved : Moved nproc s a p e t) {q np : Nat}
    (empty : ((s.after p e).thread q).pc.empty = some np) :
    ((s.after p e).slot np).Clear := by
  have owned := ((inv.fine p).1 a.cpu (by simp [moved.mode,Mode.owner])).in_use
  obtain rfl | ne := eq_or_ne q p
  · rw [next_thread_self e.thread (moved.not_self inv)] at empty
    -- the slot that the process fills is not its own
    have apart {level : Nat} (child : (s.thread q).pc.child = some (np,level)) : np ≠ q := by
      have idle := (inv.builds q np level child).idle
      rintro rfl
      rcases idle with idle | idle
      · exact owned.1 idle
      · exact owned.2 idle
    rcases procEffect_place moved.effect with ⟨same,write,_⟩ | ⟨_,_,inner⟩
    · rw [same] at empty
      obtain ⟨⟨level,_,child⟩,_⟩ := Pc.empty_child (p := q) empty
      refine next_clear (clean.empty q np empty) (apart child) ?_ ?_ ?_
      all_goals rcases write with write | write <;> simp [write]
    · rcases inner.empty empty with ⟨pid,x,write⟩ | ⟨before,write⟩
      · have unused : (s.slot np).state = .unused := by
          have ok := moved.ok
          rwa [write] at ok
        refine next_clear (clean.unused np unused).1 ?_ (by simp [write]) (by simp [write]) (by simp [write])
        rintro rfl
        exact owned.1 unused
      · obtain ⟨⟨level,_,child⟩,_⟩ := Pc.empty_child (p := q) before
        refine next_clear (clean.empty q np before) (apart child) ?_ ?_ ?_
        all_goals rcases write with write | ⟨page,write⟩ | ⟨page,write⟩ <;> simp [write]
  · rcases next_thread_cases (s := s) (w := e.write) e.thread ne with same | same
    · rw [same] at empty
      have clear := clean.empty q np empty
      obtain ⟨⟨level,_,child⟩,lock,back⟩ := Pc.empty_child (p := q) empty
      have single (level' : Nat) (mine : (s.thread p).pc.child = some (np,level')) : False :=
        ne (inv.single q p np level level' child mine)
      refine next_clear clear ?_ (fun write => ?_) (fun r write => ?_) fun write => ?_
      · have idle := (inv.builds q np level child).idle
        rintro rfl
        rcases idle with idle | idle
        · exact owned.1 idle
        · exact owned.2 idle
      · -- kill has the lock of the slot
        have origin := (moved.origin (by simp [write]) (by simp [write])).2
        rw [write] at origin
        have place : (s.thread p).pc = .killTest (s.slot np).pid np := origin
        exact ne (inv.holds_one lock back (by simp [place,Pc.locks]) (by simp [place,Pc.back])).symm
      · rcases moved.parent_origin write with ⟨_,⟨place,_⟩ | ⟨_,old,_⟩⟩
        · exact single 2 (by simp [place,Pc.child])
        · simp [clear.parent] at old
      · have origin := (moved.origin (by simp [write]) (by simp [write])).2
        rw [write] at origin
        have place : (s.thread p).pc = .forkCopy np := origin
        exact single 2 (by simp [place,Pc.child])
    · simp [same,Pc.empty] at empty

theorem next_limit (clean : Clean s) (moved : Moved nproc s a p e t) {j fd : Nat} (outside : nofile ≤ fd) :
    ((s.after p e).slot j).ofile fd = none := by
  have before := clean.limit j fd outside
  by_cases copy : e.write = .copy j
  · rw [next_slot,copy]
    simpa [Nat.not_lt.mpr outside] using before
  · rcases next_ofile (s := s) (p := p) copy with same | ⟨rfl,i,f,write⟩
    · rw [same]
      exact before
    · have origin := (moved.origin (by simp [write]) (by simp [write])).2
      rw [write] at origin
      obtain ⟨_,_,bound,_⟩ := origin
      have ne : fd ≠ i := by omega
      rw [next_slot,write]
      simpa [ne] using before

theorem next_shut (clean : Clean s) (inv : Inv nproc s) (moved : Moved nproc s a p e t) {q fd : Nat}
    (used : ((s.after p e).slot q).state ≠ .unused ∧ ((s.after p e).slot q).state ≠ .used)
    (shut : ((s.after p e).thread q).pc.Shut fd) :
    ((s.after p e).slot q).ofile fd = none := by
  have owned := ((inv.fine p).1 a.cpu (by simp [moved.mode,Mode.owner])).in_use
  obtain rfl | ne := eq_or_ne q p
  · rw [next_thread_self e.thread (moved.not_self inv)] at shut
    have copy : e.write ≠ .copy q := by
      intro write
      have ok := moved.ok
      rw [write] at ok
      exact owned.2 ok
    rcases procEffect_place moved.effect with ⟨same,write,_⟩ | ⟨_,_,inner⟩
    · rw [same] at shut
      rcases next_ofile (s := s) (p := q) copy with kept | ⟨_,i,f,file⟩
      · rw [kept]
        exact clean.shut q fd owned shut
      · rcases write with write | write <;> simp [file] at write
    · rcases inner.shut shut with ⟨before,others⟩ | write | outside
      · have old := clean.shut q fd owned before
        rcases next_ofile (s := s) (p := q) copy with kept | ⟨_,i,f,write⟩
        · rw [kept]
          exact old
        · rw [next_slot,write]
          obtain rfl | other := eq_or_ne fd i
          · cases f with
            | none => simp
            | some f => exact absurd write (others f)
          · simpa [other] using old
      · rw [next_slot,write]
        simp
      · exact clean.next_limit moved outside
  · rcases next_thread_cases (s := s) (w := e.write) e.thread ne with same | same
    · rw [same] at shut
      rcases next_born used with before | write | self
      · have copy : e.write ≠ .copy q := by
          intro write
          have ok := moved.ok
          rw [write] at ok
          exact before.2 ok
        rcases next_ofile (s := s) (p := p) copy with kept | ⟨self,_⟩
        · rw [kept]
          exact clean.shut q fd before shut
        · exact absurd self ne
      · have ok := moved.ok
        rw [write] at ok
        simp [ok.2.1,Pc.Shut,Pc.around,Site.code] at shut
      · exact absurd self ne
    · simp [same,Pc.Shut,Pc.around,Site.code] at shut

theorem next_victims (clean : Clean s) (inv : Inv nproc s) (moved : Moved nproc s a p e t) (call : a.call ≠ .kill 0)
    (q : Nat) :
    ((s.after p e).thread q).pc.victim ≠ some 0 := by
  rcases moved.turn inv q with ⟨rfl,same,_⟩ | ⟨rfl,inner⟩ | ⟨ne,same⟩ | ⟨_,same⟩
  · rw [same]
    exact clean.victims q
  · intro victim
    rcases inner.victim victim with before | kill
    · exact clean.victims q before
    · exact call kill
  · rw [same]
    exact clean.victims q
  · simp [same,Pc.victim]

theorem step (clean : Clean s) (inv : Inv nproc s) (call : a.call ≠ .kill 0) (done : Procs.step nproc s a = some t) :
    Clean t := by
  rcases inv.step_cases done with ⟨p,e,moved⟩ | ⟨slot,_,_,_,scheduled,rfl⟩
  · obtain ⟨_,_,_,rfl⟩ := moved.next
    exact ⟨fun j => clean.next_unused inv moved,fun q np => clean.next_empty inv moved,
      fun j fd => clean.next_limit moved,fun q fd => clean.next_shut inv moved,clean.next_victims inv moved call⟩
  · have clear (j : Nat) (clear : (s.slot j).Clear) : (slot j).Clear := by
      rw [(scheduled j).rest]
      exact ⟨clear.killed,clear.chan,clear.xstate,clear.sz,clear.parent,clear.ofile⟩
    have ofile (j : Nat) : (slot j).ofile = (s.slot j).ofile := by rw [(scheduled j).rest]
    have rest (j : Nat) : (slot j).pid = (s.slot j).pid ∧ (slot j).pagetable = (s.slot j).pagetable ∧
        (slot j).trapframe = (s.slot j).trapframe := by
      rw [(scheduled j).rest]
      exact ⟨rfl,rfl,rfl⟩
    refine ⟨fun j unused => ?_,fun q np empty => clear np (clean.empty q np empty),fun j fd outside => ?_,
      fun q fd used shut => ?_,clean.victims⟩
    · have before : (s.slot j).state = .unused := by
        rcases (scheduled j).state with same | ⟨_,running⟩
        · exact same.symm.trans unused
        · exact absurd (running.symm.trans unused) (by simp)
      obtain ⟨blank,numbers⟩ := clean.unused j before
      refine ⟨clear j blank,?_⟩
      simp only [(rest j).1,(rest j).2.1,(rest j).2.2]
      exact numbers
    · simp only [ofile]
      exact clean.limit j fd outside
    · simp only [ofile]
      refine clean.shut q fd ?_ shut
      rcases (scheduled q).state with same | ⟨runnable,_⟩
      · exact same ▸ used
      · simp [runnable]

theorem start (sz pagetable trapframe : Nat) : Clean (init sz pagetable trapframe) := by
  have files (j fd : Nat) : ((init sz pagetable trapframe).slot j).ofile fd = none := by
    obtain rfl | ne := eq_or_ne j initproc
    · simp [init]
    · simp [init,ne]
  refine ⟨fun j unused => ?_,fun q np empty => ?_,fun j fd _ => files j fd,fun q fd _ _ => files q fd,fun q => ?_⟩
  · have ne : j ≠ initproc := by
      rintro rfl
      simp [init] at unused
    have blank : (init sz pagetable trapframe).slot j = Slot.blank := by simp [init,ne]
    rw [blank]
    exact ⟨⟨rfl,rfl,rfl,rfl,rfl,fun _ => rfl⟩,rfl,rfl,rfl⟩
  · simp [init,Pc.empty] at empty
  · simp [init,Pc.victim]

theorem kill_step (clean : Clean s) (inv : Inv nproc s) {q : Nat} {pid : Int} (mode : (s.cpu a.cpu).mode = .run q)
    (normal : (s.thread q).yielding = none) (victim : (s.thread q).pc.victim = some pid)
    (done : Procs.step nproc s a = some t) {j : Nat} (changed : t.slot j ≠ s.slot j) :
    (s.slot j).pid = pid ∧ (s.slot j).state ≠ .unused := by
  simp only [Procs.step,mode] at done
  obtain ⟨e,moved⟩ := inv.performed mode done
  obtain ⟨_,_,_,rfl⟩ := moved.next
  change (s.after q e).slot j ≠ s.slot j at changed
  rw [next_slot] at changed
  rcases procEffect_origin moved.effect with none | ⟨_,yielding⟩ | ⟨_,origin⟩
  · exact absurd (by rw [none]; rfl) changed
  · simp [normal] at yielding
  · have place : e.write = .none ∨ ∃ i, e.write = .kill i ∧ (s.thread q).pc = .killTest (s.slot i).pid i := by
      cases write : e.write with
      | none => exact .inl rfl
      | kill i =>
        rw [write] at origin
        exact .inr ⟨i,rfl,origin⟩
      | parent i r =>
        rw [write] at origin
        rcases origin with ⟨place,_⟩ | ⟨⟨status,place⟩,_⟩ <;> simp [place,Pc.victim] at victim
      | yield =>
        rw [write] at origin
        exact origin.elim
      | zombie status | alloc np number serial | copy np | free np | runnable np =>
        rw [write] at origin
        simp only [Write.Origin] at origin
        simp [origin,Pc.victim] at victim
      | leave | trapframe np page | pagetable np page =>
        rw [write] at origin
        simp [origin.1,Pc.victim] at victim
      | sleep chan | wake | setkilled | file fd f | image sz table | wakeup chan i | takePid | reap i stored =>
        rw [write] at origin
        obtain ⟨_,origin⟩ := origin
        simp_all [Pc.victim]
    rcases place with none | ⟨i,write,place⟩
    · exact absurd (by rw [none]; rfl) changed
    · have same : j = i := by
        by_contra other
        simp [write,other] at changed
      subst same
      have pid' : (s.slot j).pid = pid := by simpa [place,Pc.victim] using victim
      refine ⟨pid',fun unused => ?_⟩
      have zero := (clean.unused j unused).2.1
      exact clean.victims q (by rw [place,zero]; rfl)

end Clean

/-- If `kill` is not called with 0, an UNUSED slot has pid 0 and every other field clear, a slot that
`allocproc` returns has no mark of an earlier process, and `kill` changes the slot of a process in use
that has the pid and no other. A ZOMBIE is in use here: `kill` marks it and returns 0. -/
theorem unused_slots_clean {sz pagetable trapframe : Nat} {schedule : List Action}
    (calls : ∀ a ∈ schedule, a.call ≠ .kill 0)
    (ran : Runs.run (step nproc) (init sz pagetable trapframe) schedule = some s) :
    (∀ j, (s.slot j).state = .unused →
      (s.slot j).Clear ∧ (s.slot j).pid = 0 ∧ (s.slot j).pagetable = 0 ∧ (s.slot j).trapframe = 0) ∧
    (∀ q np, (s.thread q).pc = .forkCopy np → (s.slot np).Clear) ∧
    (∀ a t q j pid, (s.cpu a.cpu).mode = .run q → (s.thread q).yielding = none → (s.thread q).pc.victim = some pid →
      step nproc s a = some t → t.slot j ≠ s.slot j → (s.slot j).pid = pid ∧ (s.slot j).state ≠ .unused) := by
  have keeps (s : State) (a : Action) (t : State) (call : a.call ≠ .kill 0) (before : Inv nproc s ∧ Clean s)
      (done : step nproc s a = some t) : Inv nproc t ∧ Clean t :=
    ⟨before.1.step done,before.2.step before.1 call done⟩
  obtain ⟨inv,clean⟩ := Runs.run_invariant_actions _ keeps calls ⟨Inv.init ..,Clean.start ..⟩ ran
  refine ⟨clean.unused,fun q np place => clean.empty q np (by simp [place,Pc.empty]),fun a t q j pid => ?_⟩
  intro mode normal victim done changed
  exact clean.kill_step inv mode normal victim done changed

theorem unused_slots_clean_family : ∃ s, Runs.run (step 2) (init 4096 8192 12288) family = some s ∧
    (s.slot 1).state = .unused ∧ (s.slot 1).Clear ∧ (s.slot 1).pid = 0 := by
  refine Runs.reaches (fun s => (s.slot 1).state = .unused) (by decide +kernel) fun s ran unused => ?_
  obtain ⟨clear,zero,_⟩ := (unused_slots_clean (by decide +kernel) ran).1 1 unused
  exact ⟨unused,clear,zero⟩

/-- The first process calls `kill(0)`: the second slot is UNUSED and has pid 0. The process that
`fork` makes next is marked as killed from the start. -/
theorem kill_zero_marks_unused :
    (∃ s, Runs.run (step 2) (init 4096 8192 12288) (List.replicate 36 ⟨0,false,.kill 0,0,true⟩) = some s ∧
      (s.slot 1).state = .unused ∧ (s.slot 1).killed = true) ∧
    ∃ s, Runs.run (step 2) (init 4096 8192 12288)
        (List.replicate 36 ⟨0,false,.kill 0,0,true⟩ ++ List.replicate 10 ⟨0,false,.fork,4096,true⟩) = some s ∧
      (s.thread 0).pc = .forkCopy 1 ∧ (s.slot 1).killed = true :=
  ⟨Runs.ends (by decide +kernel),Runs.ends (by decide +kernel)⟩

/-! Pids. -/

theorem int32_small {n : Nat} (small : n < 2 ^ 31) : int32 n = n := by
  unfold int32
  omega

/-- While `allocpid` has been called fewer than 2 ^ 31 times, all pids are positive and no two
processes have the same. -/
theorem pids_identify {sz pagetable trapframe : Nat} {schedule : List Action}
    (ran : Runs.run (step nproc) (init sz pagetable trapframe) schedule = some s) (few : s.count ≤ 2 ^ 31) :
    (∀ j, (s.slot j).state ≠ .unused → 0 < (s.slot j).pid) ∧
    ∀ i j, (s.slot i).state ≠ .unused → (s.slot j).state ≠ .unused → (s.slot i).pid = (s.slot j).pid → i = j := by
  have ledger := (run_sound ran).ledger
  have pid {j : Nat} (used : (s.slot j).state ≠ .unused) : (s.slot j).pid = (s.slot j).serial := by
    have below := (ledger.below j used).2
    rw [ledger.pids j used,int32_small (by omega)]
  constructor
  · intro j used
    rw [pid used]
    exact_mod_cast (ledger.below j used).1
  · intro i j used used' same
    rw [pid used,pid used'] at same
    exact ledger.distinct i j used used' (by exact_mod_cast same)

theorem pids_identify_family : ∃ s, Runs.run (step 2) (init 4096 8192 12288) (family.take 81) = some s ∧
    s.count ≤ 2 ^ 31 ∧ (s.slot 1).state ≠ .unused ∧ 0 < (s.slot 1).pid := by
  exact Runs.reaches (fun s => s.count ≤ 2 ^ 31 ∧ (s.slot 1).state ≠ .unused) (by decide +kernel) fun s ran ⟨few,used⟩ =>
    ⟨few,used,(pids_identify ran few).1 1 used⟩

/-- The first process is the only one, and `allocpid` has been called `n - 1` times. -/
structure Alone (s : State) (n : Nat) : Prop where
  mode : (s.cpu 0).mode = .run 0
  thread : s.thread 0 = ⟨.site .code,none⟩
  locks : s.lock (.proc 0) = none ∧ s.lock (.proc 1) = none ∧ s.lock .pid = none ∧ s.lock .wait = none
  first : (s.slot 0).state = .running
  second : (s.slot 1).state = .unused
  number : s.count = n ∧ s.nextpid = int32 n

structure Filling (s : State) (n : Nat) : Prop where
  mode : (s.cpu 0).mode = .run 0
  thread : s.thread 0 = ⟨.allocTrapframe 1,none⟩
  locks : s.lock (.proc 0) = none ∧ s.lock (.proc 1) = some 0 ∧ s.lock .pid = none ∧ s.lock .wait = none
  first : (s.slot 0).state = .running
  second : (s.slot 1).state = .used ∧ (s.slot 1).pid = int32 n
  number : s.count = n + 1 ∧ s.nextpid = int32 (n + 1)

theorem Alone.takes {n : Nat} (alone : Alone s n) (page : Nat) :
    ∃ t, Runs.run (step 2) s (List.replicate 8 ⟨0,false,.fork,page,true⟩) = some t ∧ Filling t n := by
  obtain ⟨mode,thread,⟨free0,free1,freePid,freeWait⟩,first,second,count,nextpid⟩ := alone
  have ran : ∃ slot lock noff, Runs.run (step 2) s (List.replicate 8 ⟨0,false,.fork,page,true⟩) = some { s with
      slot := update s.slot 1 slot
      thread := update s.thread 0 ⟨.allocTrapframe 1,none⟩
      lock := lock
      noff := noff
      nextpid := int32 (s.nextpid + 1)
      count := s.count + 1 } ∧ (slot.state = .used ∧ slot.pid = int32 n) ∧
      lock (.proc 0) = none ∧ lock (.proc 1) = some 0 ∧ lock .pid = none ∧ lock .wait = none := by
    simp [List.replicate,Runs.run,step,mode,procEffect,thread,pcEffect,siteEffect,perform,State.operate,State.acquire,
      State.release,free0,free1,freePid,first,second,Option.map,Option.bind]
    exact ⟨_,rfl,⟨rfl,nextpid⟩,freeWait⟩
  obtain ⟨slot,lock,noff,ran,used,locks⟩ := ran
  refine ⟨_,ran,mode,by simp,locks,by simpa using first,by simpa using used,by simp [count],?_⟩
  simp only [nextpid,int32_succ]

theorem Filling.fails {n : Nat} (filling : Filling s n) :
    ∃ t, Runs.run (step 2) s (List.replicate 2 ⟨0,false,.fork,0,true⟩) = some t ∧ Alone t (n + 1) := by
  obtain ⟨mode,thread,⟨free0,held1,freePid,freeWait⟩,first,_,count,nextpid⟩ := filling
  have ran : Runs.run (step 2) s (List.replicate 2 ⟨0,false,.fork,0,true⟩) = some { s with
      slot := update s.slot 1 (s.slot 1).freed
      thread := update s.thread 0 ⟨.site .code,none⟩
      lock := update s.lock (.proc 1) none
      noff := update s.noff 0 (s.noff 0 - 1) } := by
    simp [List.replicate,Runs.run,step,mode,procEffect,thread,pcEffect,perform,State.operate,State.release,held1]
  refine ⟨_,ran,mode,by simp,by simp [free0,freePid,freeWait],by simpa using first,by simp,count,?_⟩
  rw [nextpid]
  norm_cast

theorem Filling.succeeds {n : Nat} (filling : Filling s n) :
    ∃ t, Runs.run (step 2) s (List.replicate 8 ⟨0,false,.fork,4096,true⟩) = some t ∧
      (t.slot 1).state = .runnable ∧ (t.slot 1).pid = int32 n := by
  obtain ⟨mode,thread,⟨_,held1,_,freeWait⟩,_,second,_⟩ := filling
  simp [List.replicate,Runs.run,step,mode,procEffect,thread,pcEffect,perform,State.operate,State.acquire,
    State.release,held1,freeWait,second,Option.map,Option.bind]

theorem Alone.forks_fail {n : Nat} (alone : Alone s n) (k : Nat) :
    ∃ t, Runs.run (step 2) s (List.replicate (k * 10) ⟨0,false,.fork,0,true⟩) = some t ∧ Alone t (n + k) := by
  induction k with
  | zero => exact ⟨s,by simp [Runs.run],alone⟩
  | succ k ih =>
    obtain ⟨t,ran,alone'⟩ := ih
    obtain ⟨u,takes,filling⟩ := alone'.takes 0
    obtain ⟨v,fails,alone''⟩ := filling.fails
    refine ⟨v,?_,alone''⟩
    rw [show (k + 1) * 10 = k * 10 + (8 + 2) by omega,List.replicate_add,List.replicate_add,Runs.run_append,ran,
      Option.bind_some,Runs.run_append,takes]
    exact fails

/-- After 2 ^ 31 - 1 pids the next process has a negative one. -/
theorem pid_overflows : ∃ schedule s, Runs.run (step 2) (init 4096 8192 12288) schedule = some s ∧
    (s.slot 1).state = .runnable ∧ (s.slot 1).pid = -2147483648 := by
  obtain ⟨s,ran,mode,thread,locks,first,second,number⟩ : ∃ s, Runs.run (step 2) (init 4096 8192 12288)
      (List.replicate 31 ⟨0,false,.fork,0,true⟩) = some s ∧ (s.cpu 0).mode = .run 0 ∧ s.thread 0 = ⟨.site .code,none⟩ ∧
      (s.lock (.proc 0) = none ∧ s.lock (.proc 1) = none ∧ s.lock .pid = none ∧ s.lock .wait = none) ∧
      (s.slot 0).state = .running ∧ (s.slot 1).state = .unused ∧ s.count = 2 ∧ s.nextpid = int32 2 :=
    Runs.ends (by decide +kernel)
  have alone : Alone s 2 := ⟨mode,thread,locks,first,second,number⟩
  obtain ⟨k,many⟩ : ∃ k, 2 + k = 2 ^ 31 := ⟨2 ^ 31 - 2,by decide⟩
  obtain ⟨t,fails,alone'⟩ := alone.forks_fail k
  obtain ⟨u,takes,filling⟩ := alone'.takes 4096
  obtain ⟨v,succeeds,state,pid⟩ := filling.succeeds
  refine ⟨List.replicate 31 ⟨0,false,.fork,0,true⟩ ++ (List.replicate (k * 10) ⟨0,false,.fork,0,true⟩ ++
    (List.replicate 8 ⟨0,false,.fork,4096,true⟩ ++ List.replicate 8 ⟨0,false,.fork,4096,true⟩)),v,?_,state,?_⟩
  · rw [Runs.run_append,ran,Option.bind_some,Runs.run_append,fails,Option.bind_some,Runs.run_append,takes]
    exact succeeds
  · rw [pid,many]
    decide

end Xv6.Procs
