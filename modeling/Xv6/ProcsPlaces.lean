import Xv6.ProcsLocks

/-! Which process a CPU runs, and where a process is while no CPU runs it. -/
namespace Xv6.Procs

variable {nproc p : Nat} {s t : State} {a : Action} {op : Op} {pc pc' : Pc} {w : Write} {e : Effect}

/-! The process of a CPU. -/

namespace Mode

@[simp] def proc : Mode → Option Nat
  | .saveSched p _ | .load p _ | .run p | .save p _ | .loadSched p _ | .clear p => some p
  | _ => none

/-- The process that the CPU runs, or is switching to or from. -/
def owner : Mode → Option Nat
  | .saveSched p _ | .load p _ | .run p | .save p _ | .loadSched p _ => some p
  | _ => none

def locks (thread : Nat → Thread) : Mode → Multiset Lock
  | .scan _ => 0
  | .run p => (thread p).locks p
  | .test j | .saveSched j _ | .load j _ | .save j _ | .loadSched j _ | .clear j | .release j => {.proc j}

end Mode

def State.locks (s : State) (c : Nat) : Multiset Lock := (s.cpu c).mode.locks s.thread

namespace Pc

def sched : Pc → Bool
  | .sleepSched _ | .exitSched => true
  | _ => false

def back : Pc → Bool
  | .sleepBack _ | .exitGone => true
  | _ => false

/-- The slot that `fork` fills, and how far it is: it has been found, it is in use, it has a page
table and a context, it has a parent. -/
def child : Pc → Option (Nat × Nat)
  | .pidAcquire np | .pidTake np | .allocSet np _ _ => some (np,0)
  | .allocTrapframe np | .allocPagetable np | .forkFree np => some (np,1)
  | .forkCopy np | .forkRelease np | .forkWait np | .forkParent np => some (np,2)
  | .forkAcquire np | .forkRunnable np => some (np,3)
  | _ => none

end Pc

namespace Thread

/-- About to switch to the scheduler. -/
def Leaving (th : Thread) : Prop := th.yielding = some .sched ∨ th.yielding = none ∧ th.pc.sched = true

/-- Switched out, or just switched in. -/
def Off (th : Thread) : Prop := th.yielding = some .back ∨ th.yielding = none ∧ th.pc.back = true

/-- The states of a process that is switched out at this place. -/
def Rests (th : Thread) (state : PState) : Prop :=
  match th.yielding with
  | some .sched | some .back => state = .runnable
  | none =>
    match th.pc with
    | .sleepSched _ | .sleepBack _ => state = .sleeping ∨ state = .runnable
    | .exitSched | .exitGone => state = .zombie
    | _ => False
  | _ => False

/-- The last place of an earlier process in a slot. -/
def Stale (th : Thread) : Prop := th.pc = .site .code ∨ th.pc = .exitGone

end Thread

/-- What the mode of its CPU says of a process. -/
def Owned (state : PState) (context : Nat) (th : Thread) : Mode → Prop
  | .saveSched .. | .load .. => state = .running ∧ th.Off ∧ context = nregs
  | .run _ => (state = .running ∧ ¬th.Leaving ∨ th.Leaving ∧ th.Rests state) ∧ context = 0
  | .save _ n => th.Off ∧ th.Rests state ∧ context = n ∧ n < nregs
  | .loadSched .. => th.Off ∧ th.Rests state ∧ context = nregs
  | _ => False

/-- A process that no CPU runs. -/
def Parked (state : PState) (context : Nat) (th : Thread) : Prop :=
  th.Off ∧ match state with
    | .unused | .used => th.Stale
    | .running => False
    | state => th.Rests state ∧ context = nregs

def Fine (s : State) (q : Nat) : Prop :=
  (∀ c, (s.cpu c).mode.owner = some q → Owned (s.slot q).state (s.slot q).context (s.thread q) (s.cpu c).mode) ∧
  ((∀ c, (s.cpu c).mode.owner ≠ some q) → Parked (s.slot q).state (s.slot q).context (s.thread q))

/-- Process `q` is in `fork` and has got this far with slot `np`. -/
structure Building (nproc : Nat) (s : State) (q np level : Nat) : Prop where
  bound : np < nproc
  found : level = 0 → (s.slot np).state = .unused
  used : 0 < level → (s.slot np).state = .used ∧ (s.slot np).creator = (s.slot q).serial
  ready : 1 < level → s.thread np = .forkret ∧ (s.slot np).context = nregs
  parent : 2 < level → (s.slot np).parent = some q

structure Inv (nproc : Nat) (s : State) : Prop where
  held : Held s.lock s.noff s.locks
  proc : ∀ c, (s.cpu c).proc = (s.cpu c).mode.proc
  unique : ∀ c c' p, (s.cpu c).mode.owner = some p → (s.cpu c').mode.owner = some p → c = c'
  fine : ∀ q, Fine s q
  interrupted : ∀ q, (s.thread q).yielding ≠ none → (s.thread q).pc.locks q = 0
  off : ∀ q, (s.thread q).Off → (s.thread q).locks q = {.proc q}
  scans : ∀ q j, (s.thread q).pc = .allocTest j → j < nproc
  builds : ∀ q np level, (s.thread q).pc.child = some (np,level) → Building nproc s q np level
  single : ∀ q q' np level level', (s.thread q).pc.child = some (np,level) →
    (s.thread q').pc.child = some (np,level') → q = q'

/-! What a step does to the place of a process. -/

@[simp] def Write.rest : Write → Option PState
  | .yield => some .runnable
  | .sleep _ => some .sleeping
  | .zombie _ => some .zombie
  | _ => Option.none

/-- A process calls `sched`, or it changes its state and is about to, or neither. -/
theorem Does.rest (does : Does nproc s p a pc op pc' w) :
    op = .sched ∧ pc.sched = true ∧ pc'.back = true ∧ w = .none ∧
      (∀ state, Thread.Rests ⟨pc,none⟩ state → Thread.Rests ⟨pc',none⟩ state) ∨
    op ≠ .sched ∧ pc.sched = false ∧ pc'.back = false ∧
      (∀ state, w.rest = some state → pc'.sched = true ∧ Thread.Rests ⟨pc',none⟩ state) ∧
      (w.rest = none → pc'.sched = false) := by
  cases does <;> simp [Pc.sched,Pc.back,Thread.Rests]

theorem Pc.sched_locks {pc : Pc} (place : pc.sched = true) : .proc p ∈ pc.locks p := by
  cases pc <;> simp_all [Pc.sched,Pc.locks]

theorem Pc.back_locks {pc : Pc} (place : pc.back = true) : .proc p ∈ pc.locks p := by
  cases pc <;> simp_all [Pc.back,Pc.locks]

theorem Thread.Leaving.lock {th : Thread} (leaving : th.Leaving) : .proc p ∈ th.locks p := by
  obtain yielding | ⟨normal,place⟩ := leaving
  · simp [Thread.locks,yielding]
  · simpa [Thread.locks,normal] using Pc.sched_locks place

theorem procEffect_rest (noff : s.noff a.cpu = ((s.thread p).locks p).card)
    (interrupted : (s.thread p).yielding ≠ none → (s.thread p).pc.locks p = 0)
    (effect : procEffect nproc s p a = some e) :
    e.op = .sched ∧ (s.thread p).Leaving ∧ e.thread.Off ∧ e.write = .none ∧
      (∀ state, (s.thread p).Rests state → e.thread.Rests state) ∨
    e.op ≠ .sched ∧ ¬(s.thread p).Leaving ∧ ¬e.thread.Off ∧
      (∀ state, e.write.rest = some state → e.thread.Leaving ∧ e.thread.Rests state) ∧
      (e.write.rest = none → ¬e.thread.Leaving) := by
  cases procEffect_takes effect with
  | yield stage yielding =>
    have place : (s.thread p).pc.sched = false := by
      by_contra place
      have lock := Pc.sched_locks (p := p) (Bool.not_eq_false _ ▸ place)
      simp [interrupted (by simp [yielding])] at lock
    have back : (s.thread p).pc.back = false := by
      by_contra back
      have lock := Pc.back_locks (p := p) (Bool.not_eq_false _ ▸ back)
      simp [interrupted (by simp [yielding])] at lock
    cases stage <;> simp [yieldEffect,Thread.Leaving,Thread.Off,Thread.Rests,yielding,place,back]
  | interrupt normal idle =>
    have stays : ¬(s.thread p).Leaving := by
      intro leaving
      rw [idle,eq_comm,Multiset.card_eq_zero] at noff
      simpa [noff] using leaving.lock (p := p)
    exact .inr ⟨by simp,stays,by simp [Thread.Off],by simp,by simp [Thread.Leaving]⟩
  | place op pc w normal does =>
    have same : s.thread p = ⟨(s.thread p).pc,none⟩ := by rw [← normal]
    obtain ⟨sched,place,back,none,rests⟩ | ⟨stays,place,back,resting,going⟩ := does.rest
    · refine .inl ⟨sched,.inr ⟨normal,place⟩,.inr ⟨rfl,back⟩,none,?_⟩
      rwa [same]
    · refine .inr ⟨stays,?_,?_,fun state isRest => ?_,fun none => ?_⟩
      · simp [Thread.Leaving,normal,place]
      · simp [Thread.Off,back]
      · obtain ⟨leaving,rests⟩ := resting state isRest
        exact ⟨.inr ⟨rfl,leaving⟩,rests⟩
      · simp [Thread.Leaving,going none]

/-- What a step that writes to another slot knows of it. -/
def Write.Ok (s : State) : Write → Prop
  | .alloc np _ _ => (s.slot np).state = .unused
  | .trapframe np _ | .pagetable np _ | .copy np | .free np => (s.slot np).state = .used
  | .runnable np => (s.slot np).state = .used ∧ s.thread np = .forkret ∧ (s.slot np).context = nregs
  | .reap j _ => (s.slot j).state = .zombie ∧ ∀ c, (s.cpu c).mode.owner ≠ some j
  | _ => True

def State.next (s : State) (p : Nat) (th : Thread) (w : Write) : State := (s.setThread p th).write p w

abbrev State.after (s : State) (p : Nat) (e : Effect) : State := s.next p e.thread e.write

theorem wakeup_slot (slot : Slot) (chan : Option Chan) :
    (if slot.state = .sleeping ∧ slot.chan = chan then { slot with state := .runnable } else slot) =
      { slot with state := if slot.state = .sleeping ∧ slot.chan = chan then .runnable else slot.state } := by
  split <;> rfl

theorem next_slot (th : Thread) : (s.next p th w).slot = (s.write p w).slot := by cases w <;> rfl

/-- The slot that an assignment of process `p` is to. -/
@[simp] def Write.aim (p : Nat) : Write → Option Nat
  | .none | .leave | .takePid => Option.none
  | .yield | .sleep _ | .wake | .setkilled | .file .. | .image .. | .zombie _ => some p
  | .wakeup _ j | .kill j | .alloc j _ _ | .trapframe j _ | .pagetable j _ | .copy j | .free j | .parent j _ |
    .runnable j | .reap j _ => some j

theorem next_slot_same (th : Thread) {j : Nat} (other : w.aim p ≠ some j) : (s.next p th w).slot j = s.slot j := by
  rw [next_slot]
  cases w with
  | none | leave | takePid => rfl
  | _ =>
    refine Function.update_of_ne (fun same => ?_) _ _
    exact other (congrArg some same.symm)

theorem next_slot_cases (s : State) (p : Nat) (th : Thread) (w : Write) (j : Nat) :
    (s.next p th w).slot j = s.slot j ∨ w.aim p = some j :=
  or_iff_not_imp_right.mpr (next_slot_same th)

theorem next_cpu (th : Thread) : (s.next p th w).cpu = s.cpu := by cases w <;> rfl

theorem next_thread_self (th : Thread) (other : ∀ page, w ≠ .pagetable p page) : (s.next p th w).thread p = th := by
  cases w with
  | pagetable np page =>
    have ne : p ≠ np := fun same => other page (same ▸ rfl)
    simp [State.next,ne]
  | _ => simp [State.next]

theorem next_thread_other (th : Thread) {q : Nat} (ne : q ≠ p) (other : ∀ page, w ≠ .pagetable q page) :
    (s.next p th w).thread q = s.thread q := by
  cases w with
  | pagetable np page =>
    have ne' : q ≠ np := fun same => other page (same ▸ rfl)
    simp [State.next,ne,ne']
  | _ => simp [State.next,ne]

namespace Thread.Rests

variable {th : Thread} {state : PState}

theorem not_running (rests : th.Rests state) : state ≠ .running ∧ state ≠ .unused ∧ state ≠ .used := by
  unfold Thread.Rests at rests
  split at rests
  · simp [rests]
  · simp [rests]
  · split at rests
    · obtain rfl | rfl := rests <;> simp
    · obtain rfl | rfl := rests <;> simp
    · simp [rests]
    · simp [rests]
    · exact rests.elim
  · exact rests.elim

theorem woken (rests : th.Rests .sleeping) : th.Rests .runnable := by
  unfold Thread.Rests at *
  split at rests
  · simp at rests
  · simp at rests
  · split at rests <;> simp_all
  · exact rests.elim

theorem zombie (rests : th.Rests .zombie) (off : th.Off) : th.Stale := by
  unfold Thread.Rests at rests
  split at rests
  · simp at rests
  · simp at rests
  · rename_i normal
    split at rests
    · simp at rests
    · simp at rests
    · rename_i place
      simp [Thread.Off,normal,place,Pc.back] at off
    · rename_i place
      exact .inr place
    · exact rests.elim
  · exact rests.elim

end Thread.Rests

theorem Owned.in_use {state : PState} {context : Nat} {th : Thread} {mode : Mode} (owned : Owned state context th mode) :
    state ≠ .unused ∧ state ≠ .used := by
  unfold Owned at owned
  split at owned
  · simp [owned.1]
  · simp [owned.1]
  · obtain ⟨rfl,_⟩ | ⟨_,rests⟩ := owned.1
    · simp
    · exact rests.not_running.2
  · exact owned.2.1.not_running.2
  · exact owned.2.1.not_running.2
  · exact owned.elim

theorem Owned.woken {context : Nat} {th : Thread} {mode : Mode} (owned : Owned .sleeping context th mode) :
    Owned .runnable context th mode := by
  unfold Owned at *
  split at owned
  · simp at owned
  · simp at owned
  · obtain ⟨sleeping,_⟩ | ⟨leaving,rests⟩ := owned.1
    · simp at sleeping
    · exact ⟨.inr ⟨leaving,rests.woken⟩,owned.2⟩
  · exact ⟨owned.1,owned.2.1.woken,owned.2.2⟩
  · exact ⟨owned.1,owned.2.1.woken,owned.2.2⟩
  · exact owned.elim

namespace Fine

variable {q : Nat}

theorem congr (fine : Fine s q) (cpu : t.cpu = s.cpu) (state : (t.slot q).state = (s.slot q).state)
    (context : (t.slot q).context = (s.slot q).context) (thread : t.thread q = s.thread q) : Fine t q := by
  unfold Fine
  rw [cpu,state,context,thread]
  exact fine

theorem unowned (fine : Fine s q) (idle : (s.slot q).state = .unused ∨ (s.slot q).state = .used) (c : Nat) :
    (s.cpu c).mode.owner ≠ some q := by
  intro owner
  have := (fine.1 c owner).in_use
  obtain idle | idle := idle <;> simp [idle] at this

theorem park (unowned : ∀ c, (s.cpu c).mode.owner ≠ some q) (cpu : t.cpu = s.cpu)
    (parked : Parked (t.slot q).state (t.slot q).context (t.thread q)) : Fine t q := by
  refine ⟨fun c owner => absurd ?_ (unowned c),fun _ => parked⟩
  rwa [cpu] at owner

theorem woken (fine : Fine s q) (cpu : t.cpu = s.cpu) (sleeping : (s.slot q).state = .sleeping)
    (state : (t.slot q).state = .runnable) (context : (t.slot q).context = (s.slot q).context)
    (thread : t.thread q = s.thread q) : Fine t q := by
  unfold Fine at *
  rw [cpu,state,context,thread]
  rw [sleeping] at fine
  exact ⟨fun c owner => (fine.1 c owner).woken,
    fun unowned => ⟨(fine.2 unowned).1,(fine.2 unowned).2.1.woken,(fine.2 unowned).2.2⟩⟩

end Fine

namespace Inv

variable {c q : Nat}

theorem locks_run (mode : (s.cpu c).mode = .run p) : s.locks c = (s.thread p).locks p := by
  simp [State.locks,mode,Mode.locks]

/-- A process that is not RUNNING is at a CPU only while that CPU has its lock. -/
theorem lock_of_owner (inv : Inv nproc s) (owner : (s.cpu c).mode.owner = some q) (idle : (s.slot q).state ≠ .running) :
    s.lock (.proc q) = some c := by
  rw [inv.held.holder]
  have owned := (inv.fine q).1 c owner
  cases mode : (s.cpu c).mode with
  | saveSched p n | load p n =>
    rw [mode] at owned
    exact absurd owned.1 idle
  | run p =>
    obtain rfl : p = q := by simpa [mode,Mode.owner] using owner
    rw [mode] at owned
    obtain ⟨running,_⟩ | ⟨leaving,_⟩ := owned.1
    · exact absurd running idle
    · rw [locks_run mode]
      exact leaving.lock
  | save p n | loadSched p n =>
    obtain rfl : p = q := by simpa [mode,Mode.owner] using owner
    simp [State.locks,mode,Mode.locks]
  | scan j | test j | clear j | release j => simp [mode,Mode.owner] at owner

theorem on_cpu (inv : Inv nproc s) (on : ¬(s.thread q).Off) : ∃ c, (s.cpu c).mode = .run q := by
  by_contra none
  refine on ((inv.fine q).2 fun c owner => ?_).1
  have owned := (inv.fine q).1 c owner
  cases mode : (s.cpu c).mode with
  | saveSched p n | load p n =>
    rw [mode] at owned
    exact on owned.2.1
  | run p =>
    obtain rfl : p = q := by simpa [mode,Mode.owner] using owner
    exact none ⟨c,mode⟩
  | save p n | loadSched p n =>
    rw [mode] at owned
    exact on owned.1
  | scan j | test j | clear j | release j => simp [mode,Mode.owner] at owner

theorem running (inv : Inv nproc s) (mode : (s.cpu c).mode = .run q) (stays : ¬(s.thread q).Leaving) :
    (s.slot q).state = .running := by
  have owned := (inv.fine q).1 c (by simp [mode,Mode.owner])
  rw [mode] at owned
  obtain ⟨running,_⟩ | ⟨leaving,_⟩ := owned.1
  · exact running
  · exact absurd leaving stays

/-- A process at a place that holds a lock and is not the end of `sched` runs on a CPU that holds
the lock. -/
theorem holds (inv : Inv nproc s) {l : Lock} (lock : l ∈ (s.thread q).pc.locks q) (back : (s.thread q).pc.back = false) :
    (s.thread q).yielding = none ∧ ∃ c, (s.cpu c).mode = .run q ∧ s.lock l = some c := by
  have normal : (s.thread q).yielding = none := by
    by_contra yielding
    simp [inv.interrupted q yielding] at lock
  obtain ⟨c,mode⟩ := inv.on_cpu (q := q) (by simp [Thread.Off,normal,back])
  refine ⟨normal,c,mode,(inv.held.holder l c).mpr ?_⟩
  simpa [locks_run mode,Thread.locks,normal] using lock

theorem holds_one (inv : Inv nproc s) {l : Lock} (lock : l ∈ (s.thread q).pc.locks q)
    (back : (s.thread q).pc.back = false)
    (lock' : l ∈ (s.thread p).pc.locks p) (back' : (s.thread p).pc.back = false) : p = q := by
  obtain ⟨_,c,mode,holder⟩ := inv.holds lock back
  obtain ⟨_,c',mode',holder'⟩ := inv.holds lock' back'
  obtain rfl : c = c' := by simpa [holder] using holder'
  simpa [mode] using mode'.symm

end Inv

theorem Pc.child_back {pc : Pc} {np level : Nat} (child : pc.child = some (np,level)) : pc.back = false := by
  cases pc <;> simp_all [Pc.child,Pc.back]

theorem Pc.child_sched {pc : Pc} {np level : Nat} (child : pc.child = some (np,level)) : pc.sched = false := by
  cases pc <;> simp_all [Pc.child,Pc.sched]

/-- Until the slot is in use `fork` has its lock. -/
theorem Pc.child_lock {pc : Pc} {np : Nat} (child : pc.child = some (np,0)) : .proc np ∈ pc.locks p := by
  cases pc <;> simp_all [Pc.child,Pc.locks]

namespace Inv

variable {c : Nat}

theorem zombie_unowned (inv : Inv nproc s) {j : Nat} (mode : (s.cpu c).mode = .run p) (stays : ¬(s.thread p).Leaving)
    (lock : s.lock (.proc j) = some c) (zombie : (s.slot j).state = .zombie) (d : Nat) :
    (s.cpu d).mode.owner ≠ some j := by
  intro owner
  have holder := inv.lock_of_owner owner (by simp [zombie])
  obtain rfl : c = d := by simpa [lock] using holder
  obtain rfl : p = j := by simpa [mode,Mode.owner] using owner
  simp [inv.running mode stays] at zombie

theorem does_ok (inv : Inv nproc s) (mode : (s.cpu c).mode = .run p) (normal : (s.thread p).yielding = none)
    (does : Does nproc s p a (s.thread p).pc op pc' w) : w.Ok s := by
  have builds := inv.builds p
  generalize place : (s.thread p).pc = pc at does builds
  cases does
  case reap addr j zombie _ =>
    have stays : ¬(s.thread p).Leaving := by simp [Thread.Leaving,normal,place,Pc.sched]
    have lock : s.lock (.proc j) = some c := by
      rw [inv.held.holder,locks_run mode]
      simp [Thread.locks,normal,place,Pc.locks]
    exact ⟨zombie,inv.zombie_unowned mode stays lock zombie⟩
  case allocSet np pid serial => exact (builds np 0 rfl).found rfl
  case forkRunnable np =>
    have build := builds np 3 rfl
    exact ⟨(build.used (by decide)).1,build.ready (by decide)⟩
  case trapframe np _ | pagetable np _ | forkFree np => exact ((builds np 1 rfl).used (by decide)).1
  case copy np => exact ((builds np 2 rfl).used (by decide)).1
  all_goals trivial

theorem procEffect_ok (inv : Inv nproc s) (mode : (s.cpu c).mode = .run p) (effect : procEffect nproc s p a = some e) :
    e.write.Ok s := by
  cases procEffect_takes effect with
  | yield stage yielding => cases stage <;> trivial
  | interrupt normal idle => trivial
  | place op pc w normal does => exact inv.does_ok mode normal does

theorem child_in_use (inv : Inv nproc s) {q np level : Nat} (child : (s.thread q).pc.child = some (np,level)) :
    (s.slot q).state ≠ .unused ∧ (s.slot q).state ≠ .used := by
  by_contra idle
  have idle : (s.slot q).state = .unused ∨ (s.slot q).state = .used := by
    cases state : (s.slot q).state <;> simp_all
  have parked := ((inv.fine q).2 ((inv.fine q).unowned idle)).2
  have stale : (s.thread q).Stale := by obtain idle | idle := idle <;> simpa [idle] using parked
  obtain place | place := stale <;> simp [place,Pc.child] at child

end Inv

end Xv6.Procs
