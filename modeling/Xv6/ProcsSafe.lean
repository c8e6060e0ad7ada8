import Xv6.ProcsPlaces

/-! The steps of the processes and of the scheduler keep every process at one CPU at most. -/
namespace Xv6.Procs

open Function (update update_self update_of_ne update_apply)

variable {nproc p : Nat} {s t : State} {a : Action} {op : Op} {pc pc' : Pc} {w : Write} {e : Effect}

/-! A step of a process. -/

theorem next_slot_self (th : Thread) (ok : w.Ok s) (running : (s.slot p).state = .running) :
    ((s.next p th w).slot p).state = w.rest.getD .running ∧
    ((s.next p th w).slot p).context = (s.slot p).context := by
  have idle (j : Nat) (state : PState) (inState : (s.slot j).state = state) (ne : state ≠ .running) : p ≠ j := by
    rintro rfl
    exact ne (inState.symm.trans running)
  cases w with
  | none | yield | sleep chan | wake | setkilled | file fd f | image sz pagetable | leave | zombie status | takePid =>
    simp [State.next,running]
  | wakeup chan j | kill j | parent j r =>
    obtain rfl | ne := eq_or_ne p j
    · simp [State.next,running]
    · simp [State.next,running,ne]
  | alloc j pid serial | trapframe j page | pagetable j page | copy j | free j =>
    have ne := idle j _ ok (by simp)
    simp [State.next,running,ne]
  | runnable j | reap j stored =>
    have ne := idle j _ ok.1 (by simp)
    simp [State.next,running,ne]

namespace Inv

variable {c : Nat}

theorem fine_next_other (inv : Inv nproc s) (ok : w.Ok s) (th : Thread) {q : Nat} (ne : q ≠ p) :
    Fine (s.next p th w) q := by
  have fine := inv.fine q
  have cpu := next_cpu (s := s) (p := p) (w := w) th
  by_cases aimed : w.aim p = some q
  · cases w with
    | none | yield | sleep chan | wake | setkilled | file fd f | image sz pagetable | leave | zombie status | takePid =>
      simp [ne.symm] at aimed
    | wakeup chan j =>
      cases aimed
      by_cases sleeps : (s.slot q).state = .sleeping ∧ (s.slot q).chan = chan
      · exact fine.woken cpu sleeps.1 (by simp [State.next,sleeps]) (by simp [State.next,sleeps])
          (by simp [State.next,ne])
      · exact fine.congr cpu (by simp [State.next,sleeps]) (by simp [State.next,sleeps]) (by simp [State.next,ne])
    | kill j =>
      cases aimed
      by_cases sleeps : (s.slot q).state = .sleeping
      · exact fine.woken cpu sleeps (by simp [State.next,sleeps]) (by simp [State.next]) (by simp [State.next,ne])
      · exact fine.congr cpu (by simp [State.next,sleeps]) (by simp [State.next]) (by simp [State.next,ne])
    | parent j r | trapframe j page | copy j =>
      cases aimed
      exact fine.congr cpu (by simp [State.next]) (by simp [State.next]) (by simp [State.next,ne])
    | alloc j pid serial =>
      cases aimed
      have unowned := fine.unowned (.inl ok)
      have parked := fine.2 unowned
      rw [show (s.slot q).state = .unused from ok] at parked
      exact Fine.park unowned cpu (by simpa [State.next,ne,Parked] using parked)
    | pagetable j page =>
      cases aimed
      refine Fine.park (fine.unowned (.inr ok)) cpu ?_
      rw [show ((s.next p th (.pagetable q page)).slot q).state = .used by
        simpa [State.next,Write.Ok] using ok]
      simp [State.next,Parked,Thread.Off,Thread.Stale]
    | free j =>
      cases aimed
      have unowned := fine.unowned (.inr ok)
      have parked := fine.2 unowned
      rw [show (s.slot q).state = .used from ok] at parked
      refine Fine.park unowned cpu ?_
      simpa [State.next,ne,Parked] using parked
    | runnable j =>
      cases aimed
      refine Fine.park (fine.unowned (.inr ok.1)) cpu ?_
      simp [State.next,ne,ok.2.1,ok.2.2,Parked,Thread.Off, Thread.Rests]
    | reap j stored =>
      cases aimed
      obtain ⟨zombie,unowned⟩ := ok
      have parked := fine.2 unowned
      rw [zombie] at parked
      have stale := parked.2.1.zombie parked.1
      refine Fine.park unowned cpu ?_
      simpa [State.next,ne] using ⟨parked.1,stale⟩
  · have slot := next_slot_same (s := s) th aimed
    have thread := next_thread_other (s := s) (w := w) th ne (fun page same => aimed (by simp [same]))
    exact fine.congr cpu (by rw [slot]) (by rw [slot]) thread

theorem fine_next (inv : Inv nproc s) (mode : (s.cpu c).mode = .run p) (ok : w.Ok s) (th : Thread)
    (stays : ¬(s.thread p).Leaving) (rest : ∀ state, w.rest = some state → th.Leaving ∧ th.Rests state)
    (goes : w.rest = none → ¬th.Leaving) (q : Nat) : Fine (s.next p th w) q := by
  obtain rfl | ne := eq_or_ne q p
  · have running := inv.running mode stays
    have cpu := next_cpu (s := s) (p := q) (w := w) th
    have self : ∀ page, w ≠ .pagetable q page := by
      rintro page rfl
      simp [Write.Ok,running] at ok
    refine ⟨fun d owner => ?_,fun unowned => absurd (by simp [cpu,mode,Mode.owner]) (unowned c)⟩
    rw [cpu] at owner
    obtain rfl := inv.unique c d q (by simp [mode,Mode.owner]) owner
    have context := (inv.fine q).1 c owner
    rw [mode] at context
    obtain ⟨state,kept⟩ := next_slot_self th ok running
    rw [cpu,next_thread_self th self,mode,state,kept]
    refine ⟨?_,context.2⟩
    cases isRest : w.rest with
    | none => exact .inl ⟨rfl,goes isRest⟩
    | some state => exact .inr (rest state isRest)
  · exact inv.fine_next_other ok th ne

end Inv

/-- Only `fork` fills a slot, and only `exit` and `fork` set a parent. -/
def Write.From (s : State) (p : Nat) : Write → Prop
  | .alloc np _ _ | .trapframe np _ | .pagetable np _ | .copy np | .free np | .runnable np =>
    ∃ level, (s.thread p).pc.child = some (np,level)
  | .parent np _ => (∃ level, (s.thread p).pc.child = some (np,level)) ∨ (s.slot np).parent = some p
  | _ => True

theorem procEffect_from (effect : procEffect nproc s p a = some e) : e.write.From s p := by
  cases procEffect_takes effect with
  | yield stage yielding => cases stage <;> trivial
  | interrupt normal idle => trivial
  | place op pc w normal does =>
    generalize place : (s.thread p).pc = old at does
    cases does <;> simp_all [Write.From,Pc.child]

theorem next_serial (th : Thread) (ok : w.Ok s) {q : Nat} (used : (s.slot q).state ≠ .unused) :
    ((s.next p th w).slot q).serial = (s.slot q).serial := by
  obtain same | aimed := next_slot_cases s p th w q
  · rw [same]
  · rw [next_slot]
    cases w <;> cases aimed <;> simp only [State.write,wakeup_slot,State.setThread,State.set,update_self] <;>
      simp_all [Write.Ok]

namespace Building

variable {q np level : Nat}

theorem congr (build : Building nproc s q np level) (serial : (t.slot q).serial = (s.slot q).serial)
    (state : (t.slot np).state = (s.slot np).state) (creator : (t.slot np).creator = (s.slot np).creator)
    (context : (t.slot np).context = (s.slot np).context)
    (parent : 2 < level → (t.slot np).parent = (s.slot np).parent) (thread : t.thread np = s.thread np) :
    Building nproc t q np level := by
  refine ⟨build.bound,?_,?_,?_,fun last => (parent last).trans (build.parent last)⟩
  · rw [state]
    exact build.found
  · rw [state,creator,serial]
    exact build.used
  · rw [context,thread]
    exact build.ready

theorem idle (build : Building nproc s q np level) : (s.slot np).state = .unused ∨ (s.slot np).state = .used := by
  cases level with
  | zero => exact .inl (build.found rfl)
  | succ level => exact .inr (build.used (by omega)).1

theorem apart (build : Building nproc s q np level) (running : (s.slot p).state = .running) : np ≠ p := by
  have idle := build.idle
  rintro rfl
  simp [running] at idle

end Building

namespace Inv

variable {c : Nat}

theorem builds_other (inv : Inv nproc s) (ok : w.Ok s) (mine : w.From s p) (running : (s.slot p).state = .running)
    (th : Thread) {q np level : Nat} (ne : q ≠ p) (child : (s.thread q).pc.child = some (np,level)) :
    Building nproc (s.next p th w) q np level := by
  have build := inv.builds q np level child
  have apart := build.apart running
  have theirs : ∀ level', (s.thread p).pc.child ≠ some (np,level') := by
    intro level' same
    exact ne (inv.single _ _ _ _ _ child same)
  have serial := next_serial (p := p) th ok (inv.child_in_use child).1
  have thread : (s.next p th w).thread np = s.thread np := by
    refine next_thread_other th apart ?_
    rintro page rfl
    obtain ⟨level',same⟩ := mine
    exact theirs level' same
  by_cases aimed : w.aim p = some np
  · cases w with
    | none | yield | sleep chan | wake | setkilled | file fd f | image sz pagetable | leave | zombie status | takePid =>
      simp [apart.symm] at aimed
    | alloc j pid serial | trapframe j page | pagetable j page | copy j | free j | runnable j =>
      cases aimed
      obtain ⟨level',same⟩ := mine
      exact absurd same (theirs level')
    | parent j r =>
      cases aimed
      obtain ⟨level',same⟩ | parent := mine
      · exact absurd same (theirs level')
      · have early : ¬2 < level := by
          intro last
          exact ne (by simpa [build.parent last] using parent)
        refine build.congr serial ?_ ?_ ?_ (fun last => absurd last early) thread
        all_goals simp [State.next]
    | reap j stored =>
      cases aimed
      have idle := build.idle
      simp [ok.1] at idle
    | wakeup chan j | kill j =>
      cases aimed
      have awake : (s.slot np).state ≠ .sleeping := by
        intro sleeps
        have idle := build.idle
        simp [sleeps] at idle
      refine build.congr serial ?_ ?_ ?_ (fun _ => ?_) thread
      all_goals simp [State.next,awake]
  · have slot := next_slot_same (s := s) th aimed
    exact build.congr serial (by rw [slot]) (by rw [slot]) (by rw [slot]) (fun _ => by rw [slot]) thread

end Inv

theorem Does.child {np level : Nat} (does : Does nproc s p a pc op pc' w) (child : pc'.child = some (np,level)) :
    pc = .allocTest np ∧ level = 0 ∧ w = .none ∧ (s.slot np).state = .unused ∨
    (∃ earlier, pc.child = some (np,earlier) ∧
      (level = earlier ∧ (w = .none ∨ w = .takePid ∨ (∃ page, w = .trapframe np page) ∨ w = .copy np) ∨
        level = 1 ∧ (∃ pid serial, w = .alloc np pid serial) ∨
        level = 1 ∧ w = .none ∧ earlier = 2 ∨
        level = 2 ∧ (∃ page, w = .pagetable np page) ∧ earlier = 1 ∨
        level = 3 ∧ w = .parent np p ∧ earlier = 2)) := by
  cases does
  case allocFound j found =>
    obtain ⟨rfl,rfl⟩ : j = np ∧ 0 = level := by simpa [Pc.child] using child
    exact .inl ⟨rfl,rfl,rfl,found⟩
  all_goals simp [Pc.child] at child
  all_goals simp [Pc.child,child]

namespace Inv

variable {c : Nat}

theorem builds_self (inv : Inv nproc s) (mode : (s.cpu c).mode = .run p) (normal : (s.thread p).yielding = none)
    (does : Does nproc s p a (s.thread p).pc op pc' w) {np level : Nat} (child : pc'.child = some (np,level)) :
      Building nproc (s.next p ⟨pc',none⟩ w) p np level := by
  have running (stays : (s.thread p).pc.sched = false) : (s.slot p).state = .running :=
    inv.running mode (by simp [Thread.Leaving,normal,stays])
  obtain ⟨place,rfl,rfl,found⟩ | ⟨earlier,before,progress⟩ := does.child child
  · exact ⟨inv.scans p np place,fun _ => found,by omega,by omega,by omega⟩
  have build := inv.builds p np earlier before
  have apart := build.apart (running (Pc.child_sched before))
  obtain ⟨rfl,rfl | rfl | ⟨page,rfl⟩ | rfl⟩ | ⟨rfl,pid,serial,rfl⟩ | ⟨rfl,rfl,rfl⟩ | ⟨rfl,⟨page,rfl⟩,rfl⟩ |
    ⟨rfl,rfl,rfl⟩ :=
    progress
  · refine build.congr rfl rfl rfl rfl (fun _ => rfl) ?_
    simp [State.next,apart]
  · refine build.congr rfl rfl rfl rfl (fun _ => rfl) ?_
    simp [State.next,apart]
  · refine build.congr ?_ ?_ ?_ ?_ (fun _ => ?_) ?_
    all_goals simp [State.next,apart,apart.symm]
  · refine build.congr ?_ ?_ ?_ ?_ (fun _ => ?_) ?_
    all_goals simp [State.next,apart,apart.symm]
  · refine ⟨build.bound,by omega,fun _ => ?_,by omega,by omega⟩
    simp [State.next,apart.symm]
  · exact ⟨build.bound,by omega,fun _ => build.used (by omega),by omega,by omega⟩
  · refine ⟨build.bound,by omega,fun _ => ?_,fun _ => ?_,by omega⟩
    · simpa [State.next,apart.symm] using build.used (by omega)
    · simp [State.next]
  · refine ⟨build.bound,by omega,fun _ => ?_,fun _ => ?_,fun _ => ?_⟩
    · simpa [State.next,apart.symm] using build.used (by omega)
    · simpa [State.next,apart] using build.ready (by omega)
    · simp [State.next]

/-- No other process has the slot that `allocproc` finds: its lock is held, and a slot without it
is in use. -/
theorem single_found (inv : Inv nproc s) {np q level : Nat} (place : (s.thread p).pc = .allocTest np)
    (found : (s.slot np).state = .unused) (child : (s.thread q).pc.child = some (np,level)) : q = p := by
  have build := inv.builds q np level child
  obtain rfl : level = 0 := by
    by_contra later
    simp [(build.used (by omega)).1] at found
  exact inv.holds_one (by simp [place,Pc.locks]) (by simp [place,Pc.back]) (Pc.child_lock child) (Pc.child_back child)

end Inv

/-- The place after a step: an interrupt or `yield` keep it, and a slot is looked at only in the
table. -/
theorem procEffect_place (effect : procEffect nproc s p a = some e) :
    e.thread.pc = (s.thread p).pc ∧ (e.write = .none ∨ e.write = .yield) ∧
      ((s.thread p).yielding = none → s.noff a.cpu = 0) ∨
    (s.thread p).yielding = none ∧ e.thread.yielding = none ∧
      Does nproc s p a (s.thread p).pc e.op e.thread.pc e.write := by
  cases procEffect_takes effect with
  | yield stage yielding => cases stage <;> simp [yieldEffect,yielding]
  | interrupt normal idle => exact .inl ⟨rfl,.inl rfl,fun _ => idle⟩
  | place op pc w normal does => exact .inr ⟨normal,rfl,does⟩

theorem Does.scans {j : Nat} (does : Does nproc s p a pc op (.allocTest j) w) : j < nproc := by
  cases does
  assumption

namespace Inv

variable {c : Nat}

theorem locks_next (inv : Inv nproc s) (mode : (s.cpu c).mode = .run p) (ok : w.Ok s) (th : Thread)
    (running : (s.slot p).state = .running) :
    (s.next p th w).locks = update s.locks c (th.locks p) := by
  have cpu := next_cpu (s := s) (p := p) (w := w) th
  funext d
  obtain rfl | other := eq_or_ne d c
  · have self : ∀ page, w ≠ .pagetable p page := by
      rintro page rfl
      simp [Write.Ok,running] at ok
    simp [State.locks,cpu,mode,Mode.locks,next_thread_self th self]
  · rw [update_of_ne other]
    cases there : (s.cpu d).mode with
    | run q =>
      have ne : q ≠ p := by
        rintro rfl
        exact other (inv.unique d c q (by simp [there,Mode.owner]) (by simp [mode,Mode.owner]))
      have apart : ∀ page, w ≠ .pagetable q page := by
        rintro page rfl
        exact (inv.fine q).unowned (.inr ok) d (by simp [there,Mode.owner])
      simp [State.locks,cpu,there,Mode.locks,next_thread_other th ne apart]
    | _ => simp [State.locks,cpu,there,Mode.locks]

end Inv

/-- A step gives another process a place only when it makes it. -/
theorem next_thread_cases (th : Thread) {q : Nat} (ne : q ≠ p) :
    (s.next p th w).thread q = s.thread q ∨ (s.next p th w).thread q = .forkret := by
  by_cases made : ∃ page, w = .pagetable q page
  · obtain ⟨page,rfl⟩ := made
    simp [State.next]
  · exact .inl (next_thread_other th ne fun page same => made ⟨page,same⟩)

namespace Inv

theorem next (inv : Inv nproc s) (mode : (s.cpu a.cpu).mode = .run p) (effect : procEffect nproc s p a = some e)
    (stays : e.op ≠ .sched) {lock : Lock → Option Nat} {noff : Nat → Nat}
    (held : Held lock noff (update s.locks a.cpu (e.thread.locks p))) :
    Inv nproc { s.after p e with lock := lock, noff := noff } := by
  have counted : s.noff a.cpu = ((s.thread p).locks p).card := by rw [inv.held.noff,locks_run mode]
  obtain ⟨sched,_⟩ | ⟨_,before,on,rest,goes⟩ := procEffect_rest counted (inv.interrupted p) effect
  · exact absurd sched stays
  have ok := inv.procEffect_ok mode effect
  have mine := procEffect_from effect
  have running := inv.running mode before
  have self : ∀ page, e.write ≠ .pagetable p page := by
    intro page same
    rw [same] at ok
    simp [Write.Ok,running] at ok
  have thread := next_thread_self (s := s) e.thread self
  have cpu := next_cpu (s := s) (p := p) (w := e.write) e.thread
  -- a process in fork is the one that makes the step, or was there before
  have others {q np level : Nat} (ne : q ≠ p) (child : ((s.after p e).thread q).pc.child = some (np,level)) :
      (s.thread q).pc.child = some (np,level) := by
    obtain same | same := next_thread_cases (s := s) (w := e.write) e.thread ne
    · rwa [same] at child
    · simp [same,Pc.child] at child
  have only {q np level level' : Nat} (ne : q ≠ p) (child : e.thread.pc.child = some (np,level)) :
      (s.thread q).pc.child ≠ some (np,level') := by
    intro child'
    obtain ⟨same,_⟩ | ⟨_,_,inner⟩ := procEffect_place effect
    · rw [same] at child
      exact ne (inv.single _ _ _ _ _ child' child)
    · obtain ⟨place,_,_,found⟩ | ⟨earlier,before,_⟩ := inner.child child
      · exact ne (inv.single_found place found child')
      · exact ne (inv.single _ _ _ _ _ child' before)
  refine ⟨?_,?_,?_,?_,?_,?_,?_,?_,?_⟩
  · have locks := inv.locks_next mode ok e.thread running
    exact locks ▸ held
  · simpa [cpu] using inv.proc
  · simpa [cpu] using inv.unique
  · exact inv.fine_next mode ok e.thread before rest goes
  · intro q yielding
    obtain rfl | ne := eq_or_ne q p
    · change ((s.after q e).thread q).pc.locks q = 0
      change ((s.after q e).thread q).yielding ≠ none at yielding
      rw [thread] at yielding ⊢
      obtain ⟨same,_,quiet⟩ | ⟨_,normal,_⟩ := procEffect_place effect
      · rw [same]
        by_cases normal : (s.thread q).yielding = none
        · rw [quiet normal,eq_comm,Multiset.card_eq_zero] at counted
          simpa [Thread.locks,normal] using counted
        · exact inv.interrupted q normal
      · exact absurd normal yielding
    · obtain same | same := next_thread_cases (s := s) (w := e.write) e.thread ne
      · exact same ▸ inv.interrupted q (same ▸ yielding)
      · exact same ▸ Site.code_locks
  · intro q off
    change ((s.after p e).thread q).Off at off
    change ((s.after p e).thread q).locks q = _
    obtain rfl | ne := eq_or_ne q p
    · rw [thread] at off
      exact absurd off on
    · obtain same | same := next_thread_cases (s := s) (w := e.write) e.thread ne
      · exact same ▸ inv.off q (same ▸ off)
      · rw [same]
        rfl
  · intro q j place
    change ((s.after p e).thread q).pc = _ at place
    obtain rfl | ne := eq_or_ne q p
    · rw [thread] at place
      obtain ⟨same,_⟩ | ⟨_,_,inner⟩ := procEffect_place effect
      · exact inv.scans q j (same ▸ place)
      · exact (place ▸ inner).scans
    · obtain same | same := next_thread_cases (s := s) (w := e.write) e.thread ne
      · exact inv.scans q j (same ▸ place)
      · simp [same] at place
  · intro q np level child
    change ((s.after p e).thread q).pc.child = _ at child
    suffices build : Building nproc (s.after p e) q np level from build.congr rfl rfl rfl rfl (fun _ => rfl) rfl
    obtain rfl | ne := eq_or_ne q p
    · rw [thread] at child
      obtain ⟨same,write,_⟩ | ⟨normal,after,inner⟩ := procEffect_place effect
      · have build := inv.builds q np level (same ▸ child)
        have apart := build.apart running
        refine build.congr ?_ ?_ ?_ ?_ (fun _ => ?_) ?_
        all_goals
          obtain write | write := write <;> simp [write,State.next,apart]
      · have build := inv.builds_self mode normal inner child
        rwa [← after] at build
    · exact inv.builds_other ok mine running e.thread ne (others ne child)
  · intro q q' np level level' child child'
    change ((s.after p e).thread q).pc.child = _ at child
    change ((s.after p e).thread q').pc.child = _ at child'
    obtain rfl | ne := eq_or_ne q p
    · by_contra ne'
      rw [thread] at child
      exact only (Ne.symm ne') child (others (Ne.symm ne') child')
    · obtain rfl | ne' := eq_or_ne q' p
      · rw [thread] at child'
        exact absurd (others ne child) (only ne child')
      · exact inv.single _ _ _ _ _ (others ne child) (others ne' child')

end Inv

/-! A step of the scheduler. -/

/-- A CPU in this mode has the process, or it has none and the process is switched out. -/
def Mode.Has (mode : Mode) (j : Nat) (slot : Slot) (th : Thread) : Prop :=
  mode.owner = some j ∧ Owned slot.state slot.context th mode ∨ mode.owner = none ∧ Parked slot.state slot.context th

namespace Inv

variable {c : Nat} {k : Cpu}

theorem locks_setCpu (k : Cpu) : (s.setCpu c k).locks = update s.locks c (k.mode.locks s.thread) := by
  funext d
  obtain rfl | other := eq_or_ne d c
  · simp [State.locks]
  · simp [State.locks,other]

theorem setCpu (inv : Inv nproc s) (mode : k.mode.owner = (s.cpu c).mode.owner) (proc : k.proc = k.mode.proc)
    {lock : Lock → Option Nat} {noff : Nat → Nat}
    (held : Held lock noff (update s.locks c (k.mode.locks s.thread)))
    (owned : ∀ q, k.mode.owner = some q → Owned (s.slot q).state (s.slot q).context (s.thread q) k.mode) :
    Inv nproc { s.setCpu c k with lock := lock, noff := noff } := by
  have owner (d : Nat) : ((s.setCpu c k).cpu d).mode.owner = (s.cpu d).mode.owner := by
    obtain rfl | other := eq_or_ne d c
    · simpa using mode
    · simp [other]
  refine ⟨locks_setCpu k ▸ held,fun d => ?_,fun d d' p here there => ?_,
    fun q => ⟨fun d here => ?_,fun unowned => ?_⟩,inv.interrupted,inv.off,inv.scans,fun q np level child => ?_,inv.single⟩
  · obtain rfl | other := eq_or_ne d c
    · simpa using proc
    · simpa [other] using inv.proc d
  · exact inv.unique d d' p ((owner d).symm.trans here) ((owner d').symm.trans there)
  · have before := (owner d).symm.trans here
    obtain rfl | other := eq_or_ne d c
    · have := owned q (by rwa [mode])
      simpa using this
    · have := (inv.fine q).1 d before
      simpa [other] using this
  · exact (inv.fine q).2 fun d here => unowned d ((owner d).trans here)
  · exact (inv.builds q np level child).congr rfl rfl rfl rfl (fun _ => rfl) rfl

/-- A CPU takes a process that no CPU has, goes on with the one it has, or leaves it. -/
theorem switch (inv : Inv nproc s) {j : Nat} {slot : Slot} {th : Thread}
    (used : (s.slot j).state ≠ .unused ∧ (s.slot j).state ≠ .used) (serial : slot.serial = (s.slot j).serial)
    (place : th.pc = (s.thread j).pc ∨ th.pc.back = true) (interrupted : th.yielding ≠ none → th.pc.locks j = 0)
    (off : th.Off → th.locks j = {.proc j})
    (alone : ∀ d, d ≠ c → (s.cpu d).mode.owner ≠ some j) (before : ∀ q, (s.cpu c).mode.owner = some q → q = j)
    (after : k.mode.Has j slot th)
    (proc : k.proc = k.mode.proc) {lock : Lock → Option Nat} {noff : Nat → Nat}
    (held : Held lock noff (update s.locks c (k.mode.locks (update s.thread j th)))) :
    Inv nproc { ((s.set j fun _ => slot).setThread j th).setCpu c k with lock := lock, noff := noff } := by
  have theirs {d : Nat} (other : d ≠ c) : (s.cpu d).mode.locks (update s.thread j th) = s.locks d := by
    cases mode : (s.cpu d).mode with
    | run q =>
      have ne : q ≠ j := by
        rintro rfl
        exact alone d other (by simp [mode,Mode.owner])
      simp [State.locks,mode,Mode.locks,ne]
    | _ => simp [State.locks,mode,Mode.locks]
  have child {q np level : Nat} (new : ((update s.thread j th) q).pc.child = some (np,level)) :
      (s.thread q).pc.child = some (np,level) := by
    obtain rfl | ne := eq_or_ne q j
    · rw [update_self] at new
      obtain same | back := place
      · rwa [← same]
      · simp [Pc.child_back new] at back
    · rwa [update_of_ne ne] at new
  refine ⟨?_,fun d => ?_,fun d d' p here there => ?_,fun q => ?_,fun q yielding => ?_,fun q away => ?_,fun q i scan => ?_,
    fun q np level new => ?_,fun q q' np level level' new new' => inv.single _ _ _ _ _ (child new) (child new')⟩
  · convert held using 1
    funext d
    obtain rfl | other := eq_or_ne d c
    · simp [State.locks]
    · simpa [State.locks,other] using theirs other
  · obtain rfl | other := eq_or_ne d c
    · simpa using proc
    · simpa [other] using inv.proc d
  · have mine {d : Nat} (owner : ((update s.cpu c k) d).mode.owner = some p) :
        p = j ∧ d = c ∨ p ≠ j ∧ d ≠ c ∧ (s.cpu d).mode.owner = some p := by
      obtain rfl | other := eq_or_ne d c
      · rw [update_self] at owner
        obtain ⟨same,_⟩ | ⟨none,_⟩ := after
        · exact .inl ⟨Option.some.inj (owner.symm.trans same),rfl⟩
        · simp [none] at owner
      · rw [update_of_ne other] at owner
        refine .inr ⟨?_,other,owner⟩
        rintro rfl
        exact alone d other owner
    obtain ⟨rfl,rfl⟩ | ⟨ne,_,owner⟩ := mine here <;> obtain ⟨same,rfl⟩ | ⟨ne',_,owner'⟩ := mine there
    · rfl
    · exact absurd rfl ne'
    · exact absurd same ne
    · exact inv.unique d d' p owner owner'
  · obtain rfl | ne := eq_or_ne q j
    · refine ⟨fun d owner => ?_,fun unowned => ?_⟩
      · obtain rfl | other := eq_or_ne d c
        · simp only [State.setCpu,update_self] at owner ⊢
          obtain ⟨_,owned⟩ | ⟨none,_⟩ := after
          · simpa using owned
          · simp [none] at owner
        · simp only [State.setCpu,State.setThread,State.set,update_of_ne other] at owner
          exact absurd owner (alone d other)
      · obtain ⟨owner,_⟩ | ⟨_,parked⟩ := after
        · exact absurd (by simpa using owner) (unowned c)
        · simpa using parked
    · have fine := inv.fine q
      refine ⟨fun d owner => ?_,fun unowned => ?_⟩
      · obtain rfl | other := eq_or_ne d c
        · simp only [State.setCpu,update_self] at owner
          obtain ⟨same,_⟩ | ⟨none,_⟩ := after
          · exact absurd (Option.some.inj (owner.symm.trans same)) ne
          · simp [none] at owner
        · simp only [State.setCpu,State.setThread,State.set,update_of_ne other] at owner
          simpa [other,ne] using fine.1 d owner
      · have parked := fine.2 fun d owner => by
          obtain rfl | other := eq_or_ne d c
          · exact ne (before q owner)
          · exact unowned d (by simpa [other] using owner)
        simpa [ne] using parked
  · obtain rfl | ne := eq_or_ne q j
    · simp only [State.setCpu,State.setThread,update_self] at yielding ⊢
      exact interrupted yielding
    · simp only [State.setCpu,State.setThread,State.set,update_of_ne ne] at yielding ⊢
      exact inv.interrupted q yielding
  · obtain rfl | ne := eq_or_ne q j
    · simp only [State.setCpu,State.setThread,update_self] at away ⊢
      exact off away
    · simp only [State.setCpu,State.setThread,State.set,update_of_ne ne] at away ⊢
      exact inv.off q away
  · obtain rfl | ne := eq_or_ne q j
    · simp only [State.setCpu,State.setThread,update_self] at scan
      obtain same | back := place
      · exact inv.scans q i (same ▸ scan)
      · simp [scan,Pc.back] at back
    · simp only [State.setCpu,State.setThread,State.set,update_of_ne ne] at scan
      exact inv.scans q i scan
  · have build := inv.builds q np level (child new)
    have ne : np ≠ j := by
      rintro rfl
      obtain idle | idle := build.idle
      · exact used.1 idle
      · exact used.2 idle
    refine build.congr ?_ ?_ ?_ ?_ (fun _ => ?_) ?_
    · obtain rfl | ne := eq_or_ne q j
      · simpa using serial
      · simp [ne]
    all_goals simp [ne]

theorem switch_slot (inv : Inv nproc s) {j : Nat} {f : Slot → Slot}
    (used : (s.slot j).state ≠ .unused ∧ (s.slot j).state ≠ .used) (serial : (f (s.slot j)).serial = (s.slot j).serial)
    (alone : ∀ d, d ≠ c → (s.cpu d).mode.owner ≠ some j) (before : ∀ q, (s.cpu c).mode.owner = some q → q = j)
    (after : k.mode.Has j (f (s.slot j)) (s.thread j)) (proc : k.proc = k.mode.proc)
    (locks : k.mode.locks s.thread = s.locks c) :
    Inv nproc ((s.set j f).setCpu c k) := by
  have held : Held s.lock s.noff (update s.locks c (k.mode.locks (update s.thread j (s.thread j)))) := by
    simpa [locks] using inv.held
  have result := inv.switch used serial (.inl rfl) (inv.interrupted j) (inv.off j) alone before after proc held
  simpa using result

/-- The CPU that has the lock of a process that is not RUNNING is the only one that may have the
process. -/
theorem alone (inv : Inv nproc s) {j : Nat} (lock : s.lock (.proc j) = some c) (idle : (s.slot j).state ≠ .running)
    (d : Nat) (other : d ≠ c) : (s.cpu d).mode.owner ≠ some j := by
  intro owner
  have holder := inv.lock_of_owner owner idle
  exact other (by simpa [lock] using holder.symm)

theorem alone_owner (inv : Inv nproc s) {j : Nat} (mine : (s.cpu c).mode.owner = some j) (d : Nat) (other : d ≠ c) :
    (s.cpu d).mode.owner ≠ some j := fun owner => other (inv.unique d c j owner mine)

theorem switch_own (inv : Inv nproc s) {j : Nat} {f : Slot → Slot} (mine : (s.cpu c).mode.owner = some j)
    (serial : (f (s.slot j)).serial = (s.slot j).serial)
    (after : k.mode.Has j (f (s.slot j)) (s.thread j)) (proc : k.proc = k.mode.proc)
    (locks : k.mode.locks s.thread = s.locks c) : Inv nproc ((s.set j f).setCpu c k) :=
  inv.switch_slot ((inv.fine j).1 c mine).in_use serial (inv.alone_owner mine)
    (fun _ same => Option.some.inj (same.symm.trans mine)) after proc locks

theorem setCpu_own (inv : Inv nproc s) {j : Nat} (mine : (s.cpu c).mode.owner = some j)
    (after : k.mode.Has j (s.slot j) (s.thread j)) (proc : k.proc = k.mode.proc)
    (locks : k.mode.locks s.thread = s.locks c) : Inv nproc (s.setCpu c k) := by
  simpa using inv.switch_own (f := id) mine rfl after proc locks

end Inv

theorem Thread.Off.not_leaving {th : Thread} (off : th.Off) : ¬th.Leaving := by
  rintro (yielding | ⟨normal,place⟩) <;> obtain yielding' | ⟨normal',place'⟩ := off
  · simp [yielding] at yielding'
  · simp [yielding] at normal'
  · simp [normal] at yielding'
  · cases pc : th.pc <;> simp [pc,Pc.sched,Pc.back] at place place'

theorem Thread.Rests.parked {th : Thread} {state : PState} {context : Nat} (rests : th.Rests state) (off : th.Off)
    (saved : context = nregs) : Parked state context th := by
  have busy := rests.not_running
  refine ⟨off,?_⟩
  cases state with
  | unused | used | running => simp at busy
  | sleeping | runnable | zombie => exact ⟨rests,saved⟩

namespace Inv

variable {c : Nat}

theorem sched (inv : Inv nproc s) (mode : (s.cpu a.cpu).mode = .run p) (effect : procEffect nproc s p a = some e)
    (sched : e.op = .sched) (done : perform s a.cpu p e = some t) : Inv nproc t := by
  have counted : s.noff a.cpu = ((s.thread p).locks p).card := by rw [inv.held.noff,locks_run mode]
  obtain ⟨_,leaving,off,write,rests⟩ | ⟨stays,_⟩ := procEffect_rest counted (inv.interrupted p) effect
  swap
  · exact absurd sched stays
  simp only [perform,sched,write,State.operate,State.sched,Option.map_eq_some_iff,Option.ite_none_right_eq_some,
    Option.some.injEq,State.write] at done
  obtain ⟨_,⟨⟨_,one,changed⟩,rfl⟩,rfl⟩ := done
  have owned := (inv.fine p).1 a.cpu (by simp [mode,Mode.owner])
  have used := owned.in_use
  rw [mode] at owned
  obtain ⟨⟨running,_⟩ | ⟨_,resting⟩,context⟩ := owned
  · exact absurd running changed
  -- the only lock that the CPU has is that of the process
  have locks : (s.thread p).locks p = {.proc p} := by
    rw [counted,Multiset.card_eq_one] at one
    obtain ⟨l,single⟩ := one
    have mine := leaving.lock (p := p)
    rw [single,Multiset.mem_singleton] at mine
    rw [single,mine]
  have after : e.thread.locks p = {.proc p} := by
    rw [procEffect_locks effect,sched,← locks]
    rfl
  have place : e.thread.pc = (s.thread p).pc ∨ e.thread.pc.back = true := by
    obtain ⟨same,_⟩ | ⟨_,normal,_⟩ := procEffect_place effect
    · exact .inl same
    · obtain yielding | ⟨_,back⟩ := off
      · simp [normal] at yielding
      · exact .inr back
  have interrupted : e.thread.yielding ≠ none → e.thread.pc.locks p = 0 := by
    intro yielding
    obtain back | ⟨normal,_⟩ := off
    · simp only [Thread.locks,back] at after
      exact (Multiset.cons_inj_right _).mp after
    · exact absurd normal yielding
  have held : Held s.lock s.noff (update s.locks a.cpu (Mode.locks (update s.thread p e.thread) (.save p 0))) := by
    have same : s.locks a.cpu = {.proc p} := by rw [locks_run mode,locks]
    simpa [Mode.locks,← same] using inv.held
  have result := inv.switch (k := ⟨.save p 0,(s.cpu a.cpu).proc⟩) used rfl place interrupted (fun _ => after)
    (inv.alone_owner (by simp [mode,Mode.owner])) (fun q owner => by simpa [mode,Mode.owner,eq_comm] using owner)
    (.inl ⟨rfl,off,rests _ resting,context,by decide⟩) (by rw [inv.proc,mode,Mode.proc,Mode.proc]) held
  simpa using result

theorem perform (inv : Inv nproc s) (mode : (s.cpu a.cpu).mode = .run p) (effect : procEffect nproc s p a = some e)
    (done : perform s a.cpu p e = some t) : Inv nproc t := by
  by_cases sched : e.op = .sched
  · exact inv.sched mode effect sched done
  · obtain ⟨u,operated,rfl⟩ := Option.map_eq_some_iff.mp done
    have held := inv.held.operate operated
    rw [locks_run mode,← procEffect_locks effect] at held
    have result := inv.next mode effect sched held
    have same := operate_same sched operated
    convert result using 1
    rw [same]
    unfold State.after
    cases e.write <;> rfl

theorem step (inv : Inv nproc s) (done : step nproc s a = some t) : Inv nproc t := by
  have proc := inv.proc a.cpu
  unfold Procs.step at done
  simp only at done
  split at done
  · rename_i j mode
    obtain ⟨u,acquired,rfl⟩ := Option.map_eq_some_iff.mp done
    have held := inv.held.acquire acquired
    have same := operate_same (p := 0) (show Op.acquire (.proc j) ≠ .sched by simp) acquired
    rw [same]
    refine inv.setCpu (by simp [mode,Mode.owner]) (by simp [proc,mode]) ?_ (by simp [Mode.owner])
    simpa [State.locks,mode,Mode.locks] using held
  · rename_i j mode
    have locks : s.locks a.cpu = {.proc j} := by simp [State.locks,mode,Mode.locks]
    have lock : s.lock (.proc j) = some a.cpu := (inv.held.holder _ _).mpr (by simp [locks])
    split at done
    · rename_i runnable
      cases done
      have alone := inv.alone lock (by simp [runnable])
      have unowned (d : Nat) : (s.cpu d).mode.owner ≠ some j := by
        obtain rfl | other := eq_or_ne d a.cpu
        · simp [mode,Mode.owner]
        · exact alone d other
      have parked := (inv.fine j).2 unowned
      rw [runnable] at parked
      exact inv.switch_slot (by simp [runnable]) rfl alone (by simp [mode,Mode.owner])
        (.inl ⟨rfl,rfl,parked.1,parked.2.2⟩) rfl (by simp [locks,Mode.locks])
    · cases done
      refine inv.setCpu (by simp [mode,Mode.owner]) (by simp [proc,mode]) ?_ (by simp [Mode.owner])
      simpa [Mode.locks,← locks] using inv.held
  · rename_i p n mode
    cases done
    have locks : s.locks a.cpu = {.proc p} := by simp [State.locks,mode,Mode.locks]
    have mine : (s.cpu a.cpu).mode.owner = some p := by simp [mode,Mode.owner]
    have owned := (inv.fine p).1 a.cpu mine
    rw [mode] at owned
    split
    all_goals exact inv.setCpu_own mine (.inl ⟨rfl,owned⟩) (by simp [proc,mode]) locks.symm
  · rename_i p n mode
    have locks : s.locks a.cpu = {.proc p} := by simp [State.locks,mode,Mode.locks]
    have mine : (s.cpu a.cpu).mode.owner = some p := by simp [mode,Mode.owner]
    have owned := (inv.fine p).1 a.cpu mine
    rw [mode] at owned
    split at done
    · cases done
      exact inv.setCpu_own mine (.inl ⟨rfl,owned⟩) (by simp [proc,mode]) locks.symm
    · cases done
      refine inv.switch_own mine rfl (.inl ⟨rfl,.inl ⟨owned.1,owned.2.1.not_leaving⟩,rfl⟩) (by simp [proc,mode]) ?_
      rw [locks]
      exact inv.off p owned.2.1
  · rename_i p mode
    obtain ⟨e,effect,performed⟩ := Option.bind_eq_some_iff.mp done
    exact inv.perform mode effect performed
  · rename_i p n mode
    cases done
    have locks : s.locks a.cpu = {.proc p} := by simp [State.locks,mode,Mode.locks]
    have mine : (s.cpu a.cpu).mode.owner = some p := by simp [mode,Mode.owner]
    have owned := (inv.fine p).1 a.cpu mine
    rw [mode] at owned
    obtain ⟨off,rests,_,bound⟩ := owned
    split
    · exact inv.switch_own mine rfl (.inl ⟨rfl,off,rests,rfl,by assumption⟩) (by simp [proc,mode]) locks.symm
    · exact inv.switch_own mine rfl (.inl ⟨rfl,off,rests,by show n + 1 = nregs; omega⟩) (by simp [proc,mode]) locks.symm
  · rename_i p n mode
    cases done
    have locks : s.locks a.cpu = {.proc p} := by simp [State.locks,mode,Mode.locks]
    have mine : (s.cpu a.cpu).mode.owner = some p := by simp [mode,Mode.owner]
    have owned := (inv.fine p).1 a.cpu mine
    rw [mode] at owned
    obtain ⟨off,rests,saved⟩ := owned
    split
    · exact inv.setCpu_own mine (.inl ⟨rfl,off,rests,saved⟩) (by simp [proc,mode]) locks.symm
    · exact inv.setCpu_own mine (.inr ⟨rfl,rests.parked off saved⟩) (by simp [proc,mode]) locks.symm
  · rename_i p mode
    cases done
    refine inv.setCpu (by simp [mode,Mode.owner]) (by simp) ?_ (by simp [Mode.owner])
    have locks : s.locks a.cpu = {.proc p} := by simp [State.locks,mode,Mode.locks]
    simpa [Mode.locks,← locks] using inv.held
  · rename_i j mode
    obtain ⟨u,released,rfl⟩ := Option.map_eq_some_iff.mp done
    have held := inv.held.release released
    have same := operate_same (p := 0) (show Op.release (.proc j) ≠ .sched by simp) released
    rw [same]
    refine inv.setCpu (by simp [mode,Mode.owner]) (by simp [proc,mode]) ?_ (by simp [Mode.owner])
    simpa [State.locks,mode,Mode.locks] using held

theorem init (sz pagetable trapframe : Nat) : Inv nproc (init sz pagetable trapframe) := by
  refine ⟨⟨?_,?_,?_⟩,fun _ => rfl,?_,fun q => ⟨?_,fun _ => ?_⟩,fun _ _ => rfl,fun _ _ => rfl,?_,?_,?_⟩
  · simp [Procs.init,State.locks,Mode.locks]
  · simp [Procs.init,State.locks,Mode.locks]
  · simp [Procs.init,State.locks,Mode.locks]
  · simp [Procs.init,Mode.owner]
  · simp [Procs.init,Mode.owner]
  · obtain rfl | ne := eq_or_ne q initproc
    · simp [Procs.init,Parked,Thread.Off,Thread.Rests]
    · simp [Procs.init,ne,Parked,Thread.Off,Thread.Stale]
  · simp [Procs.init]
  · simp [Procs.init,Pc.child]
  · simp [Procs.init,Pc.child]

end Inv

/-- A slot becomes UNUSED when `wait` or a failing `fork` frees it. -/
theorem next_unused (th : Thread) (ok : w.Ok s) {j : Nat} (used : (s.slot j).state ≠ .unused)
    (unused : ((s.next p th w).slot j).state = .unused) : w = .free j ∨ ∃ stored, w = .reap j stored := by
  obtain same | aimed := next_slot_cases s p th w j
  · exact absurd (same ▸ unused) used
  · rw [next_slot] at unused
    cases w <;> cases aimed <;> simp only [State.write,wakeup_slot,State.setThread,State.set,update_self] at unused <;>
      (try split at unused) <;> simp_all

theorem Does.frees {j : Nat} (does : Does nproc s p a pc op pc' w) (frees : w = .free j ∨ ∃ stored, w = .reap j stored) :
    op = .release (.proc j) := by
  cases does <;> simp_all

namespace Inv

variable {c : Nat}

theorem owner_of_proc (inv : Inv nproc s) {j : Nat} (named : (s.cpu c).proc = some j) (free : s.lock (.proc j) ≠ some c) :
    (s.cpu c).mode.owner = some j := by
  rw [inv.proc] at named
  cases mode : (s.cpu c).mode with
  | clear p =>
    obtain rfl : p = j := by simpa [mode] using named
    refine absurd ((inv.held.holder _ _).mpr ?_) free
    simp [State.locks,mode,Mode.locks]
  | scan | test | release => simp [mode] at named
  | _ => simpa [mode,Mode.owner] using named

theorem proc_of_owner (inv : Inv nproc s) {j : Nat} (owner : (s.cpu c).mode.owner = some j) :
    (s.cpu c).proc = some j := by
  rw [inv.proc]
  cases mode : (s.cpu c).mode <;> simp_all [Mode.owner]

theorem running_iff (inv : Inv nproc s) {j : Nat} (free : s.lock (.proc j) = none) :
    (s.slot j).state = .running ↔ ∃! c, (s.cpu c).proc = some j := by
  constructor
  · intro running
    obtain ⟨c,owner⟩ : ∃ c, (s.cpu c).mode.owner = some j := by
      by_contra none
      have parked := (inv.fine j).2 fun c owner => none ⟨c,owner⟩
      rw [running] at parked
      exact parked.2
    refine ⟨c,inv.proc_of_owner owner,fun d named => ?_⟩
    exact inv.unique d c j (inv.owner_of_proc named (by simp [free])) owner
  · rintro ⟨c,named,_⟩
    by_contra idle
    have owner := inv.owner_of_proc named (by simp [free])
    simp [inv.lock_of_owner owner idle] at free

end Inv

structure Moved (nproc : Nat) (s : State) (a : Action) (p : Nat) (e : Effect) (t : State) : Prop where
  mode : (s.cpu a.cpu).mode = .run p
  effect : procEffect nproc s p a = some e
  enabled : (s.operate a.cpu p e.op).isSome
  ok : e.write.Ok s
  next : ∃ lock noff cpu, t = { s.after p e with
    lock := lock
    noff := noff
    cpu := cpu }

theorem Moved.not_self (moved : Moved nproc s a p e t) (inv : Inv nproc s) (page : Nat) :
    e.write ≠ .pagetable p page := by
  intro write
  have owned := (inv.fine p).1 a.cpu (by simp [moved.mode,Mode.owner])
  have ok := moved.ok
  rw [write] at ok
  exact owned.in_use.2 ok

/-- Where a process is after a step: an interrupt or `yield` keep its place, it has executed a statement,
or it is another process, which stays where it is unless it is made. -/
theorem Moved.turn (moved : Moved nproc s a p e t) (inv : Inv nproc s) (q : Nat) :
    q = p ∧ ((s.after p e).thread q).pc = (s.thread q).pc ∧ (e.write = .none ∨ e.write = .yield) ∨
    q = p ∧ Does nproc s q a (s.thread q).pc e.op ((s.after p e).thread q).pc e.write ∨
    q ≠ p ∧ (s.after p e).thread q = s.thread q ∨ q ≠ p ∧ (s.after p e).thread q = .forkret := by
  obtain rfl | ne := eq_or_ne q p
  · rw [next_thread_self e.thread (moved.not_self inv)]
    obtain ⟨same,write,_⟩ | ⟨_,_,inner⟩ := procEffect_place moved.effect
    · exact .inl ⟨rfl,same,write⟩
    · exact .inr (.inl ⟨rfl,inner⟩)
  · obtain same | same := next_thread_cases (s := s) (w := e.write) e.thread ne
    · exact .inr (.inr (.inl ⟨ne,same⟩))
    · exact .inr (.inr (.inr ⟨ne,same⟩))

structure Scheduled (slot slot' : Slot) : Prop where
  state : slot'.state = slot.state ∨ slot.state = .runnable ∧ slot'.state = .running
  rest : slot' = { slot with
    state := slot'.state
    context := slot'.context }

theorem Scheduled.refl (slot : Slot) : Scheduled slot slot := ⟨.inl rfl,rfl⟩

theorem operate_frame {c : Nat} (done : s.operate c p op = some t) : t = { s with
      lock := t.lock
      noff := t.noff
      cpu := t.cpu } := by
  cases op with
  | sched =>
    simp only [State.operate,State.sched,Option.ite_none_right_eq_some,Option.some.injEq] at done
    simp [← done.2]
  | _ => rw [operate_same (by simp) done]

theorem Inv.performed (inv : Inv nproc s) (mode : (s.cpu a.cpu).mode = .run p)
    (done : (procEffect nproc s p a).bind (Procs.perform s a.cpu p) = some t) : ∃ e, Moved nproc s a p e t := by
  obtain ⟨e,effect,performed⟩ := Option.bind_eq_some_iff.mp done
  obtain ⟨u,operated,rfl⟩ := Option.map_eq_some_iff.mp performed
  refine ⟨e,mode,effect,by simp [operated],inv.procEffect_ok mode effect,u.lock,u.noff,u.cpu,?_⟩
  nth_rewrite 1 [operate_frame operated]
  unfold State.after
  cases e.write <;> rfl

theorem Inv.step_cases (inv : Inv nproc s) (done : Procs.step nproc s a = some t) :
    (∃ p e, Moved nproc s a p e t) ∨
    ∃ slot lock noff cpu, (∀ j, Scheduled (s.slot j) (slot j)) ∧ t = { s with
      slot := slot
      lock := lock
      noff := noff
      cpu := cpu } := by
  have updated (j : Nat) (f : Slot → Slot) (scheduled : Scheduled (s.slot j) (f (s.slot j))) (i : Nat) :
      Scheduled (s.slot i) ((s.set j f).slot i) := by
    obtain rfl | ne := eq_or_ne i j
    · simpa using scheduled
    · simpa [ne] using Scheduled.refl (s.slot i)
  unfold Procs.step at done
  simp only at done
  split at done
  · obtain ⟨u,acquired,rfl⟩ := Option.map_eq_some_iff.mp done
    rw [operate_same (p := 0) (show Op.acquire _ ≠ .sched by simp) acquired]
    exact .inr ⟨_,_,_,_,fun j => Scheduled.refl _,rfl⟩
  · split at done
    · rename_i j _ runnable
      cases done
      exact .inr ⟨_,_,_,_,updated j _ ⟨.inr ⟨runnable,rfl⟩,rfl⟩,rfl⟩
    · cases done
      exact .inr ⟨_,_,_,_,fun j => Scheduled.refl _,rfl⟩
  · cases done
    exact .inr ⟨_,_,_,_,fun j => Scheduled.refl _,rfl⟩
  · rename_i p n mode
    split at done
    · cases done
      exact .inr ⟨_,_,_,_,fun j => Scheduled.refl _,rfl⟩
    · cases done
      exact .inr ⟨_,_,_,_,updated p _ ⟨.inl rfl,rfl⟩,rfl⟩
  · rename_i p mode
    obtain ⟨e,moved⟩ := inv.performed mode done
    exact .inl ⟨p,e,moved⟩
  · rename_i p n mode
    cases done
    exact .inr ⟨_,_,_,_,updated p _ ⟨.inl rfl,rfl⟩,rfl⟩
  · cases done
    exact .inr ⟨_,_,_,_,fun j => Scheduled.refl _,rfl⟩
  · cases done
    exact .inr ⟨_,_,_,_,fun j => Scheduled.refl _,rfl⟩
  · obtain ⟨u,released,rfl⟩ := Option.map_eq_some_iff.mp done
    rw [operate_same (p := 0) (show Op.release _ ≠ .sched by simp) released]
    exact .inr ⟨_,_,_,_,fun j => Scheduled.refl _,rfl⟩

theorem Inv.freed (inv : Inv nproc s) {j : Nat} (done : Procs.step nproc s a = some t) (used : (s.slot j).state ≠ .unused)
    (unused : (t.slot j).state = .unused) (c : Nat) : (s.cpu c).mode.owner ≠ some j ∧ (s.cpu c).proc ≠ some j := by
  obtain ⟨p,e,moved⟩ | ⟨slot,_,_,_,scheduled,rfl⟩ := inv.step_cases done
  swap
  · obtain same | ⟨_,running⟩ := (scheduled j).state
    · exact absurd (same.symm.trans unused) used
    · simp [running] at unused
  obtain ⟨_,_,_,rfl⟩ := moved.next
  have frees := next_unused e.thread moved.ok used unused
  have unowned (d : Nat) : (s.cpu d).mode.owner ≠ some j := by
    have ok := moved.ok
    obtain write | ⟨stored,write⟩ := frees
    · rw [write] at ok
      exact (inv.fine j).unowned (.inr ok) d
    · rw [write] at ok
      exact ok.2 d
  refine ⟨unowned c,fun named => unowned c (inv.owner_of_proc named fun lock => ?_)⟩
  -- the lock is with the process that frees the slot
  have held : s.lock (.proc j) = some a.cpu := by
    obtain ⟨_,write,_⟩ | ⟨_,_,inner⟩ := procEffect_place moved.effect
    · obtain write | write := write <;> simp [write] at frees
    · have enabled := moved.enabled
      rw [inner.frees frees] at enabled
      by_contra free
      simp [State.operate,State.release,free] at enabled
  obtain rfl : a.cpu = c := by simpa [held] using lock
  obtain rfl : p = j := by simpa [inv.proc,moved.mode] using named
  exact unowned a.cpu (by simp [moved.mode,Mode.owner])

/-- At most one CPU runs a process, or switches to or from it; a process is RUNNING with its lock
free exactly while one CPU names it; only a context that has been saved is loaded; and a slot is
freed only when no CPU runs it. -/
theorem one_process_one_cpu {sz pagetable trapframe : Nat} {schedule : List Action}
    (ran : Runs.run (step nproc) (init sz pagetable trapframe) schedule = some s) :
    (∀ c c' p, (s.cpu c).mode.owner = some p → (s.cpu c').mode.owner = some p → c = c') ∧
    (∀ p, s.lock (.proc p) = none → ((s.slot p).state = .running ↔ ∃! c, (s.cpu c).proc = some p)) ∧
    (∀ c p n, (s.cpu c).mode = .load p n → (s.slot p).context = nregs) ∧
    (∀ a t j, step nproc s a = some t → (s.slot j).state ≠ .unused → (t.slot j).state = .unused →
      ∀ c, (s.cpu c).mode.owner ≠ some j ∧ (s.cpu c).proc ≠ some j) := by
  have inv : Inv nproc s := Runs.run_invariant (Inv nproc) (fun _ _ _ inv done => inv.step done) (Inv.init ..) ran
  refine ⟨inv.unique,fun p => inv.running_iff,fun c p n mode => ?_,fun a t j => inv.freed⟩
  have owned := (inv.fine p).1 c (by simp [mode,Mode.owner])
  rw [mode] at owned
  exact owned.2.2

/-- The first process calls `fork`, the new one exits with status 7 on another CPU, and the first
one waits for it. -/
def family : List Action :=
  List.replicate 47 ⟨0,false,.fork,4096,true⟩ ++ List.replicate 35 ⟨1,false,.exit 7,0,true⟩ ++
  List.replicate 58 ⟨1,false,.close,0,true⟩ ++ List.replicate 6 ⟨0,false,.wait 100,0,true⟩

theorem one_process_one_cpu_two_run : ∃ s, Runs.run (step 2) (init 4096 8192 12288) (family.take 81) = some s ∧
    (s.slot 0).state = .running ∧ (s.slot 1).state = .running ∧
    (∃! c, (s.cpu c).proc = some 0) ∧ ∃! c, (s.cpu c).proc = some 1 := by
  refine Runs.reaches (fun s => (s.slot 0).state = .running ∧ (s.slot 1).state = .running ∧ s.lock (.proc 0) = none ∧
    s.lock (.proc 1) = none) (by decide +kernel) fun s ran ⟨first,second,free,free'⟩ => ?_
  obtain ⟨_,named,_⟩ := one_process_one_cpu ran
  exact ⟨first,second,(named 0 free).mp first,(named 1 free').mp second⟩

end Xv6.Procs
