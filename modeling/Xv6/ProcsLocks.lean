import Xv6.Procs
import Mathlib.Data.Multiset.Filter

/-! The steps of a process as a relation, which locks a process holds at each place, and which CPU holds a lock. -/
namespace Xv6.Procs

open Function

/-! One rule for each way through the code. -/

section Does

variable (nproc : Nat) (s : State) (p : Nat) (a : Action)

inductive Does : Pc → Op → Pc → Write → Prop
  | acquire (k l) : Does (.site k) (.acquire (.spin l)) (.site { k with spins := l :: k.spins }) .none
  | release (k l) : Does (.site k) (.release (.spin l)) (.site { k with spins := k.spins.erase l }) .none
  | sleep (k b lk) : Does (.site k) .none (.sleepAcquire (.spin b lk k)) .none
  | wakeup (k b) : Does (.site k) .none (.wakeAcquire (some (.other b)) 0 (.site k)) .none
  | killed (k) : Does (.site k) .none (.killedAcquire (.site k)) .none
  | setkilled (k) : Does (.site k) .none (.setkilledAcquire k) .none
  | kill (pid) (called : a.call = .kill pid) : Does (.site .code) .none (.killAcquire pid 0) .none
  | fork : Does (.site .code) .none (.allocAcquire 0) .none
  | exit (status) (other : p ≠ initproc) : Does (.site .code) .none (.site ⟨some (status,0),[]⟩) .leave
  | wait (addr) : Does (.site .code) .none (.waitAcquire addr) .none
  | file (k fd f) (opens : k.closing = none) (bound : fd < nofile) : Does (.site k) .none (.site k) (.file fd f)
  | image (k sz pagetable) (opens : k.closing = none) (some : pagetable ≠ 0) :
    Does (.site k) .none (.site k) (.image sz pagetable)
  | close (status fd) (bound : fd < nofile) :
    Does (.site ⟨some (status,fd),[]⟩) .none (.site ⟨some (status,fd + 1),[]⟩) (.file fd none)
  | closed (status fd) (bound : nofile ≤ fd) : Does (.site ⟨some (status,fd),[]⟩) .none (.exitAcquire status) .none
  | sleepAcquire (z) : Does (.sleepAcquire z) (.acquire (.proc p)) (.sleepRelease z) .none
  | sleepRelease (z) : Does (.sleepRelease z) (.release z.lock) (.sleepState z) .none
  | sleepState (z) : Does (.sleepState z) .none (.sleepSched z) (.sleep (z.chan p))
  | sleepSched (z) : Does (.sleepSched z) .sched (.sleepBack z) .none
  | sleepBack (z) : Does (.sleepBack z) (.release (.proc p)) (.sleepReacquire z) .wake
  | sleepDone (b lk k) : Does (.sleepReacquire (.spin b lk k)) (.acquire (.spin lk))
      (.site { k with spins := lk :: k.spins.erase lk }) .none
  | waitAgain (addr) : Does (.sleepReacquire (.wait addr)) (.acquire .wait) (.waitScan addr 0 false) .none
  | wakeSelf (chan j v) (self : j = p) : Does (.wakeAcquire chan j v) .none (.wakeAcquire chan (j + 1) v) .none
  | wakeAcquire (chan j v) (bound : j < nproc) (other : j ≠ p) :
    Does (.wakeAcquire chan j v) (.acquire (.proc j)) (.wakeTest chan j v) .none
  | wakeSite (chan j k) (past : nproc ≤ j) : Does (.wakeAcquire chan j (.site k)) .none (.site k) .none
  | wakeReparent (chan j status i) (past : nproc ≤ j) :
    Does (.wakeAcquire chan j (.reparent status i)) .none (.exitReparent status (i + 1)) .none
  | wakeExit (chan j status) (past : nproc ≤ j) :
    Does (.wakeAcquire chan j (.exit status)) .none (.exitSelf status) .none
  | wakeTest (chan j v) :
    Does (.wakeTest chan j v) (.release (.proc j)) (.wakeAcquire chan (j + 1) v) (.wakeup chan j)
  | killAcquire (pid j) : Does (.killAcquire pid j) (.acquire (.proc j)) (.killTest pid j) .none
  | killNone (pid j) : Does (.killAcquire pid j) .none (.site .code) .none
  | killFound (pid j) (found : (s.slot j).pid = pid) :
    Does (.killTest pid j) (.release (.proc j)) (.site .code) (.kill j)
  | killNext (pid j) : Does (.killTest pid j) (.release (.proc j)) (.killAcquire pid (j + 1)) .none
  | killedAcquire (r) : Does (.killedAcquire r) (.acquire (.proc p)) (.killedRead r) .none
  | killedSite (k) : Does (.killedRead (.site k)) (.release (.proc p)) (.site k) .none
  | killedWait (addr) (killed : (s.slot p).killed = true) :
    Does (.killedRead (.wait addr)) (.release (.proc p)) .waitReturn .none
  | waitSleep (addr) (alive : (s.slot p).killed = false) :
    Does (.killedRead (.wait addr)) (.release (.proc p)) (.sleepAcquire (.wait addr)) .none
  | setkilledAcquire (k) : Does (.setkilledAcquire k) (.acquire (.proc p)) (.setkilledWrite k) .none
  | setkilledWrite (k) : Does (.setkilledWrite k) (.release (.proc p)) (.site k) .setkilled
  | allocAcquire (j) (bound : j < nproc) : Does (.allocAcquire j) (.acquire (.proc j)) (.allocTest j) .none
  | allocNone (j) : Does (.allocAcquire j) .none (.site .code) .none
  | allocFound (j) (found : (s.slot j).state = .unused) : Does (.allocTest j) .none (.pidAcquire j) .none
  | allocNext (j) : Does (.allocTest j) (.release (.proc j)) (.allocAcquire (j + 1)) .none
  | pidAcquire (np) : Does (.pidAcquire np) (.acquire .pid) (.pidTake np) .none
  | pidTake (np) : Does (.pidTake np) (.release .pid) (.allocSet np s.nextpid s.count) .takePid
  | allocSet (np pid serial) : Does (.allocSet np pid serial) .none (.allocTrapframe np) (.alloc np pid serial)
  | noTrapframe (np) : Does (.allocTrapframe np) .none (.forkFree np) .none
  | trapframe (np) (some : a.page ≠ 0) : Does (.allocTrapframe np) .none (.allocPagetable np) (.trapframe np a.page)
  | noPagetable (np) : Does (.allocPagetable np) .none (.forkFree np) .none
  | pagetable (np) (some : a.page ≠ 0) : Does (.allocPagetable np) .none (.forkCopy np) (.pagetable np a.page)
  | copy (np) : Does (.forkCopy np) .none (.forkRelease np) (.copy np)
  | noCopy (np) : Does (.forkCopy np) .none (.forkFree np) .none
  | forkFree (np) : Does (.forkFree np) (.release (.proc np)) (.site .code) (.free np)
  | forkRelease (np) : Does (.forkRelease np) (.release (.proc np)) (.forkWait np) .none
  | forkWait (np) : Does (.forkWait np) (.acquire .wait) (.forkParent np) .none
  | forkParent (np) : Does (.forkParent np) (.release .wait) (.forkAcquire np) (.parent np p)
  | forkAcquire (np) : Does (.forkAcquire np) (.acquire (.proc np)) (.forkRunnable np) .none
  | forkRunnable (np) : Does (.forkRunnable np) (.release (.proc np)) (.site .code) (.runnable np)
  | exitAcquire (status) : Does (.exitAcquire status) (.acquire .wait) (.exitReparent status 0) .none
  | reparent (status j) (bound : j < nproc) (child : (s.slot j).parent = some p) :
    Does (.exitReparent status j) .none (.wakeAcquire (some (.proc initproc)) 0 (.reparent status j))
      (.parent j initproc)
  | reparentNext (status j) (other : (s.slot j).parent ≠ some p) :
    Does (.exitReparent status j) .none (.exitReparent status (j + 1)) .none
  | reparented (status j) (past : nproc ≤ j) : Does (.exitReparent status j) .none
      (.wakeAcquire ((s.slot p).parent.map .proc) 0 (.exit status)) .none
  | exitSelf (status) : Does (.exitSelf status) (.acquire (.proc p)) (.exitZombie status) .none
  | exitZombie (status) : Does (.exitZombie status) (.release .wait) .exitSched (.zombie status)
  | exitSched : Does .exitSched .sched .exitGone .none
  | waitAcquire (addr) : Does (.waitAcquire addr) (.acquire .wait) (.waitScan addr 0 false) .none
  | waitChild (addr j havekids) (bound : j < nproc) (child : (s.slot j).parent = some p) :
    Does (.waitScan addr j havekids) (.acquire (.proc j)) (.waitTest addr j) .none
  | waitNext (addr j havekids) (other : (s.slot j).parent ≠ some p) :
    Does (.waitScan addr j havekids) .none (.waitScan addr (j + 1) havekids) .none
  | waitKids (addr j havekids) (past : nproc ≤ j) :
    Does (.waitScan addr j havekids) .none (.killedAcquire (.wait addr)) .none
  | waitNobody (addr j havekids) (past : nproc ≤ j) : Does (.waitScan addr j havekids) .none .waitReturn .none
  | reap (addr j) (zombie : (s.slot j).state = .zombie) (copies : addr = 0 ∨ a.ok = true) :
    Does (.waitTest addr j) (.release (.proc j)) .waitReturn (.reap j (addr ≠ 0))
  | noReap (addr j) (zombie : (s.slot j).state = .zombie) (fails : ¬(addr = 0 ∨ a.ok = true)) :
    Does (.waitTest addr j) (.release (.proc j)) .waitReturn .none
  | waitAlive (addr j) (alive : (s.slot j).state ≠ .zombie) :
    Does (.waitTest addr j) (.release (.proc j)) (.waitScan addr (j + 1) true) .none
  | waitReturn : Does .waitReturn (.release .wait) (.site .code) .none

inductive Takes : Effect → Prop
  | yield (stage) (yielding : (s.thread p).yielding = some stage) : Takes (yieldEffect p (s.thread p).pc stage)
  | interrupt (normal : (s.thread p).yielding = none) (idle : s.noff a.cpu = 0) :
    Takes ⟨.none,⟨(s.thread p).pc,some .acquire⟩,.none⟩
  | place (op pc w) (normal : (s.thread p).yielding = none) (does : Does nproc s p a (s.thread p).pc op pc w) :
    Takes ⟨op,⟨pc,none⟩,w⟩

end Does

variable {nproc p : Nat} {s t : State} {a : Action} {op : Op} {pc pc' : Pc} {w : Write} {e : Effect}

theorem siteEffect_does {k : Site} (effect : siteEffect p k a.call = some (op,pc',w)) :
    Does nproc s p a (.site k) op pc' w := by
  unfold siteEffect at effect
  repeat' split at effect
  all_goals simp only [Option.some.injEq,Prod.mk.injEq,reduceCtorEq] at effect
  all_goals obtain ⟨rfl,rfl,rfl⟩ := effect
  all_goals try simp_all only
  all_goals constructor
  all_goals simp_all

theorem pcEffect_does (effect : pcEffect nproc s p a pc = some (op,pc',w)) : Does nproc s p a pc op pc' w := by
  cases pc with
  | site k => exact siteEffect_does effect
  | sleepReacquire z =>
    obtain ⟨rfl,rfl,rfl⟩ : _ = op ∧ z.next = pc' ∧ _ = w := by simpa [pcEffect] using effect
    cases z <;> constructor
  | killedRead r =>
    obtain ⟨rfl,rfl,rfl⟩ : _ = op ∧ r.next _ = pc' ∧ _ = w := by simpa [pcEffect] using effect
    cases r with
    | site k => exact .killedSite k
    | wait addr =>
      rw [Asker.next]
      split
      · exact .killedWait addr ‹_›
      · exact .waitSleep addr (Bool.eq_false_iff.mpr ‹_›)
  | wakeAcquire chan j v =>
    simp only [pcEffect] at effect
    repeat' split at effect
    all_goals
      simp only [Option.some.injEq,Prod.mk.injEq] at effect
      obtain ⟨rfl,rfl,rfl⟩ := effect
    · exact .wakeSelf chan j v ‹_›
    · exact .wakeAcquire chan j v ‹_› ‹_›
    · cases v <;> constructor <;> omega
  | _ =>
    simp only [pcEffect] at effect
    repeat' split at effect
    all_goals simp only [Option.some.injEq,Prod.mk.injEq,reduceCtorEq] at effect
    all_goals
      obtain ⟨rfl,rfl,rfl⟩ := effect
      constructor <;> simp_all

theorem procEffect_takes (effect : procEffect nproc s p a = some e) : Takes nproc s p a e := by
  unfold procEffect at effect
  split at effect
  · cases effect
    exact .yield _ ‹_›
  · rename_i normal
    split at effect
    · rename_i interrupt
      cases effect
      exact .interrupt normal interrupt.2
    · obtain ⟨⟨op,pc,w⟩,inner,rfl⟩ := Option.map_eq_some_iff.mp effect
      exact .place op pc w normal (pcEffect_does inner)

/-! The locks of a place. -/

def Site.locks (k : Site) : Multiset Lock := (k.spins : Multiset Nat).map .spin

@[simp] theorem Site.code_locks : Site.code.locks = 0 := rfl

def Sleep.locks : Sleep → Multiset Lock
  | .spin _ _ k => k.locks
  | .wait _ => {.wait}

def Waker.locks : Waker → Multiset Lock
  | .site k => k.locks
  | .reparent .. | .exit _ => {.wait}

def Asker.locks : Asker → Multiset Lock
  | .site k => k.locks
  | .wait _ => {.wait}

def Pc.locks (p : Nat) : Pc → Multiset Lock
  | .site k => k.locks
  | .sleepAcquire z => z.locks
  | .sleepRelease z => .proc p ::ₘ z.locks
  | .sleepState z | .sleepSched z | .sleepBack z => .proc p ::ₘ z.locks.erase z.lock
  | .sleepReacquire z => z.locks.erase z.lock
  | .wakeAcquire _ _ w => w.locks
  | .wakeTest _ j w => .proc j ::ₘ w.locks
  | .killAcquire .. => 0
  | .killTest _ j => {.proc j}
  | .killedAcquire r => r.locks
  | .killedRead r => .proc p ::ₘ r.locks
  | .setkilledAcquire k => k.locks
  | .setkilledWrite k => .proc p ::ₘ k.locks
  | .allocAcquire _ => 0
  | .allocTest j => {.proc j}
  | .pidAcquire np => {.proc np}
  | .pidTake np => {.pid,.proc np}
  | .allocSet np _ _ | .allocTrapframe np | .allocPagetable np | .forkCopy np | .forkFree np | .forkRelease np =>
    {.proc np}
  | .forkWait _ => 0
  | .forkParent _ => {.wait}
  | .forkAcquire _ => 0
  | .forkRunnable np => {.proc np}
  | .exitAcquire _ => 0
  | .exitReparent .. | .exitSelf _ => {.wait}
  | .exitZombie _ => {.proc p,.wait}
  | .exitSched | .exitGone => {.proc p}
  | .waitAcquire _ => 0
  | .waitScan .. => {.wait}
  | .waitTest _ j => {.proc j,.wait}
  | .waitReturn => {.wait}

def Thread.locks (p : Nat) (th : Thread) : Multiset Lock :=
  match th.yielding with
  | none | some .acquire => th.pc.locks p
  | some _ => .proc p ::ₘ th.pc.locks p

/-- What an operation does to the locks of a CPU. -/
def Op.locks (held : Multiset Lock) : Op → Multiset Lock
  | .none | .sched => held
  | .acquire l => l ::ₘ held
  | .release l => held.erase l

theorem Site.erase_locks (k : Site) (l : Nat) : ({ k with spins := k.spins.erase l } : Site).locks =
    k.locks.erase (.spin l) := by
  rw [Site.locks,Site.locks,← Multiset.coe_erase,Multiset.map_erase]
  exact fun _ _ same => Lock.spin.inj same

theorem Sleep.next_locks (z : Sleep) (p : Nat) : z.next.locks p = z.lock ::ₘ z.locks.erase z.lock := by
  cases z with
  | spin a lk k =>
    have inner := k.erase_locks lk
    simp only [Site.locks] at inner
    simp only [Sleep.next,Pc.locks,Site.locks,Sleep.lock,Sleep.locks,← Multiset.cons_coe,Multiset.map_cons,inner]
  | wait addr => rfl

theorem Does.locks (does : Does nproc s p a pc op pc' w) : pc'.locks p = op.locks (pc.locks p) := by
  cases does
  case release k l => exact k.erase_locks l
  case sleepRelease z =>
    have ne : z.lock ≠ .proc p := by cases z <;> simp [Sleep.lock]
    exact (Multiset.erase_cons_tail _ ne.symm).symm
  case sleepDone b lk k => exact (Sleep.spin b lk k).next_locks p
  all_goals simp [Pc.locks,Op.locks,Site.locks,Site.code,Waker.locks,Asker.locks,Sleep.locks,Sleep.lock]

theorem procEffect_locks (effect : procEffect nproc s p a = some e) :
    e.thread.locks p = e.op.locks ((s.thread p).locks p) := by
  cases procEffect_takes effect with
  | yield stage yielding => cases stage <;> simp [yieldEffect,Thread.locks,yielding,Op.locks]
  | interrupt normal idle => simp [Thread.locks,normal,Op.locks]
  | place op pc w normal does => simpa [Thread.locks,normal] using does.locks

/-! The CPU that holds a lock. -/

/-- A lock is held by the CPU that has it among its locks, and `noff` counts those. -/
structure Held (lock : Lock → Option Nat) (noff : Nat → Nat) (locks : Nat → Multiset Lock) : Prop where
  holder : ∀ l c, lock l = some c ↔ l ∈ locks c
  distinct : ∀ c, (locks c).Nodup
  noff : ∀ c, noff c = (locks c).card

namespace Held

variable {locks : Nat → Multiset Lock} {c : Nat} {l : Lock}

theorem acquire (held : Held s.lock s.noff locks) (done : s.acquire c l = some t) :
    Held t.lock t.noff (update locks c (l ::ₘ locks c)) := by
  simp only [State.acquire] at done
  obtain ⟨free,rfl⟩ := Runs.enabled done
  have nobody (d : Nat) : l ∉ locks d := by
    rw [← held.holder,free]
    simp
  refine ⟨fun m d => ?_,fun d => ?_,fun d => ?_⟩
  · obtain rfl | other := eq_or_ne d c
    · obtain rfl | ne := eq_or_ne m l
      · simp
      · simp [ne,held.holder]
    · obtain rfl | ne := eq_or_ne m l
      · simp [other,nobody d,other.symm]
      · simp [other,ne,held.holder]
  · obtain rfl | other := eq_or_ne d c
    · simpa using ⟨nobody d,held.distinct d⟩
    · simpa [other] using held.distinct d
  · obtain rfl | other := eq_or_ne d c
    · simp [held.noff d]
    · simp [other,held.noff d]

theorem release (held : Held s.lock s.noff locks) (done : s.release c l = some t) :
    Held t.lock t.noff (update locks c ((locks c).erase l)) := by
  simp only [State.release] at done
  obtain ⟨mine,rfl⟩ := Runs.enabled done
  have inside := (held.holder l c).mp mine
  have others (d : Nat) (other : d ≠ c) : l ∉ locks d := by
    rw [← held.holder,mine]
    simpa using other.symm
  refine ⟨fun m d => ?_,fun d => ?_,fun d => ?_⟩
  · obtain rfl | other := eq_or_ne d c
    · obtain rfl | ne := eq_or_ne m l
      · simpa using (held.distinct d).notMem_erase
      · simp [ne,held.holder,Multiset.mem_erase_of_ne ne]
    · obtain rfl | ne := eq_or_ne m l
      · simp [other,others d other]
      · simp [other,ne,held.holder]
  · obtain rfl | other := eq_or_ne d c
    · simpa using (held.distinct d).erase l
    · simpa [other] using held.distinct d
  · obtain rfl | other := eq_or_ne d c
    · simp [held.noff d,Multiset.card_erase_of_mem inside]
    · simp [other,held.noff d]

theorem operate (held : Held s.lock s.noff locks) (done : s.operate c p op = some t) :
    Held t.lock t.noff (update locks c (op.locks (locks c))) := by
  cases op with
  | none =>
    cases done
    simpa [Op.locks] using held
  | acquire l => exact held.acquire done
  | release l => exact held.release done
  | sched =>
    simp only [State.operate,State.sched] at done
    obtain ⟨_,rfl⟩ := Runs.enabled done
    simpa [Op.locks] using held

end Held

theorem operate_same {c : Nat} (stays : op ≠ .sched) (done : s.operate c p op = some t) :
    t = { s with lock := t.lock, noff := t.noff } := by
  cases op with
  | none => simp [← Option.some.inj done]
  | acquire l =>
    simp only [State.operate,State.acquire,Option.ite_none_right_eq_some,Option.some.injEq] at done
    simp [← done.2]
  | release l =>
    simp only [State.operate,State.release,Option.ite_none_right_eq_some,Option.some.injEq] at done
    simp [← done.2]
  | sched => exact absurd rfl stays

end Xv6.Procs
