import Xv6.ProcsLedger

/-! Nobody sleeps in `wait` with a zombie for a child: `wait` has looked at every child when it goes to
sleep, and `exit` and `reparent` wake the parent before they release `wait_lock`. -/
namespace Xv6.Procs

open Function

variable {nproc p : Nat} {s t : State} {a : Action} {op : Op} {pc pc' : Pc} {w : Write} {e : Effect} {th : Thread}

namespace Pc

/-- `wait` has looked at slot `k`. -/
def Scanned (k : Nat) : Pc → Prop
  | .waitScan _ j _ | .waitTest _ j => k < j
  | .killedAcquire (.wait _) | .killedRead (.wait _) | .sleepAcquire (.wait _) | .sleepRelease (.wait _) => True
  | _ => False

/-- The channel of a call of `wakeup`, the slot it is at, and the caller. -/
def waking : Pc → Option (Option Chan × Nat × Waker)
  | .wakeAcquire chan k v | .wakeTest chan k v => some (chan,k,v)
  | _ => none

theorem Scanned.locks {pc : Pc} {k : Nat} (scanned : pc.Scanned k) : .wait ∈ pc.locks p ∧ pc.back = false := by
  unfold Pc.Scanned at scanned
  split at scanned
  all_goals first | exact scanned.elim | simp [Pc.locks,Pc.back,Asker.locks,Sleep.locks]

theorem waking_locks {pc : Pc} {chan : Option Chan} {k : Nat} {v : Waker} (waking : pc.waking = some (chan,k,v))
    (caller : .wait ∈ v.locks) : .wait ∈ pc.locks p ∧ pc.back = false := by
  unfold Pc.waking at waking
  split at waking <;> simp_all [Pc.locks,Pc.back]

end Pc

section

variable (does : Does nproc s p a pc op pc' w)
include does

theorem Does.scanned {k : Nat} (scanned : pc'.Scanned k) :
    w = .none ∧ (pc.Scanned k ∨ (s.slot k).parent ≠ some p ∨ (s.slot k).state ≠ .zombie ∨ nproc ≤ k) := by
  cases does
  case sleepAcquire z | sleepRelease z => cases z <;> simp_all [Pc.Scanned]
  case killedAcquire r => cases r <;> simp_all [Pc.Scanned]
  case waitNext addr j havekids other =>
    obtain before | rfl := Nat.lt_or_eq_of_le (Nat.le_of_lt_succ scanned)
    · exact ⟨rfl,.inl before⟩
    · exact ⟨rfl,.inr (.inl other)⟩
  case waitAlive addr j alive =>
    obtain before | rfl := Nat.lt_or_eq_of_le (Nat.le_of_lt_succ scanned)
    · exact ⟨rfl,.inl before⟩
    · exact ⟨rfl,.inr (.inr (.inl alive))⟩
  case waitKids addr j havekids past =>
    by_cases before : k < j
    · exact ⟨rfl,.inl before⟩
    · exact ⟨rfl,.inr (.inr (.inr (by omega)))⟩
  all_goals simp_all [Pc.Scanned]

theorem Does.sleeps (z : Sleep) : (pc' = .sleepState z → pc = .sleepRelease z ∧ w = .none) ∧
    (pc' = .sleepSched z → pc = .sleepState z ∧ w = .sleep (z.chan p)) ∧
    (pc' = .sleepBack z → pc = .sleepSched z ∧ w = .none) := by
  cases does <;> simp_all

theorem Does.waking {chan : Option Chan} {k : Nat} {v : Waker} (waking : pc'.waking = some (chan,k,v)) :
    pc.waking = some (chan,k,v) ∧ w = .none ∨
    (∃ j, k = j + 1 ∧ pc = .wakeTest chan j v ∧ w = .wakeup chan j) ∨
    k = p + 1 ∧ pc = .wakeAcquire chan p v ∧ w = .none ∨
    k = 0 ∧ (∀ status i, v = .reparent status i →
        pc = .exitReparent status i ∧ chan = some (.proc initproc) ∧ i < nproc ∧ w = .parent i initproc) ∧
      (∀ status, v = .exit status → w = .none ∧ chan = (s.slot p).parent.map .proc ∧
        ∃ i, pc = .exitReparent status i) := by
  cases does
  all_goals simp only [Pc.waking,Option.some.injEq,Prod.mk.injEq,reduceCtorEq] at waking
  all_goals obtain ⟨rfl,rfl,rfl⟩ := waking
  case wakeSelf j self => exact .inr (.inr (.inl ⟨self ▸ rfl,self ▸ rfl,rfl⟩))
  case wakeTest => exact .inr (.inl ⟨_,rfl,rfl,rfl⟩)
  all_goals simp_all [Pc.waking]

theorem Does.wakes {chan : Option Chan} {k : Nat} {v : Waker} (waking : pc.waking = some (chan,k,v)) :
    pc'.waking = some (chan,k,v) ∧ w = .none ∨ pc = .wakeTest chan k v ∧ w = .wakeup chan k ∨
    pc = .wakeAcquire chan k v ∧ (k = p ∨ nproc ≤ k) := by
  cases does <;> simp_all [Pc.waking]

theorem Does.ends (status : Int) :
    (pc' = .exitSelf status → w = .none ∧ ∃ chan k, pc.waking = some (chan,k,.exit status) ∧ nproc ≤ k) ∧
    (pc' = .exitZombie status → w = .none ∧ pc = .exitSelf status) := by
  cases does <;> simp_all [Pc.waking]

end

/-! Processes asleep in `wait`. -/

/-- A process that has released `wait_lock` in `wait` and has not been woken. -/
def Asleep (s : State) (q : Nat) : Prop := ∃ addr, (s.thread q).pc = .sleepState (.wait addr) ∨
  ((s.thread q).pc = .sleepSched (.wait addr) ∨ (s.thread q).pc = .sleepBack (.wait addr)) ∧ (s.slot q).state = .sleeping

theorem next_sleeping {q : Nat} (sleeping : ((s.next p th w).slot q).state = .sleeping) :
    (s.slot q).state = .sleeping ∨ q = p := by
  obtain same | aimed := next_slot_cases s p th w q
  · exact .inl (same ▸ sleeping)
  · rw [next_slot] at sleeping
    cases w <;> cases aimed <;> simp only [State.write,wakeup_slot,State.setThread,State.set,update_self] at sleeping <;>
      (try split at sleeping) <;> simp_all

theorem next_zombie {k : Nat} (zombie : ((s.next p th w).slot k).state = .zombie) :
    (s.slot k).state = .zombie ∨ k = p ∧ ∃ status, w = .zombie status := by
  obtain same | aimed := next_slot_cases s p th w k
  · exact .inl (same ▸ zombie)
  · rw [next_slot] at zombie
    cases w <;> cases aimed <;> simp only [State.write,wakeup_slot,State.setThread,State.set,update_self] at zombie <;>
      (try split at zombie) <;> simp_all

theorem next_chan_other {q : Nat} (ne : q ≠ p) :
    ((s.next p th w).slot q).chan = (s.slot q).chan ∨ w = .free q ∨ ∃ stored, w = .reap q stored := by
  obtain same | aimed := next_slot_cases s p th w q
  · exact .inl (congrArg Slot.chan same)
  · rw [next_slot]
    cases w <;> cases aimed <;> simp only [State.write,wakeup_slot,State.setThread,State.set,update_self] <;>
      simp_all

namespace Moved

variable {q : Nat}

section

variable (moved : Moved nproc s a p e t)
include moved

/-- A process that is freed has exited or never run. -/
theorem stale (inv : Inv nproc s) (frees : e.write = .free q ∨ ∃ stored, e.write = .reap q stored) :
    (s.thread q).Stale := by
  have ok := moved.ok
  have fine := inv.fine q
  rcases frees with write | ⟨stored,write⟩
  · rw [write] at ok
    have parked := fine.2 (fine.unowned (.inr ok))
    rw [show (s.slot q).state = .used from ok] at parked
    exact parked.2
  · rw [write] at ok
    have parked := fine.2 ok.2
    rw [ok.1] at parked
    exact parked.2.1.zombie parked.1

theorem asleep (inv : Inv nproc s) (asleep : Asleep (s.after p e) q) :
    Asleep s q ∨ q = p ∧ e.write = .none ∧ ∃ addr, (s.thread p).pc = .sleepRelease (.wait addr) := by
  obtain ⟨addr,place⟩ := asleep
  rcases moved.turn inv q with ⟨rfl,same,write⟩ | ⟨rfl,inner⟩ | ⟨ne,same⟩ | ⟨_,same⟩
  · rw [same] at place
    rcases place with place | ⟨place,sleeping⟩
    · exact .inl ⟨addr,.inl place⟩
    · rw [next_slot] at sleeping
      rcases write with write | write
      · rw [write] at sleeping
        exact .inl ⟨addr,.inr ⟨place,sleeping⟩⟩
      · simp [write] at sleeping
  · obtain ⟨nods,dozes,out⟩ := inner.sleeps (.wait addr)
    rcases place with place | ⟨place | place,sleeping⟩
    · obtain ⟨before,write⟩ := nods place
      exact .inr ⟨rfl,write,addr,before⟩
    · exact .inl ⟨addr,.inl (dozes place).1⟩
    · obtain ⟨before,write⟩ := out place
      rw [next_slot,write] at sleeping
      exact .inl ⟨addr,.inr ⟨.inl before,sleeping⟩⟩
  · rw [same] at place
    rcases place with place | ⟨place,sleeping⟩
    · exact .inl ⟨addr,.inl place⟩
    · exact .inl ⟨addr,.inr ⟨place,(next_sleeping sleeping).resolve_right ne⟩⟩
  · simp [same] at place

theorem asleep_held (inv : Inv nproc s) {r : Nat} (lock : .wait ∈ (s.thread q).pc.locks q)
    (back : (s.thread q).pc.back = false) (place : ∀ addr, (s.thread q).pc ≠ .sleepRelease (.wait addr))
    (asleep : Asleep (s.after p e) r) :
    Asleep s r := by
  rcases moved.asleep inv asleep with before | ⟨rfl,_,addr,mine⟩
  · exact before
  · have same : r = q := inv.holds_one lock back (by simp [mine,Pc.locks,Sleep.locks]) (by simp [mine,Pc.back])
    exact absurd mine (same ▸ place addr)

/-- The process that sets a parent, or that becomes a zombie, has `wait_lock`. -/
theorem wait_lock (writes : (∃ j r, e.write = .parent j r) ∨ ∃ status, e.write = .zombie status) :
    .wait ∈ (s.thread p).pc.locks p ∧ (s.thread p).pc.back = false := by
  rcases writes with ⟨j,r,write⟩ | ⟨status,write⟩
  · rcases moved.parent_origin write with ⟨_,⟨place,_⟩ | ⟨⟨status,place⟩,_⟩⟩ <;> simp [place,Pc.locks,Pc.back]
  · simp [(moved.zombie_origin write).2,Pc.locks,Pc.back]

theorem thread_held (inv : Inv nproc s) {l : Lock} (lock : l ∈ (s.thread q).pc.locks q)
    (back : (s.thread q).pc.back = false) (ne : q ≠ p) : (s.after p e).thread q = s.thread q := by
  refine next_thread_other e.thread ne fun page write => ?_
  obtain ⟨_,c,mode,_⟩ := inv.holds lock back
  have ok := moved.ok
  rw [write] at ok
  exact (inv.fine q).unowned (.inr ok) c (by simp [mode,Mode.owner])

theorem parent_held (inv : Inv nproc s) (lock : .wait ∈ (s.thread q).pc.locks q) (back : (s.thread q).pc.back = false)
    (quiet : q = p → ∀ r, e.write ≠ .parent p r) :
    ((s.after p e).slot q).parent = (s.slot q).parent := by
  obtain ⟨_,c,mode,_⟩ := inv.holds lock back
  have owner : (s.cpu c).mode.owner = some q := by simp [mode,Mode.owner]
  have others (r : Nat) : e.write ≠ .parent q r := by
    intro write
    obtain ⟨lock',back'⟩ := moved.wait_lock (.inl ⟨q,r,write⟩)
    have same : p = q := inv.holds_one lock back lock' back'
    exact quiet same.symm r (same ▸ write)
  cases after : ((s.after p e).slot q).parent with
  | some r =>
    rcases next_parent after with old | write
    · exact old.symm
    · exact absurd write (others r)
  | none =>
    rcases next_orphan after with none | unused
    · exact none.symm
    · have used := ((inv.fine q).1 c owner).in_use
      have ok := moved.ok
      rcases next_unused e.thread moved.ok used.1 unused with write | ⟨stored,write⟩
      · rw [write] at ok
        exact absurd ok used.2
      · rw [write] at ok
        exact absurd owner (ok.2 c)

end

end Moved

structure Naps (nproc : Nat) (s : State) : Prop where
  chan : ∀ q z, (s.thread q).pc = .sleepSched z ∨ (s.thread q).pc = .sleepBack z → (s.slot q).chan = some (z.chan q)
  scanned : ∀ q k, (s.thread q).pc.Scanned k → (s.slot k).parent = some q → (s.slot k).state ≠ .zombie
  reparents : ∀ q chan k status i, (s.thread q).pc.waking = some (chan,k,.reparent status i) →
    chan = some (.proc initproc) ∧ i < nproc
  exits : ∀ q chan k status, (s.thread q).pc.waking = some (chan,k,.exit status) → chan = (s.slot q).parent.map .proc
  woken : ∀ q chan k v r, (s.thread q).pc.waking = some (chan,k,v) → .wait ∈ v.locks → chan = some (.proc r) → r < k →
    ¬Asleep s r
  ended : ∀ q status r, (s.thread q).pc = .exitSelf status ∨ (s.thread q).pc = .exitZombie status →
    (s.slot q).parent = some r → ¬Asleep s r
  -- a zombie that has just been given to the first process is the exception
  asleep : ∀ q j, Asleep s q → (s.slot j).parent = some q → (s.slot j).state = .zombie →
    q = initproc ∧ ∃ r chan k status, (s.thread r).pc.waking = some (chan,k,.reparent status j) ∧ k ≤ initproc

theorem Tree.parent_bound (tree : Tree nproc s) {j q : Nat} (parent : (s.slot j).parent = some q) : q < nproc := by
  have bound := tree.bound j (by simp [parent])
  have live := (tree.live j q parent).1
  by_cases first : q = initproc
  · rw [first]
    exact Nat.lt_of_le_of_lt (Nat.zero_le j) bound
  · refine tree.bound q (tree.child q first ?_)
    rcases live with live | live | live <;> simp [live]

theorem Sleep.wait_lock {pc : Pc} {q : Nat} {z : Sleep} (place : pc = .sleepState z ∨ pc = .sleepSched z) :
    .proc q ∈ pc.locks q ∧ pc.back = false := by
  rcases place with rfl | rfl <;> simp [Pc.locks,Pc.back]

namespace Naps

variable {q : Nat}

section

variable (naps : Naps nproc s) (inv : Inv nproc s)
include naps inv

theorem next_chan (moved : Moved nproc s a p e t) {z : Sleep}
    (place : ((s.after p e).thread q).pc = .sleepSched z ∨ ((s.after p e).thread q).pc = .sleepBack z)
    :
    ((s.after p e).slot q).chan = some (z.chan q) := by
  rcases moved.turn inv q with ⟨rfl,same,write⟩ | ⟨rfl,inner⟩ | ⟨ne,same⟩ | ⟨_,same⟩
  · rw [same] at place
    rw [next_slot]
    rcases write with write | write <;> simpa [write] using naps.chan q z place
  · obtain ⟨_,dozes,out⟩ := inner.sleeps z
    rw [next_slot]
    rcases place with place | place
    · simp [(dozes place).2]
    · rw [(out place).2]
      exact naps.chan q z (.inl (out place).1)
  · rw [same] at place
    rcases next_chan_other (s := s) (w := e.write) ne with kept | frees
    · rw [kept]
      exact naps.chan q z place
    · rcases moved.stale inv frees with site | gone
      · simp [site] at place
      · simp [gone] at place
  · simp [same] at place

theorem next_scanned (tree : Tree nproc s) (moved : Moved nproc s a p e t) {k : Nat}
    (scanned : ((s.after p e).thread q).pc.Scanned k)
    (parent : ((s.after p e).slot k).parent = some q) :
    ((s.after p e).slot k).state ≠ .zombie := by
  intro zombie
  rcases moved.turn inv q with ⟨rfl,same,write⟩ | ⟨rfl,inner⟩ | ⟨ne,same⟩ | ⟨_,same⟩
  · rw [same] at scanned
    have parent' := (next_parent parent).resolve_right (by rcases write with write | write <;> simp [write])
    have zombie' := (next_zombie zombie).resolve_right (by rcases write with write | write <;> simp [write])
    exact naps.scanned q k scanned parent' zombie'
  · obtain ⟨write,progress⟩ := inner.scanned scanned
    rw [next_slot,write] at parent zombie
    rcases progress with before | other | alive | outside
    · exact naps.scanned q k before parent zombie
    · exact other parent
    · exact alive zombie
    · have bound := tree.bound k (by simp [show (s.slot k).parent = some q from parent])
      omega
  · rw [same] at scanned
    obtain ⟨lock,back⟩ := scanned.locks (p := q)
    -- the others cannot change parents or exit: this process has the lock
    have quiet : ¬((∃ j r, e.write = .parent j r) ∨ ∃ status, e.write = .zombie status) := by
      intro writes
      obtain ⟨lock',back'⟩ := moved.wait_lock writes
      exact ne (inv.holds_one lock back lock' back').symm
    have parent' := (next_parent parent).resolve_right fun write => quiet (.inl ⟨_,_,write⟩)
    have zombie' := (next_zombie zombie).resolve_right fun write => quiet (.inr write.2)
    exact naps.scanned q k scanned parent' zombie'
  · rw [same] at scanned
    exact scanned.elim

/-- `wakeup` has woken the process at the slot that it leaves. -/
theorem next_tested {chan : Option Chan} {r : Nat} {v : Waker}
    (place : (s.thread p).pc = .wakeTest chan r v) (write : e.write = .wakeup chan r) (aimed : chan = some (.proc r))
    (other : r ≠ p) : ¬Asleep (s.after p e) r := by
  rintro ⟨addr,asleep⟩
  rw [next_thread_other e.thread other (by simp [write])] at asleep
  have mine : .proc r ∈ (s.thread p).pc.locks p ∧ (s.thread p).pc.back = false := by simp [place,Pc.locks,Pc.back]
  -- until it has switched out the sleeper has its own lock
  have out (early : (s.thread r).pc = .sleepState (.wait addr) ∨ (s.thread r).pc = .sleepSched (.wait addr)) : False := by
    obtain ⟨lock,back⟩ := Sleep.wait_lock (q := r) early
    exact other (inv.holds_one lock back mine.1 mine.2).symm
  rcases asleep with early | ⟨early | later,sleeping⟩
  · exact out (.inl early)
  · exact out (.inr early)
  · have before := (next_sleeping sleeping).resolve_right other
    have here := naps.chan r (.wait addr) (.inr later)
    rw [next_slot,write] at sleeping
    simp [before,here,aimed,Sleep.chan] at sleeping

theorem next_woken (moved : Moved nproc s a p e t) {chan : Option Chan} {k r : Nat} {v : Waker}
    (waking : ((s.after p e).thread q).pc.waking = some (chan,k,v)) (caller : .wait ∈ v.locks)
    (aimed : chan = some (.proc r)) (past : r < k) : ¬Asleep (s.after p e) r := by
  intro asleep
  obtain rfl | ne := eq_or_ne q p
  · have thread := next_thread_self (s := s) e.thread (moved.not_self inv)
    -- the process itself is awake
    have other : r ≠ q := by
      rintro rfl
      obtain ⟨addr,place | ⟨place | place,_⟩⟩ := asleep <;> simp [place,Pc.waking] at waking
    have before := (moved.asleep inv asleep).resolve_right fun self => other self.1
    rw [thread] at waking
    rcases procEffect_place moved.effect with ⟨same,_⟩ | ⟨_,_,inner⟩
    · rw [same] at waking
      exact naps.woken q chan k v r waking caller aimed past before
    · rcases inner.waking waking with ⟨same,_⟩ | ⟨j,rfl,place,write⟩ | ⟨rfl,place,_⟩ | ⟨rfl,_⟩
      · exact naps.woken q chan k v r same caller aimed past before
      · obtain earlier | rfl := Nat.lt_or_eq_of_le (Nat.le_of_lt_succ past)
        · exact naps.woken q chan j v r (by simp [place,Pc.waking]) caller aimed earlier before
        · exact naps.next_tested inv place write aimed other asleep
      · obtain earlier | rfl := Nat.lt_or_eq_of_le (Nat.le_of_lt_succ past)
        · exact naps.woken q chan q v r (by simp [place,Pc.waking]) caller aimed earlier before
        · exact other rfl
      · exact Nat.not_lt_zero r past
  · rcases next_thread_cases (s := s) (w := e.write) e.thread ne with same | same
    · rw [same] at waking
      obtain ⟨lock,back⟩ := Pc.waking_locks (p := q) waking caller
      refine naps.woken q chan k v r waking caller aimed past (moved.asleep_held inv lock back ?_ asleep)
      intro addr place
      simp [place,Pc.waking] at waking
    · simp [same,Pc.waking] at waking

theorem next_reparents (moved : Moved nproc s a p e t) {chan : Option Chan} {k i : Nat} {status : Int}
    (waking : ((s.after p e).thread q).pc.waking = some (chan,k,.reparent status i)) :
    chan = some (.proc initproc) ∧ i < nproc := by
  rcases moved.turn inv q with ⟨rfl,same,_⟩ | ⟨rfl,inner⟩ | ⟨ne,same⟩ | ⟨_,same⟩
  · rw [same] at waking
    exact naps.reparents q chan k status i waking
  · rcases inner.waking waking with ⟨same,_⟩ | ⟨j,_,place,_⟩ | ⟨_,place,_⟩ | ⟨_,enters,_⟩
    · exact naps.reparents q chan k status i same
    · exact naps.reparents q chan j status i (by simp [place,Pc.waking])
    · exact naps.reparents q chan q status i (by simp [place,Pc.waking])
    · obtain ⟨_,aimed,bound,_⟩ := enters status i rfl
      exact ⟨aimed,bound⟩
  · rw [same] at waking
    exact naps.reparents q chan k status i waking
  · simp [same,Pc.waking] at waking

theorem next_exits (moved : Moved nproc s a p e t) {chan : Option Chan} {k : Nat} {status : Int}
    (waking : ((s.after p e).thread q).pc.waking = some (chan,k,.exit status)) :
    chan = ((s.after p e).slot q).parent.map .proc := by
  have caller : Lock.wait ∈ (Waker.exit status).locks := by simp [Waker.locks]
  obtain rfl | ne := eq_or_ne q p
  · rw [next_thread_self e.thread (moved.not_self inv)] at waking
    have kept (k' : Nat) (before : (s.thread q).pc.waking = some (chan,k',.exit status))
        (quiet : ∀ r, e.write ≠ .parent q r) : chan = ((s.after q e).slot q).parent.map .proc := by
      obtain ⟨lock,back⟩ := Pc.waking_locks (p := q) before caller
      rw [moved.parent_held inv lock back fun _ => quiet]
      exact naps.exits q chan k' status before
    rcases procEffect_place moved.effect with ⟨same,write,_⟩ | ⟨_,_,inner⟩
    · rw [same] at waking
      refine kept k waking fun r => ?_
      rcases write with write | write <;> simp [write]
    · rcases inner.waking waking with ⟨same,write⟩ | ⟨j,_,place,write⟩ | ⟨_,place,write⟩ | ⟨_,_,enters⟩
      · exact kept k same (by simp [write])
      · exact kept j (by simp [place,Pc.waking]) (by simp [write])
      · exact kept q (by simp [place,Pc.waking]) (by simp [write])
      · obtain ⟨write,aimed,_⟩ := enters status rfl
        rw [next_slot,write]
        exact aimed
  · rcases next_thread_cases (s := s) (w := e.write) e.thread ne with same | same
    · rw [same] at waking
      obtain ⟨lock,back⟩ := Pc.waking_locks (p := q) waking caller
      rw [moved.parent_held inv lock back fun self => absurd self ne]
      exact naps.exits q chan k status waking
    · simp [same,Pc.waking] at waking

theorem next_ended (tree : Tree nproc s) (moved : Moved nproc s a p e t) {status : Int} {r : Nat}
    (place : ((s.after p e).thread q).pc = .exitSelf status ∨ ((s.after p e).thread q).pc = .exitZombie status)
    (parent : ((s.after p e).slot q).parent = some r) : ¬Asleep (s.after p e) r := by
  intro asleep
  rcases moved.turn inv q with ⟨rfl,same,write⟩ | ⟨rfl,inner⟩ | ⟨ne,same⟩ | ⟨_,same⟩
  · rw [same] at place
    have parent' := (next_parent parent).resolve_right (by rcases write with write | write <;> simp [write])
    have before := (moved.asleep inv asleep).resolve_right (by rintro ⟨_,_,addr,mine⟩; simp [mine] at place)
    exact naps.ended q status r place parent' before
  · obtain ⟨self,zombie⟩ := inner.ends status
    rcases place with place | place
    · obtain ⟨write,chan,k,waking,past⟩ := self place
      rw [next_slot,write] at parent
      have before := (moved.asleep inv asleep).resolve_right
        (by rintro ⟨_,_,addr,mine⟩; simp [mine,Pc.waking] at waking)
      have aimed := naps.exits q chan k status waking
      have bound := tree.parent_bound (show (s.slot q).parent = some r from parent)
      refine naps.woken q chan k (.exit status) r waking (by simp [Waker.locks]) ?_ (by omega) before
      simp [aimed,show (s.slot q).parent = some r from parent]
    · obtain ⟨write,mine⟩ := zombie place
      rw [next_slot,write] at parent
      have before := (moved.asleep inv asleep).resolve_right (by rintro ⟨_,_,addr,mine'⟩; simp [mine] at mine')
      exact naps.ended q status r (.inl mine) parent before
  · rw [same] at place
    have held : Lock.wait ∈ (s.thread q).pc.locks q ∧ (s.thread q).pc.back = false := by
      rcases place with place | place <;> simp [place,Pc.locks,Pc.back]
    rw [moved.parent_held inv held.1 held.2 fun self => absurd self ne] at parent
    refine naps.ended q status r place parent (moved.asleep_held inv held.1 held.2 ?_ asleep)
    intro addr mine
    simp [mine] at place
  · simp [same] at place

theorem next_asleep (tree : Tree nproc s) (moved : Moved nproc s a p e t) {j : Nat}
    (asleep : Asleep (s.after p e) q) (parent : ((s.after p e).slot j).parent = some q)
    (zombie : ((s.after p e).slot j).state = .zombie) :
    q = initproc ∧ ∃ r chan k status,
      ((s.after p e).thread r).pc.waking = some (chan,k,.reparent status j) ∧ k ≤ initproc := by
  have thread := next_thread_self (s := s) e.thread (moved.not_self inv)
  rcases next_parent parent with parent' | write
  · rcases next_zombie zombie with zombie' | ⟨rfl,status,write⟩
    · rcases moved.asleep inv asleep with before | ⟨rfl,_,addr,mine⟩
      · obtain ⟨rfl,r,chan,k,status,waking,early⟩ := naps.asleep q j before parent' zombie'
        refine ⟨rfl,r,chan,k,status,?_,early⟩
        obtain ⟨aimed,bound⟩ := naps.reparents r chan k status j waking
        obtain rfl | ne := eq_or_ne r p
        · rw [thread]
          have first : initproc ≠ r := by
            rintro rfl
            have stays := tree.init.2
            unfold Pc.waking at waking
            split at waking <;> simp_all [Pc.exits]
          have here : k = initproc := Nat.le_zero.mp early
          rcases procEffect_place moved.effect with ⟨same,_⟩ | ⟨_,_,inner⟩
          · rwa [same]
          · rcases inner.wakes waking with ⟨later,_⟩ | ⟨place,write⟩ | ⟨_,self | past⟩
            · exact later
            · subst here
              exact absurd asleep (naps.next_tested inv place write aimed first)
            · exact absurd (here.symm.trans self) first
            · have zero : k = 0 := here
              omega
        · obtain ⟨lock,back⟩ := Pc.waking_locks (p := r) waking (by simp [Waker.locks])
          rwa [moved.thread_held inv lock back ne]
      · -- wait has looked at this child
        exact absurd zombie' (naps.scanned q j (by simp [mine,Pc.Scanned]) parent')
    · -- exit has woken the parent before
      obtain ⟨_,mine⟩ := moved.zombie_origin write
      have before := (moved.asleep inv asleep).resolve_right (by rintro ⟨_,_,addr,mine'⟩; simp [mine] at mine')
      exact absurd before (naps.ended j status q (.inr mine) parent')
  · rcases moved.parent_origin write with ⟨normal,⟨place,rfl⟩ | ⟨⟨status,place⟩,_,rfl⟩⟩
    · -- a new process is no zombie
      have build := inv.builds q j 2 (by simp [place,Pc.child])
      rw [next_slot,write] at zombie
      simp [(build.used (by decide)).1] at zombie
    · refine ⟨rfl,p,some (.proc initproc),0,status,?_,Nat.le_refl _⟩
      rw [thread]
      rcases procEffect_place moved.effect with ⟨_,none | yield,_⟩ | ⟨_,_,inner⟩
      · simp [write] at none
      · simp [write] at yield
      · rw [place,write] at inner
        generalize e.op = op at inner
        generalize e.thread.pc = pc' at inner ⊢
        cases inner
        rfl

theorem step (tree : Tree nproc s) (done : Procs.step nproc s a = some t) : Naps nproc t := by
  rcases inv.step_cases done with ⟨p,e,moved⟩ | ⟨slot,_,_,_,scheduled,rfl⟩
  · obtain ⟨_,_,_,rfl⟩ := moved.next
    exact ⟨fun q z => naps.next_chan inv moved,fun q k => naps.next_scanned inv tree moved,
      fun q chan k status i => naps.next_reparents inv moved,fun q chan k status => naps.next_exits inv moved,
      fun q chan k v r => naps.next_woken inv moved,fun q status r => naps.next_ended inv tree moved,
      fun q j => naps.next_asleep inv tree moved⟩
  · have chan (j : Nat) : (slot j).chan = (s.slot j).chan := by rw [(scheduled j).rest]
    have parent (j : Nat) : (slot j).parent = (s.slot j).parent := by rw [(scheduled j).rest]
    have state {j : Nat} {state : PState} (same : (slot j).state = state) (other : state ≠ .running) :
        (s.slot j).state = state := by
      rcases (scheduled j).state with kept | ⟨_,running⟩
      · exact kept.symm.trans same
      · exact absurd (same.symm.trans running) other
    have asleep {q : Nat} (sleeps : Asleep { s with slot := slot } q) : Asleep s q := by
      obtain ⟨addr,place | ⟨place,sleeping⟩⟩ := sleeps
      · exact ⟨addr,.inl place⟩
      · exact ⟨addr,.inr ⟨place,state sleeping (by simp)⟩⟩
    refine ⟨fun q z place => ?_,fun q k scanned old zombie => ?_,naps.reparents,fun q c k status waking => ?_,
      fun q c k v r waking caller aimed past sleeps => ?_,fun q status r place old sleeps => ?_,
      fun q j sleeps old zombie => ?_⟩
    · exact (chan q).trans (naps.chan q z place)
    · exact naps.scanned q k scanned ((parent k).symm.trans old) (state zombie (by simp))
    · simp only [parent]
      exact naps.exits q c k status waking
    · exact naps.woken q c k v r waking caller aimed past (asleep sleeps)
    · exact naps.ended q status r place ((parent q).symm.trans old) (asleep sleeps)
    · exact naps.asleep q j (asleep sleeps) ((parent j).symm.trans old) (state zombie (by simp))

end

theorem start (sz pagetable trapframe : Nat) : Naps nproc (init sz pagetable trapframe) := by
  constructor
  all_goals simp [init,Pc.Scanned,Pc.waking,Asleep]

end Naps

end Xv6.Procs
