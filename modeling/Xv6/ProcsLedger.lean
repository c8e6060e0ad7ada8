import Xv6.ProcsTree

/-! The numbers that `allocpid` gives out, and what becomes of the processes that get them: a process
exits once, and an exit is kept as a zombie until one call of `wait` takes it. -/
namespace Xv6.Procs

open Function

variable {nproc p : Nat} {s t : State} {a : Action} {op : Op} {pc pc' : Pc} {w : Write} {e : Effect} {th : Thread}

structure Ledger (s : State) : Prop where
  nextpid : s.nextpid = int32 s.count ∧ 0 < s.count
  below : ∀ j, (s.slot j).state ≠ .unused → 0 < (s.slot j).serial ∧ (s.slot j).serial < s.count
  pids : ∀ j, (s.slot j).state ≠ .unused → (s.slot j).pid = int32 (s.slot j).serial
  distinct : ∀ i j, (s.slot i).state ≠ .unused → (s.slot j).state ≠ .unused →
    (s.slot i).serial = (s.slot j).serial → i = j
  taken : ∀ q np pid x, (s.thread q).pc = .allocSet np pid x → (0 < x ∧ x < s.count) ∧ pid = int32 x ∧
    (∀ j, (s.slot j).state ≠ .unused → (s.slot j).serial ≠ x) ∧ ∀ r ∈ s.exits, r.serial ≠ x
  takers : ∀ q q' np np' pid pid' x, (s.thread q).pc = .allocSet np pid x → (s.thread q').pc = .allocSet np' pid' x →
    q = q'
  exits_below : ∀ r ∈ s.exits, r.serial < s.count
  exits_once : (s.exits.map Exit.serial).Nodup
  exits_gone : ∀ r ∈ s.exits, ∀ j, (s.slot j).state ≠ .unused → (s.slot j).serial = r.serial → (s.slot j).state = .zombie
  zombies : ∀ j, (s.slot j).state = .zombie → ⟨(s.slot j).serial,(s.slot j).pid,(s.slot j).xstate⟩ ∈ s.exits
  reaps_once : (s.reaps.map Reap.child).Nodup
  reaps_exit : ∀ r ∈ s.reaps, ∃ x ∈ s.exits, x.serial = r.child ∧ x.pid = r.pid ∧ ∀ v, r.status = some v → v = x.status
  reaps_gone : ∀ r ∈ s.reaps, ∀ j, (s.slot j).state ≠ .unused → (s.slot j).serial ≠ r.child
  kept : ∀ r ∈ s.exits, (∃ j, (s.slot j).state = .zombie ∧ (s.slot j).serial = r.serial) ∨
    ∃ r' ∈ s.reaps, r'.child = r.serial

/-! The steps that take no number and end no process. -/

/-- What the ledger knows of a slot that stays in use. -/
structure Alike (slot slot' : Slot) : Prop where
  used : slot.state ≠ .unused
  zombie : slot'.state = .zombie ↔ slot.state = .zombie
  serial : slot'.serial = slot.serial
  pid : slot'.pid = slot.pid
  xstate : slot'.xstate = slot.xstate

/-- `wait` has taken the zombie in slot `j`. -/
structure Taken (s t : State) (r : Reap) (j : Nat) : Prop where
  reaps : t.reaps = r :: s.reaps
  zombie : (s.slot j).state = .zombie
  unused : (t.slot j).state = .unused
  child : r.child = (s.slot j).serial
  pid : r.pid = (s.slot j).pid
  status : ∀ v, r.status = some v → v = (s.slot j).xstate

/-- Slots may be freed; a zombie that is gone has been taken by `wait`. -/
structure Fewer (s t : State) : Prop where
  slot : ∀ j, (t.slot j).state ≠ .unused → Alike (s.slot j) (t.slot j)
  takes : ∀ q np pid x, (t.thread q).pc = .allocSet np pid x → (s.thread q).pc = .allocSet np pid x
  count : t.count = s.count
  nextpid : t.nextpid = s.nextpid
  exits : t.exits = s.exits
  reaps : t.reaps = s.reaps ∧ (∀ j, (s.slot j).state = .zombie → (t.slot j).state = .zombie) ∨
    ∃ r i, Taken s t r i ∧ ∀ j, j ≠ i → (s.slot j).state = .zombie → (t.slot j).state = .zombie

theorem Ledger.fewer (ledger : Ledger s) (fewer : Fewer s t) : Ledger t := by
  have serial {j : Nat} (inUse : (t.slot j).state ≠ .unused) := (fewer.slot j inUse).serial
  have zombieUsed {j : Nat} (zombie : (t.slot j).state = .zombie) : (t.slot j).state ≠ .unused := by simp [zombie]
  constructor
  · rw [fewer.nextpid,fewer.count]
    exact ledger.nextpid
  · intro j inUse
    rw [serial inUse,fewer.count]
    exact ledger.below j (fewer.slot j inUse).used
  · intro j inUse
    rw [serial inUse,(fewer.slot j inUse).pid]
    exact ledger.pids j (fewer.slot j inUse).used
  · intro i j inUse inUse'
    rw [serial inUse,serial inUse']
    exact ledger.distinct i j (fewer.slot i inUse).used (fewer.slot j inUse').used
  · intro q np pid x place
    rw [fewer.count,fewer.exits]
    obtain ⟨below,same,others,past⟩ := ledger.taken q np pid x (fewer.takes q np pid x place)
    refine ⟨below,same,fun j inUse => ?_,past⟩
    rw [serial inUse]
    exact others j (fewer.slot j inUse).used
  · intro q q' np np' pid pid' x place place'
    exact ledger.takers q q' np np' pid pid' x (fewer.takes _ _ _ _ place) (fewer.takes _ _ _ _ place')
  · rw [fewer.exits,fewer.count]
    exact ledger.exits_below
  · rw [fewer.exits]
    exact ledger.exits_once
  · intro r member j inUse
    rw [fewer.exits] at member
    rw [serial inUse,(fewer.slot j inUse).zombie]
    exact ledger.exits_gone r member j (fewer.slot j inUse).used
  · intro j zombie
    have alike := fewer.slot j (zombieUsed zombie)
    rw [fewer.exits,alike.serial,alike.pid,alike.xstate]
    exact ledger.zombies j (alike.zombie.mp zombie)
  · rcases fewer.reaps with ⟨same,_⟩ | ⟨r,i,taken,_⟩
    · rw [same]
      exact ledger.reaps_once
    · rw [taken.reaps,List.map_cons,List.nodup_cons]
      refine ⟨fun member => ?_,ledger.reaps_once⟩
      obtain ⟨r',member,same⟩ := List.mem_map.mp member
      exact ledger.reaps_gone r' member i (by simp [taken.zombie]) (taken.child.symm.trans same.symm)
  · rw [fewer.exits]
    rcases fewer.reaps with ⟨same,_⟩ | ⟨r,i,taken,_⟩
    · rw [same]
      exact ledger.reaps_exit
    · intro r' member
      rw [taken.reaps] at member
      rcases List.mem_cons.mp member with rfl | member
      · exact ⟨_,ledger.zombies i taken.zombie,taken.child.symm,taken.pid.symm,taken.status⟩
      · exact ledger.reaps_exit r' member
  · intro r' member j inUse
    have alike := fewer.slot j inUse
    rw [alike.serial]
    rcases fewer.reaps with ⟨same,_⟩ | ⟨r,i,taken,_⟩
    · exact ledger.reaps_gone r' (same ▸ member) j alike.used
    · rw [taken.reaps] at member
      rcases List.mem_cons.mp member with rfl | member
      · intro same
        have here := ledger.distinct j i alike.used (by simp [taken.zombie]) (same.trans taken.child)
        exact inUse (here ▸ taken.unused)
      · exact ledger.reaps_gone r' member j alike.used
  · intro r' member
    rw [fewer.exits] at member
    have still {j : Nat} (same : (s.slot j).serial = r'.serial) (zombie : (t.slot j).state = .zombie) :
        ∃ j, (t.slot j).state = .zombie ∧ (t.slot j).serial = r'.serial :=
      ⟨j,zombie,(serial (zombieUsed zombie)).trans same⟩
    rcases ledger.kept r' member with ⟨j,zombie,same⟩ | ⟨r'',reaped,same⟩ <;>
      rcases fewer.reaps with ⟨reaps,kept⟩ | ⟨r,i,taken,kept⟩
    · exact .inl (still same (kept j zombie))
    · obtain rfl | ne := eq_or_ne j i
      · exact .inr ⟨r,by simp [taken.reaps],taken.child.trans same⟩
      · exact .inl (still same (kept j ne zombie))
    · exact .inr ⟨r'',reaps ▸ reaped,same⟩
    · exact .inr ⟨r'',by simp [taken.reaps,reaped],same⟩

@[simp] def Write.recorded : Write → Bool
  | .takePid | .alloc .. | .zombie _ => true
  | _ => false

theorem Moved.writes (moved : Moved nproc s a p e t) (inv : Inv nproc s) (some : e.write ≠ .none) :
    (s.slot p).state = .running := by
  have counted : s.noff a.cpu = ((s.thread p).locks p).card := by rw [inv.held.noff,Inv.locks_run moved.mode]
  rcases procEffect_rest counted (inv.interrupted p) moved.effect with ⟨_,_,_,none,_⟩ | ⟨_,stays,_⟩
  · exact absurd none some
  · exact inv.running moved.mode stays

theorem Does.takes {np x : Nat} {pid : Int} (does : Does nproc s p a pc op (.allocSet np pid x) w) :
    pc = .pidTake np ∧ pid = s.nextpid ∧ x = s.count ∧ w = .takePid := by
  cases does
  exact ⟨rfl,rfl,rfl,rfl⟩

namespace Moved

section

variable (moved : Moved nproc s a p e t) (inv : Inv nproc s)
include moved inv

theorem takes {q np x : Nat} {pid : Int} (place : ((s.after p e).thread q).pc = .allocSet np pid x) :
    (s.thread q).pc = .allocSet np pid x ∧ (q = p → e.write = .none ∨ e.write = .yield) ∨
    q = p ∧ pid = s.nextpid ∧ x = s.count ∧ e.write = .takePid := by
  rcases moved.turn inv q with ⟨rfl,same,write⟩ | ⟨rfl,inner⟩ | ⟨ne,same⟩ | ⟨_,same⟩
  · exact .inl ⟨same ▸ place,fun _ => write⟩
  · rw [place] at inner
    exact .inr ⟨rfl,inner.takes.2⟩
  · exact .inl ⟨same ▸ place,fun self => absurd self ne⟩
  · simp [same] at place

theorem alike (plain : e.write.recorded = false) {j : Nat} (inUse : ((s.after p e).slot j).state ≠ .unused) :
    Alike (s.slot j) ((s.after p e).slot j) := by
  have ok := moved.ok
  have self := moved.writes inv
  have set {i : Nat} {f : Slot → Slot} (inUse : ((s.set i f).slot j).state ≠ .unused)
      (here : (f (s.slot i)).state ≠ .unused → Alike (s.slot i) (f (s.slot i))) :
      Alike (s.slot j) ((s.set i f).slot j) := by
    obtain rfl | other := eq_or_ne j i
    · simp only [State.set,update_self] at inUse ⊢
      exact here inUse
    · simp only [State.set,update_of_ne other] at inUse ⊢
      exact ⟨inUse,Iff.rfl,rfl,rfl,rfl⟩
  rw [next_slot] at inUse ⊢
  cases write : e.write with
  | none | leave =>
    rw [write] at inUse
    exact ⟨inUse,Iff.rfl,rfl,rfl,rfl⟩
  | takePid | alloc i pid serial | zombie status => simp [write] at plain
  | yield | sleep chan | wake | setkilled | file fd f | image sz pagetable =>
    have running := self (by simp [write])
    simp only [write,State.write] at inUse ⊢
    exact set inUse fun _ => ⟨by simp [running],by simp [running],rfl,rfl,rfl⟩
  | wakeup chan i | kill i =>
    simp only [write,State.write,wakeup_slot] at inUse ⊢
    refine set inUse fun used => ⟨?_,?_,rfl,rfl,rfl⟩
    · split at used <;> simp_all
    · dsimp only
      split <;> simp_all
  | trapframe i page | pagetable i page | copy i | parent i q =>
    simp only [write,State.write,State.setThread] at inUse ⊢
    exact set inUse fun used => ⟨used,Iff.rfl,rfl,rfl,rfl⟩
  | runnable i =>
    rw [write] at ok
    simp only [write,State.write] at inUse ⊢
    exact set inUse fun _ => ⟨by simp [ok.1],by simp [ok.1],rfl,rfl,rfl⟩
  | free i | reap i stored =>
    simp only [write,State.write] at inUse ⊢
    exact set inUse fun used => absurd rfl used

theorem zombie_stays {j : Nat} (zombie : (s.slot j).state = .zombie) (stays : ∀ stored, e.write ≠ .reap j stored) :
    ((s.after p e).slot j).state = .zombie := by
  have ok := moved.ok
  have self := moved.writes inv
  obtain same | aimed := next_slot_cases s p e.thread e.write j
  · rwa [same]
  · rw [next_slot]
    generalize e.write = w at *
    cases w <;> cases aimed <;> simp_all [Write.Ok]

theorem fewer (plain : e.write.recorded = false) : Fewer s (s.after p e) := by
  refine ⟨fun j => moved.alike inv plain,fun q np pid x place => ?_,?_,?_,?_,?_⟩
  · rcases moved.takes inv place with ⟨before,_⟩ | ⟨_,_,_,write⟩
    · exact before
    · simp [write] at plain
  iterate 3
    · cases write : e.write <;> simp_all [State.next]
  · by_cases takes : ∃ i stored, e.write = .reap i stored
    · obtain ⟨i,stored,write⟩ := takes
      have zombie : (s.slot i).state = .zombie := by
        have ok := moved.ok
        rw [write] at ok
        exact ok.1
      refine .inr ⟨_,i,⟨by simp [State.next,write]; rfl,zombie,?_,rfl,rfl,?_⟩,fun j ne other => ?_⟩
      · rw [next_slot,write]
        simp
      · intro v status
        rw [Option.ite_none_right_eq_some] at status
        exact (Option.some.inj status.2).symm
      · refine moved.zombie_stays inv other fun stored' same => ne ?_
        rw [write,Write.reap.injEq] at same
        exact same.1.symm
    · refine .inl ⟨?_,fun j zombie => moved.zombie_stays inv zombie fun stored write => takes ⟨j,stored,write⟩⟩
      cases write : e.write with
      | reap i stored => exact absurd ⟨i,stored,write⟩ takes
      | _ => simp [State.next,write]

end

end Moved

/-! The steps that the ledger records. -/

theorem int32_succ (n : Int) : int32 (int32 n + 1) = int32 (n + 1) := by
  unfold int32
  omega

namespace Ledger

section

variable (ledger : Ledger s) (inv : Inv nproc s) (moved : Moved nproc s a p e t)
include ledger inv moved

theorem takePid (write : e.write = .takePid) : Ledger (s.after p e) := by
  have slot : (s.after p e).slot = s.slot := by
    rw [next_slot,write]
    rfl
  have count : (s.after p e).count = s.count + 1 := by simp [State.next,write]
  have exits : (s.after p e).exits = s.exits := by simp [State.next,write]
  have reaps : (s.after p e).reaps = s.reaps := by simp [State.next,write]
  constructor
  · rw [count,State.after,write]
    refine ⟨?_,by omega⟩
    show int32 (s.nextpid + 1) = _
    rw [ledger.nextpid.1,int32_succ]
    norm_cast
  · intro j inUse
    rw [slot] at inUse ⊢
    have := ledger.below j inUse
    omega
  · rw [slot]
    exact ledger.pids
  · rw [slot]
    exact ledger.distinct
  · intro q np pid x place
    rw [slot,count,exits]
    rcases moved.takes inv place with ⟨before,_⟩ | ⟨_,rfl,rfl,_⟩
    · obtain ⟨below,rest⟩ := ledger.taken q np pid x before
      exact ⟨by omega,rest⟩
    · refine ⟨⟨ledger.nextpid.2,by omega⟩,ledger.nextpid.1,fun j inUse => ?_,fun r member => ?_⟩
      · exact Nat.ne_of_lt (ledger.below j inUse).2
      · exact Nat.ne_of_lt (ledger.exits_below r member)
  · intro q q' np np' pid pid' x place place'
    rcases moved.takes inv place with ⟨before,_⟩ | ⟨rfl,_,fresh,_⟩ <;>
      rcases moved.takes inv place' with ⟨before',_⟩ | ⟨rfl,_,fresh',_⟩
    · exact ledger.takers q q' np np' pid pid' x before before'
    · have := (ledger.taken q np pid x before).1
      omega
    · have := (ledger.taken q' np' pid' x before').1
      omega
    · rfl
  · intro r member
    rw [exits] at member
    rw [count]
    have := ledger.exits_below r member
    omega
  · rw [exits]
    exact ledger.exits_once
  · rw [exits,slot]
    exact ledger.exits_gone
  · rw [exits,slot]
    exact ledger.zombies
  · rw [reaps]
    exact ledger.reaps_once
  · rw [reaps,exits]
    exact ledger.reaps_exit
  · rw [reaps,slot]
    exact ledger.reaps_gone
  · rw [reaps,exits,slot]
    exact ledger.kept

theorem alloc {np x : Nat} {pid : Int} (write : e.write = .alloc np pid x) : Ledger (s.after p e) := by
  have place : (s.thread p).pc = .allocSet np pid x := by
    have origin := moved.origin (by simp [write]) (by simp [write])
    rw [write] at origin
    exact origin.2
  obtain ⟨below,number,others,past⟩ := ledger.taken p np pid x place
  have unused : (s.slot np).state = .unused := by
    have ok := moved.ok
    rwa [write] at ok
  have self : ((s.after p e).slot np).serial = x ∧ ((s.after p e).slot np).pid = pid ∧
      ((s.after p e).slot np).state = .used := by
    rw [next_slot,write]
    simp
  have other {j : Nat} (ne : j ≠ np) : (s.after p e).slot j = s.slot j := by
    rw [next_slot,write]
    simp [ne]
  have takes {q np' x' : Nat} {pid' : Int} (later : ((s.after p e).thread q).pc = .allocSet np' pid' x') :
      (s.thread q).pc = .allocSet np' pid' x' ∧ q ≠ p := by
    rcases moved.takes inv later with ⟨before,write'⟩ | ⟨_,_,_,take⟩
    · refine ⟨before,fun same => ?_⟩
      simp [write] at write'
      exact write' same
    · simp [write] at take
  have count : (s.after p e).count = s.count := by simp [State.next,write]
  have exits : (s.after p e).exits = s.exits := by simp [State.next,write]
  have reaps : (s.after p e).reaps = s.reaps := by simp [State.next,write]
  constructor
  · simpa [State.next,write] using ledger.nextpid
  · intro j inUse
    rw [count]
    obtain rfl | ne := eq_or_ne j np
    · rwa [self.1]
    · rw [other ne] at inUse ⊢
      exact ledger.below j inUse
  · intro j inUse
    obtain rfl | ne := eq_or_ne j np
    · rwa [self.1,self.2.1]
    · rw [other ne] at inUse ⊢
      exact ledger.pids j inUse
  · intro i j inUse inUse' same
    by_cases here : i = np <;> by_cases there : j = np
    · exact here.trans there.symm
    · rw [here,self.1,other there] at same
      rw [other there] at inUse'
      exact absurd same.symm (others j inUse')
    · rw [there,self.1,other here] at same
      rw [other here] at inUse
      exact absurd same (others i inUse)
    · rw [other here,other there] at same
      rw [other here] at inUse
      rw [other there] at inUse'
      exact ledger.distinct i j inUse inUse' same
  · intro q np' pid' x' later
    obtain ⟨before,ne⟩ := takes later
    obtain ⟨below',number',others',past'⟩ := ledger.taken q np' pid' x' before
    rw [count,exits]
    refine ⟨below',number',fun j inUse => ?_,past'⟩
    obtain rfl | ne' := eq_or_ne j np
    · rw [self.1]
      rintro rfl
      exact ne (ledger.takers _ _ _ _ _ _ _ before place)
    · rw [other ne'] at inUse ⊢
      exact others' j inUse
  · intro q q' _ _ _ _ y later later'
    exact ledger.takers _ _ _ _ _ _ y (takes later).1 (takes later').1
  · rw [exits,count]
    exact ledger.exits_below
  · rw [exits]
    exact ledger.exits_once
  · intro r member j inUse same
    rw [exits] at member
    obtain rfl | ne := eq_or_ne j np
    · rw [self.1] at same
      exact absurd same.symm (past r member)
    · rw [other ne] at inUse same ⊢
      exact ledger.exits_gone r member j inUse same
  · intro j zombie
    have ne : j ≠ np := by
      rintro rfl
      simp [self.2.2] at zombie
    rw [other ne] at zombie ⊢
    rw [exits]
    exact ledger.zombies j zombie
  · rw [reaps]
    exact ledger.reaps_once
  · rw [reaps,exits]
    exact ledger.reaps_exit
  · intro r member j inUse
    rw [reaps] at member
    obtain rfl | ne := eq_or_ne j np
    · obtain ⟨x',member',same,_⟩ := ledger.reaps_exit r member
      rw [self.1,← same]
      exact (past x' member').symm
    · rw [other ne] at inUse ⊢
      exact ledger.reaps_gone r member j inUse
  · intro r member
    rw [exits] at member
    rw [reaps]
    rcases ledger.kept r member with ⟨j,zombie,same⟩ | reaped
    · have ne : j ≠ np := by
        rintro rfl
        simp [unused] at zombie
      exact .inl ⟨j,by rwa [other ne],by rwa [other ne]⟩
    · exact .inr reaped

theorem zombie {status : Int} (write : e.write = .zombie status) : Ledger (s.after p e) := by
  have running := moved.writes inv (by simp [write])
  have busy : (s.slot p).state ≠ .unused := by simp [running]
  have slot (j : Nat) : ((s.after p e).slot j).serial = (s.slot j).serial ∧
      ((s.after p e).slot j).pid = (s.slot j).pid := by
    rw [next_slot,write]
    obtain rfl | ne := eq_or_ne j p
    · simp
    · simp [ne]
  have self : ((s.after p e).slot p).state = .zombie ∧ ((s.after p e).slot p).xstate = status := by
    rw [next_slot,write]
    simp
  have other {j : Nat} (ne : j ≠ p) : (s.after p e).slot j = s.slot j := by
    rw [next_slot,write]
    simp [ne]
  have used {j : Nat} (inUse : ((s.after p e).slot j).state ≠ .unused) : (s.slot j).state ≠ .unused := by
    obtain rfl | ne := eq_or_ne j p
    · exact busy
    · rwa [other ne] at inUse
  have takes {q np x : Nat} {pid : Int} (later : ((s.after p e).thread q).pc = .allocSet np pid x) :
      (s.thread q).pc = .allocSet np pid x := by
    rcases moved.takes inv later with ⟨before,_⟩ | ⟨_,_,_,take⟩
    · exact before
    · simp [write] at take
  have count : (s.after p e).count = s.count := by simp [State.next,write]
  have exits : (s.after p e).exits = ⟨(s.slot p).serial,(s.slot p).pid,status⟩ :: s.exits := by simp [State.next,write]
  have reaps : (s.after p e).reaps = s.reaps := by simp [State.next,write]
  constructor
  · simpa [State.next,write] using ledger.nextpid
  · intro j inUse
    rw [(slot j).1,count]
    exact ledger.below j (used inUse)
  · intro j inUse
    rw [(slot j).1,(slot j).2]
    exact ledger.pids j (used inUse)
  · intro i j inUse inUse'
    rw [(slot i).1,(slot j).1]
    exact ledger.distinct i j (used inUse) (used inUse')
  · intro q np pid x later
    obtain ⟨below,number,others,past⟩ := ledger.taken q np pid x (takes later)
    rw [count,exits]
    refine ⟨below,number,fun j inUse => ?_,fun r member => ?_⟩
    · rw [(slot j).1]
      exact others j (used inUse)
    · rcases List.mem_cons.mp member with rfl | member
      · exact others p busy
      · exact past r member
  · intro q q' _ _ _ _ y later later'
    exact ledger.takers _ _ _ _ _ _ y (takes later) (takes later')
  · intro r member
    rw [count]
    rw [exits] at member
    rcases List.mem_cons.mp member with rfl | member
    · exact (ledger.below p busy).2
    · exact ledger.exits_below r member
  · rw [exits,List.map_cons,List.nodup_cons]
    refine ⟨fun member => ?_,ledger.exits_once⟩
    obtain ⟨r,member,same⟩ := List.mem_map.mp member
    have gone := ledger.exits_gone r member p busy same.symm
    simp [running] at gone
  · intro r member j inUse same
    rw [exits] at member
    rw [(slot j).1] at same
    rcases List.mem_cons.mp member with rfl | member
    · obtain rfl := ledger.distinct j p (used inUse) busy same
      exact self.1
    · have gone := ledger.exits_gone r member j (used inUse) same
      have ne : j ≠ p := by
        rintro rfl
        simp [running] at gone
      rwa [other ne]
  · intro j zombie
    rw [exits,(slot j).1,(slot j).2]
    obtain rfl | ne := eq_or_ne j p
    · rw [self.2]
      exact List.mem_cons_self
    · rw [other ne] at zombie ⊢
      exact List.mem_cons_of_mem _ (ledger.zombies j zombie)
  · rw [reaps]
    exact ledger.reaps_once
  · intro r member
    rw [reaps] at member
    rw [exits]
    obtain ⟨x,member',rest⟩ := ledger.reaps_exit r member
    exact ⟨x,List.mem_cons_of_mem _ member',rest⟩
  · intro r member j inUse
    rw [reaps] at member
    rw [(slot j).1]
    exact ledger.reaps_gone r member j (used inUse)
  · intro r member
    rw [exits] at member
    rw [reaps]
    rcases List.mem_cons.mp member with rfl | member
    · exact .inl ⟨p,self.1,(slot p).1⟩
    · rcases ledger.kept r member with ⟨j,zombie,same⟩ | reaped
      · have ne : j ≠ p := by
          rintro rfl
          simp [running] at zombie
        exact .inl ⟨j,by rwa [other ne],by rwa [other ne]⟩
      · exact .inr reaped

end

theorem step (ledger : Ledger s) (inv : Inv nproc s) (done : Procs.step nproc s a = some t) : Ledger t := by
  rcases inv.step_cases done with ⟨p,e,moved⟩ | ⟨slot,_,_,_,scheduled,rfl⟩
  · have after : Ledger (s.after p e) := by
      cases recorded : e.write.recorded with
      | false => exact ledger.fewer (moved.fewer inv recorded)
      | true =>
        cases write : e.write with
        | takePid => exact ledger.takePid inv moved write
        | alloc np pid x => exact ledger.alloc inv moved write
        | zombie status => exact ledger.zombie inv moved write
        | _ => simp [write] at recorded
    obtain ⟨_,_,_,rfl⟩ := moved.next
    exact ⟨after.1,after.2,after.3,after.4,after.5,after.6,after.7,after.8,after.9,after.10,after.11,after.12,after.13,
      after.14⟩
  · have state (j : Nat) := (scheduled j).state
    refine ledger.fewer ⟨fun j inUse => ?_,fun _ _ _ _ place => place,rfl,rfl,rfl,.inl ⟨rfl,fun j zombie => ?_⟩⟩
    · have serial : (slot j).serial = (s.slot j).serial := by rw [(scheduled j).rest]
      have pid : (slot j).pid = (s.slot j).pid := by rw [(scheduled j).rest]
      have xstate : (slot j).xstate = (s.slot j).xstate := by rw [(scheduled j).rest]
      refine ⟨?_,?_,serial,pid,xstate⟩
      · rcases state j with same | ⟨runnable,_⟩
        · exact same ▸ inUse
        · simp [runnable]
      · rcases state j with same | ⟨runnable,running⟩
        · simp [same]
        · simp [runnable,running]
    · rcases state j with same | ⟨runnable,_⟩
      · exact same.trans zombie
      · simp [runnable] at zombie

theorem start (sz pagetable trapframe : Nat) : Ledger (init sz pagetable trapframe) := by
  have first (j : Nat) (inUse : ((init sz pagetable trapframe).slot j).state ≠ .unused) : j = initproc := by
    by_contra ne
    simp [init,ne] at inUse
  constructor
  · show (2 : Int) = int32 2 ∧ 0 < 2
    decide
  · intro j inUse
    obtain rfl := first j inUse
    simp [init]
  · intro j inUse
    obtain rfl := first j inUse
    simp [init,int32]
  · intro i j inUse inUse' _
    exact (first i inUse).trans (first j inUse').symm
  all_goals try simp [init]
  intro j zombie
  have := first j (by simp_all [init])
  subst this
  simp at zombie

end Ledger

end Xv6.Procs
