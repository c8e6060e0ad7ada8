import Xv6.ProcsSafe

/-! The parents of the processes: a parent is alive, and it made the child or is the first process. -/
namespace Xv6.Procs

open Function

variable {nproc p : Nat} {s t : State} {a : Action} {op : Op} {pc pc' : Pc} {w : Write} {e : Effect} {th : Thread}

@[simp] def PState.Live (state : PState) : Prop := state = .sleeping ∨ state = .runnable ∨ state = .running

/-! What an assignment does to the fields of a slot. -/

theorem next_parent {j q : Nat} (parent : ((s.next p th w).slot j).parent = some q) :
    (s.slot j).parent = some q ∨ w = .parent j q := by
  obtain same | aimed := next_slot_cases s p th w j
  · exact .inl (same ▸ parent)
  · rw [next_slot] at parent
    cases w <;> cases aimed <;> simp only [State.write,wakeup_slot,State.setThread,State.set,update_self] at parent <;>
      simp_all

theorem next_orphan {j : Nat} (orphan : ((s.next p th w).slot j).parent = none) :
    (s.slot j).parent = none ∨ ((s.next p th w).slot j).state = .unused := by
  obtain same | aimed := next_slot_cases s p th w j
  · exact .inl (same ▸ orphan)
  · rw [next_slot] at orphan ⊢
    cases w <;> cases aimed <;> simp only [State.write,wakeup_slot,State.setThread,State.set,update_self] at orphan ⊢ <;>
      simp_all

theorem next_creator (ok : w.Ok s) {j : Nat} (used : (s.slot j).state ≠ .unused) :
    ((s.next p th w).slot j).creator = (s.slot j).creator := by
  obtain same | aimed := next_slot_cases s p th w j
  · rw [same]
  · rw [next_slot]
    cases w <;> cases aimed <;> simp only [State.write,wakeup_slot,State.setThread,State.set,update_self] <;>
      simp_all [Write.Ok]

theorem next_live (ok : w.Ok s) {q : Nat} (live : (s.slot q).state.Live) :
    ((s.next p th w).slot q).state.Live ∨ q = p ∧ ∃ status, w = .zombie status := by
  obtain same | aimed := next_slot_cases s p th w q
  · exact .inl (same.symm ▸ live)
  · rw [next_slot]
    cases w <;> cases aimed <;> simp only [State.write,wakeup_slot,State.setThread,State.set,update_self] <;>
      (try split) <;> simp_all [Write.Ok]

theorem next_born {j : Nat} (born : ((s.next p th w).slot j).state ≠ .unused ∧ ((s.next p th w).slot j).state ≠ .used) :
    (s.slot j).state ≠ .unused ∧ (s.slot j).state ≠ .used ∨ w = .runnable j ∨ j = p := by
  obtain same | aimed := next_slot_cases s p th w j
  · exact .inl (same ▸ born)
  · rw [next_slot] at born
    cases w <;> cases aimed <;> simp only [State.write,wakeup_slot,State.setThread,State.set,update_self] at born <;>
      (try split at born) <;> simp_all

/-! Where an assignment is made. -/

/-- The place of the statement that makes an assignment, and what was tested before it. -/
def Write.Origin (s : State) (p : Nat) (pc : Pc) : Write → Prop
  | .none => True
  | .yield => False
  | .sleep chan => ∃ z, pc = .sleepState z ∧ chan = z.chan p
  | .wake => ∃ z, pc = .sleepBack z
  | .setkilled => ∃ k, pc = .setkilledWrite k
  | .file fd f => ∃ k, pc = .site k ∧ fd < nofile ∧ (k.closing = Option.none ∨ f = Option.none)
  | .image _ table => ∃ k, pc = .site k ∧ k.closing = Option.none ∧ table ≠ 0
  | .leave => pc = .site .code ∧ p ≠ initproc
  | .zombie status => pc = .exitZombie status
  | .wakeup chan j => ∃ v, pc = .wakeTest chan j v
  | .kill j => pc = .killTest (s.slot j).pid j
  | .takePid => ∃ np, pc = .pidTake np
  | .alloc np pid serial => pc = .allocSet np pid serial
  | .trapframe np page => pc = .allocTrapframe np ∧ page ≠ 0
  | .pagetable np page => pc = .allocPagetable np ∧ page ≠ 0
  | .copy np => pc = .forkCopy np
  | .free np => pc = .forkFree np
  | .parent j q => pc = .forkParent j ∧ q = p ∨
      (∃ status, pc = .exitReparent status j) ∧ (s.slot j).parent = some p ∧ q = initproc
  | .runnable np => pc = .forkRunnable np
  | .reap j stored => ∃ addr, pc = .waitTest addr j ∧ (s.slot j).state = .zombie ∧ stored = decide (addr ≠ 0)

theorem Does.origin (does : Does nproc s p a pc op pc' w) : w.Origin s p pc := by
  cases does <;> simp_all [Write.Origin]

theorem procEffect_origin (effect : procEffect nproc s p a = some e) :
    e.write = .none ∨ e.write = .yield ∧ (s.thread p).yielding = some .state ∨
    (s.thread p).yielding = none ∧ e.write.Origin s p (s.thread p).pc := by
  cases procEffect_takes effect with
  | yield stage yielding => cases stage <;> simp [yieldEffect,yielding]
  | interrupt normal idle => exact .inl rfl
  | place op pc w normal does => exact .inr (.inr ⟨normal,does.origin⟩)

/-! The invariant. -/

namespace Pc

def closing : Pc → Bool
  | .site k | .setkilledAcquire k | .setkilledWrite k | .killedAcquire (.site k) | .killedRead (.site k) |
    .wakeAcquire _ _ (.site k) | .wakeTest _ _ (.site k) | .sleepAcquire (.spin _ _ k) | .sleepRelease (.spin _ _ k) |
    .sleepState (.spin _ _ k) | .sleepSched (.spin _ _ k) | .sleepBack (.spin _ _ k) | .sleepReacquire (.spin _ _ k) =>
    k.closing.isSome
  | _ => false

def exits : Pc → Bool
  | .exitAcquire _ | .exitReparent .. | .exitSelf _ | .exitZombie _ | .exitSched | .exitGone |
    .wakeAcquire _ _ (.reparent ..) | .wakeTest _ _ (.reparent ..) | .wakeAcquire _ _ (.exit _) |
    .wakeTest _ _ (.exit _) => true
  | pc => pc.closing

/-- `reparent` has looked at slot `k`. -/
def Passed (k : Nat) : Pc → Prop
  | .exitReparent _ j => k < j
  | .wakeAcquire _ _ (.reparent _ j) | .wakeTest _ _ (.reparent _ j) => k ≤ j
  | .wakeAcquire _ _ (.exit _) | .wakeTest _ _ (.exit _) | .exitSelf _ | .exitZombie _ => True
  | _ => False

theorem Passed.exits {pc : Pc} {k : Nat} (passed : pc.Passed k) : pc.exits = true := by
  unfold Pc.Passed at passed
  split at passed
  all_goals first | exact passed.elim | rfl

end Pc

theorem Does.exits (does : Does nproc s p a pc op pc' w) (stays : pc.exits = false) : pc'.exits = false ∨ w = .leave := by
  cases does
  case sleepAcquire z | sleepRelease z | sleepState z | sleepSched z | sleepBack z => cases z <;> exact .inl stays
  case killedAcquire r => cases r <;> exact .inl stays
  case wakeSelf chan j v _ | wakeAcquire chan j v _ _ | wakeTest chan j v => cases v <;> simp_all [Pc.exits,Pc.closing]
  all_goals simp_all [Pc.exits,Pc.closing,Site.code]

/-- The first process never calls `exit`. -/
theorem Does.stays (does : Does nproc s initproc a pc op pc' w) (stays : pc.exits = false) : pc'.exits = false := by
  rcases does.exits stays with stays | rfl
  · exact stays
  · exact absurd rfl does.origin.2

theorem Does.passed {k : Nat} (does : Does nproc s p a pc op pc' w) (passed : pc'.Passed k) :
    pc.Passed k ∨ (s.slot k).parent ≠ some p ∧ w = .none ∨ w = .parent k initproc ∨ nproc ≤ k := by
  cases does
  case wakeSelf chan j v _ | wakeAcquire chan j v _ _ | wakeTest chan j v => cases v <;> simp_all [Pc.Passed]
  case wakeReparent chan j status i past => exact .inl (Nat.le_of_lt_succ passed)
  case reparent status j bound child =>
    obtain before | rfl := Nat.lt_or_eq_of_le passed
    · exact .inl before
    · exact .inr (.inr (.inl rfl))
  case reparentNext status j other =>
    obtain before | rfl := Nat.lt_or_eq_of_le (Nat.le_of_lt_succ passed)
    · exact .inl before
    · exact .inr (.inl ⟨other,rfl⟩)
  case reparented status j past =>
    by_cases before : k < j
    · exact .inl before
    · exact .inr (.inr (.inr (by omega)))
  all_goals simp_all [Pc.Passed]

structure Tree (nproc : Nat) (s : State) : Prop where
  live : ∀ j q, (s.slot j).parent = some q →
    (s.slot q).state.Live ∧ ((s.slot j).creator = (s.slot q).serial ∨ q = initproc)
  child : ∀ j, j ≠ initproc → (s.slot j).state ≠ .unused ∧ (s.slot j).state ≠ .used → (s.slot j).parent ≠ none
  bound : ∀ j, (s.slot j).parent ≠ none → j < nproc
  unused : ∀ j, (s.slot j).state = .unused → (s.slot j).parent = none
  init : (s.slot initproc).state.Live ∧ (s.thread initproc).pc.exits = false
  passed : ∀ q k, (s.thread q).pc.Passed k → (s.slot k).parent ≠ some q

namespace Moved

section

variable (moved : Moved nproc s a p e t)
include moved

theorem running (inv : Inv nproc s) (normal : (s.thread p).yielding = none) (place : (s.thread p).pc.sched = false) :
    (s.slot p).state = .running :=
  inv.running moved.mode (by simp [Thread.Leaving,normal,place])

theorem origin (some : e.write ≠ .none) (other : e.write ≠ .yield) :
    (s.thread p).yielding = none ∧ e.write.Origin s p (s.thread p).pc := by
  rcases procEffect_origin moved.effect with none | ⟨yield,_⟩ | origin
  · exact absurd none some
  · exact absurd yield other
  · exact origin

theorem parent_origin {j q : Nat} (write : e.write = .parent j q) :
    (s.thread p).yielding = none ∧ ((s.thread p).pc = .forkParent j ∧ q = p ∨
      (∃ status, (s.thread p).pc = .exitReparent status j) ∧ (s.slot j).parent = some p ∧ q = initproc) := by
  have origin := moved.origin (by simp [write]) (by simp [write])
  rwa [write] at origin

theorem zombie_origin {status : Int} (write : e.write = .zombie status) :
    (s.thread p).yielding = none ∧ (s.thread p).pc = .exitZombie status := by
  have origin := moved.origin (by simp [write]) (by simp [write])
  rwa [write] at origin

theorem runnable_origin {np : Nat} (write : e.write = .runnable np) :
    (s.thread p).yielding = none ∧ (s.thread p).pc = .forkRunnable np := by
  have origin := moved.origin (by simp [write]) (by simp [write])
  rwa [write] at origin

end

end Moved

namespace Tree

section

variable (tree : Tree nproc s) (inv : Inv nproc s) (moved : Moved nproc s a p e t)
include tree inv moved

theorem next_live_parent {j q : Nat} (parent : ((s.after p e).slot j).parent = some q) :
    ((s.after p e).slot q).state.Live ∧
      (((s.after p e).slot j).creator = ((s.after p e).slot q).serial ∨ q = initproc) := by
  rcases next_parent parent with old | write
  · obtain ⟨alive,maker⟩ := tree.live j q old
    have used : (s.slot q).state ≠ .unused := by
      rcases alive with alive | alive | alive <;> simp [alive]
    have made : (s.slot j).state ≠ .unused := by
      intro unused
      simp [tree.unused j unused] at old
    rw [next_serial e.thread moved.ok used,next_creator moved.ok made]
    refine ⟨?_,maker⟩
    rcases next_live (p := p) moved.ok alive with live | ⟨rfl,status,write⟩
    · exact live
    · -- a process that becomes a zombie has no children left
      obtain ⟨_,place⟩ := moved.zombie_origin write
      exact absurd old (tree.passed q j (by simp [place,Pc.Passed]))
  · obtain ⟨normal,⟨place,rfl⟩ | ⟨_,_,rfl⟩⟩ := moved.parent_origin write
    · have running := moved.running inv normal (by simp [place,Pc.sched])
      have build := inv.builds q j 2 (by simp [place,Pc.child])
      have apart := build.apart running
      rw [next_slot,write]
      refine ⟨?_,.inl ?_⟩
      · simp [apart.symm,running]
      · simpa [apart.symm] using (build.used (by decide)).2
    · refine ⟨?_,.inr rfl⟩
      rcases next_live (p := p) moved.ok tree.init.1 with live | ⟨_,status,zombie⟩
      · exact live
      · simp [write] at zombie

theorem next_child {j : Nat} (other : j ≠ initproc)
    (alive : ((s.after p e).slot j).state ≠ .unused ∧ ((s.after p e).slot j).state ≠ .used)
    :
    ((s.after p e).slot j).parent ≠ none := by
  intro orphan
  rcases next_orphan orphan with none | unused
  · rcases next_born alive with before | write | rfl
    · exact tree.child j other before none
    · have build := inv.builds p j 3 (by simp [(moved.runnable_origin write).2,Pc.child])
      simp [build.parent (by decide)] at none
    · have owned := (inv.fine j).1 a.cpu (by simp [moved.mode,Mode.owner])
      exact tree.child j other owned.in_use none
  · exact alive.1 unused

theorem next_bound {j : Nat} (parent : ((s.after p e).slot j).parent ≠ none) : j < nproc := by
  obtain ⟨q,parent⟩ := Option.ne_none_iff_exists'.mp parent
  rcases next_parent parent with old | write
  · exact tree.bound j (by simp [old])
  · obtain ⟨_,⟨place,_⟩ | ⟨_,old,_⟩⟩ := moved.parent_origin write
    · exact (inv.builds p j 2 (by simp [place,Pc.child])).bound
    · exact tree.bound j (by simp [old])

theorem next_unused_parent {j : Nat} (unused : ((s.after p e).slot j).state = .unused) :
    ((s.after p e).slot j).parent = none := by
  by_cases before : (s.slot j).state = .unused
  · by_contra parent
    obtain ⟨q,parent⟩ := Option.ne_none_iff_exists'.mp parent
    have none := tree.unused j before
    rcases next_parent parent with old | write
    · simp [none] at old
    · obtain ⟨_,⟨place,_⟩ | ⟨_,old,_⟩⟩ := moved.parent_origin write
      · have build := inv.builds p j 2 (by simp [place,Pc.child])
        simp [(build.used (by decide)).1] at before
      · simp [none] at old
  · rw [next_slot]
    rcases next_unused e.thread moved.ok before unused with write | ⟨stored,write⟩
    · simp [write]
    · simp [write]

end

theorem next_init (tree : Tree nproc s) (moved : Moved nproc s a p e t) :
    ((s.after p e).slot initproc).state.Live ∧
    ((s.after p e).thread initproc).pc.exits = false := by
  obtain ⟨alive,stays⟩ := tree.init
  constructor
  · rcases next_live (p := p) moved.ok alive with live | ⟨rfl,status,write⟩
    · exact live
    · obtain ⟨_,place⟩ := moved.zombie_origin write
      simp [place,Pc.exits] at stays
  · obtain rfl | self := eq_or_ne initproc p
    · have other : ∀ page, e.write ≠ .pagetable initproc page := by
        intro page write
        have ok := moved.ok
        rw [write] at ok
        rcases alive with alive | alive | alive <;> simp [Write.Ok,alive] at ok
      rw [next_thread_self e.thread other]
      rcases procEffect_place moved.effect with ⟨same,_⟩ | ⟨_,_,inner⟩
      · rwa [same]
      · exact inner.stays stays
    · rcases next_thread_cases (s := s) (w := e.write) e.thread self with same | same
      · rwa [same]
      · rw [same]
        rfl

theorem next_passed (tree : Tree nproc s) (moved : Moved nproc s a p e t) (inv : Inv nproc s) {q k : Nat}
    (passed : ((s.after p e).thread q).pc.Passed k) :
    ((s.after p e).slot k).parent ≠ some q := by
  have stays := (tree.next_init moved).2
  have ne : q ≠ initproc := by
    rintro rfl
    simp [passed.exits] at stays
  intro parent
  rcases moved.turn inv q with ⟨rfl,same,write⟩ | ⟨rfl,inner⟩ | ⟨self,same⟩ | ⟨_,same⟩
  · rw [same] at passed
    rcases next_parent parent with old | set
    · exact tree.passed q k passed old
    · rcases write with write | write <;> simp [set] at write
  · rcases next_parent parent with old | write
    · rcases inner.passed passed with before | ⟨nobody,_⟩ | write | outside
      · exact tree.passed q k before old
      · exact nobody old
      · rw [next_slot,write] at parent
        exact ne (by simpa [eq_comm] using parent)
      · have bound := tree.bound k (by simp [old])
        omega
    · obtain ⟨_,⟨place,_⟩ | ⟨_,_,first⟩⟩ := moved.parent_origin write
      · rw [place,write] at inner
        generalize e.op = op at inner
        generalize ((s.after q e).thread q).pc = pc' at inner passed
        cases inner
        exact passed
      · exact ne first
  · rw [same] at passed
    rcases next_parent parent with old | write
    · exact tree.passed q k passed old
    · obtain ⟨_,⟨_,mine⟩ | ⟨_,_,first⟩⟩ := moved.parent_origin write
      · exact self mine
      · exact ne first
  · rw [same] at passed
    exact passed.elim

theorem step (tree : Tree nproc s) (inv : Inv nproc s) (done : Procs.step nproc s a = some t) : Tree nproc t := by
  rcases inv.step_cases done with ⟨p,e,moved⟩ | ⟨slot,_,_,_,scheduled,rfl⟩
  · obtain ⟨_,_,_,rfl⟩ := moved.next
    exact ⟨fun j q => tree.next_live_parent inv moved,fun j => tree.next_child inv moved,
      fun j => tree.next_bound inv moved,fun j => tree.next_unused_parent inv moved,tree.next_init moved,
      fun q k => tree.next_passed moved inv⟩
  · have parent (j : Nat) : (slot j).parent = (s.slot j).parent := by rw [(scheduled j).rest]
    have creator (j : Nat) : (slot j).creator = (s.slot j).creator := by rw [(scheduled j).rest]
    have serial (j : Nat) : (slot j).serial = (s.slot j).serial := by rw [(scheduled j).rest]
    have live (j : Nat) (alive : (s.slot j).state.Live) : (slot j).state.Live := by
      rcases (scheduled j).state with same | ⟨_,running⟩
      · rwa [same]
      · simp [running]
    refine ⟨fun j q old => ?_,fun j other alive => ?_,fun j => ?_,fun j unused => ?_,⟨live _ tree.init.1,tree.init.2⟩,
      fun q k passed => ?_⟩
    · simp only [parent] at old
      obtain ⟨alive,maker⟩ := tree.live j q old
      simp only [creator,serial]
      exact ⟨live q alive,maker⟩
    · simp only [parent]
      refine tree.child j other ?_
      rcases (scheduled j).state with same | ⟨runnable,_⟩
      · rwa [← same]
      · simp [runnable]
    · simp only [parent]
      exact tree.bound j
    · simp only [parent]
      refine tree.unused j ?_
      rcases (scheduled j).state with same | ⟨_,running⟩
      · rwa [← same]
      · simp [running] at unused
    · simp only [parent]
      exact tree.passed q k passed

theorem start (sz pagetable trapframe : Nat) : Tree nproc (Procs.init sz pagetable trapframe) := by
  have none (j : Nat) : ((Procs.init sz pagetable trapframe).slot j).parent = none := by
    obtain rfl | ne := eq_or_ne j initproc
    · simp [Procs.init]
    · simp [Procs.init,ne]
  refine ⟨by simp [none],fun j other => ?_,by simp [none],by simp [none],?_,by simp [none]⟩
  · simp [Procs.init,other]
  · simp [Procs.init,Pc.exits,Pc.closing,Site.code]

end Tree

theorem run_tree {sz pagetable trapframe : Nat} {schedule : List Action}
    (ran : Runs.run (step nproc) (init sz pagetable trapframe) schedule = some s) : Inv nproc s ∧ Tree nproc s :=
  Runs.run_invariant (fun s => Inv nproc s ∧ Tree nproc s)
    (fun _ _ _ before done => ⟨before.1.step done,before.2.step before.1 done⟩) ⟨Inv.init ..,Tree.start ..⟩ ran

/-- Every process but the first has a parent that has not exited, and the parent is the process that
made it or the first one. A slot that is free or being filled is nobody's parent. This holds while
`wait_lock` is held, too. -/
theorem parents_are_live {sz pagetable trapframe : Nat} {schedule : List Action}
    (ran : Runs.run (step nproc) (init sz pagetable trapframe) schedule = some s) :
    (∀ j, j ≠ initproc → (s.slot j).state ≠ .unused → (s.slot j).state ≠ .used →
      ∃ q, (s.slot j).parent = some q ∧ (s.slot q).state.Live ∧
        ((s.slot j).creator = (s.slot q).serial ∨ q = initproc)) ∧
    ∀ q, (s.slot q).state = .unused ∨ (s.slot q).state = .used → ∀ j, (s.slot j).parent ≠ some q := by
  have tree := (run_tree ran).2
  constructor
  · intro j other used busy
    obtain ⟨q,parent⟩ := Option.ne_none_iff_exists'.mp (tree.child j other ⟨used,busy⟩)
    exact ⟨q,parent,tree.live j q parent⟩
  · intro q idle j parent
    have live := (tree.live j q parent).1
    rcases idle with idle | idle <;> simp [idle] at live

theorem parents_are_live_family : ∃ s, Runs.run (step 2) (init 4096 8192 12288) (family.take 140) = some s ∧
    (s.slot 1).state = .zombie ∧ ∃ q, (s.slot 1).parent = some q ∧ (s.slot q).state.Live ∧
      ((s.slot 1).creator = (s.slot q).serial ∨ q = initproc) := by
  exact Runs.reaches (fun s => (s.slot 1).state = .zombie) (by decide +kernel) fun s ran zombie =>
    ⟨zombie,(parents_are_live ran).1 1 (by decide) (by simp [zombie]) (by simp [zombie])⟩

end Xv6.Procs
