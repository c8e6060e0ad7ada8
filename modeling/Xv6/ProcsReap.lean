import Xv6.ProcsWait

/-! Every exit is taken by one call of `wait`, of the process that made the child or of the first one
after that process has called `exit`. -/
namespace Xv6.Procs

variable {nproc p : Nat} {s t : State} {a : Action} {op : Op} {pc pc' : Pc} {w : Write} {e : Effect} {th : Thread}

structure Heirs (s : State) : Prop where
  leaves : ∀ q, (s.slot q).state.Live → (s.thread q).pc.exits = true → (s.slot q).serial ∈ s.leaving
  handed : ∀ j q, (s.slot j).parent = some q → (s.slot j).creator = (s.slot q).serial ∨
    q = initproc ∧ (s.slot j).creator ∈ s.leaving
  tests : ∀ q addr j, (s.thread q).pc = .waitTest addr j → (s.slot j).parent = some q

theorem Does.tests {addr j : Nat} (does : Does nproc s p a pc op (.waitTest addr j) w) :
    (s.slot j).parent = some p ∧ w = .none := by
  cases does
  exact ⟨‹_›,rfl⟩

theorem next_leaving {x : Nat} (member : x ∈ s.leaving) : x ∈ (s.next p th w).leaving := by
  cases w with
  | leave => exact List.mem_cons_of_mem _ member
  | _ => exact member

theorem PState.Live.used {state : PState} (live : state.Live) : state ≠ .unused ∧ state ≠ .used ∧ state ≠ .zombie := by
  rcases live with rfl | rfl | rfl <;> simp

namespace Heirs

theorem next_leaves (heirs : Heirs s) (inv : Inv nproc s) (moved : Moved nproc s a p e t) {q : Nat}
    (live : ((s.after p e).slot q).state.Live)
    (exits : ((s.after p e).thread q).pc.exits = true) :
    ((s.after p e).slot q).serial ∈ (s.after p e).leaving := by
  obtain rfl | ne := eq_or_ne q p
  · rw [next_thread_self e.thread (moved.not_self inv)] at exits
    have before : (s.thread q).pc.exits = true ∨ e.write = .leave := by
      rcases procEffect_place moved.effect with ⟨same,_⟩ | ⟨_,_,inner⟩
      · exact .inl (same ▸ exits)
      · cases inside : (s.thread q).pc.exits with
        | true => exact .inl rfl
        | false =>
          rcases inner.exits inside with outside | write
          · simp [outside] at exits
          · exact .inr write
    rcases before with inside | write
    · have alive : (s.slot q).state.Live := by
        by_cases none : e.write = .none
        · rw [next_slot,none] at live
          exact live
        · simp [moved.writes inv none]
      rw [next_serial e.thread moved.ok alive.used.1]
      exact next_leaving (heirs.leaves q alive inside)
    · rw [State.after,write]
      exact List.mem_cons_self
  · rcases next_thread_cases (s := s) (w := e.write) e.thread ne with same | same
    · rw [same] at exits
      rcases next_born ⟨live.used.1,live.used.2.1⟩ with before | write | self
      · have alive : (s.slot q).state.Live := by
          cases state : (s.slot q).state with
          | unused | used => simp [state] at before
          | zombie =>
            by_cases reaped : ∃ stored, e.write = .reap q stored
            · obtain ⟨stored,write⟩ := reaped
              rw [next_slot,write] at live
              simp at live
            · have still := moved.zombie_stays inv state fun stored write => reaped ⟨stored,write⟩
              exact absurd still live.used.2.2
          | sleeping | runnable | running => simp
        rw [next_serial e.thread moved.ok before.1]
        exact next_leaving (heirs.leaves q alive exits)
      · have ok := moved.ok
        rw [write] at ok
        simp [ok.2.1,Pc.exits,Pc.closing,Site.code] at exits
      · exact absurd self ne
    · simp [same,Pc.exits,Pc.closing,Site.code] at exits

theorem next_handed (heirs : Heirs s) (inv : Inv nproc s) (tree : Tree nproc s) (moved : Moved nproc s a p e t)
    {j q : Nat}
    (parent : ((s.after p e).slot j).parent = some q) :
    ((s.after p e).slot j).creator = ((s.after p e).slot q).serial ∨
      q = initproc ∧ ((s.after p e).slot j).creator ∈ (s.after p e).leaving := by
  rcases next_parent parent with old | write
  · have live := (tree.live j q old).1
    have made : (s.slot j).state ≠ .unused := by
      intro unused
      simp [tree.unused j unused] at old
    rw [next_serial e.thread moved.ok live.used.1,next_creator moved.ok made]
    rcases heirs.handed j q old with maker | ⟨first,left⟩
    · exact .inl maker
    · exact .inr ⟨first,next_leaving left⟩
  · have made : (s.slot j).creator = (s.slot p).serial ∧ (s.slot j).state ≠ .unused ∧
        (q = p ∨ q = initproc ∧ (s.slot p).serial ∈ s.leaving) := by
      rcases moved.parent_origin write with ⟨normal,⟨place,rfl⟩ | ⟨⟨status,place⟩,old,rfl⟩⟩
      · have build := inv.builds q j 2 (by simp [place,Pc.child])
        obtain ⟨used,maker⟩ := build.used (by decide)
        exact ⟨maker,by simp [used],.inl rfl⟩
      · -- the process that exits has called exit, and the first one never does
        have other : p ≠ initproc := by
          rintro rfl
          have stays := tree.init.2
          simp [place,Pc.exits] at stays
        have running := moved.writes inv (by simp [write])
        refine ⟨?_,?_,.inr ⟨rfl,heirs.leaves p (by simp [running]) (by simp [place,Pc.exits])⟩⟩
        · rcases heirs.handed j p old with maker | ⟨first,_⟩
          · exact maker
          · exact absurd first other
        · intro unused
          simp [tree.unused j unused] at old
    have running := moved.writes inv (by simp [write])
    rw [next_creator moved.ok made.2.1,made.1]
    rcases made.2.2 with rfl | ⟨first,left⟩
    · left
      rw [next_serial e.thread moved.ok (by simp [running])]
    · exact .inr ⟨first,next_leaving left⟩

theorem next_tests (heirs : Heirs s) (inv : Inv nproc s) (tree : Tree nproc s) (moved : Moved nproc s a p e t)
    {q addr j : Nat} (place : ((s.after p e).thread q).pc = .waitTest addr j) :
    ((s.after p e).slot j).parent = some q := by
  have kept (before : (s.slot j).parent = some q) (set : ∀ r, e.write ≠ .parent j r)
      (frees : ¬(e.write = .free j ∨ ∃ stored, e.write = .reap j stored)) :
      ((s.after p e).slot j).parent = some q := by
    cases after : ((s.after p e).slot j).parent with
    | some r => exact ((next_parent after).resolve_right (set r)).symm.trans before
    | none =>
      rcases next_orphan after with none | unused
      · simp [none] at before
      · have used : (s.slot j).state ≠ .unused := by
          intro unused
          simp [tree.unused j unused] at before
        exact absurd (next_unused e.thread moved.ok used unused) frees
  rcases moved.turn inv q with ⟨rfl,same,write⟩ | ⟨rfl,inner⟩ | ⟨ne,same⟩ | ⟨_,same⟩
  · refine kept (heirs.tests q addr j (same ▸ place)) (fun r => ?_) ?_
    all_goals rcases write with write | write <;> simp [write]
  · rw [place] at inner
    obtain ⟨parent,write⟩ := inner.tests
    exact kept parent (by simp [write]) (by simp [write])
  · rw [same] at place
    have back : (s.thread q).pc.back = false := by simp [place,Pc.back]
    refine kept (heirs.tests q addr j place) (fun r write => ?_) fun frees => ?_
    · obtain ⟨lock',back'⟩ := moved.wait_lock (.inl ⟨j,r,write⟩)
      exact ne (inv.holds_one (by simp [place,Pc.locks]) back lock' back').symm
    · -- the lock of the child is with this process
      have other : .proc j ∈ (s.thread p).pc.locks p ∧ (s.thread p).pc.back = false := by
        rcases frees with write | ⟨stored,write⟩
        all_goals
          have origin := (moved.origin (by simp [write]) (by simp [write])).2
          rw [write] at origin
        · simp [show (s.thread p).pc = .forkFree j from origin,Pc.locks,Pc.back]
        · obtain ⟨addr',there,_⟩ := origin
          simp [there,Pc.locks,Pc.back]
      exact ne (inv.holds_one (by simp [place,Pc.locks]) back other.1 other.2).symm
  · simp [same] at place

theorem step (heirs : Heirs s) (inv : Inv nproc s) (tree : Tree nproc s) (done : Procs.step nproc s a = some t) :
    Heirs t := by
  rcases inv.step_cases done with ⟨p,e,moved⟩ | ⟨slot,_,_,_,scheduled,rfl⟩
  · obtain ⟨_,_,_,rfl⟩ := moved.next
    exact ⟨fun q => heirs.next_leaves inv moved,fun j q => heirs.next_handed inv tree moved,
      fun q addr j => heirs.next_tests inv tree moved⟩
  · have serial (j : Nat) : (slot j).serial = (s.slot j).serial := by rw [(scheduled j).rest]
    have creator (j : Nat) : (slot j).creator = (s.slot j).creator := by rw [(scheduled j).rest]
    have parent (j : Nat) : (slot j).parent = (s.slot j).parent := by rw [(scheduled j).rest]
    refine ⟨fun q live exits => ?_,fun j q old => ?_,fun q addr j place => (parent j).trans (heirs.tests q addr j place)⟩
    · simp only [serial]
      refine heirs.leaves q ?_ exits
      rcases (scheduled q).state with same | ⟨runnable,_⟩
      · exact same ▸ live
      · simp [runnable]
    · simp only [serial,creator]
      exact heirs.handed j q ((parent j).symm.trans old)

theorem start (sz pagetable trapframe : Nat) : Heirs (init sz pagetable trapframe) := by
  refine ⟨fun q _ exits => ?_,fun j q parent => ?_,fun q addr j place => ?_⟩
  · simp [init,Pc.exits,Pc.closing,Site.code] at exits
  · obtain rfl | ne := eq_or_ne j initproc
    · simp [init] at parent
    · simp [init,ne] at parent
  · simp [init] at place

end Heirs

/-! All runs. -/

/-- What holds of the process table at every step. -/
structure Sound (nproc : Nat) (s : State) : Prop where
  inv : Inv nproc s
  tree : Tree nproc s
  ledger : Ledger s
  naps : Naps nproc s
  heirs : Heirs s

theorem Sound.step (sound : Sound nproc s) (done : Procs.step nproc s a = some t) : Sound nproc t :=
  ⟨sound.inv.step done,sound.tree.step sound.inv done,sound.ledger.step sound.inv done,
    sound.naps.step sound.inv sound.tree done,sound.heirs.step sound.inv sound.tree done⟩

theorem run_sound {sz pagetable trapframe : Nat} {schedule : List Action}
    (ran : Runs.run (step nproc) (init sz pagetable trapframe) schedule = some s) : Sound nproc s :=
  Runs.run_invariant (Sound nproc) (fun _ _ _ sound done => sound.step done)
    ⟨Inv.init ..,Tree.start ..,Ledger.start ..,Naps.start ..,Heirs.start ..⟩ ran

theorem Inv.sleeps (inv : Inv nproc s) {q : Nat} (sleeping : (s.slot q).state = .sleeping) :
    ∃ z, (s.thread q).pc = .sleepSched z ∨ (s.thread q).pc = .sleepBack z := by
  have rests : (s.thread q).Rests .sleeping := by
    by_cases owned : ∃ c, (s.cpu c).mode.owner = some q
    · obtain ⟨c,owner⟩ := owned
      have owned := (inv.fine q).1 c owner
      rw [sleeping] at owned
      cases mode : (s.cpu c).mode with
      | saveSched j n | load j n => simp [mode,Owned] at owned
      | run j =>
        rw [mode] at owned
        rcases owned.1 with ⟨running,_⟩ | ⟨_,rests⟩
        · simp at running
        · exact rests
      | save j n | loadSched j n =>
        rw [mode] at owned
        exact owned.2.1
      | scan j | test j | clear j | release j => simp [mode,Mode.owner] at owner
    · have parked := (inv.fine q).2 fun c owner => owned ⟨c,owner⟩
      rw [sleeping] at parked
      exact parked.2.1
  unfold Thread.Rests at rests
  split at rests
  · simp at rests
  · simp at rests
  · split at rests
    · rename_i z place
      exact ⟨z,.inl place⟩
    · rename_i z place
      exact ⟨z,.inr place⟩
    · simp at rests
    · simp at rests
    · exact rests.elim
  · exact rests.elim

namespace Sound

theorem no_zombie (sound : Sound nproc s) (free : s.lock .wait = none) {q j : Nat}
    (sleeping : (s.slot q).state = .sleeping)
    (chan : (s.slot q).chan = some (.proc q)) (parent : (s.slot j).parent = some q) : (s.slot j).state ≠ .zombie := by
  intro zombie
  obtain ⟨z,place⟩ := sound.inv.sleeps sleeping
  have aimed := sound.naps.chan q z place
  cases z with
  | spin a lk k => simp [chan,Sleep.chan] at aimed
  | wait addr =>
    obtain ⟨_,r,chan,k,status,waking,_⟩ := sound.naps.asleep q j ⟨addr,.inr ⟨place,sleeping⟩⟩ parent zombie
    obtain ⟨lock,back⟩ := Pc.waking_locks (p := r) waking (by simp [Waker.locks])
    obtain ⟨_,c,_,held⟩ := sound.inv.holds lock back
    simp [free] at held

theorem exit_once (sound : Sound nproc s) {x : Exit} (member : x ∈ s.exits) :
    (∃ j, (s.slot j).state = .zombie ∧ (s.slot j).serial = x.serial ∧ (s.slot j).pid = x.pid ∧
      (s.slot j).xstate = x.status) ∧ (s.reaps.map Reap.child).count x.serial = 0 ∨
    (∀ j, (s.slot j).state = .zombie → (s.slot j).serial ≠ x.serial) ∧ (s.reaps.map Reap.child).count x.serial = 1 := by
  have ledger := sound.ledger
  rcases ledger.kept x member with ⟨j,zombie,same⟩ | ⟨r,reaped,same⟩
  · left
    have used : (s.slot j).state ≠ .unused := by simp [zombie]
    have record := List.inj_on_of_nodup_map ledger.exits_once (ledger.zombies j zombie) member same
    refine ⟨⟨j,zombie,same,congrArg Exit.pid record,congrArg Exit.status record⟩,List.count_eq_zero.mpr fun inside => ?_⟩
    obtain ⟨r,reaped,child⟩ := List.mem_map.mp inside
    exact ledger.reaps_gone r reaped j used (same.trans child.symm)
  · right
    refine ⟨fun j zombie here => ?_,List.count_eq_one_of_mem ledger.reaps_once (List.mem_map.mpr ⟨r,reaped,same⟩)⟩
    exact ledger.reaps_gone r reaped j (by simp [zombie]) (here.trans same.symm)

theorem reap_step (sound : Sound nproc s) {r : Reap} (done : Procs.step nproc s a = some t)
    (reaped : t.reaps = r :: s.reaps) :
    ∃ p j addr, (s.cpu a.cpu).mode = .run p ∧ (s.thread p).pc = .waitTest addr j ∧ (s.slot j).state = .zombie ∧
      (s.slot j).parent = some p ∧
      r = ⟨(s.slot p).serial,(s.slot j).serial,(s.slot j).pid,if addr = 0 then none else some (s.slot j).xstate⟩ ∧
      ((s.slot j).creator = (s.slot p).serial ∨ p = initproc ∧ (s.slot j).creator ∈ s.leaving) := by
  rcases sound.inv.step_cases done with ⟨p,e,moved⟩ | ⟨slot,_,_,_,_,rfl⟩
  · obtain ⟨_,_,_,rfl⟩ := moved.next
    change (s.after p e).reaps = r :: s.reaps at reaped
    cases write : e.write with
    | reap j stored =>
      have origin := (moved.origin (by simp [write]) (by simp [write])).2
      rw [write] at origin
      obtain ⟨addr,place,zombie,rfl⟩ := origin
      have parent := sound.heirs.tests p addr j place
      refine ⟨p,j,addr,moved.mode,place,zombie,parent,?_,sound.heirs.handed j p parent⟩
      rw [State.after,write] at reaped
      have head := (List.cons.inj reaped).1
      rw [← head]
      by_cases null : addr = 0 <;> simp [null]
    | _ =>
      rw [State.after,write] at reaped
      exact absurd (congrArg List.length (show s.reaps = r :: s.reaps from reaped)) (by simp)
  · exact absurd (congrArg List.length reaped) (by simp)

theorem copyout_fails (sound : Sound nproc s) {q addr j : Nat} (mode : (s.cpu a.cpu).mode = .run q)
    (place : (s.thread q).pc = .waitTest addr j) (zombie : (s.slot j).state = .zombie) (stores : addr ≠ 0)
    (fails : a.ok = false) (done : Procs.step nproc s a = some t) : t.slot = s.slot ∧ t.reaps = s.reaps := by
  have inv := sound.inv
  simp only [Procs.step,mode] at done
  obtain ⟨e,moved⟩ := inv.performed mode done
  obtain ⟨_,_,_,rfl⟩ := moved.next
  have locks : .wait ∈ (s.thread q).pc.locks q := by simp [place,Pc.locks]
  obtain ⟨normal,_⟩ := inv.holds locks (by simp [place,Pc.back])
  rcases procEffect_place moved.effect with ⟨_,_,quiet⟩ | ⟨_,_,inner⟩
  · -- an interrupt does not come while locks are held
    have none := quiet normal
    rw [inv.held.noff,Inv.locks_run mode,Multiset.card_eq_zero] at none
    simp only [Thread.locks,normal] at none
    simp [none] at locks
  · have write : e.write = .none := by
      rw [place] at inner
      generalize e.op = op at inner
      generalize e.thread.pc = pc' at inner
      generalize e.write = w at inner ⊢
      cases inner <;> simp_all
    exact ⟨by rw [next_slot,write]; rfl,by rw [State.after,write]; rfl⟩

end Sound

/-- A process exits once. Its exit is kept as a zombie until one call of `wait` takes it: a call of
the parent at that time, which made the child or is the first process after the one that made it has
called `exit`. That call returns the pid of the child and stores its status, if it is asked to; one
that cannot store the status leaves every slot as it is. While `wait_lock` is free nobody sleeps in
`wait` with a zombie for a child. -/
theorem exits_reaped_once {sz pagetable trapframe : Nat} {schedule : List Action}
    (ran : Runs.run (step nproc) (init sz pagetable trapframe) schedule = some s) :
    (s.exits.map Exit.serial).Nodup ∧
    (∀ x ∈ s.exits, (∃ j, (s.slot j).state = .zombie ∧ (s.slot j).serial = x.serial ∧ (s.slot j).pid = x.pid ∧
        (s.slot j).xstate = x.status) ∧ (s.reaps.map Reap.child).count x.serial = 0 ∨
      (∀ j, (s.slot j).state = .zombie → (s.slot j).serial ≠ x.serial) ∧
        (s.reaps.map Reap.child).count x.serial = 1) ∧
    (∀ r ∈ s.reaps, ∃ x ∈ s.exits, x.serial = r.child ∧ x.pid = r.pid ∧ ∀ v, r.status = some v → v = x.status) ∧
    (∀ a t r, step nproc s a = some t → t.reaps = r :: s.reaps →
      ∃ p j addr, (s.cpu a.cpu).mode = .run p ∧ (s.thread p).pc = .waitTest addr j ∧ (s.slot j).state = .zombie ∧
        (s.slot j).parent = some p ∧
        r = ⟨(s.slot p).serial,(s.slot j).serial,(s.slot j).pid,if addr = 0 then none else some (s.slot j).xstate⟩ ∧
        ((s.slot j).creator = (s.slot p).serial ∨ p = initproc ∧ (s.slot j).creator ∈ s.leaving)) ∧
    (∀ a t q addr j, (s.cpu a.cpu).mode = .run q → (s.thread q).pc = .waitTest addr j → (s.slot j).state = .zombie →
      addr ≠ 0 → a.ok = false → step nproc s a = some t → t.slot = s.slot ∧ t.reaps = s.reaps) ∧
    (s.lock .wait = none → ∀ q j, (s.slot q).state = .sleeping → (s.slot q).chan = some (.proc q) →
      (s.slot j).parent = some q → (s.slot j).state ≠ .zombie) := by
  have sound := run_sound ran
  exact ⟨sound.ledger.exits_once,fun x => sound.exit_once,sound.ledger.reaps_exit,fun a t r => sound.reap_step,
    fun a t q addr j => sound.copyout_fails,fun free q j => sound.no_zombie free⟩

theorem exits_reaped_once_family : ∃ s, Runs.run (step 2) (init 4096 8192 12288) family = some s ∧
    s.exits = [⟨2,2,7⟩] ∧ s.reaps = [⟨1,2,2,some 7⟩] ∧
    ((∃ j, (s.slot j).state = .zombie ∧ (s.slot j).serial = 2 ∧ (s.slot j).pid = 2 ∧ (s.slot j).xstate = 7) ∧
        (s.reaps.map Reap.child).count 2 = 0 ∨
      (∀ j, (s.slot j).state = .zombie → (s.slot j).serial ≠ 2) ∧ (s.reaps.map Reap.child).count 2 = 1) := by
  exact Runs.reaches (fun s => s.exits = [⟨2,2,7⟩] ∧ s.reaps = [⟨1,2,2,some 7⟩]) (by decide +kernel)
    fun s ran ⟨exits,reaps⟩ => ⟨exits,reaps,(exits_reaped_once ran).2.1 ⟨2,2,7⟩ (by simp [exits])⟩

end Xv6.Procs
