import Xv6.SchedSafe

/-! No wakeup is lost: what a call of `sleep` goes through, and why a `wakeup` that starts under
its lock finds the process. -/
namespace Xv6.Sched

variable {ι κ δ : Type} {M : Machine ι κ δ}

def Pc.enters : Pc κ → Option (Nat × Nat)
  | .sleepAcquire chan lk _ | .sleepRelease chan lk _ => some (chan,lk)
  | _ => none

@[simp] def Pc.waits : Pc κ → Option Nat
  | .sleepChan chan .. | .sleepState chan .. | .sleepSched chan .. | .sleepBack chan .. => some chan
  | _ => none

namespace Proc

/-- Asleep on a channel, or on the way there with no way back. -/
def Waiting (pr : Proc κ) (chan : Nat) : Prop := pr.pc.waits = some chan ∧ (pr.pc.back = true → pr.state = .sleeping)

/-- The call of `sleep` with this number has been woken. -/
def Woken (pr : Proc κ) (call : Nat) : Prop :=
  call < pr.calls ∨ pr.calls = call ∧ pr.pc.enters = none ∧ (pr.pc.waits ≠ none → pr.pc.back = true ∧
    pr.state ≠ .sleeping)

theorem Woken.awake {pr : Proc κ} {p call : Nat} (woken : pr.Woken call) (fine : pr.Fine p) :
    ¬(pr.state = .sleeping ∧ pr.calls = call) := by
  rintro ⟨asleep,current⟩
  rcases woken with later | ⟨_,_,back⟩
  · omega
  · have inside : pr.pc.waits ≠ none := by
      rcases (fine.asleep asleep).2 with place | place <;> cases pc : pr.pc <;> simp_all [Pc.sched,Pc.back]
    exact (back inside).2 asleep

end Proc

/-! One step, from the side of one process. -/

/-- A process takes a step of its own, is switched to, or is at most woken or killed. -/
inductive Changes (M : Machine ι κ δ) (s : State κ δ) (a : Action ι) (q : Nat) (pr' : Proc κ) : Prop
  | own (here : s.cpu a.cpu = .running q)
      (poked : Proc.Poked (procEffect M q (s.proc q) s.data (s.held a.cpu) a).self pr')
  | switch (ready : (s.proc q).state = .runnable) (same : pr' = { s.proc q with state := .running })
  | other (away : s.cpu a.cpu ≠ .running q) (poked : Proc.Poked (s.proc q) pr')

variable {s t : State κ δ} {a : Action ι} {p q chan lk call : Nat}

theorem Inv.changes (inv : Inv M s) (stepped : Sched.step M s a = some t) (q : Nat) : Changes M s a q (t.proc q) := by
  cases mode : s.cpu a.cpu with
  | scan j =>
    simp only [Sched.step,mode] at stepped
    obtain ⟨u,taken,rfl⟩ := Option.map_eq_some_iff.mp stepped
    obtain ⟨_,rfl⟩ := State.acquire_eq taken
    exact .other (by simp [mode]) (.refl _)
  | test j =>
    simp only [Sched.step,mode] at stepped
    split at stepped
    · rename_i ready
      cases stepped
      obtain rfl | here := eq_or_ne q j
      · exact .switch ready (by simp)
      · refine .other (by simp [mode]) ?_
        simpa [here] using Proc.Poked.refl (s.proc q)
    · cases stepped
      exact .other (by simp [mode]) (.refl _)
  | back j =>
    simp only [Sched.step,mode] at stepped
    obtain ⟨u,left,rfl⟩ := Option.map_eq_some_iff.mp stepped
    obtain ⟨_,rfl⟩ := State.release_eq left
    exact .other (by simp [mode]) (.refl _)
  | running p =>
    obtain ⟨u,acts,rfl⟩ := inv.acts mode stepped
    have poked := u.write_poked p (procEffect M p (s.proc p) s.data (s.held a.cpu) a) q
    rw [acts.switched.proc] at poked
    obtain rfl | here := eq_or_ne q p
    · rw [if_pos rfl] at poked
      exact .own mode poked
    · rw [if_neg here] at poked
      refine .other (fun at_ => here ?_) poked
      rw [mode] at at_
      exact (Cpu.running.inj at_).symm

/-! The stages of a call. -/

namespace Proc

variable {pr pr' : Proc κ}

theorem Poked.waiting (poked : Poked pr pr') (waiting : pr.Waiting chan) : pr'.Waiting chan ∨ pr'.Woken pr.calls := by
  rcases poked.state with same | ⟨_,woken⟩
  · left
    rw [Waiting,poked.pc,same]
    exact waiting
  · by_cases back : pr.pc.back = true
    · right
      refine .inr ⟨poked.calls,?_,fun _ => ⟨poked.pc ▸ back,by simp [woken]⟩⟩
      rw [poked.pc]
      cases pc : pr.pc <;> simp_all [Pc.back,Pc.enters]
    · left
      rw [Waiting,poked.pc]
      exact ⟨waiting.1,fun h => absurd h back⟩

theorem Poked.woken (poked : Poked pr pr') (woken : pr.Woken call) : pr'.Woken call := by
  rcases woken with later | ⟨current,outside,back⟩
  · exact .inl (poked.calls ▸ later)
  · refine .inr ⟨poked.calls.trans current,by rw [poked.pc,outside],fun inside => ?_⟩
    rw [poked.pc] at inside ⊢
    obtain ⟨place,awake⟩ := back inside
    refine ⟨place,?_⟩
    rcases poked.state with same | ⟨_,woken⟩
    · rwa [same]
    · simp [woken]

end Proc

section Own

variable {pr : Proc κ} {data : δ} {held : List Lock}

theorem codeEffect_calls (M : Machine ι κ δ) (p : Nat) (pr : Proc κ) (data : δ) (input : ι) (k : κ) :
    (codeEffect M p pr data input k).self.pc.waits = none ∧
      ((codeEffect M p pr data input k).self.calls = pr.calls ∧ (codeEffect M p pr data input k).self.pc.enters = none ∨
        (codeEffect M p pr data input k).self.calls = pr.calls + 1) := by
  unfold codeEffect
  cases M.instr p k <;> simp [Pc.enters]

theorem procEffect_busy (normal : pr.yielding = none) (busy : held ≠ []) :
    procEffect M p pr data held a = pcEffect M p pr data a.input := by
  simp [procEffect,normal,busy]

theorem enters_own (M : Machine ι κ δ) (p : Nat) (data : δ) (enters : pr.pc.enters = some (chan,lk)) (input : ι) :
    (pcEffect M p pr data input).self.calls = pr.calls ∧ (pcEffect M p pr data input).self.yielding = pr.yielding ∧
      ((pcEffect M p pr data input).self.pc.enters = some (chan,lk) ∧ (pcEffect M p pr data input).op =
        .acquire (.proc p) ∨
        (pcEffect M p pr data input).self.Waiting chan) := by
  cases place : pr.pc <;> simp only [place,Pc.enters,Option.some.injEq,Prod.mk.injEq,reduceCtorEq] at enters
  all_goals obtain ⟨rfl,rfl⟩ := enters
  · exact ⟨by simp [pcEffect,place],by simp [pcEffect,place],.inl ⟨by simp [pcEffect,place,Pc.enters],
      by simp [pcEffect,place]⟩⟩
  · exact ⟨by simp [pcEffect,place],by simp [pcEffect,place],.inr ⟨by simp [pcEffect,place],
      by simp [pcEffect,place,Pc.back]⟩⟩

theorem waits_own (M : Machine ι κ δ) (p : Nat) (data : δ) (waiting : pr.Waiting chan) (input : ι)
    (runs : pr.pc.back = false) :
    (pcEffect M p pr data input).self.Waiting chan ∨ (pcEffect M p pr data input).self.Woken pr.calls := by
  obtain ⟨waits,_⟩ := waiting
  cases place : pr.pc <;> simp only [place,Pc.waits,Option.some.injEq,reduceCtorEq] at waits
  · exact .inl (by simp [Proc.Waiting,pcEffect,place,Pc.back,waits])
  · exact .inl (by simp [Proc.Waiting,pcEffect,place,Pc.back,waits])
  · by_cases asleep : pr.state = .sleeping
    · exact .inl (by simp [Proc.Waiting,pcEffect,place,waits,asleep])
    · exact .inr (.inr (by simp [pcEffect,place,Pc.enters,Pc.back,asleep]))
  · simp [place,Pc.back] at runs

theorem woken_own (woken : pr.Woken call) (input : ι) : (pcEffect M p pr data input).self.Woken call := by
  have calls : pr.calls ≤ (pcEffect M p pr data input).self.calls := by
    cases place : pr.pc
    case code k =>
      have := (codeEffect_calls M p pr data input k).2
      simp only [pcEffect,place]
      omega
    all_goals simp only [pcEffect,place]
    all_goals (repeat' split) <;> exact Nat.le_refl _
  rcases woken with later | ⟨current,outside,back⟩
  · exact .inl (by omega)
  · cases place : pr.pc
    case code k =>
      obtain ⟨waits,⟨same,enters⟩ | more⟩ := codeEffect_calls M p pr data input k
      · right
        simp only [pcEffect,place]
        exact ⟨same.trans current,enters,fun inside => absurd waits inside⟩
      · left
        simp only [pcEffect,place]
        omega
    case sleepBack => exact .inr (by simp [pcEffect,place,current,Pc.enters])
    all_goals simp only [place,Pc.enters,Pc.waits,Pc.back,reduceCtorEq,ne_eq,not_false_eq_true,not_true_eq_false,
      Bool.false_eq_true,false_and,imp_false] at outside back
    all_goals right; simp only [pcEffect,place]
    all_goals (repeat' split) <;> simp_all [Pc.enters]

/-- How far `wakeup` has come: past process `p`. -/
def Pc.passed (chan p : Nat) : Pc κ → Prop
  | .wakeNext ch j _ | .wakeTest ch j _ => ch = chan ∧ p < j
  | .wakeRelease ch j _ => ch = chan ∧ p ≤ j
  | _ => False

theorem passed_own (ne : q ≠ p) (input : ι) (after : (pcEffect M q pr data input).self.pc.passed chan p) :
    pr.pc.passed chan p ∨ ∃ next, pr.pc = .wakeTest chan p next := by
  cases place : pr.pc
  case code k =>
    simp only [pcEffect,place,codeEffect] at after
    cases instr : M.instr q k <;> simp [instr,Pc.passed] at after
  case wakeNext ch j next =>
    simp only [pcEffect,place] at after
    split at after
    · split at after
      · simp only [Pc.passed] at after ⊢
        left
        omega
      · exact .inl after
    · exact absurd after id
  case wakeTest ch j next =>
    simp only [pcEffect,place,Pc.passed] at after ⊢
    obtain ⟨rfl,reached⟩ := after
    by_cases same : j = p
    · exact .inr ⟨next,by rw [same]⟩
    · exact .inl ⟨rfl,by omega⟩
  case wakeRelease ch j next =>
    simp only [pcEffect,place,Pc.passed] at after ⊢
    left
    omega
  all_goals
    simp only [pcEffect,place] at after
    (repeat' split at after) <;> exact absurd after id

end Own

/-! Steps of a call. -/

structure Entering (s : State κ δ) (p chan lk : Nat) : Prop where
  pc : (s.proc p).pc.enters = some (chan,lk)
  normal : (s.proc p).yielding = none
  holds : ∃ c, s.cpu c = .running p ∧ s.lock (.spin lk) = some c

namespace Inv

theorem frame (inv : Inv M s) (stepped : Sched.step M s a = some t) {d : Nat} (other : d ≠ a.cpu) :
    t.cpu d = s.cpu d ∧ ∀ l, s.lock l = some d → t.lock l = some d := by
  cases mode : s.cpu a.cpu with
  | scan j =>
    simp only [Sched.step,mode] at stepped
    obtain ⟨u,taken,rfl⟩ := Option.map_eq_some_iff.mp stepped
    have switched : s.Switched a.cpu j (.acquire (.proc j)) u := State.switched_of taken
    exact ⟨by simp [other,switched.cpu_other d other],fun l own => switched.keeps own other⟩
  | test j =>
    simp only [Sched.step,mode] at stepped
    split at stepped
    all_goals
      cases stepped
      exact ⟨by simp [other],fun l own => own⟩
  | back j =>
    simp only [Sched.step,mode] at stepped
    obtain ⟨u,left,rfl⟩ := Option.map_eq_some_iff.mp stepped
    have switched : s.Switched a.cpu j (.release (.proc j)) u := State.switched_of left
    exact ⟨by simp [other,switched.cpu_other d other],fun l own => switched.keeps own other⟩
  | running p =>
    obtain ⟨u,acts,rfl⟩ := inv.acts mode stepped
    exact ⟨acts.switched.cpu_other d other,fun l own => acts.switched.keeps own other⟩

theorem busy (inv : Inv M s) {c : Nat} {l : Lock} (own : s.lock l = some c) : s.held c ≠ [] := fun none => by
  have member := (inv.locks.mem l c).mp own
  simp [none] at member

theorem entering_step (inv : Inv M s) (entering : Entering s p chan lk) (stepped : Sched.step M s a = some t) :
    (Entering t p chan lk ∨ (t.proc p).Waiting chan) ∧ (t.proc p).calls = (s.proc p).calls ∨
      (t.proc p).Woken (s.proc p).calls := by
  obtain ⟨enters,normal,c,here,own⟩ := entering
  cases inv.changes stepped p with
  | own at_ poked =>
    obtain rfl := inv.unique _ _ p here at_
    rw [procEffect_busy normal (inv.busy own)] at poked
    obtain ⟨calls,yielding,⟨still,op⟩ | waiting⟩ := enters_own M p s.data enters a.input
    · obtain ⟨u,⟨switched,_,_⟩,rfl⟩ := inv.acts here stepped
      rw [procEffect_busy normal (inv.busy own),op] at switched
      refine .inl ⟨.inl ⟨by rw [poked.pc,still],by rw [poked.yielding,yielding,normal],a.cpu,?_,?_⟩,
        poked.calls.trans calls⟩
      · rw [State.write_cpu,switched.cpu_same nofun,here]
      · exact (switched.lock _ _).mpr (.inl ⟨own,nofun⟩)
    · rcases poked.waiting waiting with waiting | woken
      · exact .inl ⟨.inr waiting,poked.calls.trans calls⟩
      · exact .inr (calls ▸ woken)
  | switch ready same =>
    rcases inv.runs c p here with running | leaving
    · rw [ready] at running
      exact absurd running (by decide)
    · have place : (s.proc p).pc.sched = true := by simpa [Proc.Leaving,normal] using leaving
      cases pc : (s.proc p).pc <;> simp [pc,Pc.sched,Pc.enters] at place enters
  | other away poked =>
    have other : c ≠ a.cpu := by
      rintro rfl
      exact away here
    obtain ⟨cpu,lock⟩ := inv.frame stepped other
    exact .inl ⟨.inl ⟨by rw [poked.pc,enters],by rw [poked.yielding,normal],c,cpu.trans here,lock _ own⟩,poked.calls⟩

theorem waiting_step (inv : Inv M s) (waiting : (s.proc p).Waiting chan) (stepped : Sched.step M s a = some t) :
    (t.proc p).Waiting chan ∧ (t.proc p).calls = (s.proc p).calls ∨ (t.proc p).Woken (s.proc p).calls := by
  have holds : (s.proc p).pc.procLock p = some p := by
    have waits := waiting.1
    cases pc : (s.proc p).pc <;> simp_all [Pc.procLock]
  have normal : (s.proc p).yielding = none := by
    by_contra yielding
    simp [(inv.fine p).calm yielding] at holds
  cases inv.changes stepped p with
  | own here poked =>
    have own := inv.lock _ p p here (by simp [normal,holds])
    rw [procEffect_busy normal (inv.busy own)] at poked
    have place : (s.proc p).pc.back = false := by
      by_contra back
      have back : (s.proc p).pc.back = true := by simpa using back
      rcases inv.runs _ p here with running | leaving
      · rw [waiting.2 back] at running
        exact absurd running (by decide)
      · have leaves : (s.proc p).pc.sched = true := by simpa [Proc.Leaving,normal] using leaving
        cases pc : (s.proc p).pc <;> simp [pc,Pc.sched,Pc.back] at leaves back
    have calls : (pcEffect M p (s.proc p) s.data a.input).self.calls = (s.proc p).calls := by
      have waits := waiting.1
      cases pc : (s.proc p).pc <;> simp_all [pcEffect]
    rcases waits_own M p s.data waiting a.input place with waiting | woken
    · rw [← calls]
      exact (poked.waiting waiting).imp (fun h => ⟨h,poked.calls⟩) id
    · exact .inr (poked.woken woken)
  | switch ready same =>
    rw [same]
    refine .inl ⟨⟨waiting.1,fun back => ?_⟩,rfl⟩
    have asleep := waiting.2 back
    rw [ready] at asleep
    exact absurd asleep (by decide)
  | other _ poked => exact (poked.waiting waiting).imp (fun h => ⟨h,poked.calls⟩) id

theorem woken_step (inv : Inv M s) (woken : (s.proc p).Woken call) (stepped : Sched.step M s a = some t) :
    (t.proc p).Woken call := by
  cases inv.changes stepped p with
  | own here poked =>
    refine poked.woken ?_
    unfold procEffect
    cases yielding : (s.proc p).yielding with
    | some stage =>
      have awake : (s.proc p).state ≠ .sleeping := fun asleep => by
        have normal := ((inv.fine p).asleep asleep).1
        simp [yielding] at normal
      rcases woken with later | ⟨current,outside,back⟩
      · exact .inl (by cases stage <;> exact later)
      · refine .inr ⟨by cases stage <;> exact current,by cases stage <;> exact outside,fun inside => ?_⟩
        cases stage <;> simp_all [yieldEffect]
    | none =>
      dsimp only
      split
      · exact woken
      · exact woken_own woken a.input
  | switch ready same =>
    rw [same]
    rcases woken with later | ⟨current,outside,back⟩
    · exact .inl later
    · exact .inr ⟨current,outside,fun inside => ⟨(back inside).1,by simp⟩⟩
  | other _ poked => exact poked.woken woken

theorem waiting_asleep (inv : Inv M s) (waiting : (s.proc p).Waiting chan) {c : Nat} (here : s.cpu c = .running q)
    (ne : q ≠ p) (own : s.lock (.proc p) = some c) :
    (s.proc p).state = .sleeping ∧ (s.proc p).chan = some chan ∧ (s.proc p).pc.back = true := by
  have waits := waiting.1
  have holds : (s.proc p).pc.procLock p = some p := by
    cases pc : (s.proc p).pc <;> simp_all [Pc.procLock]
  have normal : (s.proc p).yielding = none := by
    by_contra yielding
    simp [(inv.fine p).calm yielding] at holds
  -- on a CPU it would have its lock itself
  have away (d : Nat) : s.cpu d ≠ .running p := by
    intro at_
    have same := inv.lock d p p at_ (by simp [normal,holds])
    rw [own] at same
    rw [← Option.some.inj same,here] at at_
    exact ne (Cpu.running.inj at_)
  have back : (s.proc p).pc.back = true := by simpa [Proc.Off,normal] using (inv.off p away).1
  refine ⟨waiting.2 back,(inv.fine p).chan chan ?_,back⟩
  cases pc : (s.proc p).pc <;> simp_all [Pc.back,Pc.chan]

theorem test_wakes (inv : Inv M s) (waiting : (s.proc p).Waiting chan) (here : s.cpu a.cpu = .running q) (ne : q ≠ p)
    {next : κ} (place : (s.proc q).pc = .wakeTest chan p next) (stepped : Sched.step M s a = some t) :
    ¬(t.proc p).Waiting chan := by
  have normal : (s.proc q).yielding = none := by
    by_contra yielding
    have := (inv.fine q).calm yielding
    simp [place,Pc.procLock] at this
  have own := inv.lock _ q p here (by simp [normal,place,Pc.procLock])
  obtain ⟨asleep,channel,back⟩ := inv.waiting_asleep waiting here ne own
  obtain ⟨u,acts,rfl⟩ := inv.acts here stepped
  rw [procEffect_busy normal (inv.busy own)]
  have after : (u.write q (pcEffect M q (s.proc q) s.data a.input)).proc p = { s.proc p with state := .runnable } := by
    simp [State.write,pcEffect,place,Ne.symm ne,acts.switched.proc,Poke.apply,asleep,channel]
  rw [after]
  intro waiting
  exact absurd (waiting.2 back) (by simp)

/-- `p` waits, and the `wakeup` that `q` is in, if any, has not come past it. -/
def Ahead (s : State κ δ) (p q chan call : Nat) : Prop :=
  (s.proc p).Waiting chan ∧ (s.proc p).calls = call ∧ ¬(s.proc q).pc.passed chan p

theorem ahead_step (inv : Inv M s) (ne : q ≠ p) (ahead : Ahead s p q chan call) (stepped : Sched.step M s a = some t) :
    Ahead t p q chan call ∨ (t.proc p).Woken call := by
  obtain ⟨waiting,rfl,before⟩ := ahead
  rcases inv.waiting_step waiting stepped with ⟨still,calls⟩ | woken
  · refine .inl ⟨still,calls,fun passed => ?_⟩
    cases inv.changes stepped q with
    | own here poked =>
      rw [poked.pc] at passed
      unfold procEffect at passed
      cases yielding : (s.proc q).yielding with
      | some stage =>
        rw [yielding] at passed
        cases stage <;> exact before passed
      | none =>
        rw [yielding] at passed
        dsimp only at passed
        split at passed
        · exact before passed
        · rcases passed_own ne a.input passed with old | ⟨next,place⟩
          · exact before old
          · exact inv.test_wakes waiting here ne place stepped still
    | switch ready same =>
      rw [same] at passed
      exact before passed
    | other _ poked =>
      rw [poked.pc] at passed
      exact before passed
  · exact .inr woken

/-- A process that waits did so before, or has just released the lock of its caller. -/
theorem waiting_before (inv : Inv M s) (stepped : Sched.step M s a = some t) (waiting : (t.proc p).Waiting chan) :
    (s.proc p).Waiting chan ∨
      s.cpu a.cpu = .running p ∧ ∃ lk next, (s.proc p).pc = .sleepRelease chan lk next := by
  obtain ⟨waits,asleep⟩ := waiting
  cases inv.changes stepped p with
  | own here poked =>
    have normal : (t.proc p).yielding = none := by
      by_contra yielding
      have := ((inv.step stepped).fine p).calm yielding
      cases pc : (t.proc p).pc <;> simp_all [Pc.procLock]
    rw [poked.pc] at waits
    unfold procEffect at waits
    cases yielding : (s.proc p).yielding with
    | some stage =>
      rw [yielding] at waits
      have place : (s.proc p).pc.waits = some chan := by cases stage <;> exact waits
      have := (inv.fine p).calm (by simp [yielding])
      cases pc : (s.proc p).pc <;> simp_all [Pc.procLock]
    | none =>
      rw [yielding] at waits
      dsimp only at waits
      split at waits
      · rename_i interrupted
        simp [poked.yielding,procEffect,yielding,interrupted] at normal
      · cases place : (s.proc p).pc
        case code k =>
          simp only [pcEffect,place] at waits
          rw [(codeEffect_calls M p (s.proc p) s.data a.input k).1] at waits
          exact absurd waits (by simp)
        case sleepRelease chan' lk next =>
          simp only [pcEffect,place,Pc.waits,Option.some.injEq] at waits
          exact .inr ⟨here,lk,next,by rw [waits]⟩
        case sleepChan | sleepState | sleepSched =>
          simp only [pcEffect,place,Pc.waits] at waits
          exact .inl ⟨by rw [place]; exact waits,by simp [place,Pc.back]⟩
        all_goals
          simp only [pcEffect,place] at waits
          (repeat' split at waits) <;> exact absurd waits (by simp)
  | switch ready same =>
    rw [same] at waits asleep
    exact .inl ⟨waits,fun back => absurd (asleep back) (by simp)⟩
  | other _ poked =>
    rw [poked.pc] at waits asleep
    refine .inl ⟨waits,fun back => ?_⟩
    rcases poked.state with state | ⟨state,_⟩
    · rw [← state]
      exact asleep back
    · exact state

theorem waiting_bound (inv : Inv M s) (waiting : (s.proc p).Waiting chan) : p < M.nproc := by
  obtain ⟨waits,asleep⟩ := waiting
  by_cases running : ∃ c, s.cpu c = .running p
  · obtain ⟨c,here⟩ := running
    exact inv.bound c p here
  · by_contra far
    have unused := inv.spare p (Nat.le_of_not_lt far)
    have back : (s.proc p).pc.back = true := by
      rcases (inv.off p (not_exists.mp running)).1 with yielding | ⟨_,back⟩
      · have := (inv.fine p).calm (by simp [yielding])
        cases pc : (s.proc p).pc <;> simp_all [Pc.procLock]
      · exact back
    rw [asleep back] at unused
    exact absurd unused (by decide)

end Inv

/-! Whole runs. -/

/-- The channel of a `wakeup` that has been through all processes. -/
def Pc.wokeAll (n : Nat) : Pc κ → Option Nat
  | .wakeNext chan j _ => if n ≤ j then some chan else none
  | _ => none

theorem pcEffect_yielding (M : Machine ι κ δ) (p : Nat) (pr : Proc κ) (data : δ) (input : ι) :
    (pcEffect M p pr data input).self.yielding = pr.yielding := by
  cases place : pr.pc
  case code k => simp only [pcEffect,place,(codeEffect_spec p pr data input k).2.1]
  all_goals simp only [pcEffect,place]
  all_goals (repeat' split) <;> rfl

theorem Inv.entering (inv : Inv M s) (here : s.cpu a.cpu = .running p) (own : s.lock (.spin lk) = some a.cpu)
    (stepped : Sched.step M s a = some t) (called : (t.proc p).calls = (s.proc p).calls + 1)
    (args : (t.proc p).pc.enters = some (chan,lk)) : Entering t p chan lk := by
  obtain ⟨u,acts,isT⟩ := inv.acts here stepped
  have poked : Proc.Poked (procEffect M p (s.proc p) s.data (s.held a.cpu) a).self (t.proc p) := by
    have := u.write_poked p (procEffect M p (s.proc p) s.data (s.held a.cpu) a) p
    rwa [if_pos rfl,← isT] at this
  have normal : (s.proc p).yielding = none := by
    cases yielding : (s.proc p).yielding with
    | none => rfl
    | some stage =>
      have same := poked.calls
      simp only [procEffect,yielding] at same
      cases stage <;> simp only [yieldEffect] at same <;> omega
  have switched := acts.switched
  rw [procEffect_busy normal (inv.busy own)] at poked switched
  -- only the statement of the caller counts a call
  obtain ⟨k,place⟩ : ∃ k, (s.proc p).pc = .code k := by
    have same := poked.calls
    cases place : (s.proc p).pc
    case code k => exact ⟨k,rfl⟩
    all_goals simp only [pcEffect,place] at same
    all_goals (repeat' split at same) <;> exact absurd (called.symm.trans same) (Nat.succ_ne_self _)
  have op : (pcEffect M p (s.proc p) s.data a.input).op = .none := by
    have entered := args
    rw [poked.pc] at entered
    simp only [pcEffect,place,codeEffect] at entered ⊢
    cases instr : M.instr p k <;> simp_all [Pc.enters]
  refine ⟨args,by rw [poked.yielding,pcEffect_yielding,normal],a.cpu,?_,?_⟩
  · rw [isT,State.write_cpu,switched.cpu_same (by simp [op]),here]
  · rw [isT]
    exact (switched.lock _ _).mpr (.inl ⟨own,by simp [op]⟩)

theorem Inv.taken_outside (inv : Inv M s) {l : Nat} (here : s.cpu a.cpu = .running q) (free : s.lock (.spin l) = none)
    (stepped : Sched.step M s a = some t) (taken : t.lock (.spin l) = some a.cpu) :
    ¬(t.proc q).pc.passed chan p := by
  obtain ⟨u,acts,isT⟩ := inv.acts here stepped
  have poked : Proc.Poked (procEffect M q (s.proc q) s.data (s.held a.cpu) a).self (t.proc q) := by
    have := u.write_poked q (procEffect M q (s.proc q) s.data (s.held a.cpu) a) q
    rwa [if_pos rfl,← isT] at this
  have op : (procEffect M q (s.proc q) s.data (s.held a.cpu) a).op = .acquire (.spin l) := by
    rw [isT] at taken
    rcases (acts.switched.lock _ _).mp taken with ⟨own,_⟩ | ⟨op,_⟩
    · rw [free] at own
      exact absurd own (by simp)
    · exact op
  rw [poked.pc]
  unfold procEffect at op ⊢
  cases yielding : (s.proc q).yielding with
  | some stage =>
    rw [yielding] at op
    cases stage <;> simp [yieldEffect] at op
  | none =>
    rw [yielding] at op
    dsimp only at op ⊢
    split at op
    · simp at op
    · rename_i quiet
      rw [if_neg quiet]
      cases place : (s.proc q).pc
      case code k =>
        simp only [pcEffect,place,codeEffect] at op ⊢
        cases instr : M.instr q k <;> simp_all [Pc.passed]
      all_goals simp only [pcEffect,place] at op ⊢
      all_goals (repeat' split at op) <;> simp_all [Pc.passed]

/-- A process calls `sleep(chan, lk)` with `lk` held. If later another process takes `lk` and
after that completes a `wakeup(chan)`, then from there on the first one is not asleep from
that call. -/
theorem no_lost_wakeup {start : Nat → κ} {data : δ} {acts₁ acts₂ acts₃ acts₄ : List (Action ι)}
    {s₀ s₁ s₂ s₃ s₄ s₅ : State κ δ} {a b : Action ι}
    (reached : Runs.run (step M) (init M start data) acts₁ = some s₀)
    (here : s₀.cpu a.cpu = .running p) (holds : s₀.lock (.spin lk) = some a.cpu) (stepped : step M s₀ a = some s₁)
    (called : (s₁.proc p).calls = (s₀.proc p).calls + 1) (args : (s₁.proc p).pc.enters = some (chan,lk))
    (between : Runs.run (step M) s₁ acts₂ = some s₂) (ne : q ≠ p) (waker : s₂.cpu b.cpu = .running q)
    (free : s₂.lock (.spin lk) = none) (takes : step M s₂ b = some s₃) (taken : s₃.lock (.spin lk) = some b.cpu)
    (wakes : Runs.run (step M) s₃ acts₃ = some s₄) (complete : (s₄.proc q).pc.wokeAll M.nproc = some chan)
    (later : Runs.run (step M) s₄ acts₄ = some s₅) :
    ¬((s₅.proc p).state = .sleeping ∧ (s₅.proc p).calls = (s₁.proc p).calls) := by
  have inv₀ : Inv M s₀ := .run reached
  have inv₁ := inv₀.step stepped
  -- until the lock is taken the call can only get as far as releasing it
  obtain ⟨inv₂,early⟩ := Runs.run_invariant
    (fun s => Inv M s ∧ ((Entering s p chan lk ∨ (s.proc p).Waiting chan) ∧ (s.proc p).calls = (s₁.proc p).calls ∨
      (s.proc p).Woken (s₁.proc p).calls))
    (fun s a t ⟨inv,stage⟩ stepped => by
      refine ⟨inv.step stepped,?_⟩
      rcases stage with ⟨entering | waiting,calls⟩ | woken
      · rw [← calls]
        exact inv.entering_step entering stepped
      · rw [← calls]
        exact (inv.waiting_step waiting stepped).imp (fun h => ⟨.inr h.1,h.2⟩) id
      · exact .inr (inv.woken_step woken stepped))
    ⟨inv₁,.inl ⟨.inl (inv₀.entering here holds stepped called args),rfl⟩⟩ between
  have inv₃ := inv₂.step takes
  have outside : ¬(s₃.proc q).pc.passed chan p := inv₂.taken_outside waker free takes taken
  have ahead : Inv.Ahead s₃ p q chan (s₁.proc p).calls ∨ (s₃.proc p).Woken (s₁.proc p).calls := by
    rcases early with ⟨entering | waiting,calls⟩ | woken
    · obtain ⟨c,_,own⟩ := entering.holds
      rw [free] at own
      exact absurd own (by simp)
    · rw [← calls]
      exact (inv₂.waiting_step waiting takes).imp (fun h => ⟨h.1,h.2,outside⟩) id
    · exact .inr (inv₂.woken_step woken takes)
  obtain ⟨inv₄,scanned⟩ := Runs.run_invariant
    (fun s => Inv M s ∧ (Inv.Ahead s p q chan (s₁.proc p).calls ∨ (s.proc p).Woken (s₁.proc p).calls))
    (fun s a t ⟨inv,stage⟩ stepped => by
      refine ⟨inv.step stepped,?_⟩
      rcases stage with ahead | woken
      · exact inv.ahead_step ne ahead stepped
      · exact .inr (inv.woken_step woken stepped))
    ⟨inv₃,ahead⟩ wakes
  have woken : (s₄.proc p).Woken (s₁.proc p).calls := by
    rcases scanned with ⟨_,_,before⟩ | woken
    · have bound := inv₀.bound _ _ here
      cases place : (s₄.proc q).pc <;> simp only [place,Pc.wokeAll,reduceCtorEq] at complete
      split at complete
      · rename_i all
        refine absurd ?_ before
        rw [place]
        exact ⟨Option.some.inj complete,by omega⟩
      · exact absurd complete (by simp)
    · exact woken
  obtain ⟨inv₅,woken⟩ := Runs.run_invariant (fun s => Inv M s ∧ (s.proc p).Woken (s₁.proc p).calls)
    (fun s a t ⟨inv,woken⟩ stepped => ⟨inv.step stepped,inv.woken_step woken stepped⟩) ⟨inv₄,woken⟩ later
  exact woken.awake (inv₅.fine p)

def pair : Machine Unit Nat Unit where
  nproc := 2
  pid := id
  instr _
    | 0 => .acquire 0 1
    | 1 => .sleep 7 0 2
    | 2 => .release 0 4
    | 10 => .acquire 0 11
    | 11 => .wakeup 7 12
    | 12 => .release 0 14
    | k => .update fun data => (data,k)

def turn (c : Nat) : Action Unit := ⟨c,false,()⟩

def pairRun (cpus : List Nat) : Option (State Nat Unit) :=
  Runs.run (step pair) (init pair (fun p => 10 * p) ()) (cpus.map turn)

theorem pairRun_append {front back : List Nat} {s t : State Nat Unit} (first : pairRun front = some s)
    (all : pairRun (front ++ back) = some t) : Runs.run (step pair) s (back.map turn) = some t := by
  rwa [pairRun,List.map_append,Runs.run_append,show Runs.run _ _ _ = some s from first] at all

/-- Process 1 takes the lock while process 0, on the other CPU, has released it and is not yet
`SLEEPING`. -/
theorem pair_woken : ∃ s, pairRun ([0,0,0,0,0] ++ [1,1,1,1,1,1,0,0] ++ [1] ++ [1,0,0,0,0,1,1,1,1] ++ [1,0,0]) = some s ∧
    ¬((s.proc 0).state = .sleeping ∧ (s.proc 0).calls = 1) := by
  obtain ⟨s₀,ran₀,facts₀⟩ : ∃ s, pairRun [0,0,0,0] = some s ∧ s.cpu 0 = .running 0 ∧ s.lock (.spin 0) = some 0 ∧
    (s.proc 0).calls = 0 := Runs.ends (by decide +kernel)
  obtain ⟨s₁,ran₁,facts₁⟩ : ∃ s, pairRun [0,0,0,0,0] = some s ∧ (s.proc 0).calls = 1 ∧
    (s.proc 0).pc.enters = some (7,0) := Runs.ends (by decide +kernel)
  obtain ⟨s₂,ran₂,facts₂⟩ : ∃ s, pairRun ([0,0,0,0,0] ++ [1,1,1,1,1,1,0,0]) = some s ∧ s.cpu 1 = .running 1 ∧
    s.lock (.spin 0) = none := Runs.ends (by decide +kernel)
  obtain ⟨s₃,ran₃,facts₃⟩ : ∃ s, pairRun ([0,0,0,0,0] ++ [1,1,1,1,1,1,0,0] ++ [1]) = some s ∧ s.lock (.spin 0) = some 1 :=
    Runs.ends (by decide +kernel)
  obtain ⟨s₄,ran₄,facts₄⟩ : ∃ s, pairRun ([0,0,0,0,0] ++ [1,1,1,1,1,1,0,0] ++ [1] ++ [1,0,0,0,0,1,1,1,1]) = some s ∧
    (s.proc 1).pc.wokeAll pair.nproc = some 7 := Runs.ends (by decide +kernel)
  have called : step pair s₀ (turn 0) = some s₁ := by
    have := pairRun_append ran₀ (show pairRun ([0,0,0,0] ++ [0]) = some s₁ from ran₁)
    simpa [Runs.run] using this
  have takes : step pair s₂ (turn 1) = some s₃ := by
    have := pairRun_append ran₂ ran₃
    simpa [Runs.run] using this
  refine Runs.reaches (fun _ => True) (by decide +kernel) fun s₅ ran₅ _ => ?_
  have := no_lost_wakeup ran₀ facts₀.1 facts₀.2.1 called (by rw [facts₀.2.2]; exact facts₁.1) facts₁.2
    (pairRun_append ran₁ ran₂) (by decide) facts₂.1 facts₂.2 takes facts₃ (pairRun_append ran₃ ran₄) facts₄
    (pairRun_append ran₄ ran₅)
  rwa [facts₁.1] at this

end Xv6.Sched
