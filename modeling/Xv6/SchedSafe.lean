import Xv6.Sched

/-! Invariants of the scheduler: which CPU holds the lock of a process, and where a process is
while it is switched out. -/
namespace Xv6.Sched

open Function

variable {ι κ δ : Type} {M : Machine ι κ δ}

/-- The process whose lock is held at a place, for process `p`. -/
def Pc.procLock (p : Nat) : Pc κ → Option Nat
  | .sleepRelease .. | .sleepChan .. | .sleepState .. | .sleepSched .. | .sleepBack .. | .sleepDone .. => some p
  | .killedRead _ | .killedRelease _ => some p
  | .wakeTest _ j _ | .wakeRelease _ j _ | .killTest _ j _ | .killRelease _ j _ _ => some j
  | _ => none

def Pc.sched : Pc κ → Bool
  | .sleepSched .. => true
  | _ => false

def Pc.back : Pc κ → Bool
  | .sleepBack .. => true
  | _ => false

def Pc.chan : Pc κ → Option Nat
  | .sleepState chan .. | .sleepSched chan .. | .sleepBack chan .. => some chan
  | _ => none

namespace Proc

@[simp] def procLock (p : Nat) (pr : Proc κ) : Option Nat :=
  match pr.yielding with
  | none => pr.pc.procLock p
  | some .acquire => none
  | some _ => some p

def Leaving (pr : Proc κ) : Prop := pr.yielding = some .sched ∨ pr.yielding = none ∧ pr.pc.sched = true

/-- Switched out, or just switched in. -/
def Off (pr : Proc κ) : Prop := pr.yielding = some .back ∨ pr.yielding = none ∧ pr.pc.back = true

theorem Leaving.procLock {pr : Proc κ} (leaving : pr.Leaving) (p : Nat) : pr.procLock p = some p := by
  rcases leaving with yielding | ⟨normal,place⟩
  · simp [yielding]
  · cases pc : pr.pc <;> simp [pc,Pc.sched] at place
    simp [normal,pc,Pc.procLock]

theorem Off.procLock {pr : Proc κ} (off : pr.Off) (p : Nat) : pr.procLock p = some p := by
  rcases off with yielding | ⟨normal,place⟩
  · simp [yielding]
  · cases pc : pr.pc <;> simp [pc,Pc.back] at place
    simp [normal,pc,Pc.procLock]

/-- `wakeup` and `kill` change the state of a process only from `SLEEPING` to `RUNNABLE`. -/
structure Poked (pr pr' : Proc κ) : Prop where
  pc : pr'.pc = pr.pc
  yielding : pr'.yielding = pr.yielding
  chan : pr'.chan = pr.chan
  calls : pr'.calls = pr.calls
  state : pr'.state = pr.state ∨ pr.state = .sleeping ∧ pr'.state = .runnable
  killed : pr.killed = true → pr'.killed = true

theorem Poked.refl (pr : Proc κ) : Poked pr pr := ⟨rfl,rfl,rfl,rfl,.inl rfl,id⟩

theorem poked_apply (pr : Proc κ) (poke : Poke) : Poked pr (poke.apply pr) := by
  cases poke with
  | wakeup chan =>
    simp only [Poke.apply]
    split
    · rename_i asleep
      exact ⟨rfl,rfl,rfl,rfl,.inr ⟨asleep.1,rfl⟩,id⟩
    · exact .refl pr
  | kill =>
    refine ⟨rfl,rfl,rfl,rfl,?_,fun _ => rfl⟩
    by_cases asleep : pr.state = .sleeping
    · exact .inr ⟨asleep,by simp [Poke.apply,asleep]⟩
    · exact .inl (by simp [Poke.apply,asleep])

namespace Poked

variable {pr pr' : Proc κ}

theorem procLock (poked : Poked pr pr') (p : Nat) : pr'.procLock p = pr.procLock p := by
  simp only [Proc.procLock,poked.pc,poked.yielding]

theorem leaving (poked : Poked pr pr') : pr'.Leaving ↔ pr.Leaving := by
  simp only [Leaving,poked.pc,poked.yielding]

theorem not_running (poked : Poked pr pr') (state : pr.state ≠ .running) : pr'.state ≠ .running := by
  rcases poked.state with same | ⟨_,woken⟩
  · rwa [same]
  · simp [woken]

theorem runs (poked : Poked pr pr') (runs : pr.state = .running ∨ pr.Leaving) : pr'.state = .running ∨ pr'.Leaving := by
  rcases runs with running | leaving
  · rcases poked.state with same | ⟨asleep,_⟩
    · exact .inl (same.trans running)
    · rw [running] at asleep
      exact absurd asleep (by decide)
  · exact .inr (poked.leaving.mpr leaving)

theorem off (poked : Poked pr pr') : pr'.Off ↔ pr.Off := by
  simp only [Off,poked.pc,poked.yielding]

end Poked

end Proc

/-! The fields after a step. -/

namespace State

variable {s t : State κ δ} {c p : Nat} {e : Effect κ δ} {l : Lock}

theorem write_poked (s : State κ δ) (p : Nat) (e : Effect κ δ) (q : Nat) :
    Proc.Poked (if q = p then e.self else s.proc q) ((s.write p e).proc q) := by
  simp only [write]
  cases e.poke with
  | none =>
    by_cases here : q = p
    · simpa [here] using Proc.Poked.refl e.self
    · simpa [here] using Proc.Poked.refl (s.proc q)
  | some x =>
    obtain ⟨j,poke⟩ := x
    obtain rfl | target := eq_or_ne q j
    · obtain rfl | here := eq_or_ne q p
      · simpa using Proc.poked_apply e.self poke
      · simpa [here] using Proc.poked_apply (s.proc q) poke
    · obtain rfl | here := eq_or_ne q p
      · simpa [target] using Proc.Poked.refl e.self
      · simpa [target,here] using Proc.Poked.refl (s.proc q)

def switch (s : State κ δ) (c p : Nat) : Op → Option (State κ δ)
  | .none => some s
  | .acquire l => s.acquire c l
  | .release l => s.release c l
  | .sched => s.sched c p

theorem perform_eq (s : State κ δ) (c p : Nat) (e : Effect κ δ) :
    s.perform c p e = (s.switch c p e.op).map fun t => t.write p e := by
  unfold perform switch
  cases e.op <;> rfl

theorem acquire_eq (taken : s.acquire c l = some t) : s.lock l = none ∧
    t = { s with lock := update s.lock l (some c), held := update s.held c (l :: s.held c) } := by
  unfold acquire at taken
  split at taken
  · exact ⟨‹_›,(Option.some.inj taken).symm⟩
  · exact absurd taken (by simp)

theorem release_eq (left : s.release c l = some t) : s.lock l = some c ∧
    t = { s with lock := update s.lock l none, held := update s.held c ((s.held c).erase l) } := by
  unfold release at left
  split at left
  · exact ⟨‹_›,(Option.some.inj left).symm⟩
  · exact absurd left (by simp)

theorem sched_eq (switched : s.sched c p = some t) : s.lock (.proc p) = some c ∧ (s.proc p).state ≠ .running ∧
    t = s.setCpu c (.back p) := by
  unfold sched at switched
  split at switched
  · rename_i allowed
    exact ⟨allowed.1,allowed.2.2,(Option.some.inj switched).symm⟩
  · exact absurd switched (by simp)

/-- What an operation on a lock, or a switch to the scheduler, changes. -/
structure Switched (s : State κ δ) (c p : Nat) (op : Op) (t : State κ δ) : Prop where
  proc : t.proc = s.proc
  data : t.data = s.data
  cpu_other : ∀ d, d ≠ c → t.cpu d = s.cpu d
  cpu_same : op ≠ .sched → t.cpu = s.cpu
  cpu_sched : op = .sched → t.cpu c = .back p ∧ s.lock (.proc p) = some c ∧ (s.proc p).state ≠ .running
  lock : ∀ l d, t.lock l = some d ↔ s.lock l = some d ∧ op ≠ .release l ∨ op = .acquire l ∧ d = c
  free : ∀ l, op = .acquire l → s.lock l = none
  own : ∀ l, op = .release l → s.lock l = some c

theorem switched_of {op : Op} (switched : s.switch c p op = some t) : Switched s c p op t := by
  cases op with
  | none =>
    cases switched
    exact ⟨rfl,rfl,fun _ _ => rfl,fun _ => rfl,nofun,fun l d => by simp,nofun,nofun⟩
  | acquire l =>
    obtain ⟨free,rfl⟩ := acquire_eq switched
    refine ⟨rfl,rfl,fun _ _ => rfl,fun _ => rfl,nofun,fun k d => ?_,fun k same => ?_,nofun⟩
    · obtain rfl | here := eq_or_ne k l
      · simp [free,eq_comm]
      · simp [here,Ne.symm here]
    · cases same
      exact free
  | release l =>
    obtain ⟨own,rfl⟩ := release_eq switched
    refine ⟨rfl,rfl,fun _ _ => rfl,fun _ => rfl,nofun,fun k d => ?_,nofun,fun k same => ?_⟩
    · by_cases here : k = l
      · simp [here]
      · simp [here,Ne.symm here]
    · cases same
      exact own
  | sched =>
    obtain ⟨own,off,rfl⟩ := sched_eq switched
    exact ⟨rfl,rfl,fun d other => by simp [setCpu,other],fun h => absurd rfl h,fun _ => ⟨by simp [setCpu],own,off⟩,
      fun k d => by simp [setCpu],nofun,nofun⟩

theorem Switched.keeps {op : Op} {d : Nat} (switched : Switched s c p op t) (own : s.lock l = some d) (other : d ≠ c) :
    t.lock l = some d := by
  refine (switched.lock l d).mpr (.inl ⟨own,fun release => ?_⟩)
  have := switched.own l release
  rw [own] at this
  exact other (Option.some.inj this)

@[simp] theorem write_cpu (s : State κ δ) (p : Nat) (e : Effect κ δ) : (s.write p e).cpu = s.cpu := rfl
@[simp] theorem write_data (s : State κ δ) (p : Nat) (e : Effect κ δ) : (s.write p e).data = e.data := rfl

structure Locks (s : State κ δ) : Prop where
  mem : ∀ l c, s.lock l = some c ↔ l ∈ s.held c
  nodup : ∀ c, (s.held c).Nodup

theorem Locks.acquire (locks : s.Locks) (taken : s.acquire c l = some t) : t.Locks := by
  obtain ⟨free,rfl⟩ := acquire_eq taken
  have fresh (d : Nat) : l ∉ s.held d := fun member => by simp [(locks.mem l d).mpr member] at free
  refine ⟨fun k d => ?_,fun d => ?_⟩
  · by_cases cpu : d = c
    · by_cases here : k = l
      · simp [cpu,here]
      · simpa [cpu,here] using locks.mem k c
    · by_cases here : k = l
      · simp [here,cpu,Ne.symm cpu,fresh d]
      · simpa [cpu,here] using locks.mem k d
  · by_cases cpu : d = c
    · simpa [cpu] using ⟨fresh c,locks.nodup c⟩
    · simpa [cpu] using locks.nodup d

theorem Locks.release (locks : s.Locks) (left : s.release c l = some t) : t.Locks := by
  obtain ⟨own,rfl⟩ := release_eq left
  refine ⟨fun k d => ?_,fun d => ?_⟩
  · obtain rfl | cpu := eq_or_ne d c
    · by_cases here : k = l
      · simpa [here] using (locks.nodup d).not_mem_erase
      · simpa [here,List.mem_erase_of_ne here] using locks.mem k d
    · obtain rfl | here := eq_or_ne k l
      · have other : k ∉ s.held d := fun member => by
          have := (locks.mem k d).mpr member
          rw [own] at this
          exact cpu (Option.some.inj this).symm
        simpa [cpu] using other
      · simpa [cpu,here] using locks.mem k d
  · by_cases cpu : d = c
    · simpa [cpu] using (locks.nodup c).erase l
    · simpa [cpu] using locks.nodup d

theorem Locks.switch (locks : s.Locks) {op : Op} (switched : s.switch c p op = some t) : t.Locks := by
  cases op with
  | none => exact Option.some.inj switched ▸ locks
  | acquire l => exact locks.acquire switched
  | release l => exact locks.release switched
  | sched =>
    obtain ⟨_,_,rfl⟩ := sched_eq switched
    exact ⟨locks.mem,locks.nodup⟩

end State

/-! What a statement does to the process that executes it. -/

/-- A process as the invariant has it while it runs, apart from the lock. -/
structure Proc.Fine (p : Nat) (pr : Proc κ) : Prop where
  calm : pr.yielding ≠ none → pr.pc.procLock p = none
  asleep : pr.state = .sleeping → pr.yielding = none ∧ (pr.pc.sched = true ∨ pr.pc.back = true)
  chan : ∀ ch, pr.pc.chan = some ch → pr.chan = some ch

theorem Proc.Poked.fine {p : Nat} {pr pr' : Proc κ} (poked : Proc.Poked pr pr') (fine : pr.Fine p) : pr'.Fine p := by
  refine ⟨?_,fun asleep => ?_,?_⟩
  · rw [poked.yielding,poked.pc]
    exact fine.calm
  · rw [poked.yielding,poked.pc]
    rcases poked.state with same | ⟨_,woken⟩
    · exact fine.asleep (same ▸ asleep)
    · rw [woken] at asleep
      exact absurd asleep (by decide)
  · rw [poked.pc,poked.chan]
    exact fine.chan

/-- A step of a process that runs: whose lock it holds afterwards, and when it leaves the CPU. -/
structure Moves (p : Nat) (pr : Proc κ) (e : Effect κ δ) : Prop where
  fine : e.self.Fine p
  lock : ∀ j, e.self.procLock p = some j →
    e.op = .acquire (.proc j) ∨ pr.procLock p = some j ∧ e.op ≠ .release (.proc j)
  stays : e.op ≠ .sched → e.self.state = .running ∨ e.self.Leaving
  leaves : e.op = .sched → e.self.Off ∧ e.self.state = pr.state

section Effect

variable {p : Nat} {pr : Proc κ} {data : δ}

theorem codeEffect_spec (p : Nat) (pr : Proc κ) (data : δ) (input : ι) (k : κ) :
    (codeEffect M p pr data input k).self.pc.procLock p = none ∧
      (codeEffect M p pr data input k).self.yielding = pr.yielding ∧
      (codeEffect M p pr data input k).self.state = pr.state ∧
      (codeEffect M p pr data input k).self.pc.chan = none ∧ (codeEffect M p pr data input k).op ≠ .sched := by
  unfold codeEffect
  cases M.instr p k <;> simp [Pc.procLock,Pc.chan]

theorem pcEffect_moves (normal : pr.yielding = none) (fine : pr.Fine p)
    (runs : pr.state = .running ∨ pr.pc.sched = true) (input : ι) : Moves p pr (pcEffect M p pr data input) := by
  obtain ⟨state,chan,killed,pc,yielding,calls⟩ := pr
  obtain rfl : yielding = none := normal
  have chanOk := fine.chan
  have active (stays : pc.sched = false) : state = .running := by simpa [stays] using runs
  cases pc with
  | code k =>
    obtain rfl := active rfl
    obtain ⟨lock,normal,same,chan,op⟩ := codeEffect_spec (M := M) p ⟨.running,chan,killed,.code k,none,calls⟩ data input k
    simp only [pcEffect]
    refine ⟨⟨fun other => absurd normal other,fun asleep => ?_,?_⟩,fun j holds => ?_,fun _ => .inl same,
      fun left => absurd left op⟩
    · rw [same] at asleep
      exact absurd asleep (by simp)
    · simp [chan]
    · simp [normal,lock] at holds
  | sleepState ch lk next =>
    refine ⟨⟨fun h => absurd rfl h,fun _ => ⟨rfl,.inl rfl⟩,chanOk⟩,fun j holds => .inr ⟨holds,nofun⟩,
      fun _ => .inr (.inr ⟨rfl,rfl⟩),nofun⟩
  | sleepSched ch lk next =>
    exact ⟨⟨fun h => absurd rfl h,fun _ => ⟨rfl,.inr rfl⟩,chanOk⟩,fun j holds => .inr ⟨holds,nofun⟩,
      fun other => absurd rfl other,fun _ => ⟨.inr ⟨rfl,rfl⟩,rfl⟩⟩
  | wakeNext ch j next =>
    obtain rfl := active rfl
    simp only [pcEffect]
    split <;> try split
    all_goals
      refine ⟨⟨fun h => absurd rfl h,nofun,nofun⟩,fun j holds => ?_,fun _ => .inl rfl,nofun⟩
      simp_all [Pc.procLock]
  | killNext pid j next | killTest pid j next =>
    obtain rfl := active rfl
    simp only [pcEffect]
    split
    all_goals
      refine ⟨⟨fun h => absurd rfl h,nofun,nofun⟩,fun j holds => ?_,fun _ => .inl rfl,nofun⟩
      simp_all [Pc.procLock]
  | killRelease pid j found next =>
    obtain rfl := active rfl
    cases found
    all_goals
      refine ⟨⟨fun h => absurd rfl h,nofun,nofun⟩,fun j holds => ?_,fun _ => .inl rfl,nofun⟩
      simp_all [pcEffect,Pc.procLock]
  | _ =>
    obtain rfl := active rfl
    refine ⟨⟨fun h => absurd rfl h,nofun,?_⟩,fun j holds => ?_,fun _ => .inl rfl,nofun⟩
    · simp [pcEffect,Pc.chan]
    · simp_all [pcEffect,Pc.procLock]

theorem yieldEffect_moves {stage : Yield} (yielding : pr.yielding = some stage) (fine : pr.Fine p)
    (runs : pr.state = .running ∨ pr.Leaving) : Moves p pr (yieldEffect p pr data stage) := by
  have calm := fine.calm (by simp [yielding])
  have awake : pr.state ≠ .sleeping := fun asleep => by
    have normal := (fine.asleep asleep).1
    rw [yielding] at normal
    exact absurd normal (by simp)
  cases stage with
  | acquire =>
    refine ⟨⟨fun _ => calm,fun asleep => absurd asleep awake,fine.chan⟩,fun j holds => ?_,fun _ => ?_,nofun⟩
    · simp_all [yieldEffect]
    · simpa [yieldEffect,Proc.Leaving,yielding] using runs
  | state =>
    refine ⟨⟨fun _ => calm,nofun,fine.chan⟩,fun j holds => .inr ⟨?_,nofun⟩,fun _ => .inr (.inl rfl),nofun⟩
    simpa [yieldEffect,yielding] using holds
  | sched =>
    refine ⟨⟨fun _ => calm,fun asleep => absurd asleep awake,fine.chan⟩,fun j holds => .inr ⟨?_,nofun⟩,
      fun other => absurd rfl other,fun _ => ⟨.inl rfl,rfl⟩⟩
    simpa [yieldEffect,yielding] using holds
  | back =>
    refine ⟨⟨nofun,fun asleep => absurd asleep awake,fine.chan⟩,fun j holds => ?_,fun _ => .inl ?_,nofun⟩
    · simp [yieldEffect,calm] at holds
    · simpa [yieldEffect,Proc.Leaving,yielding] using runs

/-- A step of a process that runs. While it holds a lock it takes no interrupt. -/
theorem procEffect_moves {held : List Lock} (fine : pr.Fine p) (runs : pr.state = .running ∨ pr.Leaving)
    (idle : held = [] → pr.procLock p = none) (a : Action ι) : Moves p pr (procEffect M p pr data held a) := by
  unfold procEffect
  cases yielding : pr.yielding with
  | some stage => exact yieldEffect_moves yielding fine runs
  | none =>
    dsimp only
    split
    · rename_i interrupted
      have calm : pr.pc.procLock p = none := by simpa [yielding] using idle interrupted.2
      have awake : pr.state = .running := by
        rcases runs with awake | leaving
        · exact awake
        · -- a process about to switch holds its lock
          have holds := leaving.procLock p
          rw [idle interrupted.2] at holds
          exact absurd holds (by simp)
      refine ⟨⟨fun _ => calm,fun asleep => ?_,fine.chan⟩,nofun,fun _ => .inl awake,nofun⟩
      exact absurd (awake.symm.trans asleep) (by decide)
    · refine pcEffect_moves yielding fine ?_ a.input
      simpa [Proc.Leaving,yielding] using runs

end Effect

/-! The invariant. -/

/-- In every state that is reached: at most one CPU runs a process, with the locks that its place
in the code says; a process that no CPU runs is in `sched`. -/
structure Inv (M : Machine ι κ δ) (s : State κ δ) : Prop where
  locks : s.Locks
  bound : ∀ c p, s.cpu c = .running p → p < M.nproc
  spare : ∀ p, M.nproc ≤ p → (s.proc p).state = .unused
  fine : ∀ p, (s.proc p).Fine p
  unique : ∀ c d p, s.cpu c = .running p → s.cpu d = .running p → c = d
  scheduler : ∀ c j, s.cpu c = .test j ∨ s.cpu c = .back j → s.lock (.proc j) = some c
  lock : ∀ c p j, s.cpu c = .running p → (s.proc p).procLock p = some j → s.lock (.proc j) = some c
  runs : ∀ c p, s.cpu c = .running p → (s.proc p).state = .running ∨ (s.proc p).Leaving
  off : ∀ p, (∀ c, s.cpu c ≠ .running p) → (s.proc p).Off ∧ (s.proc p).state ≠ .running

theorem Inv.init (M : Machine ι κ δ) (start : Nat → κ) (data : δ) : Inv M (init M start data) := by
  refine ⟨⟨fun l c => ?_,fun c => List.nodup_nil⟩,nofun,fun p far => ?_,fun p => ⟨fun _ => rfl,fun asleep => ?_,nofun⟩,
    nofun,?_,nofun,nofun,fun p _ => ⟨.inl rfl,?_⟩⟩
  · simp [Sched.init]
  · simp [Sched.init,Nat.not_lt.mpr far]
  · simp only [Sched.init] at asleep
    split at asleep <;> cases asleep
  · rintro c j (h | h) <;> cases h
  · simp only [Sched.init]
    split <;> simp

namespace Inv

variable {s t u : State κ δ} {c p j : Nat}

theorem scheduler_step (inv : Inv M s) {op : Op} {mode : Cpu} (locks : u.Locks) (switched : s.Switched c j op u)
    (here : ∀ p, s.cpu c ≠ .running p) (normal : op ≠ .sched) (there : ∀ p, mode ≠ .running p)
    (own : ∀ j, mode = .test j ∨ mode = .back j → u.lock (.proc j) = some c) : Inv M (u.setCpu c mode) := by
  have runs {d p : Nat} (runs : (u.setCpu c mode).cpu d = .running p) : d ≠ c ∧ s.cpu d = .running p := by
    have other : d ≠ c := by
      rintro rfl
      simp only [State.setCpu,update_self] at runs
      exact there p runs
    simp only [State.setCpu,update_of_ne other,switched.cpu_same normal] at runs
    exact ⟨other,runs⟩
  refine ⟨⟨locks.mem,locks.nodup⟩,fun d p at_ => inv.bound d p (runs at_).2,?_,?_,
    fun d e p left right => inv.unique d e p (runs left).2 (runs right).2,fun d k at_ => ?_,fun d p k at_ holds => ?_,
    fun d p at_ => ?_,fun p gone => ?_⟩
  · simpa only [State.setCpu,switched.proc] using inv.spare
  · simpa only [State.setCpu,switched.proc] using inv.fine
  · obtain rfl | here := eq_or_ne d c
    · exact own k (by simpa using at_)
    · simp only [State.setCpu,update_of_ne here,switched.cpu_same normal] at at_
      exact switched.keeps (inv.scheduler d k at_) here
  · simp only [State.setCpu,switched.proc] at holds
    exact switched.keeps (inv.lock d p k (runs at_).2 holds) (runs at_).1
  · simpa only [State.setCpu,switched.proc] using inv.runs d p (runs at_).2
  · simp only [State.setCpu,switched.proc]
    refine inv.off p fun d at_ => gone d ?_
    have other : d ≠ c := by
      rintro rfl
      exact here p at_
    simpa only [State.setCpu,update_of_ne other,switched.cpu_same normal] using at_

theorem switch_step (inv : Inv M s) (here : s.cpu c = .test j) (ready : (s.proc j).state = .runnable) :
    Inv M ((s.setProc j { s.proc j with state := .running }).setCpu c (.running j)) := by
  have own := inv.scheduler c j (.inl here)
  -- another CPU that runs the process would have its lock
  have nobody (d : Nat) : s.cpu d ≠ .running j := by
    intro at_
    have leaving : (s.proc j).Leaving := by
      rcases inv.runs d j at_ with state | leaving
      · rw [ready] at state
        exact absurd state (by decide)
      · exact leaving
    have same := inv.lock d j j at_ (leaving.procLock j)
    rw [own] at same
    rw [← Option.some.inj same,here] at at_
    exact absurd at_ (by simp)
  obtain ⟨off,_⟩ := inv.off j nobody
  have holds := off.procLock j
  obtain ⟨t,isT⟩ : ∃ t, t = (s.setProc j { s.proc j with state := .running }).setCpu c (.running j) := ⟨_,rfl⟩
  rw [← isT]
  have proc_self : t.proc j = { s.proc j with state := .running } := by simp [isT]
  have proc_other {q : Nat} (other : q ≠ j) : t.proc q = s.proc q := by simp [isT,other]
  have cpu_self : t.cpu c = .running j := by simp [isT]
  have cpu_other {d : Nat} (other : d ≠ c) : t.cpu d = s.cpu d := by simp [isT,other]
  have lock : t.lock = s.lock := by rw [isT]; rfl
  have runs {d q : Nat} (at_ : t.cpu d = .running q) : d = c ∧ q = j ∨ d ≠ c ∧ q ≠ j ∧ s.cpu d = .running q := by
    obtain rfl | cpu := eq_or_ne d c
    · rw [cpu_self] at at_
      exact .inl ⟨rfl,(Cpu.running.inj at_).symm⟩
    · rw [cpu_other cpu] at at_
      refine .inr ⟨cpu,?_,at_⟩
      rintro rfl
      exact nobody d at_
  refine ⟨by rw [isT]; exact ⟨inv.locks.mem,inv.locks.nodup⟩,fun d q at_ => ?_,fun q far => ?_,fun q => ?_,
    fun d e q left right => ?_,fun d k at_ => ?_,fun d q k at_ has => ?_,fun d q at_ => ?_,fun q gone => ?_⟩
  · rcases runs at_ with ⟨_,rfl⟩ | ⟨_,_,old⟩
    · by_contra far
      rw [inv.spare q (Nat.le_of_not_lt far)] at ready
      exact absurd ready (by decide)
    · exact inv.bound d q old
  · have other : q ≠ j := by
      rintro rfl
      rw [inv.spare q far] at ready
      exact absurd ready (by decide)
    rw [proc_other other]
    exact inv.spare q far
  · obtain rfl | self := eq_or_ne q j
    · rw [proc_self]
      exact ⟨(inv.fine q).calm,nofun,(inv.fine q).chan⟩
    · rw [proc_other self]
      exact inv.fine q
  · rcases runs left with ⟨hd,hq⟩ | ⟨_,hq,oldL⟩ <;> rcases runs right with ⟨he,hq'⟩ | ⟨_,hq',oldR⟩
    · rw [hd,he]
    · exact absurd hq hq'
    · exact absurd hq' hq
    · exact inv.unique d e q oldL oldR
  · have other : d ≠ c := by
      rintro rfl
      rw [cpu_self] at at_
      simp at at_
    rw [cpu_other other] at at_
    rw [lock]
    exact inv.scheduler d k at_
  · rw [lock]
    rcases runs at_ with ⟨rfl,rfl⟩ | ⟨_,other,old⟩
    · rw [proc_self] at has
      have has : (s.proc q).procLock q = some k := has
      rw [holds] at has
      exact Option.some.inj has ▸ own
    · rw [proc_other other] at has
      exact inv.lock d q k old has
  · rcases runs at_ with ⟨rfl,rfl⟩ | ⟨_,other,old⟩
    · exact .inl (by rw [proc_self])
    · rw [proc_other other]
      exact inv.runs d q old
  · have other : q ≠ j := by
      rintro rfl
      exact gone c cpu_self
    rw [proc_other other]
    refine inv.off q fun d at_ => gone d ?_
    have cpu : d ≠ c := by
      rintro rfl
      rw [here] at at_
      exact absurd at_ (by simp)
    rwa [cpu_other cpu]

/-- What the step of a process does, in terms of its statement. -/
structure Acts (M : Machine ι κ δ) (s : State κ δ) (c p : Nat) (e : Effect κ δ) (u : State κ δ) : Prop where
  switched : s.Switched c p e.op u
  locks : u.Locks
  moves : Moves p (s.proc p) e

theorem acts (inv : Inv M s) {a : Action ι} (here : s.cpu a.cpu = .running p) (stepped : Sched.step M s a = some t) :
    ∃ u, Acts M s a.cpu p (procEffect M p (s.proc p) s.data (s.held a.cpu) a) u ∧
      t = u.write p (procEffect M p (s.proc p) s.data (s.held a.cpu) a) := by
  simp only [Sched.step,here,State.perform_eq] at stepped
  obtain ⟨u,switched,rfl⟩ := Option.map_eq_some_iff.mp stepped
  refine ⟨u,⟨State.switched_of switched,inv.locks.switch switched,?_⟩,rfl⟩
  refine procEffect_moves (inv.fine p) (inv.runs _ p here) (fun none => ?_) a
  by_contra some
  obtain ⟨j,holds⟩ := Option.ne_none_iff_exists'.mp some
  have member := (inv.locks.mem _ _).mp (inv.lock _ p j here holds)
  simp [none] at member

theorem proc_step (inv : Inv M s) {e : Effect κ δ} (here : s.cpu c = .running p) (acts : Acts M s c p e u) :
    Inv M (u.write p e) := by
  obtain ⟨switched,locks,moves⟩ := acts
  have poked (q : Nat) : Proc.Poked (if q = p then e.self else s.proc q) ((u.write p e).proc q) := by
    have := u.write_poked p e q
    rwa [switched.proc] at this
  have self := poked p
  rw [if_pos rfl] at self
  have other {q : Nat} (ne : q ≠ p) : Proc.Poked (s.proc q) ((u.write p e).proc q) := by
    have := poked q
    rwa [if_neg ne] at this
  have runs {d q : Nat} (at_ : u.cpu d = .running q) :
      d = c ∧ q = p ∧ e.op ≠ .sched ∨ d ≠ c ∧ q ≠ p ∧ s.cpu d = .running q := by
    obtain rfl | cpu := eq_or_ne d c
    · by_cases left : e.op = .sched
      · rw [(switched.cpu_sched left).1] at at_
        exact absurd at_ (by simp)
      · rw [switched.cpu_same left,here] at at_
        exact .inl ⟨rfl,(Cpu.running.inj at_).symm,left⟩
    · rw [switched.cpu_other d cpu] at at_
      refine .inr ⟨cpu,?_,at_⟩
      rintro rfl
      exact cpu (inv.unique d c q at_ here)
  refine ⟨⟨locks.mem,locks.nodup⟩,fun d q at_ => ?_,fun q far => ?_,fun q => ?_,fun d d' q left right => ?_,
    fun d k at_ => ?_,fun d q k at_ holds => ?_,fun d q at_ => ?_,fun q gone => ?_⟩
  · rcases runs at_ with ⟨_,rfl,_⟩ | ⟨_,_,old⟩
    · exact inv.bound c q here
    · exact inv.bound d q old
  · have ne : q ≠ p := by
      rintro rfl
      exact absurd (inv.bound c q here) (Nat.not_lt.mpr far)
    have unused := inv.spare q far
    rcases (other ne).state with same | ⟨asleep,_⟩
    · rw [same,unused]
    · rw [unused] at asleep
      exact absurd asleep (by decide)
  · obtain rfl | ne := eq_or_ne q p
    · exact self.fine moves.fine
    · exact (other ne).fine (inv.fine q)
  · rcases runs left with ⟨rfl,rfl,_⟩ | ⟨_,hq,oldL⟩ <;> rcases runs right with ⟨rfl,hq',_⟩ | ⟨_,hq',oldR⟩
    · rfl
    · exact absurd rfl hq'
    · exact absurd hq' hq
    · exact inv.unique d d' q oldL oldR
  · obtain rfl | cpu := eq_or_ne d c
    · by_cases left : e.op = .sched
      · obtain ⟨mode,own,_⟩ := switched.cpu_sched left
        simp only [State.write_cpu,mode] at at_
        obtain rfl : k = p := by simpa [eq_comm] using at_
        exact (switched.lock _ _).mpr (.inl ⟨own,by simp [left]⟩)
      · simp only [State.write_cpu,switched.cpu_same left,here] at at_
        simp at at_
    · simp only [State.write_cpu,switched.cpu_other d cpu] at at_
      exact switched.keeps (inv.scheduler d k at_) cpu
  · rcases runs at_ with ⟨rfl,rfl,_⟩ | ⟨cpu,ne,old⟩
    · rw [self.procLock] at holds
      rcases moves.lock k holds with taken | ⟨before,kept⟩
      · exact (switched.lock _ _).mpr (.inr ⟨taken,rfl⟩)
      · exact (switched.lock _ _).mpr (.inl ⟨inv.lock d q k here before,kept⟩)
    · rw [(other ne).procLock] at holds
      exact switched.keeps (inv.lock d q k old holds) cpu
  · rcases runs at_ with ⟨rfl,rfl,stays⟩ | ⟨cpu,ne,old⟩
    · exact self.runs (moves.stays stays)
    · exact (other ne).runs (inv.runs d q old)
  · obtain rfl | ne := eq_or_ne q p
    · have left : e.op = .sched := by
        by_contra stays
        exact gone c (by rw [State.write_cpu,switched.cpu_same stays,here])
      obtain ⟨off,same⟩ := moves.leaves left
      exact ⟨self.off.mpr off,self.not_running (same ▸ (switched.cpu_sched left).2.2)⟩
    · obtain ⟨off,state⟩ := inv.off q fun d at_ => gone d (by
        have cpu : d ≠ c := by
          rintro rfl
          rw [here] at at_
          exact ne (Cpu.running.inj at_).symm
        rwa [State.write_cpu,switched.cpu_other d cpu])
      exact ⟨(other ne).off.mpr off,(other ne).not_running state⟩

theorem step (inv : Inv M s) {a : Action ι} (stepped : Sched.step M s a = some t) : Inv M t := by
  cases mode : s.cpu a.cpu with
  | scan j =>
    simp only [Sched.step,mode] at stepped
    obtain ⟨u,taken,rfl⟩ := Option.map_eq_some_iff.mp stepped
    have switched : s.Switched a.cpu j (.acquire (.proc j)) u := State.switched_of taken
    refine inv.scheduler_step (inv.locks.acquire taken) switched (by simp [mode]) nofun nofun fun k at_ => ?_
    obtain rfl : k = j := by simpa [eq_comm] using at_
    exact (switched.lock _ _).mpr (.inr ⟨rfl,rfl⟩)
  | test j =>
    simp only [Sched.step,mode] at stepped
    split at stepped
    · rename_i ready
      exact Option.some.inj stepped ▸ inv.switch_step mode ready
    · have switched : s.Switched a.cpu j .none s := State.switched_of rfl
      refine Option.some.inj stepped ▸ inv.scheduler_step inv.locks switched (by simp [mode]) nofun nofun fun k at_ => ?_
      obtain rfl : k = j := by simpa [eq_comm] using at_
      exact inv.scheduler a.cpu k (.inl mode)
  | back j =>
    simp only [Sched.step,mode] at stepped
    obtain ⟨u,left,rfl⟩ := Option.map_eq_some_iff.mp stepped
    have switched : s.Switched a.cpu j (.release (.proc j)) u := State.switched_of left
    exact inv.scheduler_step (inv.locks.release left) switched (by simp [mode]) nofun nofun (by simp)
  | running p =>
    obtain ⟨u,acts,rfl⟩ := inv.acts mode stepped
    exact inv.proc_step mode acts

theorem run {start : Nat → κ} {data : δ} {acts : List (Action ι)}
    (ran : Runs.run (Sched.step M) (Sched.init M start data) acts = some s) : Inv M s :=
  Runs.run_invariant (Inv M) (fun _ _ _ inv => inv.step) (.init M start data) ran

end Inv

end Xv6.Sched
