import Xv6.ProcsSafe

/-! The order of the locks in `proc.c`: the locks of other code, `wait_lock`, `p->lock`, `pid_lock`. Who waits for one
of them has only earlier ones, so that those who have the last three do not wait for each other for ever. Not in the
model are `kmem.lock`, `ftable.lock` and `itable.lock` where `kalloc`, `kfree`, `filedup` and `idup` take and release
them inside `allocproc`, `fork` and `wait`, under `p->lock` and, in `wait`, under `wait_lock`. -/
namespace Xv6.Procs

variable {nproc p : Nat} {s : State} {a : Action} {pc pc' : Pc} {w : Write} {e : Effect} {l m : Lock}

def Lock.rank : Lock → Nat
  | .spin _ => 0
  | .wait => 1
  | .proc _ => 2
  | .pid => 3

/-- The lock that the next step of the CPU acquires. -/
def State.wants (nproc : Nat) (s : State) (a : Action) : Option Lock :=
  match (s.cpu a.cpu).mode with
  | .scan j => some (.proc j)
  | .run p =>
    match procEffect nproc s p a with
    | some ⟨.acquire l,_,_⟩ => some l
    | _ => none
  | _ => none

/-- Of the order of other locks among each other nothing is said. -/
def Lock.Before (l m : Lock) : Prop := l.rank < m.rank ∨ l.rank = 0 ∧ m.rank = 0

theorem Site.rank_locks {k : Site} (held : l ∈ k.locks) : l.rank = 0 := by
  obtain ⟨i,_,rfl⟩ := Multiset.mem_map.mp held
  rfl

theorem Does.ordered (does : Does nproc s p a pc (.acquire m) pc' w) (held : l ∈ pc.locks p) : l.Before m := by
  have site {k : Site} (held : l ∈ k.locks) : l.Before m := by
    have := Site.rank_locks held
    unfold Lock.Before
    omega
  have wait {j : Nat} (held : l ∈ ({.wait} : Multiset Lock)) : l.Before (.proc j) := by
    obtain rfl := Multiset.mem_singleton.mp held
    exact .inl Nat.one_lt_two
  cases does
  case acquire | setkilledAcquire => exact site held
  case sleepDone => exact site (Multiset.mem_of_mem_erase held)
  case sleepAcquire z => cases z; exacts [site held,wait held]
  case wakeAcquire v _ _ => cases v; exacts [site held,wait held,wait held]
  case killedAcquire r => cases r; exacts [site held,wait held]
  all_goals simp_all [Pc.locks,Sleep.locks,Sleep.lock,Lock.Before,Lock.rank]

theorem Inv.ordered (inv : Inv nproc s) (held : s.lock l = some a.cpu) (wants : s.wants nproc a = some m) :
    l.Before m := by
  have held : l ∈ s.locks a.cpu := (inv.held.holder l a.cpu).mp held
  unfold State.wants at wants
  cases mode : (s.cpu a.cpu).mode with
  | scan j => simp [State.locks,mode,Mode.locks] at held
  | run p =>
    rw [mode] at wants
    rw [locks_run mode] at held
    cases effect : procEffect nproc s p a with
    | none => simp [effect] at wants
    | some e =>
      cases procEffect_takes effect with
      | yield stage yielding =>
        cases stage <;> simp [effect,yieldEffect] at wants
        have none := inv.interrupted p (by simp [yielding])
        simp [Thread.locks,yielding,none] at held
      | interrupt normal idle => simp [effect] at wants
      | place op pc w normal does =>
        cases op <;> simp [effect] at wants
        subst wants
        exact does.ordered (by simpa [Thread.locks,normal] using held)
  | _ => simp [mode] at wants

/-- In every run, on any number of CPUs: a CPU that is about to acquire a lock holds only locks that come before it.
So whenever `wait_lock`, `pid_lock` or the lock of a process is held, there is a CPU that holds one of them and is not
waiting. -/
theorem locks_without_deadlock {sz pagetable trapframe : Nat} {schedule : List Action}
    (ran : Runs.run (step nproc) (init sz pagetable trapframe) schedule = some s) :
    (∀ a l m, s.lock l = some a.cpu → s.wants nproc a = some m → l.Before m) ∧
    ∀ l, 0 < l.rank → s.lock l ≠ none → ∃ m c, 0 < m.rank ∧ s.lock m = some c ∧
      ∀ a w, a.cpu = c → s.wants nproc a = some w → s.lock w = none := by
  have inv : Inv nproc s := Runs.run_invariant (Inv nproc) (fun _ _ _ inv done => inv.step done) (Inv.init ..) ran
  refine ⟨fun a l m => inv.ordered,fun l => ?_⟩
  -- whoever waits for a held lock leads to a holder of a higher rank
  induction rest : 3 - l.rank using Nat.strong_induction_on generalizing l with
  | _ _ ih =>
    intro ranked held
    obtain ⟨c,holder⟩ := Option.ne_none_iff_exists'.mp held
    by_contra alone
    have stuck := alone
    push Not at stuck
    obtain ⟨a,m,rfl,wants,waits⟩ := stuck l c ranked holder
    have before := inv.ordered holder wants
    have bound : m.rank ≤ 3 := by cases m <;> simp [Lock.rank]
    have higher : l.rank < m.rank := before.resolve_right (by omega)
    exact alone (ih _ (by omega) m rfl (by omega) waits)

/-- The scheduler of CPU 1 waits for the zombie that CPU 0 is about to free. -/
theorem locks_without_deadlock_reaping : ∃ s, Runs.run (step 2) (init 4096 8192 12288)
      (family.take 144 ++ List.replicate 3 ⟨1,false,.close,0,true⟩) = some s ∧
    s.wants 2 ⟨1,false,.close,0,true⟩ = some (.proc 1) ∧ s.lock (.proc 1) = some 0 ∧
    ∃ m c, 0 < m.rank ∧ s.lock m = some c ∧ ∀ a w, a.cpu = c → s.wants 2 a = some w → s.lock w = none := by
  refine Runs.reaches (fun s => s.wants 2 ⟨1,false,.close,0,true⟩ = some (.proc 1) ∧ s.lock (.proc 1) = some 0)
    (by decide +kernel) fun s ran ⟨wants,held⟩ => ⟨wants,held,?_⟩
  exact (locks_without_deadlock ran).2 (.proc 1) (by decide) (by simp [held])

end Xv6.Procs
