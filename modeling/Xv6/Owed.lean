import Xv6.Monitor

/-! Wakeups that are owed. Whoever changes the guarded data so that a process need not sleep any
more owes a `wakeup` on its channel until the lock is released. -/
namespace Xv6.Sched

/-- When it is right to sleep on a channel of the monitor, and where in the code a wakeup is owed. -/
structure Debts (κ ε : Type) where
  blocked : Nat → ε → Prop
  owes : κ → Nat → Prop

variable {ι κ δ ε : Type} {M : Machine ι κ δ} {m : Monitor κ δ ε} {o : Debts κ ε}

/-- A statement under the lock keeps track of what it owes. A `killed` that returns 1 is not
covered. -/
def Debts.Tracks (o : Debts κ ε) (m : Monitor κ δ ε) (k : κ) : Instr ι κ δ → Prop
  | .acquire l next => l ≠ m.lock → ∀ chan, o.owes k chan → o.owes next chan
  | .release l next =>
    if l = m.lock then ∀ chan v, m.holds k v → o.owes k chan → o.blocked chan v
    else ∀ chan, o.owes k chan → o.owes next chan
  | .sleep _ lk _ => lk = m.lock → ∀ chan v, m.holds k v → o.owes k chan → o.blocked chan v
  | .wakeup ch next => ∀ chan, chan ≠ ch → o.owes k chan → o.owes next chan
  | .killed next => ∀ chan, o.owes k chan → o.owes (next false) chan
  | .kill _ _ => ∀ chan, ¬o.owes k chan
  | .update f => ∀ data chan, m.holds k (m.view data) → o.blocked chan (m.view data) ∨ o.owes k chan →
      o.blocked chan (m.view (f data).1) ∨ o.owes (f data).2 chan
  | .choose f => ∀ input chan, o.owes k chan → o.owes (f input) chan

structure Debts.Tracked (o : Debts κ ε) (m : Monitor κ δ ε) (M : Machine ι κ δ) : Prop where
  code : ∀ p k, m.inside k = true → o.Tracks m k (M.instr p k)
  asleep : ∀ chan v, m.asleep chan v → o.blocked chan v

/-- A wakeup on `chan` is owed to process `p`, or under way and not yet past it. -/
def Pc.owes (o : Debts κ ε) (chan p : Nat) : Pc κ → Prop
  | .code k => o.owes k chan
  | .wakeNext ch j next | .wakeTest ch j next => ch = chan ∧ j ≤ p ∨ o.owes next chan
  | .wakeRelease ch j next => ch = chan ∧ j < p ∨ o.owes next chan
  | .killedAcquire next | .killedRead next => o.owes (next false) chan
  | .killedRelease next => o.owes next chan
  | _ => False

/-- About to read `p->killed`: where the caller goes on if it is 0. -/
def Pc.tests : Pc κ → Option κ
  | .killedRead next => some (next false)
  | _ => none

def Debts.Spared (o : Debts κ ε) (pr : Proc κ) : Prop :=
  ∀ k, pr.pc.tests = some k → pr.killed = true → ∀ chan, ¬o.owes k chan

/-- In `killed` before its answer: where the caller goes on if that is 0. -/
def Pc.asks : Pc κ → Option κ
  | .killedAcquire next | .killedRead next => some (next false)
  | _ => none

section Own

variable {pr : Proc κ} {data : δ} {p q chan : Nat}

theorem asks_own (M : Machine ι κ δ) (p : Nat) (pr : Proc κ) (data : δ) (held : List Lock) (a : Action ι) {k : κ}
    (asks : (procEffect M p pr data held a).self.pc.asks = some k) :
    pr.pc.asks = some k ∨ ∃ caller next, M.instr p caller = .killed next ∧ next false = k := by
  unfold procEffect at asks
  cases yielding : pr.yielding with
  | some stage =>
    rw [yielding] at asks
    cases stage <;> exact .inl asks
  | none =>
    rw [yielding] at asks
    dsimp only at asks
    split at asks
    · exact .inl asks
    · cases place : pr.pc
      case code caller =>
        simp only [pcEffect,place,codeEffect] at asks
        cases instr : M.instr p caller <;> simp only [instr,Pc.asks,reduceCtorEq,Option.some.injEq] at asks
        exact .inr ⟨caller,_,instr,asks⟩
      case killedAcquire next =>
        simp only [pcEffect,place] at asks
        exact .inl asks
      all_goals
        simp only [pcEffect,place] at asks
        (repeat' split at asks) <;> cases asks

theorem codeEffect_owes (kept : m.Kept M) (tracked : o.Tracked m M) {k : κ} (inside : m.inside k = true)
    (holds : m.holds k (m.view data)) (input : ι) (owed : o.blocked chan (m.view data) ∨ o.owes k chan) :
    o.blocked chan (m.view (codeEffect M q pr data input k).data) ∨
      (codeEffect M q pr data input k).op ≠ .release (.spin m.lock) ∧
        (codeEffect M q pr data input k).self.pc.owes o chan p := by
  have tracks := tracked.code q k inside
  have keeps := kept.code q k
  unfold codeEffect
  cases instr : M.instr q k with
  | acquire l next =>
    rw [instr] at tracks keeps
    by_cases lock : l = m.lock
    · simp [Monitor.Keeps,lock,inside] at keeps
    · exact owed.imp id fun owed => ⟨by simp,tracks lock chan owed⟩
  | release l next =>
    rw [instr] at tracks
    simp only [Debts.Tracks] at tracks
    rcases owed with blocked | owed
    · exact .inl blocked
    · split at tracks
      · exact .inl (tracks chan _ holds owed)
      · rename_i lock
        exact .inr ⟨fun same => lock (Lock.spin.inj (Op.release.inj same)),tracks chan owed⟩
  | sleep ch lk next =>
    rw [instr] at tracks keeps
    by_cases lock : lk = m.lock
    · exact .inl (owed.elim id fun owed => tracks lock chan _ holds owed)
    · simp [Monitor.Keeps,lock,inside] at keeps
  | wakeup ch next =>
    rw [instr] at tracks
    refine owed.imp id fun owed => ⟨by simp,?_⟩
    by_cases same : chan = ch
    · exact .inl ⟨same.symm,Nat.zero_le p⟩
    · exact .inr (tracks chan same owed)
  | killed next =>
    rw [instr] at tracks
    exact owed.imp id fun owed => ⟨by simp,tracks chan owed⟩
  | kill pid next =>
    rw [instr] at tracks
    exact .inl (owed.resolve_right (tracks chan))
  | update f =>
    rw [instr] at tracks
    exact (tracks data chan holds owed).imp id fun owed => ⟨by simp,owed⟩
  | choose f =>
    rw [instr] at tracks
    exact owed.imp id fun owed => ⟨by simp,tracks input chan owed⟩

/-- What is owed stays owed until the wakeup reaches the process. -/
theorem pcEffect_owes (kept : m.Kept M) (tracked : o.Tracked m M) (spared : o.Spared pr)
    (inside : pr.pc.inside m = true) (holds : pr.pc.holds m (m.view data)) (ne : q ≠ p) (bound : p < M.nproc) (input : ι)
    (owed : o.blocked chan (m.view data) ∨ pr.pc.owes o chan p) :
    o.blocked chan (m.view (pcEffect M q pr data input).data) ∨
      (pcEffect M q pr data input).op ≠ .release (.spin m.lock) ∧ (pcEffect M q pr data input).self.pc.owes o chan p ∨
      ∃ next, pr.pc = .wakeTest chan p next := by
  cases place : pr.pc with
  | code k =>
    rw [place] at inside holds owed
    simp only [pcEffect,place]
    exact (codeEffect_owes kept tracked inside holds input owed).imp id .inl
  | wakeNext ch j next =>
    rw [place] at owed
    simp only [pcEffect,place]
    split
    · split
      · rename_i self
        refine owed.imp id fun owed => .inl ⟨by simp,owed.imp (fun ahead => ⟨ahead.1,?_⟩) id⟩
        have := ahead.2
        omega
      · exact owed.imp id fun owed => .inl ⟨by simp,owed⟩
    · refine owed.imp id fun owed => .inl ⟨by simp,owed.resolve_left fun ahead => ?_⟩
      have := ahead.2
      omega
  | wakeTest ch j next =>
    rw [place] at owed
    simp only [pcEffect,place]
    rcases owed with blocked | ⟨same,ahead⟩ | later
    · exact .inl blocked
    · rcases Nat.lt_or_eq_of_le ahead with ahead | here
      · exact .inr (.inl ⟨by simp,.inl ⟨same,ahead⟩⟩)
      · exact .inr (.inr ⟨next,by rw [same,here]⟩)
    · exact .inr (.inl ⟨by simp,.inr later⟩)
  | wakeRelease ch j next | killedAcquire next | killedRelease next =>
    rw [place] at owed
    simp only [pcEffect,place]
    exact owed.imp id fun owed => .inl ⟨by simp,owed⟩
  | killedRead next =>
    rw [place] at owed
    simp only [pcEffect,place]
    refine owed.imp id fun owed => .inl ⟨by simp,?_⟩
    cases killed : pr.killed with
    | true => exact absurd owed (spared (next false) (by rw [place]; rfl) killed chan)
    | false => exact owed
  | sleepAcquire ch lk next | sleepRelease ch lk next | killRelease pid j found next =>
    rw [place] at owed
    simp only [pcEffect,place]
    exact .inl (owed.resolve_right id)
  | killNext pid j next | killTest pid j next =>
    rw [place] at owed
    simp only [pcEffect,place]
    split <;> exact .inl (owed.resolve_right id)
  | _ => simp [place,Pc.inside] at inside

end Own

variable {s t : State κ δ} {a : Action ι}

theorem asks_step (inv : Inv M s) {P : κ → Prop} (code : ∀ p k next, M.instr p k = .killed next → P (next false))
    (before : ∀ p k, (s.proc p).pc.asks = some k → P k) (stepped : step M s a = some t) :
    ∀ p k, (t.proc p).pc.asks = some k → P k := by
  intro p k asks
  cases inv.changes stepped p with
  | own here poked =>
    rw [poked.pc] at asks
    rcases asks_own M p _ _ _ a asks with old | ⟨caller,next,instr,rfl⟩
    · exact before p k old
    · exact code p caller next instr
  | switch ready same =>
    rw [same] at asks
    exact before p k asks
  | other _ poked =>
    rw [poked.pc] at asks
    exact before p k asks

/-- Every process that waits on a channel of the monitor is right to, or is owed a wakeup by the
process that has the lock. -/
def Served (m : Monitor κ δ ε) (o : Debts κ ε) (s : State κ δ) : Prop :=
  ∀ p chan, m.chans chan = true → (s.proc p).Waiting chan → o.blocked chan (m.view s.data) ∨
    ∃ c q, s.lock (.spin m.lock) = some c ∧ s.cpu c = .running q ∧ (s.proc q).pc.owes o chan p

namespace Served

theorem init {start : Nat → κ} {data : δ} : Served m o (init M start data) :=
  fun _ _ _ waiting => absurd waiting.1 (by simp [Sched.init])

theorem asleep (guarded : Guarded m s) (tracked : o.Tracked m M) {p chan lk : Nat} {next : κ}
    (ours : m.chans chan = true) (place : (s.proc p).pc = .sleepRelease chan lk next) :
    (s.proc p).pc.inside m = true ∧ o.blocked chan (m.view s.data) := by
  have lock : lk = m.lock := by
    by_contra other
    have sane := guarded.sane p
    simp [place,Pc.Sane,other,ours] at sane
  have inside : (s.proc p).pc.inside m = true := by simp [place,Pc.inside,lock]
  obtain ⟨_,c,here,own⟩ := guarded.inside p inside
  obtain ⟨q,there,_,holds⟩ := guarded.holder c own
  obtain rfl := Cpu.running.inj (there.symm.trans here)
  rw [place] at holds
  exact ⟨inside,tracked.asleep chan _ holds⟩

theorem step (served : Served m o s) (guarded : Guarded m s) (inv : Inv M s) (kept : m.Kept M) (tracked : o.Tracked m M)
    (spared : ∀ p, p < M.nproc → o.Spared (s.proc p)) (stepped : Sched.step M s a = some t) : Served m o t := by
  intro p chan ours waiting
  by_cases running : ∃ r, s.cpu a.cpu = .running r
  · obtain ⟨r,here⟩ := running
    have guards := guarded.guards kept inv here
    obtain ⟨u,⟨switched,_,_⟩,isT⟩ := inv.acts here stepped
    have poked (q : Nat) := u.write_poked r (procEffect M r (s.proc r) s.data (s.held a.cpu) a) q
    rw [switched.proc,← isT] at poked
    have data : t.data = (procEffect M r (s.proc r) s.data (s.held a.cpu) a).data := by rw [isT,State.write_data]
    rcases inv.waiting_before stepped waiting with before | ⟨there,lk,next,place⟩
    · have owed := served p chan ours before
      by_cases holder : s.lock (.spin m.lock) = some a.cpu
      · -- the process that has the lock
        obtain ⟨r',there,inside,holds⟩ := guarded.holder _ holder
        obtain rfl := Cpu.running.inj (there.symm.trans here)
        have ne : r' ≠ p := by
          rintro rfl
          have waits := before.1
          cases pc : (s.proc r').pc <;> simp [pc,Pc.inside] at waits inside
        have normal := (guarded.inside r' inside).1
        have owed : o.blocked chan (m.view s.data) ∨ (s.proc r').pc.owes o chan p := by
          refine owed.imp id fun elsewhere => ?_
          obtain ⟨c,q,own,there,owes⟩ := elsewhere
          cases holder.symm.trans own
          obtain rfl := Cpu.running.inj (there.symm.trans here)
          exact owes
        rw [procEffect_busy normal (inv.busy holder)] at poked data switched
        rcases pcEffect_owes kept tracked (spared r' (inv.bound _ _ here)) inside holds ne (inv.waiting_bound before)
          a.input owed with
          blocked | ⟨op,owes⟩ | ⟨next,place⟩
        · exact .inl (data ▸ blocked)
        · have self := poked r'
          rw [if_pos rfl] at self
          have stays : (pcEffect M r' (s.proc r') s.data a.input).op ≠ .sched := fun left => by
            cases pc : (s.proc r').pc <;> simp [pc,Pc.inside] at inside
            case code k => simp [pcEffect,pc,(codeEffect_spec r' (s.proc r') s.data a.input k).2.2.2.2] at left
            all_goals simp only [pcEffect,pc] at left
            all_goals (repeat' split at left) <;> cases left
          refine .inr ⟨a.cpu,r',?_,?_,by rwa [self.pc]⟩
          · rw [isT]
            exact (switched.lock _ _).mpr (.inl ⟨holder,op⟩)
          · rw [isT,State.write_cpu,switched.cpu_same stays,here]
        · exact absurd waiting (inv.test_wakes before here ne place stepped)
      · rw [data,guarded.view_same guards switched inv here holder]
        refine owed.imp id fun elsewhere => ?_
        obtain ⟨c,q,own,there,owes⟩ := elsewhere
        have cpu : c ≠ a.cpu := by
          rintro rfl
          exact holder own
        have other := poked q
        rw [if_neg (by rintro rfl; exact cpu (inv.unique _ _ q there here))] at other
        refine ⟨c,q,?_,?_,by rwa [other.pc]⟩
        · rw [isT]
          exact switched.keeps own cpu
        · rw [isT,State.write_cpu,switched.cpu_other c cpu,there]
    · obtain rfl := Cpu.running.inj (there.symm.trans here)
      obtain ⟨inside,blocked⟩ := asleep guarded tracked ours place
      obtain ⟨normal,c,there,own⟩ := guarded.inside p inside
      obtain rfl := inv.unique _ _ p there here
      rw [procEffect_busy normal (inv.busy own)] at data
      left
      rw [data]
      simpa [pcEffect,place] using blocked
  · have away := not_exists.mp running
    have idle := idle_of stepped away
    have before : (s.proc p).Waiting chan := by
      rcases inv.waiting_before stepped waiting with before | ⟨there,_⟩
      · exact before
      · exact absurd there (away p)
    rw [idle.data]
    refine (served p chan ours before).imp id fun elsewhere => ?_
    obtain ⟨c,q,own,there,owes⟩ := elsewhere
    refine ⟨c,q,(idle.lock _).trans own,?_,by rwa [idle.pc]⟩
    rw [idle.cpu c (by rintro rfl; exact away q there),there]

/-- While the lock is free, a process that is asleep on a channel of the monitor is right to be. -/
theorem blocked (served : Served m o s) (inv : Inv M s) (free : s.lock (.spin m.lock) = none) {p chan : Nat}
    (ours : m.chans chan = true) (asleep : (s.proc p).state = .sleeping) (channel : (s.proc p).chan = some chan) :
    o.blocked chan (m.view s.data) := by
  have waiting : (s.proc p).Waiting chan := by
    refine ⟨?_,fun _ => asleep⟩
    rcases ((inv.fine p).asleep asleep).2 with place | place
    all_goals
      cases pc : (s.proc p).pc <;> simp [pc,Pc.sched,Pc.back] at place
      have same := (inv.fine p).chan _ (by rw [pc]; rfl)
      rw [channel] at same
      rw [← Option.some.inj same]
      rfl
  refine (served p chan ours waiting).resolve_right fun elsewhere => ?_
  obtain ⟨c,q,own,_⟩ := elsewhere
  rw [free] at own
  exact absurd own (by simp)

end Served

end Xv6.Sched
