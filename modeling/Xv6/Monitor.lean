import Xv6.Wakeup

/-! Data that a spin lock guards: a rule for assertions about it in the code under the lock, and
one for the processes that sleep until it changes. -/
namespace Xv6.Sched

/-- A lock, the channels that are slept on with it, the places in the code where it is held and
the part of the data that it guards. `inv` holds of this part while the lock is free, `asleep`
when `sleep` releases the lock, and `holds` at each place inside. -/
structure Monitor (κ δ ε : Type) where
  lock : Nat
  chans : Nat → Bool
  inside : κ → Bool
  view : δ → ε
  inv : ε → Prop
  asleep : Nat → ε → Prop
  holds : κ → ε → Prop

variable {ι κ δ ε : Type} {M : Machine ι κ δ} (m : Monitor κ δ ε)

namespace Monitor

/-- A statement keeps to the lock. -/
def Keeps (k : κ) : Instr ι κ δ → Prop
  | .acquire l next =>
    if l = m.lock then m.inside k = false ∧ m.inside next = true ∧ ∀ v, m.inv v → m.holds next v
    else m.inside next = m.inside k ∧ ∀ v, m.holds k v → m.holds next v
  | .release l next =>
    if l = m.lock then m.inside k = true ∧ m.inside next = false ∧ ∀ v, m.holds k v → m.inv v
    else m.inside next = m.inside k ∧ ∀ v, m.holds k v → m.holds next v
  | .sleep chan lk next =>
    if lk = m.lock then
      m.inside k = true ∧ m.inside next = true ∧ (∀ v, m.holds k v → m.asleep chan v) ∧ ∀ v, m.inv v → m.holds next v
    else m.inside k = false ∧ m.inside next = false ∧ m.chans chan = false
  | .wakeup _ next => m.inside next = m.inside k ∧ ∀ v, m.holds k v → m.holds next v
  | .killed next => ∀ b, m.inside (next b) = m.inside k ∧ ∀ v, m.holds k v → m.holds (next b) v
  | .kill _ next => ∀ b, m.inside (next b) = m.inside k ∧ ∀ v, m.holds k v → m.holds (next b) v
  | .update f => ∀ data, m.inside (f data).2 = m.inside k ∧
      if m.inside k then m.holds k (m.view data) → m.holds (f data).2 (m.view (f data).1)
      else m.view (f data).1 = m.view data
  | .choose f => ∀ input, m.inside (f input) = m.inside k ∧ ∀ v, m.holds k v → m.holds (f input) v

/-- The code of a machine keeps to the lock. -/
structure Kept (M : Machine ι κ δ) : Prop where
  code : ∀ p k, m.Keeps k (M.instr p k)
  asleep : ∀ chan v, m.asleep chan v → m.inv v

def Away (k : κ) : Prop := m.inside k = false ∧ ∀ v, m.holds k v ↔ m.inv v

def Apart : Instr ι κ δ → Prop
  | .acquire l next | .release l next => l ≠ m.lock ∧ m.Away next
  | .sleep chan lk next => lk ≠ m.lock ∧ m.Away next ∧ m.chans chan = false
  | .wakeup _ next => m.Away next
  | .killed next | .kill _ next => ∀ b, m.Away (next b)
  | .update f => ∀ d, m.Away (f d).2 ∧ m.view (f d).1 = m.view d
  | .choose f => ∀ input, m.Away (f input)

variable {m}

theorem Apart.keeps {k : κ} {i : Instr ι κ δ} (away : m.Away k) (apart : m.Apart i) : m.Keeps k i := by
  have next {k' : κ} (away' : m.Away k') : m.inside k' = m.inside k ∧ ∀ v, m.holds k v → m.holds k' v :=
    ⟨away'.1.trans away.1.symm,fun v holds => (away'.2 v).mpr ((away.2 v).mp holds)⟩
  cases i with
  | acquire l k' | release l k' => exact (if_neg apart.1).mpr (next apart.2)
  | sleep chan lk k' => exact (if_neg apart.1).mpr ⟨away.1,apart.2.1.1,apart.2.2⟩
  | wakeup chan k' => exact next apart
  | killed k' | kill pid k' => exact fun b => next (apart b)
  | update f =>
    intro d
    refine ⟨(next (apart d).1).1,?_⟩
    rw [if_neg (by simp [away.1])]
    exact (apart d).2
  | choose f => exact fun input => next (apart input)

end Monitor

/-! The assertions carried through the statements of `proc.c`. -/

namespace Pc

def inside : Pc κ → Bool
  | .code k => m.inside k
  | .sleepAcquire _ lk _ | .sleepRelease _ lk _ => lk == m.lock
  | .wakeNext _ _ next | .wakeTest _ _ next | .wakeRelease _ _ next => m.inside next
  | .killedAcquire next | .killedRead next => m.inside (next false)
  | .killedRelease next => m.inside next
  | .killNext _ _ next | .killTest _ _ next | .killRelease _ _ _ next => m.inside (next false)
  | _ => false

def holds (v : ε) : Pc κ → Prop
  | .code k => m.holds k v
  | .sleepAcquire chan _ _ | .sleepRelease chan _ _ => m.asleep chan v
  | .wakeNext _ _ next | .wakeTest _ _ next | .wakeRelease _ _ next => m.holds next v
  | .killedAcquire next | .killedRead next => ∀ b, m.holds (next b) v
  | .killedRelease next => m.holds next v
  | .killNext _ _ next | .killTest _ _ next | .killRelease _ _ _ next => ∀ b, m.holds (next b) v
  | _ => True

/-- What a place in `proc.c` has to remember of the statement that called. -/
def Sane : Pc κ → Prop
  | .sleepAcquire chan lk next | .sleepRelease chan lk next | .sleepChan chan lk next | .sleepState chan lk next
  | .sleepSched chan lk next | .sleepBack chan lk next =>
    if lk = m.lock then m.inside next = true ∧ ∀ v, m.inv v → m.holds next v
    else m.inside next = false ∧ m.chans chan = false
  | .sleepDone lk next | .sleepReacquire lk next =>
    if lk = m.lock then m.inside next = true ∧ ∀ v, m.inv v → m.holds next v else m.inside next = false
  | .killedAcquire next | .killedRead next => ∀ b, m.inside (next b) = m.inside (next false)
  | .killNext _ _ next | .killTest _ _ next | .killRelease _ _ _ next => ∀ b, m.inside (next b) = m.inside (next false)
  | _ => True

end Pc

/-- A step of a process, from the side of the lock. -/
structure Guards (pr : Proc κ) (data : δ) (e : Effect κ δ) : Prop where
  sane : e.self.pc.Sane m
  normal : e.self.pc.inside m = true → e.self.yielding = none
  taken : e.op = .acquire (.spin m.lock) → pr.pc.inside m = false ∧ e.self.pc.inside m = true ∧ e.data = data ∧
    ∀ v, m.inv v → e.self.pc.holds m v
  left : e.op = .release (.spin m.lock) → pr.pc.inside m = true ∧ e.self.pc.inside m = false ∧ e.data = data ∧
    ∀ v, pr.pc.holds m v → m.inv v
  other : e.op ≠ .acquire (.spin m.lock) → e.op ≠ .release (.spin m.lock) → e.self.pc.inside m = pr.pc.inside m ∧
      if pr.pc.inside m then pr.pc.holds m (m.view data) → e.self.pc.holds m (m.view e.data)
      else m.view e.data = m.view data

section Own

variable {m} {pr : Proc κ} {data : δ} {p : Nat}

theorem Guards.quiet {e : Effect κ δ} (sane : e.self.pc.Sane m) (normal : e.self.yielding = none)
    (apart : e.op ≠ .acquire (.spin m.lock) ∧ e.op ≠ .release (.spin m.lock)) (kept : e.data = data)
    (same : e.self.pc.inside m = pr.pc.inside m) (made : ∀ v, pr.pc.holds m v → e.self.pc.holds m v) :
    Guards m pr data e := by
  refine ⟨sane,fun _ => normal,fun taken => absurd taken apart.1,fun left => absurd left apart.2,fun _ _ => ⟨same,?_⟩⟩
  rw [kept]
  split
  · exact made _
  · rfl

theorem codeEffect_guards (kept : m.Kept M) (normal : pr.yielding = none) (input : ι) {k : κ} (place : pr.pc = .code k) :
    Guards m pr data (codeEffect M p pr data input k) := by
  have keeps := kept.code p k
  have inside : pr.pc.inside m = m.inside k := by rw [place,Pc.inside]
  have holds (v : ε) : pr.pc.holds m v → m.holds k v := by
    rw [place,Pc.holds]
    exact id
  unfold codeEffect
  cases instr : M.instr p k with
  | acquire l next =>
    rw [instr] at keeps
    obtain rfl | lock := eq_or_ne l m.lock
    · obtain ⟨out,inn,made⟩ : _ ∧ _ ∧ _ := by simpa [Monitor.Keeps] using keeps
      exact ⟨trivial,fun _ => normal,fun _ => ⟨inside.trans out,inn,rfl,made⟩,nofun,fun taken => absurd rfl taken⟩
    · obtain ⟨same,made⟩ : _ ∧ _ := by simpa [Monitor.Keeps,lock] using keeps
      refine .quiet trivial normal ⟨fun taken => ?_,nofun⟩ rfl (same.trans inside.symm) fun v at_ => made v (holds v at_)
      exact lock (Lock.spin.inj (Op.acquire.inj taken))
  | release l next =>
    rw [instr] at keeps
    obtain rfl | lock := eq_or_ne l m.lock
    · obtain ⟨inn,out,made⟩ : _ ∧ _ ∧ _ := by simpa [Monitor.Keeps] using keeps
      exact ⟨trivial,fun _ => normal,nofun,fun _ => ⟨inside.trans inn,out,rfl,fun v at_ => made v (holds v at_)⟩,
        fun _ left => absurd rfl left⟩
    · obtain ⟨same,made⟩ : _ ∧ _ := by simpa [Monitor.Keeps,lock] using keeps
      refine .quiet trivial normal ⟨nofun,fun left => ?_⟩ rfl (same.trans inside.symm) fun v at_ => made v (holds v at_)
      exact lock (Lock.spin.inj (Op.release.inj left))
  | sleep chan lk next =>
    rw [instr] at keeps
    obtain rfl | lock := eq_or_ne lk m.lock
    · obtain ⟨inn,back,made,again⟩ : _ ∧ _ ∧ _ ∧ _ := by simpa [Monitor.Keeps] using keeps
      refine .quiet (by simpa [Pc.Sane] using ⟨back,again⟩) normal ⟨nofun,nofun⟩ rfl ?_ fun v at_ => made v (holds v at_)
      simp [Pc.inside,place,inn]
    · obtain ⟨out,back,chans⟩ : _ ∧ _ ∧ _ := by simpa [Monitor.Keeps,lock] using keeps
      refine ⟨by simpa [Pc.Sane,lock] using ⟨back,chans⟩,fun _ => normal,nofun,nofun,fun _ _ => ⟨?_,?_⟩⟩
      · simp [Pc.inside,place,out,lock]
      · simp [inside,out]
  | wakeup chan next =>
    rw [instr] at keeps
    exact .quiet trivial normal ⟨nofun,nofun⟩ rfl (keeps.1.trans inside.symm) fun v at_ => keeps.2 v (holds v at_)
  | killed next | kill pid next =>
    rw [instr] at keeps
    exact .quiet (fun b => (keeps b).1.trans (keeps false).1.symm) normal ⟨nofun,nofun⟩ rfl
      ((keeps false).1.trans inside.symm) fun v at_ b => (keeps b).2 v (holds v at_)
  | update f =>
    rw [instr] at keeps
    obtain ⟨same,made⟩ := keeps data
    refine ⟨trivial,fun _ => normal,nofun,nofun,fun _ _ => ⟨same.trans inside.symm,?_⟩⟩
    rw [inside]
    split
    · rename_i inn
      rw [if_pos inn] at made
      exact fun at_ => made (holds _ at_)
    · rename_i out
      rwa [if_neg out] at made
  | choose f =>
    rw [instr] at keeps
    exact .quiet trivial normal ⟨nofun,nofun⟩ rfl ((keeps input).1.trans inside.symm) fun v at_ =>
      (keeps input).2 v (holds v at_)

theorem pcEffect_guards (kept : m.Kept M) (normal : pr.yielding = none) (sane : pr.pc.Sane m) (input : ι) :
    Guards m pr data (pcEffect M p pr data input) := by
  unfold pcEffect
  cases place : pr.pc with
  | code k => exact codeEffect_guards kept normal input place
  | sleepRelease chan lk next =>
    rw [place] at sane
    obtain rfl | lock := eq_or_ne lk m.lock
    · refine ⟨sane,nofun,nofun,fun _ => ⟨by simp [place,Pc.inside],rfl,rfl,fun v at_ => ?_⟩,fun _ left => absurd rfl left⟩
      rw [place] at at_
      exact kept.asleep chan v at_
    · refine .quiet sane normal ⟨nofun,fun left => ?_⟩ rfl (by simp [place,Pc.inside,lock]) fun _ _ => trivial
      exact lock (Lock.spin.inj (Op.release.inj left))
  | sleepBack chan lk next =>
    rw [place] at sane
    refine .quiet ?_ normal ⟨nofun,nofun⟩ rfl (by rw [place]; rfl) fun _ _ => trivial
    simp only [Pc.Sane] at sane ⊢
    split at sane
    · rwa [if_pos (by assumption)]
    · rw [if_neg (by assumption)]
      exact sane.1
  | sleepReacquire lk next =>
    rw [place] at sane
    obtain rfl | lock := eq_or_ne lk m.lock
    · simp only [Pc.Sane,if_true] at sane
      exact ⟨trivial,fun _ => normal,fun _ => ⟨by rw [place]; rfl,sane.1,rfl,sane.2⟩,nofun,fun taken => absurd rfl taken⟩
    · simp only [Pc.Sane,lock,if_false] at sane
      refine ⟨trivial,fun _ => normal,fun taken => ?_,nofun,fun _ _ => ⟨?_,?_⟩⟩
      · exact absurd (Lock.spin.inj (Op.acquire.inj taken)) lock
      · simpa [place,Pc.inside] using sane
      · simp [place,Pc.inside]
  | wakeNext chan j next =>
    dsimp only
    split <;> try split
    all_goals exact .quiet trivial normal ⟨nofun,nofun⟩ rfl (by rw [place]; rfl) fun v at_ => by rwa [place] at at_
  | killedRead next =>
    rw [place] at sane
    refine .quiet trivial normal ⟨nofun,nofun⟩ rfl ?_ fun v at_ => ?_
    · rw [place]
      exact sane pr.killed
    · rw [place] at at_
      exact at_ pr.killed
  | killNext pid j next =>
    rw [place] at sane
    dsimp only
    split
    · exact .quiet sane normal ⟨nofun,nofun⟩ rfl (by rw [place]; rfl) fun v at_ => by rwa [place] at at_
    · refine .quiet trivial normal ⟨nofun,nofun⟩ rfl (by rw [place]; rfl) fun v at_ => ?_
      rw [place] at at_
      exact at_ false
  | killTest pid j next =>
    rw [place] at sane
    dsimp only
    split
    all_goals exact .quiet sane normal ⟨nofun,nofun⟩ rfl (by rw [place]; rfl) fun v at_ => by rwa [place] at at_
  | killRelease pid j found next =>
    rw [place] at sane
    cases found
    · exact .quiet sane normal ⟨nofun,nofun⟩ rfl (by rw [place]; rfl) fun v at_ => by rwa [place] at at_
    · refine .quiet trivial normal ⟨nofun,nofun⟩ rfl (by rw [place]; exact sane true) fun v at_ => ?_
      rw [place] at at_
      exact at_ true
  | _ =>
    rw [place] at sane
    refine .quiet ?_ normal ⟨nofun,nofun⟩ rfl (by rw [place]; rfl) fun v at_ => ?_
    · exact sane
    · rw [place] at at_
      exact at_

/-- A process inside holds the lock, so no interrupt comes in between. -/
theorem procEffect_guards (kept : m.Kept M) {held : List Lock} (sane : pr.pc.Sane m)
    (busy : pr.pc.inside m = true → pr.yielding = none ∧ held ≠ []) (a : Action ι) :
    Guards m pr data (procEffect M p pr data held a) := by
  unfold procEffect
  cases yielding : pr.yielding with
  | some stage =>
    have out : pr.pc.inside m = false := by
      by_contra inn
      have := (busy (by simpa using inn)).1
      simp [yielding] at this
    cases stage
    all_goals
      exact ⟨sane,fun inn => absurd (out.symm.trans inn) (by decide),nofun,nofun,
        fun _ _ => ⟨rfl,by rw [if_neg (by simp [out])]; rfl⟩⟩
  | none =>
    dsimp only
    split
    · rename_i interrupted
      have out : pr.pc.inside m = false := by
        by_contra inn
        exact (busy (by simpa using inn)).2 interrupted.2
      exact ⟨sane,fun inn => absurd (out.symm.trans inn) (by decide),nofun,nofun,
        fun _ _ => ⟨rfl,by rw [if_neg (by simp [out])]⟩⟩
    · exact pcEffect_guards kept yielding sane a.input

end Own

/-! Whole states. -/

variable {s t u : State κ δ} {a : Action ι} {c p q : Nat}

/-- A step of a scheduler changes neither the code, the data nor the locks of the callers. -/
structure Idle (s : State κ δ) (a : Action ι) (t : State κ δ) : Prop where
  pc : ∀ p, (t.proc p).pc = (s.proc p).pc
  yielding : ∀ p, (t.proc p).yielding = (s.proc p).yielding
  killed : ∀ p, (t.proc p).killed = (s.proc p).killed
  data : t.data = s.data
  cpu : ∀ d, d ≠ a.cpu → t.cpu d = s.cpu d
  lock : ∀ l, t.lock (.spin l) = s.lock (.spin l)

theorem idle_of (stepped : step M s a = some t) (idle : ∀ p, s.cpu a.cpu ≠ .running p) : Idle s a t := by
  cases mode : s.cpu a.cpu with
  | scan j =>
    simp only [step,mode] at stepped
    obtain ⟨u,taken,rfl⟩ := Option.map_eq_some_iff.mp stepped
    obtain ⟨_,rfl⟩ := State.acquire_eq taken
    exact ⟨fun _ => rfl,fun _ => rfl,fun _ => rfl,rfl,fun d other => by simp [other], fun l => by simp⟩
  | test j =>
    simp only [step,mode] at stepped
    split at stepped
    all_goals cases stepped
    · refine ⟨fun p => ?_,fun p => ?_,fun p => ?_,rfl,fun d other => by simp [other], fun _ => rfl⟩
      all_goals
        by_cases here : p = j
        · simp [here]
        · simp [here]
    · exact ⟨fun _ => rfl,fun _ => rfl,fun _ => rfl,rfl,fun d other => by simp [other],fun _ => rfl⟩
  | back j =>
    simp only [step,mode] at stepped
    obtain ⟨u,left,rfl⟩ := Option.map_eq_some_iff.mp stepped
    obtain ⟨_,rfl⟩ := State.release_eq left
    exact ⟨fun _ => rfl,fun _ => rfl,fun _ => rfl,rfl,fun d other => by simp [other], fun l => by simp⟩
  | running p => exact absurd mode (idle p)

/-- The lock is held by the CPU of the process that is inside, and the data is as the code says. -/
structure Guarded (s : State κ δ) : Prop where
  sane : ∀ p, (s.proc p).pc.Sane m
  inside : ∀ p, (s.proc p).pc.inside m = true → (s.proc p).yielding = none ∧
    ∃ c, s.cpu c = .running p ∧ s.lock (.spin m.lock) = some c
  holder : ∀ c, s.lock (.spin m.lock) = some c →
    ∃ p, s.cpu c = .running p ∧ (s.proc p).pc.inside m = true ∧ (s.proc p).pc.holds m (m.view s.data)
  free : s.lock (.spin m.lock) = none → m.inv (m.view s.data)

namespace Guarded

variable {m}

theorem init {start : Nat → κ} {data : δ} (outside : ∀ p, m.inside (start p) = false) (inv : m.inv (m.view data)) :
    Guarded m (init M start data) :=
  ⟨fun _ => trivial,fun p inn => absurd ((outside p).symm.trans inn) (by decide),nofun,fun _ => inv⟩

theorem idle (guarded : Guarded m s) (away : ∀ p, s.cpu a.cpu ≠ .running p) (idle : Idle s a t) : Guarded m t := by
  refine ⟨fun p => ?_,fun p inn => ?_,fun c own => ?_,fun free => ?_⟩
  · rw [idle.pc]
    exact guarded.sane p
  · rw [idle.pc] at inn
    obtain ⟨normal,c,here,own⟩ := guarded.inside p inn
    refine ⟨(idle.yielding p).trans normal,c,?_,(idle.lock _).trans own⟩
    rw [idle.cpu c (by rintro rfl; exact away p here),here]
  · rw [idle.lock] at own
    obtain ⟨p,here,inn,holds⟩ := guarded.holder c own
    refine ⟨p,?_,by rwa [idle.pc],by rwa [idle.pc,idle.data]⟩
    rw [idle.cpu c (by rintro rfl; exact away p here),here]
  · rw [idle.lock] at free
    rw [idle.data]
    exact guarded.free free

theorem guards (guarded : Guarded m s) (kept : m.Kept M) (inv : Inv M s) (here : s.cpu a.cpu = .running p) :
    Guards m (s.proc p) s.data (procEffect M p (s.proc p) s.data (s.held a.cpu) a) := by
  refine procEffect_guards kept (guarded.sane p) (fun inn => ?_) a
  obtain ⟨normal,c,there,own⟩ := guarded.inside p inn
  obtain rfl := inv.unique _ _ p there here
  exact ⟨normal,inv.busy own⟩

theorem view_same (guarded : Guarded m s) {e : Effect κ δ} (guards : Guards m (s.proc p) s.data e)
    (switched : s.Switched c p e.op u) (inv : Inv M s) (here : s.cpu c = .running p)
    (other : s.lock (.spin m.lock) ≠ some c) : m.view e.data = m.view s.data := by
  have out : (s.proc p).pc.inside m = false := by
    by_contra inn
    obtain ⟨_,d,there,own⟩ := guarded.inside p (by simpa using inn)
    obtain rfl := inv.unique _ _ p there here
    exact other own
  by_cases taken : e.op = .acquire (.spin m.lock)
  · rw [(guards.taken taken).2.2.1]
  · by_cases left : e.op = .release (.spin m.lock)
    · exact absurd (switched.own _ left) other
    · have := (guards.other taken left).2
      rwa [if_neg (by simp [out])] at this

theorem step (guarded : Guarded m s) (kept : m.Kept M) (inv : Inv M s) (stepped : Sched.step M s a = some t) :
    Guarded m t := by
  by_cases running : ∃ p, s.cpu a.cpu = .running p
  · obtain ⟨p,here⟩ := running
    have guards := guarded.guards kept inv here
    obtain ⟨u,⟨switched,_,moves⟩,rfl⟩ := inv.acts here stepped
    have poked (q : Nat) := u.write_poked p (procEffect M p (s.proc p) s.data (s.held a.cpu) a) q
    rw [switched.proc] at poked
    generalize procEffect M p (s.proc p) s.data (s.held a.cpu) a = e at *
    have self := poked p
    rw [if_pos rfl] at self
    have stays (inn : e.self.pc.inside m = true) : u.cpu a.cpu = .running p := by
      have op : e.op ≠ .sched := fun left => by
        rcases (moves.leaves left).1 with back | ⟨_,back⟩
        · simp [guards.normal inn] at back
        · cases pc : e.self.pc <;> simp [pc,Pc.back,Pc.inside] at back inn
      rw [switched.cpu_same op,here]
    refine ⟨fun q => ?_,fun q inn => ?_,fun d own => ?_,fun free => ?_⟩
    · rw [(poked q).pc]
      split
      · exact guards.sane
      · exact guarded.sane q
    · obtain rfl | same := eq_or_ne q p
      · rw [self.pc] at inn
        refine ⟨self.yielding.trans (guards.normal inn),a.cpu,stays inn,(switched.lock _ _).mpr ?_⟩
        by_cases taken : e.op = .acquire (.spin m.lock)
        · exact .inr ⟨taken,rfl⟩
        · have left : e.op ≠ .release (.spin m.lock) := fun left =>
            absurd ((guards.left left).2.1.symm.trans inn) (by decide)
          rw [(guards.other taken left).1] at inn
          obtain ⟨_,d,there,own⟩ := guarded.inside q inn
          obtain rfl := inv.unique _ _ q there here
          exact .inl ⟨own,left⟩
      · have other := poked q
        rw [if_neg same] at other
        rw [other.pc] at inn
        obtain ⟨normal,d,there,own⟩ := guarded.inside q inn
        have cpu : d ≠ a.cpu := by
          rintro rfl
          exact same (Cpu.running.inj (there.symm.trans here))
        exact ⟨other.yielding.trans normal,d,(switched.cpu_other d cpu).trans there,switched.keeps own cpu⟩
    · rw [State.write_data]
      rcases (switched.lock _ _).mp own with ⟨before,kept⟩ | ⟨taken,rfl⟩
      · obtain ⟨q,there,inn,holds⟩ := guarded.holder d before
        have taken : e.op ≠ .acquire (.spin m.lock) := fun taken => by
          rw [switched.free _ taken] at before
          exact absurd before (by simp)
        obtain rfl | cpu := eq_or_ne d a.cpu
        · obtain rfl := Cpu.running.inj (there.symm.trans here)
          obtain ⟨same,next⟩ := guards.other taken kept
          rw [if_pos inn] at next
          refine ⟨q,stays (same.trans inn),?_,?_⟩
          · rw [self.pc,same,inn]
          · rw [self.pc]
            exact next holds
        · have same : q ≠ p := by
            rintro rfl
            exact cpu (inv.unique _ _ q there here)
          have other := poked q
          rw [if_neg same] at other
          refine ⟨q,(switched.cpu_other d cpu).trans there,by rwa [other.pc],?_⟩
          rw [other.pc,guarded.view_same guards switched inv here (by rw [before]; simpa using cpu)]
          exact holds
      · obtain ⟨_,inn,same,made⟩ := guards.taken taken
        refine ⟨p,stays inn,by rwa [self.pc],?_⟩
        rw [self.pc,same]
        exact made _ (guarded.free (switched.free _ taken))
    · rw [State.write_data]
      have gone (d : Nat) : u.lock (.spin m.lock) ≠ some d := by
        rw [show u.lock (.spin m.lock) = none from free]
        simp
      by_cases left : e.op = .release (.spin m.lock)
      · obtain ⟨_,_,same,made⟩ := guards.left left
        obtain ⟨q,there,_,holds⟩ := guarded.holder _ (switched.own _ left)
        obtain rfl := Cpu.running.inj (there.symm.trans here)
        rw [same]
        exact made _ holds
      · have before : s.lock (.spin m.lock) = none := by
          by_contra some
          obtain ⟨d,own⟩ := Option.ne_none_iff_exists'.mp some
          exact gone d ((switched.lock _ _).mpr (.inl ⟨own,left⟩))
        rw [guarded.view_same guards switched inv here (by simp [before])]
        exact guarded.free before
  · have away := not_exists.mp running
    exact guarded.idle away (idle_of stepped away)

/-- What every assertion of the monitor says holds all the time. -/
theorem always (guarded : Guarded m s) (strong : ∀ k v, m.holds k v → m.inv v) (kept : m.Kept M) :
    m.inv (m.view s.data) := by
  cases lock : s.lock (.spin m.lock) with
  | none => exact guarded.free lock
  | some c =>
    obtain ⟨p,_,inside,holds⟩ := guarded.holder c lock
    cases place : (s.proc p).pc <;> simp only [place,Pc.inside,Pc.holds,Bool.false_eq_true] at inside holds
    case code | wakeNext | wakeTest | wakeRelease | killedRelease => exact strong _ _ holds
    case sleepAcquire | sleepRelease => exact kept.asleep _ _ holds
    all_goals exact strong _ _ (holds false)

theorem run (kept : m.Kept M) {start : Nat → κ} {data : δ} {acts : List (Action ι)}
    (outside : ∀ p, m.inside (start p) = false) (first : m.inv (m.view data))
    (ran : Runs.run (Sched.step M) (Sched.init M start data) acts = some s) : Inv M s ∧ Guarded m s :=
  Runs.run_invariant (fun s => Inv M s ∧ Guarded m s)
    (fun _ _ _ ⟨inv,guarded⟩ stepped => ⟨inv.step stepped,guarded.step kept inv stepped⟩)
    ⟨.init M start data,.init outside first⟩ ran

end Guarded

end Xv6.Sched
