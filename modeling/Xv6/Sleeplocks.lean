import Xv6.Outline
import Xv6.Owed

/-! Sleep locks: `acquiresleep`, `releasesleep` and `holdingsleep` of `sleeplock.c`, called by any number of processes,
any of which may be killed. -/
namespace Xv6.Sleeplocks

open Sched

/-- `struct sleeplock`. The process that has the lock is `holder`, which is no field of the source; it changes with
`pid`. -/
structure Sleeplock where
  locked : Nat
  pid : Nat
  holder : Option Nat

def spin : Nat := 0
/-- The address of the sleep lock as a channel. -/
def chan : Nat := 0

/-! The places in each call, named for the statement that comes next. -/

inductive AcquireAt
  | acquire | loop | sleep | lock | pid | release
  deriving DecidableEq

inductive ReleaseAt
  | acquire | unlock | pid | wakeup | release
  deriving DecidableEq

inductive HoldingAt
  | acquire | test | release (r : Bool)
  deriving DecidableEq

/-- Where a process is. Its last call of `acquiresleep` has returned, and it has not called `releasesleep` since, if
`held` is set. -/
inductive Code
  | out (held : Bool)
  | acquiresleep (held : Bool) (place : AcquireAt)
  | releasesleep (place : ReleaseAt)
  | holdingsleep (held : Bool) (place : HoldingAt)
  | holdingReturn (held r : Bool)
  | kill (held : Bool) (pid : Nat)
  deriving DecidableEq

inductive Input
  | acquiresleep | releasesleep | holdingsleep | kill (pid : Nat)

/-- Only a holder calls `releasesleep`. -/
def call (held : Bool) : Input → Code
  | .acquiresleep => .acquiresleep held .acquire
  | .releasesleep => if held then .releasesleep .acquire else .out held
  | .holdingsleep => .holdingsleep held .acquire
  | .kill pid => .kill held pid

def acquiresleep (p pid : Nat) (held : Bool) : AcquireAt → Instr Input Code Sleeplock
  | .acquire => .acquire spin (.acquiresleep held .loop)
  | .loop => .update fun lk => (lk,.acquiresleep held (if lk.locked ≠ 0 then .sleep else .lock))
  | .sleep => .sleep chan spin (.acquiresleep held .loop)
  | .lock => .update fun lk => ({ lk with locked := 1 },.acquiresleep held .pid)
  | .pid => .update fun lk => ({ lk with pid, holder := some p },.acquiresleep held .release)
  | .release => .release spin (.out true)

def releasesleep : ReleaseAt → Instr Input Code Sleeplock
  | .acquire => .acquire spin (.releasesleep .unlock)
  | .unlock => .update fun lk => ({ lk with locked := 0 },.releasesleep .pid)
  | .pid => .update fun lk => ({ lk with pid := 0, holder := none },.releasesleep .wakeup)
  | .wakeup => .wakeup chan (.releasesleep .release)
  | .release => .release spin (.out false)

def holdingsleep (pid : Nat) (held : Bool) : HoldingAt → Instr Input Code Sleeplock
  | .acquire => .acquire spin (.holdingsleep held .test)
  | .test => .update fun lk => (lk,.holdingsleep held (.release (lk.locked ≠ 0 ∧ lk.pid = pid)))
  | .release r => .release spin (.holdingReturn held r)

def instr (pid : Nat → Nat) (p : Nat) : Code → Instr Input Code Sleeplock
  | .out held => .choose (call held)
  | .acquiresleep held place => acquiresleep p (pid p) held place
  | .releasesleep place => releasesleep place
  | .holdingsleep held place => holdingsleep (pid p) held place
  | .holdingReturn held _ => .choose fun _ => .out held
  | .kill held pid => .kill pid fun _ => .out held

def machine (nproc : Nat) (pid : Nat → Nat) : Machine Input Code Sleeplock := ⟨nproc,pid,instr pid⟩

/-- `initsleeplock` has been called and no process has called anything else. -/
def boot (nproc : Nat) (pid : Nat → Nat) : State Code Sleeplock :=
  init (machine nproc pid) (fun _ => .out false) ⟨0,0,none⟩

/-! The invariant. -/

namespace Code

def inside : Code → Bool
  | .acquiresleep _ .acquire | .releasesleep .acquire | .holdingsleep _ .acquire => false
  | .acquiresleep .. | .releasesleep .. | .holdingsleep .. => true
  | _ => false

@[simp] def has : Code → Bool
  | .acquiresleep held place => held || place = .release
  | .releasesleep place => place = .acquire || place = .unlock || place = .pid
  | .out held | .holdingsleep held _ | .holdingReturn held _ | .kill held _ => held

/-- `holdingsleep` answers right. -/
def answers : Code → Prop
  | .holdingsleep held (.release r) | .holdingReturn held r => r = held
  | _ => True

end Code

/-- The fields say who has the lock. -/
structure Sleeplock.Tells (pid : Nat → Nat) (lk : Sleeplock) : Prop where
  locked : lk.locked = if lk.holder.isSome then 1 else 0
  pid : ∀ p, lk.holder = some p → lk.pid = pid p

theorem Sleeplock.Tells.free {pid : Nat → Nat} {lk : Sleeplock} (tells : lk.Tells pid) (free : lk.locked = 0) :
    lk.holder = none := by
  have locked := tells.locked
  rw [free] at locked
  simpa using locked

theorem Sleeplock.Tells.busy {pid : Nat → Nat} {lk : Sleeplock} (tells : lk.Tells pid) (busy : lk.locked ≠ 0) :
    lk.locked = 1 := by
  have locked := tells.locked
  split at locked <;> omega

/-- What a call knows of the lock at each place under `lk->lk`. -/
def Code.knows (pid : Nat → Nat) (lk : Sleeplock) : Code → Prop
  | .acquiresleep _ .sleep => lk.Tells pid ∧ lk.locked = 1
  | .acquiresleep _ .lock => lk.Tells pid ∧ lk.locked = 0
  | .acquiresleep _ .pid => lk.locked = 1 ∧ lk.holder = none
  | .releasesleep .pid => lk.locked = 0
  | _ => lk.Tells pid

def monitor (pid : Nat → Nat) : Monitor Code Sleeplock Sleeplock where
  lock := spin
  chans c := c == chan
  inside := Code.inside
  view := id
  inv := Sleeplock.Tells pid
  asleep _ lk := lk.Tells pid ∧ lk.locked = 1
  holds k lk := k.knows pid lk

theorem kept (nproc : Nat) (pid : Nat → Nat) : (monitor pid).Kept (machine nproc pid) := by
  refine ⟨fun p k => ?_,fun _ _ asleep => asleep.1⟩
  cases k with
  | out held =>
    intro input
    cases input
    case releasesleep => cases held <;> exact ⟨rfl,fun _ => id⟩
    all_goals exact ⟨rfl,fun _ => id⟩
  | acquiresleep held place =>
    cases place
    case acquire | release => exact ⟨rfl,rfl,fun _ => id⟩
    case loop =>
      intro lk
      dsimp only
      by_cases busy : lk.locked ≠ 0
      · rw [if_pos busy]
        exact ⟨rfl,fun tells => ⟨tells,Sleeplock.Tells.busy tells busy⟩⟩
      · rw [if_neg busy]
        exact ⟨rfl,fun tells => ⟨tells,not_not.mp busy⟩⟩
    case sleep => exact ⟨rfl,rfl,fun _ => id,fun _ => id⟩
    case lock => exact fun lk => ⟨rfl,fun ⟨tells,free⟩ => ⟨rfl,tells.free free⟩⟩
    case pid => exact fun lk => ⟨rfl,fun ⟨locked,_⟩ => ⟨locked,fun q here => congrArg pid (Option.some.inj here)⟩⟩
  | releasesleep place =>
    cases place
    case acquire | release => exact ⟨rfl,rfl,fun _ => id⟩
    case unlock => exact fun lk => ⟨rfl,fun _ => rfl⟩
    case pid => exact fun lk => ⟨rfl,fun free => ⟨free,nofun⟩⟩
    case wakeup => exact ⟨rfl,fun _ => id⟩
  | holdingsleep held place =>
    cases place
    case acquire | release => exact ⟨rfl,rfl,fun _ => id⟩
    case test => exact fun lk => ⟨rfl,id⟩
  | holdingReturn held r | kill held pid => exact fun _ => ⟨rfl,fun _ => id⟩

/-- A process is where it has the lock just if it is the holder. -/
def outline (nproc : Nat) : Outline Code Sleeplock where
  asserts p k lk := (k.has = true ↔ lk.holder = some p) ∧ (∀ q, lk.holder = some q → q < nproc) ∧ k.answers

theorem keeps {nproc : Nat} {pid : Nat → Nat} (distinct : ∀ p < nproc, ∀ q < nproc, pid p = pid q → p = q) {p : Nat}
    (bound : p < nproc)
    (k : Code) : (outline nproc).Keeps (monitor pid) p k (instr pid p k) := by
  cases k with
  | out held =>
    rintro input lk ⟨has,holder,-⟩
    cases input
    case releasesleep => cases held <;> exact ⟨by simpa [call] using has,holder,trivial⟩
    all_goals exact ⟨by simpa [call] using has,holder,trivial⟩
  | acquiresleep held place =>
    cases place
    case acquire | sleep | release => exact fun lk ⟨has,holder,_⟩ => ⟨by simpa using has,holder,trivial⟩
    case loop =>
      refine fun lk _ ⟨has,holder,_⟩ => ⟨?_,fun _ _ _ => id⟩
      dsimp only
      split <;> exact ⟨by simpa using has,holder,trivial⟩
    case lock => exact fun lk _ ⟨has,holder,_⟩ => ⟨⟨by simpa using has,holder,trivial⟩,fun _ _ _ => id⟩
    case pid =>
      intro lk view ⟨has,holder,_⟩
      obtain ⟨_,free⟩ : lk.locked = 1 ∧ lk.holder = none := view rfl
      refine ⟨⟨by simp,fun q here => Option.some.inj here ▸ bound,trivial⟩,fun q other k' ⟨has',_,answers⟩ => ?_⟩
      refine ⟨?_,fun q here => Option.some.inj here ▸ bound,answers⟩
      rw [has',free]
      simp [Ne.symm other]
  | releasesleep place =>
    cases place
    case acquire | wakeup | release => exact fun lk ⟨has,holder,_⟩ => ⟨by simpa using has,holder,trivial⟩
    case unlock =>
      exact fun lk _ ⟨has,holder,_⟩ => ⟨⟨by simpa using has,holder,trivial⟩,fun _ _ _ => id⟩
    case pid =>
      intro lk view ⟨has,holder,_⟩
      have mine : lk.holder = some p := has.mp rfl
      refine ⟨⟨by simp,by simp,trivial⟩,fun q other k' ⟨has',_,answers⟩ => ⟨?_,by simp,answers⟩⟩
      rw [has',mine]
      simp [Ne.symm other]
  | holdingsleep held place =>
    cases place
    case acquire => exact fun lk ⟨has,holder,_⟩ => ⟨by simpa using has,holder,trivial⟩
    case test =>
      intro lk view ⟨has,holder,_⟩
      have tells : lk.Tells pid := view rfl
      refine ⟨⟨by simpa using has,holder,?_⟩,fun _ _ _ => id⟩
      have held_iff : held = true ↔ lk.holder = some p := has
      have locked := tells.locked
      simp only [Code.answers]
      rw [Bool.eq_iff_iff,decide_eq_true_iff,held_iff]
      cases who : lk.holder with
      | none => simp [who] at locked; simp [locked]
      | some q =>
        have value := tells.pid q who
        rw [who] at locked
        rw [value,locked]
        simp only [Option.isSome_some,if_true,Option.some.injEq]
        exact ⟨fun same => distinct q (holder q who) p bound same.2,fun same => ⟨by decide,by rw [same]⟩⟩
    case release => exact fun lk ⟨has,holder,answers⟩ => ⟨by simpa using has,holder,answers⟩
  | holdingReturn held r | kill held pid => exact fun _ lk ⟨has,holder,_⟩ => ⟨has,holder,trivial⟩

/-- `releasesleep` owes a wakeup from when it clears `locked` on. -/
def Code.owes : Code → Prop
  | .releasesleep .pid | .releasesleep .wakeup => True
  | _ => False

def debts : Debts Code Sleeplock := ⟨fun c lk => c = chan → lk.locked = 1,fun k c => c = chan ∧ k.owes⟩

theorem tracked (nproc : Nat) (pid : Nat → Nat) : debts.Tracked (monitor pid) (machine nproc pid) := by
  refine ⟨fun p k inside => ?_,fun _ _ asleep _ => asleep.2⟩
  cases k with
  | out held => cases inside
  | holdingReturn held r => cases inside
  | kill held pid => cases inside
  | acquiresleep held place =>
    cases place
    case acquire => cases inside
    case loop =>
      rintro lk c - (right | ⟨-,owes⟩)
      · exact .inl right
      · exact owes.elim
    case sleep => exact fun _ _ _ _ owed => owed.2.elim
    case lock => exact fun _ _ _ _ => .inl fun _ => rfl
    case pid => exact fun _ _ known _ => .inl fun _ => known.1
    case release => exact fun _ _ _ owed => owed.2.elim
  | releasesleep place =>
    cases place
    case acquire => cases inside
    case unlock =>
      rintro lk c - -
      by_cases here : c = chan
      · exact .inr ⟨here,trivial⟩
      · exact .inl fun same => absurd same here
    case pid =>
      rintro lk c - (right | ⟨here,-⟩)
      · exact .inl right
      · exact .inr ⟨here,trivial⟩
    case wakeup => exact fun c other owed => absurd owed.1 other
    case release => exact fun _ _ _ owed => owed.2.elim
  | holdingsleep held place =>
    cases place
    case acquire => cases inside
    case test =>
      rintro lk c - (right | ⟨-,owes⟩)
      · exact .inl right
      · exact owes.elim
    case release => exact fun _ _ _ owed => owed.2.elim

/-! Runs. -/

def Code.between : Code → Bool
  | .out held | .acquiresleep held _ | .holdingsleep held _ | .holdingReturn held _ | .kill held _ => held
  | .releasesleep _ => false

def between : Pc Code → Bool
  | .code k => k.between
  | .sleepAcquire _ _ next | .sleepRelease _ _ next | .sleepChan _ _ next | .sleepState _ _ next
  | .sleepSched _ _ next | .sleepBack _ _ next | .sleepDone _ next | .sleepReacquire _ next => next.between
  | .wakeNext _ _ next | .wakeTest _ _ next | .wakeRelease _ _ next => next.between
  | .killedAcquire next | .killedRead next => (next false).between
  | .killedRelease next => next.between
  | .killNext _ _ next | .killTest _ _ next | .killRelease _ _ _ next => (next false).between

theorem Code.has_of_between {k : Code} (between : k.between = true) : k.has = true := by
  cases k <;> simp_all [Code.between]

theorem holder_of_between {nproc p : Nat} {lk : Sleeplock} {pc : Pc Code} (asserts : pc.asserts (outline nproc) p lk)
    (here : between pc = true) : lk.holder = some p := by
  cases pc
  case killedAcquire | killedRead | killNext | killTest | killRelease =>
    exact (asserts false).1.mp (Code.has_of_between here)
  all_goals exact asserts.1.mp (Code.has_of_between here)

/-- At most one process has the lock, `holdingsleep` tells whether the caller is that process, and nobody sleeps for a
lock that is free. -/
structure Excludes (s : State Code Sleeplock) : Prop where
  one : ∀ p q, between (s.proc p).pc = true → between (s.proc q).pc = true → p = q
  answer : ∀ p held r, (s.proc p).pc = .code (.holdingReturn held r) → (r = true ↔ between (s.proc p).pc = true)
  asleep : s.lock (.spin spin) = none → ∀ p, (s.proc p).state = .sleeping → (s.proc p).chan = some chan →
    s.data.locked = 1

theorem sleeplock_excludes {nproc : Nat} {pid : Nat → Nat} (distinct : ∀ p < nproc, ∀ q < nproc, pid p = pid q → p = q)
    {acts : List (Action Input)} {s : State Code Sleeplock}
    (ran : Runs.run (step (machine nproc pid)) (boot nproc pid) acts = some s) : Excludes s := by
  have fresh : (monitor pid).inv ⟨0,0,none⟩ := ⟨rfl,nofun⟩
  have outside : Outlined (outline nproc) (boot nproc pid) := fun p => ⟨⟨nofun,nofun⟩,nofun,trivial⟩
  obtain ⟨inv,guarded,outlined,-,served⟩ := Runs.run_invariant
    (fun s => Inv (machine nproc pid) s ∧ Guarded (monitor pid) s ∧ Outlined (outline nproc) s ∧
      (∀ p k, (s.proc p).pc.asks = some k → ∀ c, ¬debts.owes k c) ∧ Served (monitor pid) debts s)
    (fun s a t ⟨inv,guarded,outlined,asks,served⟩ stepped => by
      have never (p : Nat) (k : Code) (next : Bool → Code) (test : (machine nproc pid).instr p k = .killed next)
        (c : Nat) :
          ¬debts.owes (next false) c := by
        cases k with
        | acquiresleep held place | releasesleep place | holdingsleep held place => cases place <;> cases test
        | _ => cases test
      refine ⟨inv.step stepped,guarded.step (kept nproc pid) inv stepped,
        outlined.step (fun p bound k => keeps distinct bound k) guarded inv stepped,asks_step inv never asks stepped,
        served.step guarded inv (kept nproc pid) (tracked nproc pid) (fun p _ k tests _ => asks p k ?_) stepped⟩
      cases place : (s.proc p).pc <;> simp [place,Pc.tests,Pc.asks] at tests ⊢
      exact tests)
    ⟨.init _ _ _,.init (fun _ => rfl) fresh,outside,nofun,.init⟩ ran
  refine ⟨fun p q first second => ?_,fun p held r place => ?_,fun free p state channel => ?_⟩
  · have left := holder_of_between (outlined p) first
    have right := holder_of_between (outlined q) second
    exact Option.some.inj (left.symm.trans right)
  · have asserts := outlined p
    rw [place] at asserts ⊢
    have answers : r = held := asserts.2.2
    rw [answers]
    exact Iff.rfl
  · have blocked : debts.blocked chan s.data := served.blocked inv free rfl state channel
    exact blocked rfl

/-- CPU `c` takes `n` steps; a process outside of a call makes this one. -/
def turns (c n : Nat) (input : Input) : List (Action Input) := List.replicate n ⟨c,false,input⟩

def contended : List (Action Input) :=
  turns 0 9 .acquiresleep ++ turns 1 15 .acquiresleep ++ turns 0 4 .holdingsleep

def codeOf : Pc Code → Option Code
  | .code k => some k
  | _ => none

theorem contended_excludes : ∃ s, Runs.run (step (machine 2 (· + 1))) (boot 2 (· + 1)) contended = some s ∧
    (s.proc 0).pc = .code (.holdingReturn true true) ∧ (s.proc 1).state = .sleeping ∧
    (s.proc 1).chan = some chan ∧ Excludes s := by
  refine Runs.reaches (fun s => codeOf (s.proc 0).pc = some (.holdingReturn true true) ∧ (s.proc 1).state = .sleeping ∧
    (s.proc 1).chan = some chan) (by decide +kernel)
    fun s ran facts => ⟨?_,facts.2.1,facts.2.2,sleeplock_excludes (by omega) ran⟩
  have place := facts.1
  cases at_ : (s.proc 0).pc <;> simp_all [codeOf]

end Xv6.Sleeplocks
