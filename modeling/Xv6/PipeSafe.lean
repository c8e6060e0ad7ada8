import Xv6.Loops
import Xv6.Owed

/-! Pipes are lossless queues, and when a process may be asleep on one. -/
namespace Xv6.Loops

open Sched

/-- When it is right to sleep on a channel: for a reader the pipe is empty and open for writing, for
a writer it is full and open for reading. -/
def blocked (chan : Nat) (pi : Pipe) : Prop :=
  (chan = nreadChan → pi.isEmpty = true ∧ pi.writeopen = true) ∧ (chan = nwriteChan → pi.isFull = true ∧
    pi.readopen = true)

/-- What a call knows of the pipe at each place under its lock. -/
def Code.knows (pi : Pipe) : Code → Prop
  | .write f .loop => f.fresh = true → pi.readopen = true
  | .write _ .killed | .write _ .full => pi.readopen = true
  | .write _ .wakeFull | .write _ .sleepFull => pi.isFull = true ∧ pi.readopen = true
  | .write _ .copyin => pi.isFull = false ∧ pi.readopen = true
  | .read _ .killed | .read _ .sleepEmpty => pi.isEmpty = true ∧ pi.writeopen = true
  | .read _ .take => pi.isEmpty = false
  | _ => True

def Code.inside : Code → Bool
  | .write _ .acquire | .read _ .acquire | .close _ .acquire => false
  | .write .. | .read .. | .close .. => true
  | _ => false

def pipeMonitor : Monitor Code Shared Pipe where
  lock := pipeLock
  chans chan := chan == nreadChan || chan == nwriteChan
  inside := Code.inside
  view := Shared.pipe
  inv pi := pi.Fifo
  asleep chan pi := pi.Fifo ∧ blocked chan pi
  holds k pi := pi.Fifo ∧ k.knows pi

theorem pipewrite_keeps (f : WriteFrame) (place : WriteAt) : pipeMonitor.Keeps (.write f place) (pipewrite f place) := by
  cases place <;> simp only [pipewrite,Monitor.Keeps]
  case loop =>
    intro d
    refine ⟨by (repeat' split) <;> rfl,fun before => ⟨before.1,?_⟩⟩
    (repeat' split) <;> trivial
  case full =>
    intro d
    refine ⟨by split <;> rfl,fun before => ⟨before.1,?_⟩⟩
    cases full : d.pipe.isFull
    · exact ⟨full,before.2⟩
    · exact ⟨full,before.2⟩
  case copyin =>
    intro d
    cases f.src f.i with
    | none => exact ⟨rfl,fun before => ⟨before.1,trivial⟩⟩
    | some ch => exact ⟨rfl,fun before => ⟨before.1.put before.2.1 ch,fun _ => before.2.2⟩⟩
  case killed =>
    intro killed
    cases killed with
    | true => exact ⟨rfl,fun v before => ⟨before.1,trivial⟩⟩
    | false => exact ⟨rfl,fun v knows => knows⟩
  all_goals simp +contextual [pipeMonitor,Code.inside,Code.knows,blocked,pipeLock,nreadChan,nwriteChan]

theorem piperead_guarded (f : ReadFrame) (place : ReadAt) : pipeMonitor.Keeps (.read f place) (piperead f place) := by
  cases place <;> simp only [piperead,Monitor.Keeps]
  case loop =>
    intro d
    refine ⟨by split <;> rfl,fun before => ⟨before.1,?_⟩⟩
    split
    · rename_i both
      exact Bool.and_eq_true_iff.mp both
    · trivial
  case copy =>
    intro d
    refine ⟨by split <;> rfl,fun before => ⟨before.1,?_⟩⟩
    split
    · rename_i both
      exact both.2
    · trivial
  case take =>
    intro d
    refine ⟨by split <;> rfl,fun before => ⟨before.1.take before.2 _,?_⟩⟩
    split <;> trivial
  case killed =>
    intro killed
    cases killed with
    | true => exact ⟨rfl,fun v before => ⟨before.1,trivial⟩⟩
    | false => exact ⟨rfl,fun v knows => knows⟩
  all_goals simp +contextual [pipeMonitor,Code.inside,Code.knows,blocked,pipeLock,nreadChan,nwriteChan]

theorem pipeclose_keeps (writable : Bool) (place : CloseAt) :
    pipeMonitor.Keeps (.close writable place) (pipeclose writable place) := by
  cases place <;> simp only [pipeclose,Monitor.Keeps]
  case flag =>
    refine fun d => ⟨rfl,fun before => ⟨?_,trivial⟩⟩
    cases writable <;> exact ⟨before.1.count,before.1.bytes⟩
  all_goals simp +contextual [pipeMonitor,Code.inside,Code.knows,pipeLock]

def Code.elsewhere : Code → Bool
  | .write .. | .read .. | .close .. => false
  | _ => true

theorem Code.away {k : Code} (elsewhere : k.elsewhere = true) : pipeMonitor.Away k := by
  cases k with
  | write | read | close => simp [Code.elsewhere] at elsewhere
  | _ => exact ⟨rfl,fun _ => and_iff_left trivial⟩

theorem readChar_elsewhere (f : ConsoleFrame) (cons : Cons) : (readChar f cons).2.elsewhere = true := by
  simp only [readChar]
  (repeat' split) <;> rfl

theorem instr_apart (p : Nat) {k : Code} (elsewhere : k.elsewhere = true) : pipeMonitor.Apart (instr p k) := by
  cases k with
  | write | read | close => simp [Code.elsewhere] at elsewhere
  | user =>
    intro input
    cases input <;> exact ⟨rfl,fun _ => and_iff_left trivial⟩
  | kill pid => exact fun _ => Code.away rfl
  | killReturn found => exact fun _ => ⟨Code.away rfl,rfl⟩
  | console f place =>
    cases place
    case take => exact fun d => ⟨Code.away (readChar_elsewhere f d.cons),rfl⟩
    case acquire | finish | fail => exact ⟨by decide,Code.away rfl⟩
    case sleepEmpty => exact ⟨by decide,Code.away rfl,rfl⟩
    case killed => exact fun _ => Code.away rfl
    all_goals exact fun d => ⟨Code.away rfl,rfl⟩
  | consoleintr c place =>
    cases place
    case acquire | finish => exact ⟨by decide,Code.away rfl⟩
    case edit => exact fun d => ⟨Code.away rfl,rfl⟩
    case wake => exact Code.away rfl
  | sleep n ticks0 place =>
    cases place
    case acquire | finish | fail => exact ⟨by decide,Code.away rfl⟩
    case sleepTicks => exact ⟨by decide,Code.away rfl,rfl⟩
    case killed => exact fun _ => Code.away rfl
    all_goals exact fun d => ⟨Code.away rfl,rfl⟩
  | clock place =>
    cases place
    case acquire | finish => exact ⟨by decide,Code.away rfl⟩
    case tick => exact fun d => ⟨Code.away rfl,rfl⟩
    case wake => exact Code.away rfl
  | wait place =>
    cases place
    case acquire | finish | fail => exact ⟨by decide,Code.away rfl⟩
    case sleepChild => exact ⟨by decide,Code.away rfl,by simp [pipeMonitor,procChan,nreadChan,nwriteChan]; omega⟩
    case killed => exact fun _ => Code.away rfl
    case scan =>
      intro input
      cases input with
      | kids found => cases found <;> exact Code.away rfl
      | _ => exact Code.away rfl

theorem pipe_kept (nproc : Nat) (pid : Nat → Nat) : pipeMonitor.Kept (machine nproc pid) := by
  refine ⟨fun p k => ?_,fun chan pi asleep => asleep.1⟩
  simp only [machine]
  cases k with
  | write f place => exact pipewrite_keeps f place
  | read f place => exact piperead_guarded f place
  | close writable place => exact pipeclose_keeps writable place
  | _ => exact (instr_apart p rfl).keeps (Code.away rfl)

/-- In every run the pipe is a queue: it never holds more than `PIPESIZE` bytes, and if no
`copyout` has failed, what has been delivered and what is still in the ring is what was
accepted, in order. -/
theorem pipe_fifo {nproc : Nat} {pid : Nat → Nat} {page : Fin pipesize → UInt8} {cons : Cons} {ticks : BitVec 32}
    {acts : List (Action Input)} {s : State Code Shared}
    (ran : Runs.run (step (machine nproc pid)) (boot nproc pid page cons ticks) acts = some s)
    (copied : ∀ x ∈ s.data.pipe.taken, x.2 = true) :
    s.data.pipe.count ≤ pipesize ∧ s.data.pipe.accepted = s.data.pipe.delivered ++ s.data.pipe.ring := by
  have kept := pipe_kept nproc pid
  have fresh : pipeMonitor.inv (pipeMonitor.view (⟨.alloc page,cons,ticks⟩ : Shared)) := Pipe.fifo_alloc page
  have guarded := (Guarded.run kept (fun _ => rfl) fresh ran).2
  have fifo : s.data.pipe.Fifo := guarded.always (fun _ _ holds => holds.1) kept
  exact ⟨fifo.count,by rw [Pipe.delivered_eq copied]; exact fifo.bytes⟩

def twoIn : List (Action Input) :=
  turns 0 4 (.pipewrite (fun i => some (7 + UInt8.ofNat i)) 2) ++ turns 0 40 (.kids .none) ++
    turns 0 5 (.piperead (fun _ => true) 1)

theorem twoIn_fifo : ∃ s, three twoIn = some s ∧ s.data.pipe.delivered = [7] ∧
    [7,8] = s.data.pipe.delivered ++ s.data.pipe.ring := by
  refine Runs.reaches (fun s => s.data.pipe.taken = [(7,true)] ∧ s.data.pipe.accepted = [7,8]) (by decide +kernel)
    fun s ran ⟨taken,accepted⟩ => ?_
  have queue := (pipe_fifo ran (by simp [taken])).2
  exact ⟨by simp [Pipe.delivered,taken],by rwa [accepted] at queue⟩

/-! Sleepers. -/

/-- The wakeups that a call owes, by place. -/
def Code.owes (chan : Nat) : Code → Prop
  | .write f .loop | .write f .killed | .write f .full | .write f .wakeFull | .write f .copyin =>
    f.fresh = true ∧ chan = nreadChan
  | .write _ .wakeEnd => chan = nreadChan
  | .read _ .copy | .read _ .take | .read _ .wakeEnd => chan = nwriteChan
  | .close writable .wake => chan = if writable then nreadChan else nwriteChan
  | _ => False

def pipeDebts : Debts Code Pipe := ⟨blocked,fun k chan => k.owes chan⟩

theorem pipewrite_tracks (f : WriteFrame) {place : WriteAt} (inside : (Code.write f place).inside = true) :
    pipeDebts.Tracks pipeMonitor (.write f place) (pipewrite f place) := by
  cases place <;> simp only [pipewrite,Debts.Tracks]
  case acquire => simp [Code.inside] at inside
  case loop =>
    rintro d chan ⟨_,opened⟩ (right | ⟨fresh,rfl⟩)
    · exact .inl right
    · rw [if_pos (show d.pipe.readopen = true from opened fresh)]
      split
      · exact .inr ⟨fresh,rfl⟩
      · exact .inr rfl
  case killed => exact fun chan owes => owes
  case full =>
    rintro d chan _ (right | owes)
    · exact .inl right
    · right
      split <;> exact owes
  case wakeFull => exact fun chan other owes => absurd owes.2 other
  case sleepFull => exact fun _ chan v _ owes => owes.elim
  case copyin =>
    rintro d chan ⟨_,room,_⟩ owed
    cases f.src f.i with
    | none => exact owed.imp id And.right
    | some ch =>
      -- no writer was right to sleep before
      by_cases reader : chan = nreadChan
      · exact .inr ⟨rfl,reader⟩
      · refine .inl ⟨fun same => absurd same reader,fun writer => ?_⟩
        rcases owed with right | ⟨_,same⟩
        · have full := (right.2 writer).1
          rw [room] at full
          exact absurd full (by simp)
        · exact absurd same reader
  case wakeEnd => exact fun chan other same => absurd same other
  case finish | fail => exact fun chan v _ owes => owes.elim

theorem piperead_tracks (f : ReadFrame) {place : ReadAt} (inside : (Code.read f place).inside = true) :
    pipeDebts.Tracks pipeMonitor (.read f place) (piperead f place) := by
  cases place <;> simp only [piperead,Debts.Tracks]
  case acquire => simp [Code.inside] at inside
  case loop => exact fun d chan _ owed => .inl (owed.resolve_right id)
  case killed => exact fun chan owes => owes
  case sleepEmpty => exact fun _ chan v _ owes => owes.elim
  case copy =>
    rintro d chan _ (right | owes)
    · exact .inl right
    · right
      split <;> exact owes
  case take =>
    rintro d chan ⟨_,some⟩ owed
    by_cases writer : chan = nwriteChan
    · right
      split <;> exact writer
    · -- no reader was right to sleep before
      refine .inl ⟨fun reader => ?_,fun same => absurd same writer⟩
      rcases owed with right | same
      · have empty := (right.1 reader).1
        rw [some] at empty
        exact absurd empty (by simp)
      · exact absurd same writer
  case wakeEnd => exact fun chan other same => absurd same other
  case finish | fail => exact fun chan v _ owes => owes.elim

theorem pipeclose_tracks (writable : Bool) {place : CloseAt} (inside : (Code.close writable place).inside = true) :
    pipeDebts.Tracks pipeMonitor (.close writable place) (pipeclose writable place) := by
  cases place <;> simp only [pipeclose,Debts.Tracks]
  case acquire => simp [Code.inside] at inside
  case flag =>
    rintro d chan _ (right | owes)
    · cases writable with
      | true =>
        by_cases reader : chan = nreadChan
        · exact .inr reader
        · exact .inl ⟨fun same => absurd same reader,right.2⟩
      | false =>
        by_cases writer : chan = nwriteChan
        · exact .inr writer
        · exact .inl ⟨right.1,fun same => absurd same writer⟩
    · exact owes.elim
  case wake => exact fun chan other same => absurd same other
  case finish => exact fun chan v _ owes => owes.elim

theorem pipe_tracked (nproc : Nat) (pid : Nat → Nat) : pipeDebts.Tracked pipeMonitor (machine nproc pid) := by
  refine ⟨fun p k inside => ?_,fun chan pi asleep => asleep.2⟩
  cases k with
  | write f place => exact pipewrite_tracks f inside
  | read f place => exact piperead_tracks f inside
  | close writable place => exact pipeclose_tracks writable inside
  | _ => cases inside

/-- Whether bytes have gone into the pipe since the last wakeup of the readers. -/
def Code.fresh : Code → Bool
  | .write f _ => f.fresh
  | _ => false

/-- No `pipewrite` is about to find itself killed with bytes in the pipe that it has not woken the
readers for. -/
def KilledDry (nproc : Nat) (s : State Code Shared) : Prop :=
  ∀ p < nproc, ∀ k ∈ (s.proc p).pc.tests, (s.proc p).killed = true → k.fresh = false

instance (nproc : Nat) : DecidablePred (KilledDry nproc) := fun s =>
  inferInstanceAs (Decidable (∀ p < nproc, ∀ k ∈ (s.proc p).pc.tests, (s.proc p).killed = true → k.fresh = false))

/-- Where a call goes on after it was not killed it owes a wakeup for fresh bytes only. -/
theorem killed_owes {p : Nat} {k : Code} {next : Bool → Code} (test : instr p k = .killed next) (chan : Nat) :
    (next false).owes chan → (next false).fresh = true := by
  cases k with
  | write f place =>
    cases place <;> cases test
    exact And.left
  | close writable place | consoleintr c place | clock place => cases place <;> cases test
  | read f place | console f place | sleep n ticks0 place | wait place =>
    cases place <;> cases test
    exact False.elim
  | user | kill | killReturn => cases test

/-- In every run in which no `pipewrite` finds itself killed with fresh bytes in the pipe, while the
lock of the pipe is free a process asleep on `nread` finds it empty and open for writing, and one asleep
on `nwrite` finds it full and open for reading. -/
theorem pipe_sleepers {nproc : Nat} {pid : Nat → Nat} {page : Fin pipesize → UInt8} {cons : Cons} {ticks : BitVec 32}
    {acts : List (Action Input)} {s : State Code Shared}
    (dry : Runs.Always (step (machine nproc pid)) (KilledDry nproc) (boot nproc pid page cons ticks) acts)
    (ran : Runs.run (step (machine nproc pid)) (boot nproc pid page cons ticks) acts = some s)
    (free : s.lock (.spin pipeLock) = none) {p : Nat} (asleep : (s.proc p).state = .sleeping) :
    ((s.proc p).chan = some nreadChan → s.data.pipe.isEmpty = true ∧ s.data.pipe.writeopen = true) ∧
      ((s.proc p).chan = some nwriteChan → s.data.pipe.isFull = true ∧ s.data.pipe.readopen = true) := by
  have kept := pipe_kept nproc pid
  have fresh : pipeMonitor.inv (pipeMonitor.view (⟨.alloc page,cons,ticks⟩ : Shared)) := Pipe.fifo_alloc page
  obtain ⟨⟨inv,_,_,served⟩,_⟩ := Runs.run_invariant_always
    (fun s => Inv (machine nproc pid) s ∧ Guarded pipeMonitor s ∧
      (∀ p k, (s.proc p).pc.asks = some k → ∀ chan, k.owes chan → k.fresh = true) ∧ Served pipeMonitor pipeDebts s)
    (fun s a t dry _ ⟨inv,guarded,asks,served⟩ stepped => by
      refine ⟨inv.step stepped,guarded.step kept inv stepped,
        asks_step inv (fun p k next test chan => killed_owes test chan) asks stepped,
        served.step guarded inv kept (pipe_tracked nproc pid) (fun p bound k tests killed chan owes => ?_) stepped⟩
      have test : (s.proc p).pc.asks = some k := by
        cases place : (s.proc p).pc <;> simp [place,Pc.tests,Pc.asks] at tests ⊢
        exact tests
      have wet := asks p k test chan owes
      rw [dry p bound k tests killed] at wet
      exact absurd wet (by simp))
    ⟨.init _ _ _,.init (fun _ => rfl) fresh,nofun,.init⟩ dry ran
  refine ⟨fun reader => ?_,fun writer => ?_⟩
  · have right : blocked nreadChan s.data.pipe := served.blocked inv free rfl asleep reader
    exact right.1 rfl
  · have right : blocked nwriteChan s.data.pipe := served.blocked inv free rfl asleep writer
    exact right.2 rfl

def readerSleeps : List (Action Input) := turns 0 17 (.piperead (fun _ => true) 1) ++ turns 1 17 (.kill 2)

theorem readerSleeps_right : ∃ s, three readerSleeps = some s ∧ (s.proc 0).state = .sleeping ∧
    s.data.pipe.isEmpty = true ∧ s.data.pipe.writeopen = true := by
  exact Runs.reaches (fun s => s.lock (.spin pipeLock) = none ∧ (s.proc 0).state = .sleeping ∧
    (s.proc 0).chan = some nreadChan) (by decide +kernel) fun s ran ⟨free,asleep,chan⟩ =>
    ⟨asleep,(pipe_sleepers (by decide +kernel) ran free asleep).1 chan⟩

/-- A reader sleeps, a writer puts in one of two bytes, and is killed: it returns and wakes
nobody. -/
def writerKilled : List (Action Input) :=
  turns 0 17 (.piperead (fun _ => true) 1) ++ turns 0 13 (.pipewrite (fun _ => some 7) 2) ++ turns 1 17 (.kill 2) ++
    turns 0 5 (.kids .none)

theorem reader_stranded : ∃ s, three writerKilled = some s ∧ s.lock (.spin pipeLock) = none ∧
    (s.proc 0).state = .sleeping ∧ (s.proc 0).chan = some nreadChan ∧ s.data.pipe.isEmpty = false :=
  Runs.ends (by decide +kernel)

end Xv6.Loops
