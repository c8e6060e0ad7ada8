import Xv6.LogCommit
import Xv6.Runs
import Mathlib.Data.List.Induction

/-! Group commit: any number of processes in `begin_op`, `log_write` and `end_op`, one step
for each section that holds the log lock, and `commit` running without it. The history
records what happened in order; the code does not keep it. -/
namespace Xv6.LogGroup

open Function

/-- The panics of `end_op` and `log_write`. -/
inductive Panic where
  | committing
  | tooBig
  | outsideTrans
  deriving DecidableEq, Repr

/-- Where a process stands. `ending` has set `log.committing` and is about to call
`commit`; `headed` has written the header; `cleared` has still to take the lock again. -/
inductive Phase where
  | idle
  | asleep
  | woken
  | inOp
  | ending
  | committing
  | headed
  | cleared
  deriving DecidableEq, Repr

inductive Event where
  | begin (p : Nat)
  | write (p b : Nat)
  | endOp (p : Nat)
  | commit (p : Nat)
  | header (p : Nat) (blocks : List Nat)
  | done (p : Nat)
  deriving DecidableEq, Repr

structure Sys where
  log : Log
  proc : Nat → Phase
  panic : Option Panic
  hist : List Event

inductive Action where
  | beginOp (p : Nat)
  | logWrite (p b : Nat)
  | endOp (p : Nat)
  | commit (p : Nat)
  | writeHead (p : Nat)
  | clear (p : Nat)
  | finish (p : Nat)
  deriving DecidableEq, Repr

/-- `wakeup(&log)`. -/
def wakeup (proc : Nat → Phase) : Nat → Phase := fun p =>
  if proc p = .asleep then .woken else proc p

@[simp] def Sys.move (s : Sys) (p : Nat) (phase : Phase) : Sys := { s with proc := update s.proc p phase }

/-- One turn of the loop of `begin_op`. -/
def beginOp (s : Sys) (p : Nat) : Sys :=
  if s.log.committing then s.move p .asleep
  else if (s.log.lh.length : Int) + (s.log.outstanding + 1) * maxOpBlocks > logSize then
    s.move p .asleep
  else
    { s.move p .inOp with
      log := { s.log with outstanding := s.log.outstanding + 1 }
      hist := s.hist ++ [.begin p] }

def logWrite (s : Sys) (p b : Nat) : Sys :=
  if s.log.lh.length ≥ logSize ∨ (s.log.lh.length : Int) ≥ s.log.size - 1 then
    { s with panic := some .tooBig }
  else if s.log.outstanding < 1 then { s with panic := some .outsideTrans }
  else
    { s with
      log := { s.log with lh := Log.absorb s.log.lh b }
      hist := s.hist ++ [.write p b] }

/-- The first locked section of `end_op`. -/
def endOp (s : Sys) (p : Nat) : Sys :=
  let log := { s.log with outstanding := s.log.outstanding - 1 }
  if log.committing then { s with log, panic := some .committing }
  else if log.outstanding = 0 then
    { s.move p .ending with
      log := { log with committing := true }
      hist := s.hist ++ [.endOp p] }
  else
    { s with
      log
      proc := wakeup (update s.proc p .idle)
      hist := s.hist ++ [.endOp p] }

def commit (s : Sys) (p : Nat) : Sys :=
  { s.move p (if s.log.lh.length > 0 then .committing else .cleared) with
    hist := s.hist ++ [.commit p] }

def writeHead (s : Sys) (p : Nat) : Sys :=
  { s.move p .headed with hist := s.hist ++ [.header p s.log.lh] }

/-- `log.lh.n = 0` in `commit`, which holds no lock. -/
def clear (s : Sys) (p : Nat) : Sys :=
  { s.move p .cleared with log := { s.log with lh := [] } }

/-- The second locked section of `end_op`. -/
def finish (s : Sys) (p : Nat) : Sys :=
  { s with
    log := { s.log with committing := false }
    proc := wakeup (update s.proc p .idle)
    hist := s.hist ++ [.done p] }

/-- A panic stops the machine. -/
def step (s : Sys) (a : Action) : Option Sys :=
  if s.panic ≠ none then none
  else match a with
    | .beginOp p => if s.proc p = .idle ∨ s.proc p = .woken then some (beginOp s p) else none
    | .logWrite p b => if s.proc p = .inOp then some (logWrite s p b) else none
    | .endOp p => if s.proc p = .inOp then some (endOp s p) else none
    | .commit p => if s.proc p = .ending then some (commit s p) else none
    | .writeHead p => if s.proc p = .committing then some (writeHead s p) else none
    | .clear p => if s.proc p = .headed then some (clear s p) else none
    | .finish p => if s.proc p = .cleared then some (finish s p) else none

def initial (start size : Nat) : Sys :=
  ⟨⟨start,size,0,false,[]⟩,fun _ => .idle,none,[]⟩

/-! What a history says about its end. -/

def opened (hist : List Event) (p : Nat) : Bool :=
  hist.foldl (fun was e => match e with
    | .begin q => was || q == p
    | .endOp q => was && q != p
    | _ => was) false

def running (hist : List Event) : Bool :=
  hist.foldl (fun was e => match e with
    | .commit _ => true
    | .done _ => false
    | _ => was) false

/-- Blocks logged since the last header was written, the latest first. -/
def pending (hist : List Event) : List Nat :=
  hist.foldl (fun blocks e => match e with
    | .write _ b => b :: blocks
    | .header _ _ => []
    | _ => blocks) []

@[simp] theorem opened_nil (p : Nat) : opened [] p = false := rfl
@[simp] theorem running_nil : running [] = false := rfl
@[simp] theorem pending_nil : pending [] = [] := rfl

@[simp] theorem opened_append (front back : List Event) (p : Nat) :
    opened (front ++ back) p = back.foldl (fun was e => match e with
      | .begin q => was || q == p
      | .endOp q => was && q != p
      | _ => was) (opened front p) := by
  rw [opened,List.foldl_append]; rfl

@[simp] theorem running_append (front back : List Event) :
    running (front ++ back) = back.foldl (fun was e => match e with
      | .commit _ => true
      | .done _ => false
      | _ => was) (running front) := by
  rw [running,List.foldl_append]; rfl

@[simp] theorem pending_append (front back : List Event) :
    pending (front ++ back) = back.foldl (fun blocks e => match e with
      | .write _ b => b :: blocks
      | .header _ _ => []
      | _ => blocks) (pending front) := by
  rw [pending,List.foldl_append]; rfl

/-- What may happen after a history: an operation begins only while no commit runs, and a
commit runs only while no operation is open; a header names all blocks logged, and a commit
does not end before they have been named. -/
def Fits (hist : List Event) : Event → Prop
  | .begin _ => running hist = false
  | .write p _ => opened hist p = true
  | .endOp p => opened hist p = true
  | .commit _ => running hist = false ∧ ∀ q, opened hist q = false
  | .header _ blocks => running hist = true ∧ (∀ q, opened hist q = false) ∧ pending hist ⊆ blocks
  | .done _ => running hist = true ∧ (∀ q, opened hist q = false) ∧ pending hist = []

inductive Legal : List Event → Prop where
  | nil : Legal []
  | snoc {hist : List Event} {e : Event} : Legal hist → Fits hist e → Legal (hist ++ [e])

theorem Legal.front {back front : List Event} (legal : Legal (front ++ back)) : Legal front := by
  induction back using List.reverseRecOn with
  | nil => simpa using legal
  | append_singleton back e ih =>
    apply ih
    rw [← List.append_assoc] at legal
    generalize shape : front ++ back ++ [e] = whole at legal
    cases legal with
    | nil => simp at shape
    | snoc before fits =>
      obtain ⟨rfl,_⟩ := List.append_inj' shape rfl
      exact before

theorem Legal.at {front back : List Event} {e : Event} (legal : Legal (front ++ e :: back)) : Fits front e := by
  rw [← List.singleton_append,← List.append_assoc] at legal
  have legal := legal.front
  generalize shape : front ++ [e] = whole at legal
  cases legal with
  | nil => simp at shape
  | snoc before fits =>
    obtain ⟨rfl,same⟩ := List.append_inj' shape rfl
    cases same
    exact fits

/-- The phases of the one process that has `log.committing` set. -/
def Phase.commits : Phase → Bool
  | .ending | .committing | .headed | .cleared => true
  | _ => false

def Phase.runs : Phase → Bool
  | .committing | .headed | .cleared => true
  | _ => false

theorem Phase.commits_of_runs {phase : Phase} (runs : phase.runs = true) : phase.commits = true := by
  cases phase <;> simp_all [Phase.runs,Phase.commits]

structure Invariant (s : Sys) : Prop where
  legal : Legal s.hist
  opened : ∀ p, opened s.hist p = true ↔ s.proc p = .inOp
  counted : ∃ active : List Nat, active.Nodup ∧ (∀ p, p ∈ active ↔ s.proc p = .inOp) ∧
    s.log.outstanding = active.length
  committing : s.log.committing = true ↔ ∃ p, (s.proc p).commits = true
  alone : ∀ p q, (s.proc p).commits = true → (s.proc q).commits = true → p = q
  quiet : s.log.committing = true → s.log.outstanding = 0
  running : running s.hist = true ↔ ∃ p, (s.proc p).runs = true
  distinct : s.log.lh.Nodup
  pending : pending s.hist ⊆ s.log.lh
  listed : (∀ p, s.proc p ≠ .headed) → s.log.lh ⊆ LogGroup.pending s.hist
  headed : (∃ p, s.proc p = .headed) → LogGroup.pending s.hist = []
  emptied : (∃ p, s.proc p = .cleared) → s.log.lh = []
  panic : s.panic ≠ some .committing ∧ s.panic ≠ some .outsideTrans

theorem initial_invariant (start size : Nat) : Invariant (initial start size) where
  legal := .nil
  opened := by simp [initial]
  counted := ⟨[],by simp [initial]⟩
  committing := by simp [initial,Phase.commits]
  alone := by simp [initial,Phase.commits]
  quiet := by simp [initial]
  running := by simp [initial,Phase.runs]
  distinct := by simp [initial]
  pending := by simp [initial]
  listed := by simp [initial]
  headed := by simp [initial]
  emptied := by simp [initial]
  panic := by simp [initial]

@[simp] theorem wakeup_inOp (proc : Nat → Phase) (p : Nat) : wakeup proc p = .inOp ↔ proc p = .inOp := by
  unfold wakeup; split <;> simp_all

@[simp] theorem wakeup_commits (proc : Nat → Phase) (p : Nat) : (wakeup proc p).commits = (proc p).commits := by
  unfold wakeup; split <;> simp_all [Phase.commits]

namespace Invariant

variable {s : Sys} {p : Nat}

/-- While nobody commits, nothing is to be shown of the phases of a commit. -/
theorem of_idle (idle : ∀ q, (s.proc q).commits = false) (flag : s.log.committing = false) (legal : Legal s.hist)
    (running : LogGroup.running s.hist = false) (opened : ∀ p, LogGroup.opened s.hist p = true ↔ s.proc p = .inOp)
    (counted : ∃ active : List Nat, active.Nodup ∧ (∀ p, p ∈ active ↔ s.proc p = .inOp) ∧
      s.log.outstanding = active.length)
    (distinct : s.log.lh.Nodup) (pending : LogGroup.pending s.hist ⊆ s.log.lh)
    (listed : s.log.lh ⊆ LogGroup.pending s.hist)
    (panic : s.panic ≠ some .committing ∧ s.panic ≠ some .outsideTrans) : Invariant s where
  legal
  opened
  counted
  committing := by simp [flag,idle]
  alone q r hq _ := by simp [idle] at hq
  quiet := by simp [flag]
  running := by
    simp only [running,Bool.false_eq_true,false_iff,not_exists]
    intro q runs
    simpa [idle] using Phase.commits_of_runs runs
  distinct
  pending
  listed _ := listed
  headed := fun ⟨q,headed⟩ => by simpa [headed,Phase.commits] using idle q
  emptied := fun ⟨q,cleared⟩ => by simpa [cleared,Phase.commits] using idle q
  panic

section

variable (inv : Invariant s)
include inv

theorem no_op (committing : s.log.committing = true) (p : Nat) : s.proc p ≠ .inOp := by
  obtain ⟨active,_,members,count⟩ := inv.counted
  have empty : active = [] := by
    have := inv.quiet committing
    exact List.length_eq_zero_iff.mp (by omega)
  intro inside
  simpa [empty] using (members p).mpr inside

theorem outstanding_pos (inside : s.proc p = .inOp) : 1 ≤ s.log.outstanding := by
  obtain ⟨active,_,members,count⟩ := inv.counted
  have := List.length_pos_of_mem ((members p).mpr inside)
  omega

theorem not_committing (inside : s.proc p = .inOp) : s.log.committing = false := by
  cases committing : s.log.committing with
  | false => rfl
  | true => exact absurd inside (inv.no_op committing p)

theorem not_running (idle : s.log.committing = false) : LogGroup.running s.hist = false := by
  cases running : LogGroup.running s.hist with
  | false => rfl
  | true =>
    obtain ⟨q,runs⟩ := inv.running.mp running
    simp [inv.committing.mpr ⟨q,Phase.commits_of_runs runs⟩] at idle

theorem closed (committing : s.log.committing = true) (q : Nat) : LogGroup.opened s.hist q = false := by
  have := mt (inv.opened q).mp (inv.no_op committing q)
  simpa using this

theorem sleeps (phase : s.proc p = .idle ∨ s.proc p = .woken) : Invariant (s.move p .asleep) := by
  have other (q : Nat) (f : Phase → Prop) (idle : f .idle ↔ f .asleep) (woken : f .woken ↔ f .asleep) :
      f ((s.move p .asleep).proc q) ↔ f (s.proc q) := by
    obtain rfl | same := eq_or_ne q p
    · rcases phase with h | h <;> simp [h,idle,woken]
    · simp [same]
  have inOp (q : Nat) := other q (· = .inOp) (by simp) (by simp)
  have headed (q : Nat) := other q (· = .headed) (by simp) (by simp)
  have cleared (q : Nat) := other q (· = .cleared) (by simp) (by simp)
  have commits (q : Nat) := other q (·.commits = true) (by simp [Phase.commits]) (by simp [Phase.commits])
  have runs (q : Nat) := other q (·.runs = true) (by simp [Phase.runs]) (by simp [Phase.runs])
  exact {
    legal := inv.legal
    opened := fun q => (inv.opened q).trans (inOp q).symm
    counted := by
      obtain ⟨active,nodup,members,count⟩ := inv.counted
      exact ⟨active,nodup,fun q => (members q).trans (inOp q).symm,count⟩
    committing := inv.committing.trans (exists_congr fun q => (commits q).symm)
    alone := fun q r hq hr => inv.alone q r ((commits q).mp hq) ((commits r).mp hr)
    quiet := inv.quiet
    running := inv.running.trans (exists_congr fun q => (runs q).symm)
    distinct := inv.distinct
    pending := inv.pending
    listed := fun none => inv.listed fun q => mt (headed q).mpr (none q)
    headed := fun ⟨q,h⟩ => inv.headed ⟨q,(headed q).mp h⟩
    emptied := fun ⟨q,h⟩ => inv.emptied ⟨q,(cleared q).mp h⟩
    panic := inv.panic }

theorem none_commits (idle : s.log.committing = false) (q : Nat) : (s.proc q).commits = false := by
  cases commits : (s.proc q).commits with
  | false => rfl
  | true => exact absurd (inv.committing.mpr ⟨q,commits⟩) (by simp [idle])

theorem none_headed (idle : s.log.committing = false) (q : Nat) : s.proc q ≠ .headed := by
  intro headed
  simpa [headed,Phase.commits] using inv.none_commits idle q

theorem none_cleared (idle : s.log.committing = false) (q : Nat) : s.proc q ≠ .cleared := by
  intro cleared
  simpa [cleared,Phase.commits] using inv.none_commits idle q

theorem idle_update (idle : s.log.committing = false) {next : Phase} (quiet : next.commits = false) (q : Nat) :
    (update s.proc p next q).commits = false := by
  obtain rfl | other := eq_or_ne q p
  · simpa using quiet
  · simpa [other] using inv.none_commits idle q

theorem begins (phase : s.proc p = .idle ∨ s.proc p = .woken) (idle : s.log.committing = false) :
    Invariant { s.move p .inOp with
      log := { s.log with outstanding := s.log.outstanding + 1 }
      hist := s.hist ++ [.begin p] } := by
  refine of_idle (inv.idle_update idle rfl) idle (inv.legal.snoc (inv.not_running idle))
    (by simp [inv.not_running idle]) (fun q => ?_) ?_ inv.distinct (by simpa using inv.pending)
    (by simpa using inv.listed (inv.none_headed idle)) inv.panic
  · by_cases same : q = p
    · subst same; simp
    · have := inv.opened q
      simp [same,Ne.symm same,this]
  · obtain ⟨active,nodup,members,count⟩ := inv.counted
    have fresh : p ∉ active := by
      rw [members p]
      rcases phase with h | h <;> simp [h]
    refine ⟨p :: active,List.nodup_cons.mpr ⟨fresh,nodup⟩,fun q => ?_,by simp [count]⟩
    by_cases same : q = p
    · subst same; simp
    · simp [same,members q]

theorem writes (inside : s.proc p = .inOp) (b : Nat) : Invariant { s with
      log := { s.log with lh := Log.absorb s.log.lh b }
      hist := s.hist ++ [.write p b] } := by
  have idle := inv.not_committing inside
  have member (c : Nat) : c ∈ Log.absorb s.log.lh b ↔ c = b ∨ c ∈ s.log.lh := by
    unfold Log.absorb
    split
    · constructor
      · exact .inr
      · rintro (rfl | h) <;> assumption
    · simp [or_comm]
  have listed := inv.listed (inv.none_headed idle)
  refine of_idle (inv.none_commits idle) idle (inv.legal.snoc ((inv.opened p).mpr inside))
    (by simpa using inv.not_running idle) (fun q => by simpa using inv.opened q) inv.counted ?_ ?_ ?_ inv.panic
  · unfold Log.absorb
    split
    · exact inv.distinct
    · rename_i fresh
      exact List.nodup_append.mpr ⟨inv.distinct,by simp,by
        intro a ha c hc same
        simp only [List.mem_singleton] at hc
        exact fresh (hc ▸ same ▸ ha)⟩
  · intro c hc
    simp only [pending_append,List.foldl_cons,List.foldl_nil,List.mem_cons] at hc
    exact (member c).mpr (hc.imp id (fun h => inv.pending h))
  · intro c hc
    simp only [pending_append,List.foldl_cons,List.foldl_nil,List.mem_cons]
    exact ((member c).mp hc).imp id (fun h => listed h)

theorem ends_last (inside : s.proc p = .inOp) (last : s.log.outstanding - 1 = 0) :
    Invariant { s.move p .ending with
      log := { s.log with outstanding := s.log.outstanding - 1, committing := true }
      hist := s.hist ++ [.endOp p] } := by
  have idle := inv.not_committing inside
  have only (q : Nat) (other : q ≠ p) : s.proc q ≠ .inOp := by
    obtain ⟨active,nodup,members,count⟩ := inv.counted
    obtain ⟨r,single⟩ := List.length_eq_one_iff.mp (show active.length = 1 by omega)
    intro inOp
    have hq := (members q).mpr inOp
    have hp := (members p).mpr inside
    simp only [single,List.mem_singleton] at hq hp
    exact other (hq.trans hp.symm)
  have inOp (q : Nat) : update s.proc p .ending q ≠ .inOp := by
    by_cases same : q = p
    · subst same; simp
    · simpa [same] using only q same
  have commits (q : Nat) : (update s.proc p .ending q).commits = true ↔ q = p := by
    by_cases same : q = p
    · subst same; simp [Phase.commits]
    · simp [same,inv.none_commits idle q]
  have runs (q : Nat) : (update s.proc p .ending q).runs = false := by
    by_cases same : q = p
    · subst same; simp [Phase.runs]
    · have := inv.none_commits idle q
      cases phase : s.proc q <;> simp_all [Phase.commits,Phase.runs]
  refine {
    legal := inv.legal.snoc ((inv.opened p).mpr inside)
    opened := fun q => ?_
    counted := ⟨[],by simp,by simpa using inOp,by simpa using last⟩
    committing := by simp [commits]
    alone := fun q r hq hr => ((commits q).mp hq).trans ((commits r).mp hr).symm
    quiet := fun _ => last
    running := by simp [inv.not_running idle,runs]
    distinct := inv.distinct
    pending := by simpa using inv.pending
    listed := fun _ => by simpa using inv.listed (inv.none_headed idle)
    headed := ?_
    emptied := ?_
    panic := inv.panic }
  · by_cases same : q = p
    · subst same; simp
    · have := inv.opened q
      simp [same,Ne.symm same,this]
  · rintro ⟨q,headed⟩
    by_cases same : q = p
    · subst same; simp at headed
    · exact absurd (by simpa [same] using headed) (inv.none_headed idle q)
  · rintro ⟨q,cleared⟩
    by_cases same : q = p
    · subst same; simp at cleared
    · exact absurd (by simpa [same] using cleared) (inv.none_cleared idle q)

theorem ends (inside : s.proc p = .inOp) : Invariant { s with
      log := { s.log with outstanding := s.log.outstanding - 1 }
      proc := wakeup (update s.proc p .idle)
      hist := s.hist ++ [.endOp p] } := by
  have idle := inv.not_committing inside
  refine of_idle (fun q => by simpa using inv.idle_update idle rfl q) idle
    (inv.legal.snoc ((inv.opened p).mpr inside)) (by simp [inv.not_running idle]) (fun q => ?_) ?_ inv.distinct
    (by simpa using inv.pending) (by simpa using inv.listed (inv.none_headed idle)) inv.panic
  · by_cases same : q = p
    · subst same; simp
    · have := inv.opened q
      simp [same,Ne.symm same,this]
  · obtain ⟨active,nodup,members,count⟩ := inv.counted
    have member := (members p).mpr inside
    have pos := List.length_pos_of_mem member
    refine ⟨active.erase p,nodup.erase p,fun q => ?_,?_⟩
    · rw [nodup.mem_erase_iff,wakeup_inOp]
      by_cases same : q = p
      · subst same; simp
      · simp [same,members q]
    · rw [List.length_erase_of_mem member]
      change s.log.outstanding - 1 = _
      omega

end

section Committer

variable {next : Phase} (inv : Invariant s) (phase : (s.proc p).commits = true)

include inv phase

theorem flag : s.log.committing = true := inv.committing.mpr ⟨p,phase⟩

theorem only_runs {q : Nat} (runs : (s.proc q).runs = true) : q = p := by
  exact inv.alone q p (Phase.commits_of_runs runs) phase

theorem unheaded (other : s.proc p ≠ .headed) (q : Nat) : s.proc q ≠ .headed := by
  intro headed
  obtain rfl := inv.alone q p (by simp [headed,Phase.commits]) phase
  exact other headed

theorem moves (commits : next.commits = true) (hist : List Event) (lh : List Nat)
    (legal : Legal hist) (opened : ∀ q, LogGroup.opened hist q = false)
    (running : LogGroup.running hist = next.runs) (distinct : lh.Nodup)
    (pending : LogGroup.pending hist ⊆ lh)
    (listed : next ≠ .headed → lh ⊆ LogGroup.pending hist)
    (headed : next = .headed → LogGroup.pending hist = []) (emptied : next = .cleared → lh = []) :
    Invariant { s.move p next with log := { s.log with lh := lh }, hist := hist } := by
  have flag := inv.flag phase
  have inOp (q : Nat) : update s.proc p next q ≠ .inOp := by
    obtain rfl | same := eq_or_ne q p
    · simp only [update_self]
      rintro rfl
      simp [Phase.commits] at commits
    · simpa [same] using inv.no_op flag q
  have others (q : Nat) (other : q ≠ p) : (s.proc q).commits = false := by
    cases h : (s.proc q).commits with
    | false => rfl
    | true => exact absurd (inv.alone q p h phase) other
  have only (q : Nat) : (update s.proc p next q).commits = true ↔ q = p := by
    by_cases same : q = p
    · subst same; simp [commits]
    · simp [same,others q same]
  refine {
    legal
    opened := fun q => by simp [opened,inOp]
    counted := ⟨[],by simp,by simpa using inOp,by simpa using inv.quiet flag⟩
    committing := by simp [flag,only]
    alone := fun q r hq hr => ((only q).mp hq).trans ((only r).mp hr).symm
    quiet := inv.quiet
    running := ?_
    distinct
    pending
    listed := fun none => listed (by simpa using none p)
    headed := ?_
    emptied := ?_
    panic := inv.panic }
  · rw [running]
    constructor
    · intro h
      exact ⟨p,by simpa using h⟩
    · rintro ⟨q,h⟩
      by_cases same : q = p
      · subst same; simpa using h
      · exact absurd (inv.only_runs phase (by simpa [same] using h)) same
  · rintro ⟨q,h⟩
    by_cases same : q = p
    · subst same; exact headed (by simpa using h)
    · have := others q same
      simp [same] at h
      simp [h,Phase.commits] at this
  · rintro ⟨q,h⟩
    by_cases same : q = p
    · subst same; exact emptied (by simpa using h)
    · have := others q same
      simp [same] at h
      simp [h,Phase.commits] at this

end Committer

theorem commit_step (inv : Invariant s) (phase : s.proc p = .ending) : Invariant (commit s p) := by
  have commits : (s.proc p).commits = true := by simp [phase,Phase.commits]
  have flag := inv.flag commits
  have idle : LogGroup.running s.hist = false := by
    cases h : LogGroup.running s.hist with
    | false => rfl
    | true =>
      obtain ⟨q,runs⟩ := inv.running.mp h
      have := inv.only_runs commits runs
      subst this
      simp [phase,Phase.runs] at runs
  have next : (if s.log.lh.length > 0 then Phase.committing else .cleared).commits = true ∧
      (if s.log.lh.length > 0 then Phase.committing else .cleared).runs = true ∧
      (if s.log.lh.length > 0 then Phase.committing else .cleared) ≠ .headed := by
    split <;> simp [Phase.commits,Phase.runs]
  refine inv.moves commits next.1 (s.hist ++ [Event.commit p]) s.log.lh ?_ ?_ ?_ ?_ ?_ ?_ ?_ ?_
  · exact inv.legal.snoc ⟨idle,inv.closed flag⟩
  · intro q; simpa using inv.closed flag q
  · simp [next.2.1]
  · exact inv.distinct
  · simpa using inv.pending
  · intro _; simpa using inv.listed (inv.unheaded commits (by simp [phase]))
  · intro h; exact absurd h next.2.2
  · intro h
    split at h
    · cases h
    · exact List.length_eq_zero_iff.mp (by omega)

theorem writeHead_step (inv : Invariant s) (phase : s.proc p = .committing) : Invariant (writeHead s p) := by
  have commits : (s.proc p).commits = true := by simp [phase,Phase.commits]
  have flag := inv.flag commits
  have runs : LogGroup.running s.hist = true := inv.running.mpr ⟨p,by simp [phase,Phase.runs]⟩
  refine inv.moves commits rfl (s.hist ++ [Event.header p s.log.lh]) s.log.lh ?_ ?_ ?_ ?_ ?_ ?_ ?_ ?_
  · exact inv.legal.snoc ⟨runs,inv.closed flag,inv.pending⟩
  · intro q; simpa using inv.closed flag q
  · simp [runs,Phase.runs]
  · exact inv.distinct
  · simp
  · simp
  · simp
  · simp

theorem clear_step (inv : Invariant s) (phase : s.proc p = .headed) : Invariant (clear s p) := by
  have commits : (s.proc p).commits = true := by simp [phase,Phase.commits]
  have flag := inv.flag commits
  have runs : LogGroup.running s.hist = true := inv.running.mpr ⟨p,by simp [phase,Phase.runs]⟩
  have none := inv.headed ⟨p,phase⟩
  refine inv.moves commits rfl s.hist [] ?_ ?_ ?_ ?_ ?_ ?_ ?_ ?_
  · exact inv.legal
  · exact inv.closed flag
  · simp [runs,Phase.runs]
  · simp
  · simp [none]
  · simp
  · simp
  · simp

theorem finish_step (inv : Invariant s) (phase : s.proc p = .cleared) : Invariant (finish s p) := by
  have commits : (s.proc p).commits = true := by simp [phase,Phase.commits]
  have flag := inv.flag commits
  have runs : LogGroup.running s.hist = true := inv.running.mpr ⟨p,by simp [phase,Phase.runs]⟩
  have idle (q : Nat) : (update s.proc p .idle q).commits = false := by
    by_cases same : q = p
    · subst same; simp [Phase.commits]
    · cases h : (s.proc q).commits with
      | false => simpa [same] using h
      | true => exact absurd (inv.alone q p h commits) same
  have inOp (q : Nat) : update s.proc p .idle q ≠ .inOp := by
    by_cases same : q = p
    · subst same; simp
    · simpa [same] using inv.no_op flag q
  have none : LogGroup.pending s.hist = [] := List.subset_nil.mp (inv.emptied ⟨p,phase⟩ ▸ inv.pending)
  exact of_idle (fun q => by simpa [finish] using idle q) rfl (inv.legal.snoc ⟨runs,inv.closed flag,none⟩)
    (by simp [finish]) (fun q => by simp [finish,inv.closed flag q,inOp])
    ⟨[],by simp,by simpa [finish] using inOp,by simpa [finish] using inv.quiet flag⟩ inv.distinct
    (by simpa [finish] using inv.pending) (by simpa [finish] using inv.listed (inv.unheaded commits (by simp [phase])))
    inv.panic

end Invariant

theorem step_invariant (s : Sys) (a : Action) (t : Sys) (inv : Invariant s)
    (enabled : step s a = some t) : Invariant t := by
  unfold step at enabled
  split at enabled
  · cases enabled
  cases a with
  | beginOp p =>
    obtain ⟨phase,rfl⟩ := Runs.enabled enabled
    unfold beginOp
    split
    · exact inv.sleeps phase
    · split
      · exact inv.sleeps phase
      · exact inv.begins phase (by simpa using ‹¬s.log.committing = true›)
  | logWrite p b =>
    obtain ⟨inside,rfl⟩ := Runs.enabled enabled
    unfold logWrite
    split
    · exact { inv with panic := by simp }
    · have := inv.outstanding_pos inside
      rw [if_neg (by omega)]
      exact inv.writes inside b
  | endOp p =>
    obtain ⟨inside,rfl⟩ := Runs.enabled enabled
    simp only [endOp,inv.not_committing inside,Bool.false_eq_true,if_false]
    split
    · exact inv.ends_last inside ‹_›
    · have := inv.ends inside
      simpa only [inv.not_committing inside] using this
  | commit p =>
    obtain ⟨phase,rfl⟩ := Runs.enabled enabled
    exact inv.commit_step phase
  | writeHead p =>
    obtain ⟨phase,rfl⟩ := Runs.enabled enabled
    exact inv.writeHead_step phase
  | clear p =>
    obtain ⟨phase,rfl⟩ := Runs.enabled enabled
    exact inv.clear_step phase
  | finish p =>
    obtain ⟨phase,rfl⟩ := Runs.enabled enabled
    exact inv.finish_step phase

theorem run_invariant {start size : Nat} {schedule : List Action} {s : Sys}
    (ran : Runs.run step (initial start size) schedule = some s) : Invariant s :=
  Runs.run_invariant Invariant step_invariant (initial_invariant start size) ran

/-! Operations in a legal history. -/

theorem opened_stays {front back : List Event} {p : Nat} (inside : opened front p = true)
    (open_ : Event.endOp p ∉ back) : opened (front ++ back) p = true := by
  induction back generalizing front with
  | nil => simpa using inside
  | cons e back ih =>
    rw [List.mem_cons,not_or] at open_
    rw [← List.singleton_append,← List.append_assoc]
    apply ih _ open_.2
    cases e with
    | endOp q =>
      have other : q ≠ p := fun same => open_.1 (same ▸ rfl)
      simp [inside,other]
    | _ => simp [inside]

theorem pending_stays {front back : List Event} {b : Nat} (logged : b ∈ pending front)
    (unnamed : ∀ q blocks, Event.header q blocks ∉ back) : b ∈ pending (front ++ back) := by
  induction back generalizing front with
  | nil => simpa using logged
  | cons e back ih =>
    rw [← List.singleton_append,← List.append_assoc]
    apply ih
    · cases e with
      | header q blocks => exact absurd List.mem_cons_self (unnamed q blocks)
      | _ => simp [logged]
    · exact fun q blocks member => unnamed q blocks (List.mem_cons_of_mem e member)

theorem pending_write {front back : List Event} {p b : Nat} (member : Event.write p b ∈ back)
    (unnamed : ∀ q blocks, Event.header q blocks ∉ back) : b ∈ pending (front ++ back) := by
  obtain ⟨before,after,rfl⟩ := List.append_of_mem member
  rw [← List.singleton_append,← List.append_assoc,← List.append_assoc]
  apply pending_stays
  · simp
  · intro q blocks inside
    exact unnamed q blocks (by simp [inside])

def Event.isCommit : Event → Bool
  | .commit _ => true
  | _ => false

/-- Does the event belong to the run of a commit? -/
def Event.commits : Event → Bool
  | .commit _ | .header _ _ | .done _ => true
  | _ => false

/-- No event of a commit falls between a `begin_op` and its `end_op`. -/
theorem Legal.undisturbed {before during : List Event} {p : Nat} (legal : Legal (before ++ .begin p :: during))
    (open_ : Event.endOp p ∉ during) {e : Event} (member : e ∈ during) : e.commits = false := by
  obtain ⟨first,rest,rfl⟩ := List.append_of_mem member
  have inside : opened (before ++ .begin p :: first) p = true := by
    rw [← List.singleton_append,← List.append_assoc]
    apply opened_stays
    · simp
    · intro ended
      exact open_ (List.mem_append_left _ ended)
  have legal : Legal ((before ++ .begin p :: first) ++ e :: rest) := by simpa using legal
  have fits := legal.at
  cases e with
  | commit q => exact absurd (fits.2 p) (by simp [inside])
  | header q blocks | done q => exact absurd (fits.2.1 p) (by simp [inside])
  | begin q => rfl
  | write q b => rfl
  | endOp q => rfl

/-- While a logged block waits for its header, the commit that is to name it is the only one
to start, and it does not end. -/
theorem Legal.one_commit {front back : List Event} {b : Nat} (legal : Legal (front ++ back))
    (logged : b ∈ pending front) (unnamed : ∀ q blocks, Event.header q blocks ∉ back) :
    back.countP Event.isCommit + (running front).toNat = (running (front ++ back)).toNat := by
  induction back using List.reverseRecOn with
  | nil => simp
  | append_singleton back e ih =>
    rw [← List.append_assoc] at legal
    have unnamed' : ∀ q blocks, Event.header q blocks ∉ back :=
      fun q blocks member => unnamed q blocks (List.mem_append_left _ member)
    have before := ih legal.front unnamed'
    have fits : Fits (front ++ back) e := legal.at
    have waiting := pending_stays logged unnamed'
    rw [List.countP_append,← List.append_assoc,running_append]
    cases e with
    | commit q =>
      rw [fits.1,Bool.toNat_false] at before
      simp [Event.isCommit]
      omega
    | header q blocks => exact absurd (by simp) (unnamed q blocks)
    | done q => simp [fits.2.2] at waiting
    | begin q | write q c | endOp q => simpa [Event.isCommit] using before

/-- Group commit never splits an operation. In every state that any schedule reaches:
while `log.committing` is set nothing is outstanding and no process is inside an operation;
neither the `log.committing` panic nor `log_write outside of trans` has been reached; and
for every operation in the history no commit ran when it began or up to its end, and the
first header written afterwards, by the only commit that started in between, names every
block that the operation logged. -/
theorem group_commit (start size : Nat) (schedule : List Action) (s : Sys)
    (ran : Runs.run step (initial start size) schedule = some s) :
    (s.log.committing = true → s.log.outstanding = 0 ∧ ∀ p, s.proc p ≠ .inOp) ∧
    s.panic ≠ some .committing ∧ s.panic ≠ some .outsideTrans ∧
    ∀ before p during after, s.hist = before ++ .begin p :: (during ++ .endOp p :: after) →
      Event.endOp p ∉ during →
      running before = false ∧ (∀ e ∈ during, e.commits = false) ∧
      ∀ first q blocks rest, after = first ++ .header q blocks :: rest →
        (∀ r other, Event.header r other ∉ first) →
        ∀ b, Event.write p b ∈ during → b ∈ blocks ∧ first.countP Event.isCommit = 1 := by
  have inv := run_invariant ran
  refine ⟨fun flag => ⟨inv.quiet flag,inv.no_op flag⟩,inv.panic.1,inv.panic.2,?_⟩
  intro before p during after shape open_
  have legal := shape ▸ inv.legal
  have upToEnd : Legal (before ++ .begin p :: during) := by
    rw [show before ++ Event.begin p :: (during ++ .endOp p :: after) =
      (before ++ .begin p :: during) ++ .endOp p :: after by simp] at legal
    exact legal.front
  have quiet : ∀ e ∈ during, e.commits = false := fun e => upToEnd.undisturbed open_
  refine ⟨legal.at,quiet,?_⟩
  rintro first q blocks rest rfl unnamed b wrote
  have whole : Legal ((before ++ .begin p :: (during ++ [.endOp p])) ++
      first ++ .header q blocks :: rest) := by simpa using legal
  have logged : b ∈ pending (before ++ .begin p :: (during ++ [.endOp p])) := by
    rw [← List.singleton_append,← List.append_assoc]
    apply @pending_write _ _ p
    · simp [wrote]
    · intro r other member
      rcases List.mem_append.mp member with inside | last
      · simpa [Event.commits] using quiet _ inside
      · simp at last
  have still : running (before ++ .begin p :: (during ++ [.endOp p])) = false := by
    have calm (es : List Event) (idle : ∀ e ∈ es, e.commits = false) (h : List Event)
        (was : running h = false) : running (h ++ es) = false := by
      induction es generalizing h with
      | nil => simpa using was
      | cons e es ih =>
        rw [← List.singleton_append,← List.append_assoc]
        apply ih (fun e member => idle e (by simp [member]))
        have := idle e (by simp)
        cases e <;> simp_all [Event.commits]
    apply calm _ _ before legal.at
    intro e member
    simp only [List.mem_cons,List.mem_append,List.not_mem_nil,or_false] at member
    rcases member with rfl | inside | rfl
    · rfl
    · exact quiet e inside
    · rfl
  have fits := whole.at
  have count := whole.front.one_commit logged unnamed
  rw [still,fits.1] at count
  exact ⟨fits.2.2 (pending_stays logged unnamed),by simpa using count⟩

def twoInOneGroup : List Action :=
  [.beginOp 0,.logWrite 0 5,.beginOp 1,.endOp 0,.logWrite 1 6,.endOp 1,.commit 1,.writeHead 1,.clear 1,.finish 1]

theorem twoInOneGroup_commit : ∃ s, Runs.run step (initial 2 logSize) twoInOneGroup = some s ∧
    s.hist = [.begin 0,.write 0 5,.begin 1,.endOp 0,.write 1 6,.endOp 1,.commit 1,.header 1 [5,6],.done 1] ∧
    5 ∈ [5,6] ∧ s.panic ≠ some .committing := by
  have ran : Runs.run step (initial 2 logSize) twoInOneGroup =
      some ((Runs.run step (initial 2 logSize) twoInOneGroup).get (by decide)) := by simp
  obtain ⟨_,safe,_,ops⟩ := group_commit 2 logSize twoInOneGroup _ ran
  have zero := ops [] 0 [.write 0 5,.begin 1] [.write 1 6,.endOp 1,.commit 1,.header 1 [5,6],.done 1] (by decide)
    (by decide)
  have named := zero.2.2 [.write 1 6,.endOp 1,.commit 1] 1 [5,6] [.done 1] rfl (by simp) 5 (by simp)
  exact ⟨_,ran,by decide,named.1,safe⟩

end Xv6.LogGroup
