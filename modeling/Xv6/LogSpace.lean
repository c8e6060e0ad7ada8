import Xv6.LogGroup
import Mathlib.Data.List.Dedup
import Mathlib.Data.List.Perm.Basic

/-! Log space. `begin_op` reserves against `LOGSIZE` blocks, but a log of `LOGSIZE` blocks as
`mkfs` makes it has room for one block less beside its header, and `log_write` tests the
room before it looks whether the block is already listed. -/
namespace Xv6.LogGroup

def opBlocks (hist : List Event) (p : Nat) : List Nat :=
  hist.foldl (fun blocks e => match e with
    | .begin q => if q = p then [] else blocks
    | .write q b => if q = p then b :: blocks else blocks
    | _ => blocks) []

/-- Steps of operations that log at most `MAXOPBLOCKS` distinct blocks each. -/
def boundedStep (s : Sys) (a : Action) : Option Sys :=
  match a with
  | .logWrite p b => if (b :: opBlocks s.hist p).dedup.length ≤ maxOpBlocks then step s a else none
  | _ => step s a

variable {s t : Sys} {a : Action} {p : Nat}

theorem boundedStep_step (enabled : boundedStep s a = some t) : step s a = some t := by
  cases a with
  | logWrite p b =>
    simp only [boundedStep] at enabled
    split at enabled
    · exact enabled
    · cases enabled
  | _ => exact enabled

def threeFullOps : List Action :=
  ([.beginOp 0,.beginOp 1,.beginOp 2] : List Action) ++ (List.range 10).map (Action.logWrite 0 ·) ++
    (List.range 10).map (fun i => Action.logWrite 1 (10 + i)) ++
    (List.range 10).map (fun i => Action.logWrite 2 (20 + i))

/-- The size check fails for operations within their bound on the log that `mkfs` makes. -/
theorem three_full_ops_panic :
    (Runs.run boundedStep (initial 2 logSize) threeFullOps).map Sys.panic = some (some .tooBig) := by
  decide +kernel

theorem step_panic_none (enabled : step s a = some t) : s.panic = none := by
  unfold step at enabled
  split at enabled
  · cases enabled
  · simpa using ‹¬s.panic ≠ none›

theorem step_size (enabled : step s a = some t) : t.log.size = s.log.size := by
  unfold step at enabled
  split at enabled
  · cases enabled
  cases a <;> simp only at enabled <;> split at enabled <;> cases enabled
  · unfold beginOp
    split
    · rfl
    · split <;> rfl
  · unfold logWrite
    split
    · rfl
    · split <;> rfl
  · simp only [endOp]
    split
    · rfl
    · split <;> rfl
  all_goals rfl

theorem run_size {start size : Nat} {schedule : List Action}
    (ran : Runs.run boundedStep (initial start size) schedule = some s) : s.log.size = size :=
  Runs.run_invariant (fun s => s.log.size = size)
    (fun _ _ _ same enabled => (step_size (boundedStep_step enabled)).trans same) rfl ran

theorem bounded_invariant {start size : Nat} {schedule : List Action}
    (ran : Runs.run boundedStep (initial start size) schedule = some s) : Invariant s :=
  Runs.run_invariant Invariant (fun s a t inv enabled => step_invariant s a t inv (boundedStep_step enabled))
    (initial_invariant start size) ran

/-- Inside an operation the header lists exactly the blocks logged since the last commit. -/
theorem Invariant.length_lh (inv : Invariant s) (inside : s.proc p = .inOp) :
    s.log.lh.length = (LogGroup.pending s.hist).dedup.length := by
  have listed := inv.listed (inv.none_headed (inv.not_committing inside))
  apply List.Perm.length_eq
  apply (List.perm_ext_iff_of_nodup inv.distinct (List.nodup_dedup _)).mpr
  intro b
  rw [List.mem_dedup]
  exact ⟨fun h => listed h,fun h => inv.pending h⟩

theorem step_logWrite {b : Nat} (enabled : step s (.logWrite p b) = some t) :
    s.proc p = .inOp ∧ t = logWrite s p b := by
  unfold step at enabled
  split at enabled
  · cases enabled
  · simp only at enabled
    split at enabled
    · exact ⟨‹_›,(Option.some.inj enabled).symm⟩
    · cases enabled

theorem logWrite_tooBig {b : Nat} (inv : Invariant s) (size : s.log.size = logSize)
    (enabled : step s (.logWrite p b) = some t) :
    t.panic = some .tooBig ↔ logSize - 1 ≤ (pending s.hist).dedup.length := by
  obtain ⟨inside,rfl⟩ := step_logWrite enabled
  have none := step_panic_none enabled
  rw [← inv.length_lh inside]
  have pos := inv.outstanding_pos inside
  unfold logWrite
  rw [size]
  simp only [logSize,maxOpBlocks]
  split
  · simp only [true_iff]
    omega
  · rw [if_neg (by omega)]
    simp only [none,reduceCtorEq,false_iff]
    omega

theorem step_tooBig (enabled : step s a = some t) (full : t.panic = some .tooBig) : ∃ p b, a = .logWrite p b := by
  have none := step_panic_none enabled
  unfold step at enabled
  rw [if_neg (by simp [none])] at enabled
  cases a <;> simp only at enabled <;> split at enabled <;> cases enabled
  · unfold beginOp at full
    split at full
    · simp [none] at full
    · split at full <;> simp [none] at full
  · exact ⟨_,_,rfl⟩
  · simp only [endOp] at full
    split at full
    · simp at full
    · split at full <;> simp [none] at full
  all_goals simp [commit,writeHead,clear,finish,none] at full

/-- A run of bounded operations is free of the size panic exactly if every `log_write` is
made while fewer than `LOGSIZE - 1` distinct blocks have been logged since the last commit. -/
theorem log_space_iff (start : Nat) (schedule : List Action) (s : Sys)
    (ran : Runs.run boundedStep (initial start logSize) schedule = some s) :
    s.panic ≠ some .tooBig ↔ ∀ front p b back t, schedule = front ++ .logWrite p b :: back →
        Runs.run boundedStep (initial start logSize) front = some t →
        (pending t.hist).dedup.length < logSize - 1 := by
  constructor
  · rintro fine front p b back t rfl before
    rw [Runs.run_append,before,Option.bind_some,Runs.run] at ran
    cases next : boundedStep t (.logWrite p b) with
    | none => simp [next] at ran
    | some u =>
      rw [next,Option.bind_some] at ran
      have panics := logWrite_tooBig (bounded_invariant before) (run_size before) (boundedStep_step next)
      apply Nat.lt_of_not_le
      intro full
      have stopped := panics.mpr full
      cases back with
      | nil =>
        cases ran
        exact fine stopped
      | cons a back =>
        rw [Runs.run] at ran
        cases after : boundedStep u a with
        | none => simp [after] at ran
        | some v => simp [step_panic_none (boundedStep_step after)] at stopped
  · intro room full
    rcases List.eq_nil_or_concat schedule with rfl | ⟨front,a,rfl⟩
    · cases ran
      simp [initial] at full
    · rw [List.concat_eq_append,Runs.run_append] at ran
      cases before : Runs.run boundedStep (initial start logSize) front with
      | none => simp [before] at ran
      | some t =>
        rw [before,Option.bind_some,Runs.run] at ran
        cases next : boundedStep t a with
        | none => simp [next] at ran
        | some u =>
          rw [next,Option.bind_some] at ran
          cases ran
          obtain ⟨p,b,rfl⟩ := step_tooBig (boundedStep_step next) full
          have panics := logWrite_tooBig (bounded_invariant before) (run_size before) (boundedStep_step next)
          have := room front p b [] t (by simp) before
          have := panics.mp full
          omega

/-- Two operations of one group have room, and so has one of the next group. -/
def twoGroups : List Action := twoInOneGroup ++ [.beginOp 0,.logWrite 0 5,.logWrite 0 5,.logWrite 0 7]

theorem log_space_two_groups : ∃ s, Runs.run boundedStep (initial 2 logSize) twoGroups = some s ∧
    s.panic ≠ some .tooBig ∧ ∀ front p b back t, twoGroups = front ++ .logWrite p b :: back →
      Runs.run boundedStep (initial 2 logSize) front = some t → (pending t.hist).dedup.length < logSize - 1 :=
  Runs.reaches (fun s => s.panic ≠ some .tooBig) (by decide) fun s ran fine =>
    ⟨fine,(log_space_iff 2 twoGroups s ran).mp fine⟩

end Xv6.LogGroup
