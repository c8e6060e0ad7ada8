import Xv6.Bio
import Xv6.LogGroup
import Mathlib.Data.Finset.Card

/-! Operations over the buffer cache and the log together: how the blocks of a transaction stay in the cache,
pinned, until `commit` has copied them to the log and to their places on the disk. -/
namespace Xv6.LogPins

open Bio Function

/-- The statement of `commit` that comes next, with the index of the loop and the buffers it has. -/
inductive Stage
  -- write_log: to = bread(log block); from = bread(cache block); memmove; bwrite(to); brelse(from); brelse(to)
  | writeLog (tail : Nat)
  | writeFrom (tail dst : Nat)
  | copyLog (tail dst src : Nat)
  | bwriteLog (tail dst src : Nat)
  | relseFrom (tail dst src : Nat)
  | relseTo (tail dst : Nat)
  -- write_head, before install_trans and again after it
  | head (again : Bool)
  | putHead (again : Bool) (buf : Nat)
  | bwriteHead (again : Bool) (buf : Nat)
  | relseHead (again : Bool) (buf : Nat)
  -- install_trans: lbuf = bread(log block); dbuf = bread(dst); memmove; bwrite(dbuf); bunpin(dbuf); brelse; brelse
  | install (tail : Nat)
  | readHome (tail lbuf : Nat)
  | copyHome (tail lbuf dbuf : Nat)
  | bwriteHome (tail lbuf dbuf : Nat)
  | unpin (tail lbuf dbuf : Nat)
  | relseLog (tail lbuf dbuf : Nat)
  | relseHome (tail dbuf : Nat)
  | clear
  | finish

/-- The blocks of the header that have been unpinned, of `n`. -/
def Stage.unpinned (n : Nat) : Stage → Nat
  | install tail | readHome tail _ | copyHome tail _ _ | bwriteHome tail _ _ | unpin tail _ _ => tail
  | relseLog tail _ _ | relseHome tail _ => tail + 1
  | clear => n
  | _ => 0

/-- Where the committing process is in the model without buffers. -/
def Stage.phase : Stage → LogGroup.Phase
  | relseHead false _ | install _ | readHome .. | copyHome .. | bwriteHome .. | unpin .. | relseLog .. | relseHome ..
  | clear => .headed
  | head true | putHead true _ | bwriteHead true _ | relseHead true _ | finish => .cleared
  | _ => .committing

/-- The buffer of a log block that has been changed and is about to be written. -/
def Stage.writing : Stage → Option Nat
  | bwriteLog _ dst _ => some dst
  | bwriteHead _ buf => some buf
  | _ => none

/-- `commit` has the thread that has set `log.committing` and where it is in `commit()`. The rest is not in the
code: the threads in an operation, what each block was last changed to, and the blocks that have been changed
and not yet passed to `log_write`. -/
structure State where
  cache : Cache Block
  log : Log
  commit : Option (Nat × Stage)
  ops : Finset Nat
  view : Nat → Block
  dirty : Nat → Bool

inductive Action
  | beginOp (p : Nat)
  | bread (p b : Nat)
  /-- The next step of `bread`, `brelse` or `commit`. -/
  | next (p : Nat)
  | modify (p k : Nat) (data : Block)
  | logWrite (p k : Nat)
  | brelse (p k : Nat)
  | endOp (p : Nat)

/-- The blocks of the header that are pinned. -/
def pinnedOf (lh : List Nat) : Option (Nat × Stage) → List Nat
  | none => lh
  | some (_,stage) => lh.drop (stage.unpinned lh.length)

namespace State

variable (s : State)

abbrev pinned : List Nat := pinnedOf s.log.lh s.commit

/-- The thread is in none of the calls that take several steps. -/
def free (p : Nat) : Bool := s.cache.doing p = .nothing ∧ s.commit.map (·.1) ≠ some p

def goto (p : Nat) (cache : Cache Block) (stage : Stage) : State := { s with cache := cache, commit := some (p,stage) }

def fetch (p b : Nat) (stage : Nat → Stage) : Option State :=
  (s.cache.bget p b).map fun (cache,k) => s.goto p cache (stage k)

def commitNext (p : Nat) : Stage → Option State
  | .writeLog tail =>
    if tail < s.log.lh.length then s.fetch p (s.log.start + tail + 1) (.writeFrom tail)
    else some (s.goto p s.cache (.head false))
  | .writeFrom tail dst => s.log.lh[tail]?.bind fun b => s.fetch p b (.copyLog tail dst)
  | .copyLog tail dst src => some (s.goto p (s.cache.write dst (s.cache.buf src).data) (.bwriteLog tail dst src))
  | .bwriteLog tail dst src => some (s.goto p (s.cache.bwrite dst) (.relseFrom tail dst src))
  | .relseFrom tail dst src => some (s.goto p (s.cache.brelse p src) (.relseTo tail dst))
  | .relseTo tail dst => some (s.goto p (s.cache.brelse p dst) (.writeLog (tail + 1)))
  | .head again => s.fetch p s.log.start (.putHead again)
  | .putHead again buf =>
    some (s.goto p (s.cache.write buf (Log.putHeader (s.cache.buf buf).data s.log.lh)) (.bwriteHead again buf))
  | .bwriteHead again buf => some (s.goto p (s.cache.bwrite buf) (.relseHead again buf))
  | .relseHead again buf => some (s.goto p (s.cache.brelse p buf) (if again then .finish else .install 0))
  | .install tail =>
    if tail < s.log.lh.length then s.fetch p (s.log.start + tail + 1) (.readHome tail)
    else some (s.goto p s.cache .clear)
  | .readHome tail lbuf => s.log.lh[tail]?.bind fun b => s.fetch p b (.copyHome tail lbuf)
  | .copyHome tail lbuf dbuf => some (s.goto p (s.cache.write dbuf (s.cache.buf lbuf).data) (.bwriteHome tail lbuf dbuf))
  | .bwriteHome tail lbuf dbuf => some (s.goto p (s.cache.bwrite dbuf) (.unpin tail lbuf dbuf))
  | .unpin tail lbuf dbuf => some (s.goto p (s.cache.bunpin dbuf) (.relseLog tail lbuf dbuf))
  | .relseLog tail lbuf dbuf => some (s.goto p (s.cache.brelse p lbuf) (.relseHome tail dbuf))
  | .relseHome tail dbuf => some (s.goto p (s.cache.brelse p dbuf) (.install (tail + 1)))
  | .clear => some { s.goto p s.cache (.head true) with log := { s.log with lh := [] } }
  | .finish => some { s with log := { s.log with committing := false }, commit := none }

/-- `log_write` panics when the log is full and outside of a transaction. -/
def logWrite (k b : Nat) : Option State :=
  if s.log.lh.length ≥ logSize ∨ (s.log.lh.length : Int) ≥ s.log.size - 1 ∨ s.log.outstanding < 1 then none
  else
    let t := { s with dirty := update s.dirty b false }
    if b ∈ s.log.lh then some t
    else some { t with cache := s.cache.bpin k, log := { s.log with lh := s.log.lh ++ [b] } }

/-- `end_op` panics when the log is being committed. -/
def endOp (p : Nat) : Option State :=
  let t := { s with log := { s.log with outstanding := s.log.outstanding - 1 }, ops := s.ops.erase p }
  if s.log.committing then none
  else if t.log.outstanding = 0 then
    some { t with
      log := { t.log with committing := true }
      commit := some (p,if s.log.lh.length > 0 then .writeLog 0 else .finish) }
  else some t

/-- Operations change a block after `bread`, in a transaction, and call `log_write` before `brelse`; they do not
change the blocks of the log, and have released their buffers when they end. `begin_op` waits. -/
def step (s : State) : Action → Option State
  | .beginOp p =>
    if s.free p ∧ p ∉ s.ops ∧ s.log.committing = false ∧
        (s.log.lh.length : Int) + (s.log.outstanding + 1) * maxOpBlocks ≤ logSize then
      some { s with log := { s.log with outstanding := s.log.outstanding + 1 }, ops := insert p s.ops }
    else none
  | .bread p b => if s.free p then (s.cache.bget p b).map fun (cache,_) => { s with cache := cache } else none
  | .next p =>
    if s.cache.doing p = .nothing then
      match s.commit with
      | some (q,stage) => if q = p then s.commitNext p stage else none
      | none => none
    else (s.cache.next p).map fun cache => { s with cache := cache }
  | .modify p k data =>
    match (s.cache.buf k).block with
    | some b =>
      if s.free p ∧ p ∈ s.ops ∧ (s.cache.buf k).holder = some p ∧ ¬s.log.Owns b then
        some { s with
          cache := s.cache.write k data
          view := update s.view b data
          dirty := update s.dirty b true }
      else none
    | none => none
  | .logWrite p k =>
    match (s.cache.buf k).block with
    | some b =>
      if s.free p ∧ p ∈ s.ops ∧ (s.cache.buf k).holder = some p ∧ ¬s.log.Owns b then s.logWrite k b else none
    | none => none
  | .brelse p k =>
    if s.free p ∧ (s.cache.buf k).holder = some p ∧ ((s.cache.buf k).block.map s.dirty) ≠ some true then
      some { s with cache := s.cache.brelse p k }
    else none
  | .endOp p => if s.free p ∧ p ∈ s.ops ∧ ∀ k < nbuf, (s.cache.buf k).holder ≠ some p then s.endOp p else none

def init (start size : Nat) (disk : Nat → Block) : State where
  cache := .init (fun _ => 0) disk
  log := ⟨start,size,0,false,[]⟩
  commit := none
  ops := ∅
  view := disk
  dirty _ := false

end State

end Xv6.LogPins
