import Xv6.Bytes
import Xv6.Param
import Xv6.Writes

/-! The redo log of `log.c`: the commit and recovery paths as they write the disk. Each
`bwrite` is one atomic disk write; the machine keeps the list of them, so that a crash is a
prefix of that list. Pin counts of buffers are not part of this model. -/
namespace Xv6

open Function

abbrev Block := Bytes.Storage
abbrev Disk := Nat → Block

/-- `struct log` without its lock and device; `lh` holds the first `lh.n` entries of
`lh.block`. -/
structure Log where
  start : Nat
  size : Nat
  outstanding : Int
  committing : Bool
  lh : List Nat
  deriving DecidableEq, Repr

namespace Log

/-- The blocks of the log: its header and the blocks behind it. -/
def Owns (log : Log) (b : Nat) : Prop := b = log.start ∨ (log.start < b ∧ b < log.start + log.size)

instance (log : Log) (b : Nat) : Decidable (log.Owns b) :=
  inferInstanceAs (Decidable (_ ∨ _))

/-- Absorption in `log_write`: a block already listed keeps its slot. -/
def absorb (lh : List Nat) (b : Nat) : List Nat := if b ∈ lh then lh else lh ++ [b]

/-- `lh->n`, an `int`: a negative count makes the copy loops empty. -/
def headerCount (hb : Block) : Nat :=
  let n := Bytes.load 4 hb 0
  if n < 2 ^ 31 then n else 0

/-- `block[i], block[i+1], ...` of a header block, `n` of them. -/
def headerBlocksFrom (hb : Block) (i : Nat) : Nat → List Nat
  | 0 => []
  | n + 1 => Bytes.load 4 hb (4 + 4 * i) :: headerBlocksFrom hb (i + 1) n

def headerBlocks (hb : Block) : List Nat := headerBlocksFrom hb 0 (headerCount hb)

/-- The loop of `write_head` from index `i` on. -/
def putBlocks (hb : Block) (i : Nat) : List Nat → Block
  | [] => hb
  | b :: bs => putBlocks (Bytes.store 4 hb (4 + 4 * i) b) (i + 1) bs

/-- `write_head` edits the buffer in place: entries past `n` keep their old bytes. -/
def putHeader (hb : Block) (lh : List Nat) : Block :=
  putBlocks (Bytes.store 4 hb 0 lh.length) 0 lh

/-- `cache` has the blocks held in buffers, `trail` the disk writes made, oldest first. -/
structure Machine where
  disk : Disk
  cache : Nat → Option Block
  log : Log
  trail : List (Nat × Block)

namespace Machine

def bread (m : Machine) (b : Nat) : Block := (m.cache b).getD (m.disk b)

def bwrite (m : Machine) (b : Nat) (data : Block) : Machine :=
  { m with
    disk := update m.disk b data
    cache := update m.cache b (some data)
    trail := m.trail ++ [(b, data)] }

/-- Copy modified blocks from cache to log: the loop from `tail` on. -/
def writeLogFrom (m : Machine) (tail : Nat) : List Nat → Machine
  | [] => m
  | b :: bs => writeLogFrom (m.bwrite (m.log.start + tail + 1) (m.bread b)) (tail + 1) bs

def writeLog (m : Machine) : Machine := m.writeLogFrom 0 m.log.lh

def writeHead (m : Machine) : Machine :=
  m.bwrite m.log.start (putHeader (m.bread m.log.start) m.log.lh)

/-- Copy committed blocks from log to their home location: the loop from `tail` on. -/
def installFrom (m : Machine) (tail : Nat) : List Nat → Machine
  | [] => m
  | b :: bs => installFrom (m.bwrite b (m.bread (m.log.start + tail + 1))) (tail + 1) bs

def installTrans (m : Machine) : Machine := m.installFrom 0 m.log.lh

def readHead (m : Machine) : Machine :=
  { m with log := { m.log with lh := headerBlocks (m.bread m.log.start) } }

def clear (m : Machine) : Machine := { m with log := { m.log with lh := [] } }

def commit (m : Machine) : Machine :=
  if 0 < m.log.lh.length then m.writeLog.writeHead.installTrans.clear.writeHead else m

def recoverFromLog (m : Machine) : Machine := m.readHead.installTrans.clear.writeHead

/-- An operation modifies a buffer and hands it to `log_write`. -/
def logWrite (m : Machine) (b : Nat) (data : Block) : Machine :=
  { m with
    cache := update m.cache b (some data)
    log := { m.log with lh := absorb m.log.lh b } }

end Machine

def boot (log : Log) (disk : Disk) : Machine :=
  { disk, cache := fun _ => none, log := { log with lh := [] }, trail := [] }

/-- The updates one commit carries. The bounds are those `log_write` enforces, and block
numbers are `uint`. -/
structure Tx (log : Log) where
  writes : List (Nat × Block)
  distinct : (writes.map Prod.fst).Nodup
  home : ∀ w ∈ writes, ¬log.Owns w.1
  fits : writes.length ≤ log.size - 1
  named : writes.length ≤ logSize
  uint : ∀ w ∈ writes, w.1 < 2 ^ 32

namespace Machine

def stage (m : Machine) (writes : List (Nat × Block)) : Machine :=
  writes.foldl (fun m w => m.logWrite w.1 w.2) m

def transact {log : Log} (m : Machine) (tx : Tx log) : Machine := (m.stage tx.writes).commit

def runAll {log : Log} (m : Machine) (txs : List (Tx log)) : Machine := txs.foldl transact m

end Machine

/-- Reboot and recovery cut short after `k` disk writes. -/
def crashedRecovery (log : Log) (disk : Disk) (k : Nat) : Disk :=
  Writes.replay disk ((boot log disk).recoverFromLog.trail.take k)

/-- Transactions whose non-empty header is among these disk writes. -/
def committed (log : Log) (writes : List (Nat × Block)) : Nat :=
  writes.countP (fun w => w.1 = log.start ∧ headerCount w.2 ≠ 0)

end Log
end Xv6
