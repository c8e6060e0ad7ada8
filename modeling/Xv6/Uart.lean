import Xv6.Owed
import Xv6.Rings

/-! The transmit buffer of `uart.c`, filled by `uartputc` and emptied by `uartstart`, which the writers and the
interrupt handler call. What the device says is left open. -/
namespace Xv6.Uart

open Sched Function

/-- `UART_TX_BUF_SIZE`. -/
abbrev txBufSize : Nat := 32

/-- `uart_tx_buf`, `uart_tx_w` and `uart_tx_r`, and what the code does not keep: the bytes that `uartputc` has stored
and those that `uartstart` has written to THR. -/
structure Tx where
  buf : Nat → UInt8
  w : BitVec 64
  r : BitVec 64
  accepted : List UInt8
  sent : List UInt8

namespace Tx

variable (d : Tx)

def isFull : Bool := d.w == d.r + BitVec.ofNat 64 txBufSize

def store (c : UInt8) : Tx :=
  { d with buf := update d.buf (d.w.toNat % txBufSize) c, w := d.w + 1, accepted := d.accepted ++ [c] }

def ring : List UInt8 := Rings.entries txBufSize d.buf d.r d.w

/-- What was stored has been sent in order, but for the bytes in the hands of `uartstart` and those in the ring. -/
structure Fifo (hands : List UInt8) : Prop where
  room : d.ring.length ≤ txBufSize
  bytes : d.accepted = d.sent ++ (hands ++ d.ring)

end Tx

def txLock : Nat := 0
/-- `&uart_tx_r`. -/
def txChan : Nat := 0

/-- The places, named for the statement that comes next. The first line is `uartputc`, `intr` the end of `uartintr`;
from both `start` leads through `uartstart` to `release`. -/
inductive Code
  | user
  | putc (c : UInt8) | full (c : UInt8) | sleep (c : UInt8) | store (c : UInt8)
  | intr
  | start | lsr | take | wake (c : UInt8) | write (c : UInt8) | release

/-- The next call, of `uartputc` or `uartintr`, and whether LSR_TX_IDLE is set. -/
structure Input where
  putc : Option UInt8
  idle : Bool

def instr : Code → Instr Input Code Tx
  | .user => .choose fun i => i.putc.elim .intr .putc
  | .putc c => .acquire txLock (.full c)
  | .full c => .update fun d => (d,if d.isFull then .sleep c else .store c)
  | .sleep c => .sleep txChan txLock (.full c)
  | .store c => .update fun d => (d.store c,.start)
  | .intr => .acquire txLock .start
  | .start => .update fun d => (d,if d.r = d.w then .release else .lsr)
  | .lsr => .choose fun i => if i.idle then .take else .release
  | .take => .update fun d => ({ d with r := d.r + 1 },.wake (d.buf (d.r.toNat % txBufSize)))
  | .wake c => .wakeup txChan (.write c)
  | .write c => .update fun d => ({ d with sent := d.sent ++ [c] },.start)
  | .release => .release txLock .user

def machine (nproc : Nat) (pid : Nat → Nat) : Machine Input Code Tx := ⟨nproc,pid,fun _ => instr⟩

def boot (nproc : Nat) (pid : Nat → Nat) : State Code Tx :=
  init (machine nproc pid) (fun _ => .user) ⟨fun _ => 0,0,0,[],[]⟩

namespace Code

def holds (d : Tx) : Code → Prop
  | .sleep _ => d.Fifo [] ∧ d.isFull = true
  | .store _ => d.Fifo [] ∧ d.isFull = false
  | .lsr | .take => d.Fifo [] ∧ d.r ≠ d.w
  | .wake c | .write c => d.Fifo [c]
  | _ => d.Fifo []

def inside : Code → Bool
  | .user | .putc _ | .intr => false
  | _ => true

end Code

def monitor : Monitor Code Tx Tx where
  lock := txLock
  chans chan := chan == txChan
  inside := Code.inside
  view := id
  inv d := d.Fifo []
  asleep _ d := d.Fifo [] ∧ d.isFull = true
  holds k d := k.holds d

variable {d : Tx} {nproc : Nat} {pid : Nat → Nat}

theorem Tx.isFull_iff : d.isFull = true ↔ d.ring.length = txBufSize := by
  simp only [isFull,ring,Rings.length_entries,beq_iff_eq,txBufSize]
  bv_omega

namespace Tx.Fifo

variable (fifo : d.Fifo [])
include fifo

theorem store (room : d.isFull = false) (c : UInt8) : (d.store c).Fifo [] := by
  have divides : txBufSize ∣ 2 ^ 64 := by decide
  have room : d.ring.length < txBufSize := Nat.lt_of_le_of_ne fifo.room fun same => by
    simp [isFull_iff.mpr same] at room
  have kept := Rings.entries_write divides room c
  have ring : (d.store c).ring = d.ring ++ [c] := by
    rw [Tx.ring,Tx.store,Rings.entries_advance divides (by decide) (by rwa [kept]),kept]
    simp [Tx.ring]
  exact ⟨by rw [ring,List.length_append]; exact room,by rw [ring]; simp [Tx.store,fifo.bytes]⟩

theorem take (some : d.r ≠ d.w) : ({ d with r := d.r + 1 } : Tx).Fifo [d.buf (d.r.toNat % txBufSize)] := by
  obtain ⟨room,bytes⟩ := fifo
  have ring : d.ring = _ :: Tx.ring { d with r := d.r + 1 } := Rings.entries_cons (by decide) some
  rw [ring] at room bytes
  exact ⟨Nat.le_of_succ_le room,bytes⟩

end Tx.Fifo

theorem kept : monitor.Kept (machine nproc pid) := by
  refine ⟨fun p k => ?_,fun chan d asleep => asleep.1⟩
  cases k <;> simp only [machine,instr,Monitor.Keeps]
  case user => exact fun i => ⟨by cases i.putc <;> rfl,fun d fifo => by cases i.putc <;> exact fifo⟩
  case full c =>
    intro d
    refine ⟨by split <;> rfl,fun fifo => ?_⟩
    cases full : d.isFull <;> exact ⟨fifo,full⟩
  case store c => exact fun d => ⟨rfl,fun holds => holds.1.store holds.2 c⟩
  case start =>
    intro d
    refine ⟨by split <;> rfl,fun fifo => ?_⟩
    by_cases empty : d.r = d.w
    · rw [if_pos empty]
      exact fifo
    · rw [if_neg empty]
      exact ⟨fifo,empty⟩
  case lsr => exact fun i => ⟨by split <;> rfl,fun d holds => by split; exacts [holds,holds.1]⟩
  case take => exact fun d => ⟨rfl,fun holds => holds.1.take holds.2⟩
  case write c =>
    exact fun d => ⟨rfl,fun (fifo : d.Fifo [c]) => ⟨fifo.room,fifo.bytes.trans (List.append_assoc ..).symm⟩⟩
  all_goals simp +contextual [monitor,Code.inside,Code.holds,txLock]

/-- `uartstart` owes a wakeup when it has taken a byte. -/
def Code.owes : Code → Prop
  | .wake _ => True
  | _ => False

def debts : Debts Code Tx := ⟨fun chan d => chan = txChan → d.isFull = true,fun k chan => chan = txChan ∧ k.owes⟩

theorem tracked : debts.Tracked monitor (machine nproc pid) := by
  refine ⟨fun p k inside => ?_,fun _ _ asleep _ => asleep.2⟩
  cases k <;> simp only [machine,instr,Debts.Tracks]
  case store c =>
    rintro d chan ⟨_,room⟩ owed
    refine .inl fun here => ?_
    have full : d.isFull = true := owed.resolve_right (·.2) here
    exact absurd (full.symm.trans room) (by decide)
  case take =>
    intro d chan _ _
    by_cases here : chan = txChan
    · exact .inr ⟨here,trivial⟩
    · exact .inl fun same => absurd same here
  case write c => exact fun d chan _ owed => .inl (owed.resolve_right (·.2))
  all_goals simp_all [debts,monitor,Code.inside,Code.owes]

/-- In every run, while nobody is in the buffer: the bytes stored have been sent in their order and each once, except
for those in the ring, at most 32; and a writer is asleep only if the ring is full. -/
theorem uart_transmits {acts : List (Action Input)} {s : State Code Tx}
    (ran : Runs.run (step (machine nproc pid)) (boot nproc pid) acts = some s) (free : s.lock (.spin txLock) = none) :
    s.data.accepted = s.data.sent ++ s.data.ring ∧ s.data.ring.length ≤ txBufSize ∧
    ∀ p, (s.proc p).state = .sleeping → (s.proc p).chan = some txChan → s.data.ring.length = txBufSize := by
  have fresh : monitor.inv ⟨fun _ => 0,0,0,[],[]⟩ := ⟨by decide,rfl⟩
  have never (p : Nat) (k : Code) (next : Bool → Code) : (machine nproc pid).instr p k ≠ .killed next := by
    cases k <;> simp [machine,instr]
  obtain ⟨inv,guarded,_,served⟩ := Runs.run_invariant
    (fun s => Inv (machine nproc pid) s ∧ Guarded monitor s ∧ (∀ p k, (s.proc p).pc.asks ≠ some k) ∧
      Served monitor debts s)
    (fun s a t ⟨inv,guarded,asks,served⟩ stepped => by
      refine ⟨inv.step stepped,guarded.step kept inv stepped,
        asks_step inv (fun p k next test => never p k next test) asks stepped,
        served.step guarded inv kept tracked (fun p _ k tests => ?_) stepped⟩
      refine absurd ?_ (asks p k)
      cases place : (s.proc p).pc <;> simp [place,Pc.tests] at tests
      simpa [Pc.asks] using tests)
    ⟨.init _ _ _,.init (fun _ => rfl) fresh,nofun,.init⟩ ran
  have fifo : s.data.Fifo [] := guarded.free free
  exact ⟨fifo.bytes,fifo.room,fun p asleep chan => Tx.isFull_iff.mp (served.blocked inv free rfl asleep chan rfl)⟩

/-- The first of two bytes is sent; then the device is busy. -/
theorem uart_transmits_busy : ∃ s, Runs.run (step (machine 1 id)) (boot 1 id)
      (List.replicate 16 ⟨0,false,some 65,true⟩ ++ List.replicate 7 ⟨0,false,some 66,false⟩) = some s ∧
    s.data.sent = [65] ∧ [65,66] = s.data.sent ++ s.data.ring :=
  Runs.reaches (fun s => s.lock (.spin txLock) = none ∧ s.data.accepted = [65,66] ∧ s.data.sent = [65])
    (by decide +kernel) fun _ ran ⟨free,accepted,sent⟩ => ⟨sent,accepted ▸ (uart_transmits ran free).1⟩

end Xv6.Uart
