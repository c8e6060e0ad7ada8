import Xv6.Bytes
import Mathlib.Logic.Function.Basic

/-! `memmove`, in `kernel/string.c` and in `user/ulib.c`. No range wraps around the address space, so a pointer is a
number. -/
namespace Xv6.Memory

open Function Bytes

/-- `while(n-- > 0) *d++ = *s++;` -/
def up : Nat → Storage → Nat → Nat → Storage
  | 0, m, _, _ => m
  | n + 1, m, d, s => up n (update m d (m s)) (d + 1) (s + 1)

/-- `while(n-- > 0) *--d = *--s;` -/
def down : Nat → Storage → Nat → Nat → Storage
  | 0, m, _, _ => m
  | n + 1, m, d, s => down n (update m (d - 1) (m (s - 1))) (d - 1) (s - 1)

def memmove (m : Storage) (dst src n : Nat) : Storage :=
  if n = 0 then m
  else if src < dst ∧ src + n > dst then down n m (dst + n) (src + n)
  else up n m dst src

/-- The length is an `int`; no turn is made if it is negative. -/
def Ulib.memmove (m : Storage) (dst src : Nat) (n : Int) : Storage :=
  if src > dst then up n.toNat m dst src else down n.toNat m (dst + n.toNat) (src + n.toNat)

theorem copy_zero (m : Storage) (d s : Nat) : copy m d m s 0 = m := funext fun _ => copy_outside (by omega)

/-- Towards higher addresses no byte is read that has been written. -/
theorem up_eq {m : Storage} {d s n : Nat} (ahead : d ≤ s ∨ s + n ≤ d) : up n m d s = copy m d m s n := by
  induction n generalizing m d s with
  | zero => exact (copy_zero ..).symm
  | succ n ih =>
    rw [up,ih (by omega)]
    funext a
    grind [copy,update_apply]

theorem down_eq {m : Storage} {d s n : Nat} (behind : s ≤ d ∨ d + n ≤ s) :
    down n m (d + n) (s + n) = copy m d m s n := by
  induction n generalizing m with
  | zero => exact (copy_zero ..).symm
  | succ n ih =>
    rw [down,show d + (n + 1) - 1 = d + n by omega,show s + (n + 1) - 1 = s + n by omega,ih (by omega)]
    funext a
    grind [copy,update_apply]

theorem memmove_eq (m : Storage) (dst src n : Nat) : memmove m dst src n = copy m dst m src n := by
  rw [memmove]
  split
  case isTrue none => rw [none,copy_zero]
  split
  · exact down_eq (by omega)
  · exact up_eq (by omega)

theorem ulib_memmove_eq (m : Storage) (dst src n : Nat) : Ulib.memmove m dst src n = copy m dst m src n := by
  rw [Ulib.memmove,Int.toNat_natCast]
  split
  · exact up_eq (by omega)
  · exact down_eq (by omega)

/-- Each byte of the destination is what the source had, and nothing else changes. -/
theorem memmove_overlapping (m : Storage) (dst src n : Nat) :
    (∀ i < n, memmove m dst src n (dst + i) = m (src + i)) ∧
    (∀ a, a < dst ∨ dst + n ≤ a → memmove m dst src n a = m a) ∧ Ulib.memmove m dst src n = memmove m dst src n := by
  rw [ulib_memmove_eq,memmove_eq]
  exact ⟨fun i => copy_inside,fun a => copy_outside,rfl⟩

/-- One place up, where both copy downwards. -/
theorem memmove_one_up : Ulib.memmove UInt8.ofNat 5 4 3 = memmove UInt8.ofNat 5 4 3 ∧
    memmove UInt8.ofNat 5 4 3 7 = 6 :=
  have moved := memmove_overlapping UInt8.ofNat 5 4 3
  ⟨moved.2.2,moved.1 2 (by decide)⟩

end Xv6.Memory
