import Mathlib.Data.Nat.Basic
import Mathlib.Tactic.Ring

/-! Little-endian integers and ranges of bytes in a byte-addressed storage. The
storage is total: callers bound the offsets that mean something to them. -/
namespace Bytes

abbrev Storage := Nat → UInt8

/-- The `k`-byte unsigned integer at `a`. -/
def load : Nat → Storage → Nat → Nat
  | 0, _, _ => 0
  | k + 1, m, a => (m a).toNat + 256 * load k m (a + 1)

/-- Overwrites `k` bytes at `a` by the low bytes of `v`. -/
def store (k : Nat) (m : Storage) (a v : Nat) : Storage := fun i =>
  if a ≤ i ∧ i < a + k then UInt8.ofNat (v / 256 ^ (i - a)) else m i

/-- `n` bytes of `src` from `b` on replace those of `m` from `a` on. -/
def copy (m : Storage) (a : Nat) (src : Storage) (b n : Nat) : Storage := fun i =>
  if a ≤ i ∧ i < a + n then src (b + (i - a)) else m i

def fill (m : Storage) (a n : Nat) (byte : UInt8) : Storage := fun i =>
  if a ≤ i ∧ i < a + n then byte else m i

/-- The bytes of a list replace those of `m` from `a` on. -/
def splice (m : Storage) (a : Nat) (bytes : List UInt8) : Storage := fun i =>
  if a ≤ i ∧ i < a + bytes.length then bytes.getD (i - a) 0 else m i

theorem load_lt (k : Nat) (m : Storage) (a : Nat) : load k m a < 256 ^ k := by
  induction k generalizing a with
  | zero => simp [load]
  | succ k ih =>
    have byte := (m a).toNat_lt
    have rest := ih (a + 1)
    simp only [load, Nat.pow_succ]
    omega

variable {m src : Storage} {a k i v b n : Nat} {byte : UInt8}

theorem load_congr {m' : Storage} (same : ∀ i, a ≤ i → i < a + k → m i = m' i) : load k m a = load k m' a := by
  induction k generalizing a with
  | zero => rfl
  | succ k ih =>
    simp only [load]
    rw [same a (by omega) (by omega), ih (fun i lower upper => same i (by omega) (by omega))]

theorem store_other (apart : i < a ∨ a + k ≤ i) : store k m a v i = m i := by
  have outside : ¬(a ≤ i ∧ i < a + k) := by omega
  simp only [store,if_neg outside]

theorem load_digits (digit : ∀ j < k, m (a + j) = UInt8.ofNat (v / 256 ^ j)) : load k m a = v % 256 ^ k := by
  induction k generalizing a v with
  | zero => simp [load,Nat.mod_one]
  | succ k ih =>
    have first := digit 0 (by omega)
    have rest : load k m (a + 1) = v / 256 % 256 ^ k := by
      apply ih
      intro j hj
      rw [Nat.add_assoc,Nat.add_comm 1 j,digit (j + 1) (by omega),Nat.div_div_eq_div_mul,Nat.pow_succ,
        Nat.mul_comm 256]
    simp only [Nat.add_zero,Nat.pow_zero,Nat.div_one] at first
    rw [load,first,rest,Nat.pow_succ,Nat.mul_comm (256 ^ k) 256,Nat.mod_mul]
    simp

theorem load_store_same (k : Nat) (m : Storage) (a v : Nat) : load k (store k m a v) a = v % 256 ^ k := by
  apply load_digits
  intro j hj
  simp [store,hj]

theorem load_store_value (m : Storage) (a : Nat) (fits : v < 256 ^ k) : load k (store k m a v) a = v := by
  rw [load_store_same, Nat.mod_eq_of_lt fits]

theorem load_store_other {j : Nat} (apart : b + j ≤ a ∨ a + k ≤ b) : load j (store k m a v) b = load j m b := by
  apply load_congr
  intro i lower upper
  exact store_other (by omega)

theorem copy_inside (bound : i < n) : copy m a src b n (a + i) = src (b + i) := by
  simp [copy, bound]

theorem copy_outside (apart : i < a ∨ a + n ≤ i) : copy m a src b n i = m i := by
  have outside : ¬(a ≤ i ∧ i < a + n) := by omega
  simp only [copy, if_neg outside]

theorem load_copy_inside (bound : i + k ≤ n) : load k (copy m a src b n) (a + i) = load k src (b + i) := by
  induction k generalizing i with
  | zero => rfl
  | succ k ih =>
    simp only [load]
    rw [copy_inside (by omega), Nat.add_assoc a i 1, Nat.add_assoc b i 1, ih (by omega)]

theorem fill_inside (bound : i < n) : fill m a n byte (a + i) = byte := by
  simp [fill, bound]

theorem fill_outside (apart : i < a ∨ a + n ≤ i) : fill m a n byte i = m i := by
  have outside : ¬(a ≤ i ∧ i < a + n) := by omega
  simp only [fill, if_neg outside]

theorem load_fill_outside (apart : i + k ≤ a ∨ a + n ≤ i) : load k (fill m a n byte) i = load k m i := by
  apply load_congr
  intro j lower upper
  exact fill_outside (by omega)

theorem load_zero (zero : ∀ i, a ≤ i → i < a + k → m i = 0) : load k m a = 0 := by
  induction k generalizing a with
  | zero => rfl
  | succ k ih =>
    simp only [load]
    rw [zero a (by omega) (by omega), ih (fun i lower upper => zero i (by omega) (by omega))]
    rfl

theorem load_fill_zero (bound : i + k ≤ n) : load k (fill m a n 0) (a + i) = 0 := by
  apply load_zero
  intro j lower upper
  have inside : a ≤ j ∧ j < a + n := by omega
  simp [fill, inside]

/-- The memory whose 64-bit word number `w` is `f w`. -/
def words (f : Nat → Nat) : Storage := fun a => UInt8.ofNat (f (a / 8) / 256 ^ (a % 8))

theorem load_words (f : Nat → Nat) (w : Nat) (fits : f w < 2 ^ 64) : load 8 (words f) (8 * w) = f w := by
  have byte (j : Nat) (hj : j < 8) : (words f (8 * w + j)).toNat = f w / 256 ^ j % 256 := by
    have word : (8 * w + j) / 8 = w := by omega
    have place : (8 * w + j) % 8 = j := by omega
    simp [words,word,place]
  have first := byte 0 (by decide)
  simp only [Nat.add_zero] at first
  simp only [load,Nat.add_assoc,first,byte 1 (by decide),byte 2 (by decide),byte 3 (by decide),
    byte 4 (by decide),byte 5 (by decide),byte 6 (by decide),byte 7 (by decide),Nat.reduceAdd]
  omega

end Bytes
