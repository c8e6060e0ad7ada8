import Mathlib.Algebra.Group.Nat.Defs
import Mathlib.Data.List.Basic
import Mathlib.Data.List.Nodup
import Mathlib.Data.List.Perm.Subperm
import Mathlib.Logic.Function.Basic

/-! Rings of `n` cells between two counters of `w` bits that run freely and wrap around. -/
namespace Rings

open Function

variable {α : Type} {n w : Nat} {cell : Nat → α} {first last : BitVec w}

/-- What lies in the ring from the position `first` up to `last`. -/
def entries (n : Nat) (cell : Nat → α) (first last : BitVec w) : List α :=
  (List.range (last - first).toNat).map fun k => cell ((first.toNat + k) % n)

@[simp] theorem length_entries : (entries n cell first last).length = (last - first).toNat := by simp [entries]

theorem entries_eq_nil_iff : entries n cell first last = [] ↔ first = last := by
  rw [← List.length_eq_zero_iff,length_entries]
  constructor
  · intro empty
    have empty : last - first = 0#w := BitVec.eq_of_toNat_eq (by simpa using empty)
    exact (BitVec.sub_eq_iff_eq_add.mp empty |>.trans (BitVec.zero_add first)).symm
  · rintro rfl
    simp

theorem last_position (divides : n ∣ 2 ^ w) : (first.toNat + (last - first).toNat) % n = last.toNat % n := by
  have sum : first + (last - first) = last := by rw [BitVec.add_comm,BitVec.sub_add_cancel]
  have values := congrArg BitVec.toNat sum
  rw [BitVec.toNat_add] at values
  rw [← values,Nat.mod_mod_of_dvd _ divides]

theorem succ_position (divides : n ∣ 2 ^ w) (k : Nat) : ((first + 1).toNat + k) % n = (first.toNat + (k + 1)) % n := by
  rw [BitVec.toNat_add,Nat.add_mod,Nat.mod_mod_of_dvd _ divides,← Nat.add_mod]
  rcases w with - | w
  · obtain rfl : n = 1 := Nat.dvd_one.mp divides
    simp [Nat.mod_one]
  · congr 1
    have one : (1 : BitVec (w + 1)).toNat = 1 := by simp
    rw [one]
    omega

theorem position_ne {a i j : Nat} (order : i < j) (near : j < i + n) : (a + i) % n ≠ (a + j) % n := by
  intro same
  have divides : n ∣ (a + j) - (a + i) := Nat.dvd_of_mod_eq_zero (Nat.sub_mod_eq_zero_of_mod_eq same.symm)
  have := Nat.le_of_dvd (by omega) divides
  omega

theorem entries_write (divides : n ∣ 2 ^ w) (room : (entries n cell first last).length < n) (x : α) :
    entries n (update cell (last.toNat % n) x) first last = entries n cell first last := by
  rw [length_entries] at room
  apply List.map_congr_left
  intro k member
  have below : k < (last - first).toNat := List.mem_range.mp member
  have apart := position_ne (n := n) (a := first.toNat) below (by omega)
  rw [last_position divides] at apart
  exact update_of_ne apart x cell

theorem entries_advance (divides : n ∣ 2 ^ w) (small : n < 2 ^ w) (room : (entries n cell first last).length < n) :
    entries n cell first (last + 1) = entries n cell first last ++ [cell (last.toNat % n)] := by
  rw [length_entries] at room
  have count : (last + 1 - first).toNat = (last - first).toNat + 1 := by
    rw [BitVec.sub_eq_add_neg,BitVec.add_assoc,BitVec.add_comm 1,← BitVec.add_assoc,← BitVec.sub_eq_add_neg,
      BitVec.toNat_add]
    have one : (1 : BitVec w).toNat = 1 % 2 ^ w := by simp
    rw [one,Nat.add_mod_mod]
    exact Nat.mod_eq_of_lt (by omega)
  simp only [entries,count,List.range_succ,List.map_append,List.map_singleton,last_position divides]

theorem sub_one_add_one {a : BitVec w} (some : a ≠ 0) : a.toNat = (a - 1).toNat + 1 := by
  have positive : 1 ≤ a.toNat := Nat.one_le_iff_ne_zero.mpr fun zero => some (BitVec.eq_of_toNat_eq (by simpa using zero))
  have one : (1 : BitVec w).toNat = 1 := by
    have := a.isLt
    simpa using Nat.mod_eq_of_lt (show 1 < 2 ^ w by omega)
  have below : (1 : BitVec w) ≤ a := by rwa [BitVec.le_def,one]
  rw [BitVec.toNat_sub_of_le below,one]
  omega

theorem sub_ne_zero (some : first ≠ last) : last - first ≠ 0 := fun zero =>
  some (BitVec.sub_eq_iff_eq_add.mp zero |>.trans (BitVec.zero_add first)).symm

theorem entries_cons (divides : n ∣ 2 ^ w) (some : first ≠ last) :
    entries n cell first last = cell (first.toNat % n) :: entries n cell (first + 1) last := by
  have distance : last - (first + 1) = last - first - 1 := by
    rw [BitVec.sub_eq_add_neg,BitVec.neg_add,BitVec.sub_eq_add_neg,BitVec.sub_eq_add_neg,BitVec.sub_eq_add_neg,
      BitVec.add_assoc]
  have count : (last - first).toNat = (last - (first + 1)).toNat + 1 := by
    rw [distance]
    exact sub_one_add_one (sub_ne_zero some)
  simp only [entries,count,List.range_succ_eq_map,List.map_cons,List.map_map,Nat.add_zero]
  congr 1
  apply List.map_congr_left
  intro k _
  exact congrArg cell (succ_position divides k).symm

theorem entries_concat (divides : n ∣ 2 ^ w) (some : first ≠ last) :
    entries n cell first last = entries n cell first (last - 1) ++ [cell ((last - 1).toNat % n)] := by
  have distance : last - 1 - first = last - first - 1 := by
    rw [BitVec.sub_eq_add_neg,BitVec.sub_eq_add_neg,BitVec.sub_eq_add_neg,BitVec.sub_eq_add_neg,BitVec.add_assoc,
      BitVec.add_comm (-1),← BitVec.add_assoc]
  have count : (last - first).toNat = (last - 1 - first).toNat + 1 := by
    rw [distance]
    exact sub_one_add_one (sub_ne_zero some)
  simp only [entries,count,List.range_succ,List.map_append,List.map_singleton,last_position divides]

theorem entries_take {mid : BitVec w} (between : (mid - first).toNat ≤ (last - first).toNat) :
    entries n cell first mid = (entries n cell first last).take (mid - first).toNat := by
  simp only [entries,← List.map_take,List.take_range,Nat.min_eq_left between]

theorem entries_congr {cell' : Nat → α} (positive : 0 < n) (same : ∀ i < n, cell i = cell' i) :
    entries n cell first last = entries n cell' first last :=
  List.map_congr_left fun _ _ => same _ (Nat.mod_lt _ positive)

theorem length_le_of_nodup {numbers : List Nat} (different : numbers.Nodup) (below : ∀ i ∈ numbers, i < n) :
    numbers.length ≤ n := by
  have sub : numbers ⊆ List.range n := fun i member => List.mem_range.mpr (below i member)
  simpa using (different.subperm sub).length_le

end Rings
