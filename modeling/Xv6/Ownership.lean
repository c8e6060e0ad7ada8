import Mathlib.Logic.Function.Basic

/-! Blocks owned through pointers. A family of pointers, null where it is 0, owns blocks of an
area if no two of them meet and the blocks in use are those pointed at. -/
namespace Ownership

open Function

structure Owned {ι : Type} (area : Nat → Prop) (ptr : ι → Nat) (used : Nat → Bool) : Prop where
  inside : ∀ x, ptr x ≠ 0 → area (ptr x)
  apart : ∀ x y, ptr x ≠ 0 → ptr x = ptr y → x = y
  marked : ∀ b, area b → (used b = true ↔ ∃ x, ptr x = b)

namespace Owned

variable {ι : Type} {area : Nat → Prop} {ptr : ι → Nat} {used : Nat → Bool}

theorem used_of_ptr (own : Owned area ptr used) {x : ι} (some : ptr x ≠ 0) : used (ptr x) = true :=
  (own.marked _ (own.inside x some)).mpr ⟨x,rfl⟩

theorem ne_of_free (own : Owned area ptr used) {x : ι} {b : Nat} (some : ptr x ≠ 0) (free : used b = false) :
    ptr x ≠ b := by
  rintro rfl
  simp [own.used_of_ptr some] at free

theorem take [DecidableEq ι] (own : Owned area ptr used) (null : ¬area 0) {x : ι} {b : Nat} (empty : ptr x = 0)
    (inArea : area b) (free : used b = false) :
    Owned area (update ptr x b) (update used b true) := by
  have nonzero : b ≠ 0 := fun h => null (h ▸ inArea)
  refine ⟨fun y some => ?_,fun y z some same => ?_,fun c inside => ?_⟩
  · by_cases here : y = x
    · simpa [here] using inArea
    · rw [update_of_ne here] at some ⊢
      exact own.inside y some
  · by_cases yx : y = x
    · by_cases zx : z = x
      · rw [yx,zx]
      · rw [yx,update_self,update_of_ne zx] at same
        exact absurd same.symm (own.ne_of_free (by omega) free)
    · rw [update_of_ne yx] at some same
      by_cases zx : z = x
      · rw [zx,update_self] at same
        exact absurd same (own.ne_of_free some free)
      · rw [update_of_ne zx] at same
        exact own.apart y z some same
  · obtain rfl | here := eq_or_ne c b
    · simp only [update_self,true_iff]
      exact ⟨x,update_self ..⟩
    · rw [update_of_ne here,own.marked c inside]
      constructor
      · rintro ⟨y,rfl⟩
        have other : y ≠ x := by
          rintro rfl
          exact null (empty ▸ inside)
        exact ⟨y,update_of_ne other ..⟩
      · rintro ⟨y,at_⟩
        have other : y ≠ x := by
          rintro rfl
          rw [update_self] at at_
          exact here at_.symm
        rw [update_of_ne other] at at_
        exact ⟨y,at_⟩

theorem drop (own : Owned area ptr used) (null : ¬area 0) {gone : ι → Prop} {ptr' : ι → Nat} {used' : Nat → Bool}
    (kept : ∀ x, ¬gone x → ptr' x = ptr x) (cleared : ∀ x, gone x → ptr' x = 0)
    (freed : ∀ b, area b → (used' b = true ↔ used b = true ∧ ∀ x, gone x → ptr x ≠ b)) :
    Owned area ptr' used' := by
  have stays (x : ι) (some : ptr' x ≠ 0) : ¬gone x := fun h => some (cleared x h)
  refine ⟨fun x some => ?_,fun x y some same => ?_,fun b inside => ?_⟩
  · have same := kept x (stays x some)
    rw [same] at some ⊢
    exact own.inside x some
  · have here := kept x (stays x some)
    have there := kept y (stays y (by rwa [← same]))
    rw [here] at some same
    exact own.apart x y some (same.trans there)
  · rw [freed b inside,own.marked b inside]
    constructor
    · rintro ⟨⟨x,rfl⟩,others⟩
      exact ⟨x,kept x fun h => others x h rfl⟩
    · rintro ⟨x,rfl⟩
      have some : ptr' x ≠ 0 := fun zero => null (zero ▸ inside)
      have same := kept x (stays x some)
      refine ⟨⟨x,same.symm⟩,fun y left meet => ?_⟩
      rw [same] at some meet
      exact stays x (by rwa [same]) (own.apart x y some meet.symm ▸ left)

end Owned

end Ownership
