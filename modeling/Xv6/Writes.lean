import Mathlib.Logic.Function.Basic
import Mathlib.Data.List.Basic

/-! Ordered writes to a store of cells. A crash keeps a prefix of the writes issued, so
the facts below are about `replay` of a list and of its prefixes. -/
namespace Writes

open Function

variable {α β : Type} [DecidableEq α]

/-- The writes of `ws` are made one after the other, the head first. -/
def replay (d : α → β) (ws : List (α × β)) : α → β :=
  ws.foldl (fun d w => update d w.1 w.2) d

@[simp] theorem replay_nil (d : α → β) : replay d [] = d := rfl

@[simp] theorem replay_cons (d : α → β) (w : α × β) (ws : List (α × β)) :
    replay d (w :: ws) = replay (update d w.1 w.2) ws := rfl

theorem replay_append (d : α → β) (ws vs : List (α × β)) : replay d (ws ++ vs) = replay (replay d ws) vs := by
  simp [replay, List.foldl_append]

variable {d : α → β} {ws : List (α × β)}

theorem replay_untouched {a : α} (apart : ∀ w ∈ ws, w.1 ≠ a) : replay d ws a = d a := by
  induction ws generalizing d with
  | nil => rfl
  | cons w ws ih =>
    rw [replay_cons, ih (fun v member => apart v (List.mem_cons_of_mem w member))]
    exact update_of_ne (Ne.symm (apart w List.mem_cons_self)) _ _

theorem replay_member {w : α × β}
    (distinct : (ws.map Prod.fst).Nodup) (member : w ∈ ws) : replay d ws w.1 = w.2 := by
  induction ws generalizing d with
  | nil => simp at member
  | cons v ws ih =>
    rw [List.map_cons, List.nodup_cons] at distinct
    rcases List.mem_cons.mp member with rfl | later
    · rw [replay_cons, replay_untouched]
      · simp
      · intro u inside same
        exact distinct.1 (List.mem_map.mpr ⟨u,inside,same⟩)
    · exact ih distinct.2 later

theorem replay_congr {d' : α → β} {a : α}
    (same : (∃ w ∈ ws, w.1 = a) ∨ d a = d' a) : replay d ws a = replay d' ws a := by
  induction ws generalizing d d' with
  | nil => simpa using same
  | cons w ws ih =>
    apply ih
    obtain rfl | hit := eq_or_ne w.1 a
    · exact .inr (by simp)
    · rcases same with ⟨v,member,named⟩ | equal
      · rcases List.mem_cons.mp member with rfl | later
        · exact absurd named hit
        · exact .inl ⟨v,later,named⟩
      · exact .inr (by simp [update_of_ne (Ne.symm hit),equal])

/-- Invariants of single writes carry over to every prefix that a crash can leave. -/
theorem replay_invariant (P : (α → β) → Prop) (start : P d) (step : ∀ d, P d → ∀ w ∈ ws, P (update d w.1 w.2)) :
    P (replay d ws) := by
  induction ws generalizing d with
  | nil => exact start
  | cons w ws ih =>
    apply ih (step d start w List.mem_cons_self)
    intro d holds v member
    exact step d holds v (List.mem_cons_of_mem w member)

theorem replay_take_invariant (P : (α → β) → Prop)
    (start : P d) (step : ∀ d, P d → ∀ w ∈ ws, P (update d w.1 w.2)) (k : Nat) :
    P (replay d (ws.take k)) :=
  replay_invariant P start (fun d holds w member => step d holds w (List.mem_of_mem_take member))

end Writes
