import Mathlib.Data.List.Basic

/-! The lines of a text. -/
namespace Xv6.Programs

abbrev newline : UInt8 := 10

/-- The lines, each with its newline; only the last one may have none. -/
def lines : List UInt8 → List (List UInt8)
  | [] => []
  | c :: s =>
    if c = newline then [c] :: lines s
    else
      match lines s with
      | [] => [[c]]
      | l :: ls => (c :: l) :: ls

@[simp] theorem lines_nil : lines [] = [] := rfl

@[simp] theorem lines_newline (s : List UInt8) : lines (newline :: s) = [newline] :: lines s := by
  rw [lines,if_pos rfl]

theorem lines_cons {c : UInt8} {l : List UInt8} {ls : List (List UInt8)} {s : List UInt8} (other : c ≠ newline)
    (more : lines s = l :: ls) : lines (c :: s) = (c :: l) :: ls := by
  rw [lines,if_neg other,more]

theorem lines_singleton {c : UInt8} (other : c ≠ newline) : lines [c] = [[c]] := by
  rw [lines,if_neg other,lines_nil]

theorem flatten_lines (s : List UInt8) : (lines s).flatten = s := by
  induction s with
  | nil => rfl
  | cons c s ih =>
    by_cases isNewline : c = newline
    · rw [isNewline,lines_newline,List.flatten_cons,ih]
      rfl
    · cases more : lines s with
      | nil => rw [lines,if_neg isNewline,more,← ih,more]; rfl
      | cons l ls => rw [lines_cons isNewline more,List.flatten_cons,List.cons_append,← List.flatten_cons,← more,ih]

theorem lines_ne_nil {s : List UInt8} (some : s ≠ []) : lines s ≠ [] := fun none => by
  have := flatten_lines s
  rw [none] at this
  exact some this.symm

theorem lines_append {l : List UInt8} (inside : newline ∉ l) (s : List UInt8) :
    lines (l ++ newline :: s) = (l ++ [newline]) :: lines s := by
  induction l with
  | nil => exact lines_newline s
  | cons c l ih =>
    simp only [List.mem_cons,not_or] at inside
    exact lines_cons (fun same => inside.1 same.symm) (ih inside.2)

end Xv6.Programs
