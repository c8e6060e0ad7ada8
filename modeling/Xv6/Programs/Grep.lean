import Xv6.Programs.Lines
import Xv6.Programs.Match

/-! `grep` reads its input in parts and keeps the beginning of a line that is not complete in `buf`. -/
namespace Xv6.Programs

abbrev bufSize : Nat := 1024

section Model

/-- `strchr` returns how far the character is from the pointer, or 0 as `some none`. -/
def strchr (c : UInt8) : List UInt8 → Option (Option Nat)
  | [] => none
  | x :: s => if x = 0 then some none else if x = c then some (some 0) else (strchr c s).map (·.map (· + 1))

/-- What `read` returns if it may read `count` bytes and there are `rest` to come. It decides how many of them it returns,
but it returns 0 only if there is nothing to read. -/
def readSize (choice count rest : Nat) : Nat := min (max choice 1) (min count rest)

theorem readSize_le (choice count rest : Nat) :
    readSize choice count rest ≤ count ∧ readSize choice count rest ≤ rest := by
  simp only [readSize]
  omega

theorem readSize_pos (choice count rest : Nat) : 0 < readSize choice count rest ↔ 0 < count ∧ 0 < rest := by
  simp only [readSize]
  omega

/-- The inner loop from `p` on: what is written, and the last `p`. At most `turns` lines are looked at. -/
def grepLines (pattern : List UInt8) : Nat → List UInt8 → Option (List UInt8 × List UInt8)
  | 0, _ => none
  | turns + 1, p => do
    match ← strchr newline p with
    | none => return ([],p)
    | some q =>
      -- `*q = 0` ends the string at `p`
      let found ← matchText pattern (terminated (p.take q))
      let (out,p') ← grepLines pattern turns (p.drop (q + 1))
      return ((if found then p.take (q + 1) else []) ++ out,p')

/-- The loop of `grep` with the bytes `buf` of a line that has begun and `rest` still to be read. The sizes that `read`
chooses are `choices`, from number `call` on. The result is what is written and what is not read. -/
def grepFrom (pattern : List UInt8) (choices : Nat → Nat) (call : Nat) (buf rest : List UInt8) :
    Option (List UInt8 × List UInt8) :=
  let n := readSize (choices call) (bufSize - buf.length - 1) rest.length
  if 0 < n then do
    let text := buf ++ rest.take n
    let (out,p) ← grepLines pattern (text.length + 1) (terminated text)
    -- `m` is now the distance of `p` from the terminator
    let (out',rest') ← grepFrom pattern choices (call + 1) p.dropLast (rest.drop n)
    return (out ++ out',rest')
  else return ([],rest)
  termination_by rest.length
  decreasing_by
    have := readSize_le (choices call) (bufSize - buf.length - 1) rest.length
    rw [List.length_drop]
    omega

def grep (pattern : List UInt8) (choices : Nat → Nat) (input : List UInt8) : Option (List UInt8 × List UInt8) :=
  grepFrom pattern choices 0 [] input

end Model

/-! What should be written. -/

/-- `match` succeeds on a line without its newline. -/
def matched (re line : List UInt8) : Bool := matchText (terminated re) (terminated line.dropLast) == some true

/-- The lines on which `match` succeeds. -/
def selected (re : List UInt8) (ls : List (List UInt8)) : List UInt8 := (ls.filter (matched re)).flatten

theorem selected_append (re : List UInt8) (front back : List (List UInt8)) :
    selected re (front ++ back) = selected re front ++ selected re back := by
  simp [selected]

def Closed (input : List UInt8) : Prop := input = [] ∨ input.getLast? = some newline

/-! The lines in `buf`. -/

theorem strchr_absent {c : UInt8} {s : List UInt8} (clean : 0 ∉ s) (absent : c ∉ s) : strchr c (terminated s) =
    some none := by
  induction s with
  | nil => simp [strchr,terminated]
  | cons x s ih =>
    obtain ⟨nonzero,clean'⟩ := clean_cons clean
    rw [List.mem_cons,not_or,eq_comm] at absent
    have rest := ih clean' absent.2
    simp only [terminated] at rest
    simp [strchr,terminated,nonzero,absent.1,rest]

theorem strchr_found {c : UInt8} {l : List UInt8} (clean : 0 ∉ l) (absent : c ∉ l) (some : c ≠ 0) (s : List UInt8) :
    strchr c (l ++ c :: s) = Option.some (Option.some l.length) := by
  induction l with
  | nil => simp [strchr,some]
  | cons x l ih =>
    obtain ⟨nonzero,clean'⟩ := clean_cons clean
    rw [List.mem_cons,not_or,eq_comm] at absent
    simp [strchr,nonzero,absent.1,ih clean' absent.2]

/-- What the inner loop makes of a text: it is done with the complete lines, and the beginning of the next one is kept. -/
structure Done (text : List UInt8) (complete : List (List UInt8)) (kept : List UInt8) : Prop where
  split : text = complete.flatten ++ kept
  open_ : newline ∉ kept
  lines : ∀ more, lines (text ++ more) = complete ++ lines (kept ++ more)

theorem Done.cons {text kept : List UInt8} {complete : List (List UInt8)} (done : Done text complete kept)
    {l : List UInt8}
    (absent : newline ∉ l) : Done (l ++ newline :: text) ((l ++ [newline]) :: complete) kept := by
  refine ⟨by simp [done.split],done.open_,fun more => ?_⟩
  rw [List.append_assoc,List.cons_append,lines_append absent,done.lines more,List.cons_append]

theorem grepLines_done {re : List UInt8} (cleanRe : 0 ∉ re) (turns : Nat) (text : List UInt8) (clean : 0 ∉ text)
    (enough : text.length < turns) :
    ∃ complete kept, Done text complete kept ∧
      grepLines (terminated re) turns (terminated text) = some (selected re complete,terminated kept) := by
  induction turns generalizing text with
  | zero => omega
  | succ turns ih =>
    by_cases inside : newline ∈ text
    · obtain ⟨l,text,rfl,absent⟩ := List.eq_append_cons_of_mem inside
      simp only [List.mem_append,List.mem_cons,not_or] at clean
      simp only [List.length_append,List.length_cons] at enough
      obtain ⟨complete,kept,done,rest⟩ := ih text clean.2.2 (by omega)
      obtain ⟨found,value⟩ := matchText_some cleanRe clean.1
      refine ⟨(l ++ [newline]) :: complete,kept,done.cons absent,?_⟩
      have pointer : terminated (l ++ newline :: text) = l ++ newline :: terminated text := by simp [terminated]
      have first : (l ++ newline :: terminated text).take l.length = l := List.take_left
      have line : (l ++ newline :: terminated text).take (l.length + 1) = l ++ [newline] :=
        List.take_length_add_append 1
      have next : (l ++ newline :: terminated text).drop (l.length + 1) = terminated text := by simp
      rw [pointer,grepLines,strchr_found clean.1 absent (by decide)]
      simp only [Option.bind_eq_bind,Option.bind_some,first,value,line,next,rest]
      have test : matched re (l ++ [newline]) = found := by
        simp [matched,value]
      cases found <;> simp [selected,test]
    · exact ⟨[],text,⟨rfl,inside,fun more => rfl⟩,by simp [grepLines,strchr_absent clean inside,selected]⟩

/-! The whole input. -/

/-- Every line fits into `buf` with its newline and the terminator. -/
def Short (input : List UInt8) : Prop := ∀ l ∈ lines input, l.length < bufSize

theorem closed_nil {s : List UInt8} (closed : Closed s) (open_ : newline ∉ s) : s = [] := by
  rcases closed with empty | last
  · exact empty
  · exact absurd (List.mem_of_getLast? last) open_

theorem Closed.of_append (front : List UInt8) {back : List UInt8} (closed : Closed (front ++ back)) : Closed back := by
  rcases List.eq_nil_or_concat back with rfl | ⟨s,c,rfl⟩
  · exact .inl rfl
  · rcases closed with empty | last
    · simp at empty
    · exact .inr (by simpa using last)

theorem short_append {text kept : List UInt8} {complete : List (List UInt8)} (done : Done text complete kept)
    (small : text.length < bufSize) (more : List UInt8) : Short (text ++ more) ↔ Short (kept ++ more) := by
  have fits : ∀ l ∈ complete, l.length < bufSize := fun l member => by
    have part := (List.sublist_flatten_of_mem member).length_le
    have whole := congrArg List.length done.split
    rw [List.length_append] at whole
    omega
  simp only [Short,done.lines more,List.mem_append]
  exact ⟨fun all l member => all l (.inr member),fun all l member => member.elim (fits l) (all l)⟩

/-- If every line fits, everything is read and the right lines are written; if not, something is not read. -/
theorem grepFrom_cases {re : List UInt8} (cleanRe : 0 ∉ re) (choices : Nat → Nat) (call : Nat) (buf rest : List UInt8)
    (clean : 0 ∉ buf ++ rest) (closed : Closed (buf ++ rest)) (open_ : newline ∉ buf) (small : buf.length < bufSize) :
    ∃ out unread, grepFrom (terminated re) choices call buf rest = some (out,unread) ∧
      (Short (buf ++ rest) → out = selected re (lines (buf ++ rest)) ∧ unread = []) ∧
      (¬Short (buf ++ rest) → unread ≠ []) := by
  induction size : rest.length using Nat.strong_induction_on generalizing call buf rest with
  | _ n ih =>
    subst size
    obtain ⟨n,isN⟩ : ∃ n, n = readSize (choices call) (bufSize - buf.length - 1) rest.length := ⟨_,rfl⟩
    have bound := readSize_le (choices call) (bufSize - buf.length - 1) rest.length
    have positive := readSize_pos (choices call) (bufSize - buf.length - 1) rest.length
    rw [grepFrom,← isN]
    rw [← isN] at bound positive
    by_cases more : 0 < n
    · rw [if_pos more]
      have whole : buf ++ rest.take n ++ rest.drop n = buf ++ rest := by simp
      have room : (buf ++ rest.take n).length < bufSize := by
        rw [List.length_append,List.length_take]
        omega
      obtain ⟨complete,kept,done,inner⟩ := grepLines_done cleanRe ((buf ++ rest.take n).length + 1)
        (buf ++ rest.take n) (fun inside => clean (by rw [← whole]; exact List.mem_append_left _ inside)) (by omega)
      have joined : complete.flatten ++ (kept ++ rest.drop n) = buf ++ rest := by
        rw [← whole,done.split,List.append_assoc]
      have keptSmall : kept.length < bufSize := by
        rw [done.split,List.length_append] at room
        omega
      obtain ⟨out,unread,ran,all,some⟩ := ih (rest.drop n).length (by rw [List.length_drop]; omega) (call + 1)
        kept (rest.drop n) (fun inside => clean (by rw [← joined]; exact List.mem_append_right _ inside))
        (Closed.of_append complete.flatten (by rwa [joined])) done.open_ keptSmall rfl
      have short := short_append done room (rest.drop n)
      rw [whole] at short
      refine ⟨selected re complete ++ out,unread,?_,fun fits => ?_,fun long => some (mt short.mpr long)⟩
      · have pending : (terminated kept).dropLast = kept := List.dropLast_concat
        simp only [inner,Option.bind_eq_bind,Option.bind_some,pending,ran]
        rfl
      · obtain ⟨rfl,rfl⟩ := all (short.mp fits)
        refine ⟨?_,rfl⟩
        rw [← whole,done.lines,selected_append]
    · rw [if_neg more]
      by_cases last : rest = []
      · subst last
        rw [List.append_nil] at closed ⊢
        obtain rfl := closed_nil closed open_
        exact ⟨[],[],rfl,fun _ => ⟨rfl,rfl⟩,fun long => absurd (by simp [Short]) long⟩
      · -- `buf` is full, and its line goes on
        have full : bufSize ≤ buf.length + 1 := by
          have := List.length_pos_of_ne_nil last
          omega
        refine ⟨[],rest,rfl,fun fits => ?_,fun _ => last⟩
        have inside : newline ∈ rest := by
          rcases closed with empty | ends
          · exact absurd (List.append_eq_nil_iff.mp empty).2 last
          · have := List.mem_of_getLast? ends
            rw [List.mem_append] at this
            exact this.resolve_left open_
        obtain ⟨l,s,rfl,absent⟩ := List.eq_append_cons_of_mem inside
        have line := fits (buf ++ l ++ [newline]) (by
          rw [← List.append_assoc,lines_append (by simp [open_,absent])]
          exact List.mem_cons_self)
        simp only [List.length_append,List.length_singleton] at line
        omega

/-- `grep` writes the lines that match and reads the whole input if all lines have at most 1023 bytes with their newline,
and only then. -/
theorem grep_filters_iff {re input : List UInt8} (cleanRe : 0 ∉ re) (clean : 0 ∉ input) (closed : Closed input)
    (choices : Nat → Nat) :
    grep (terminated re) choices input = some (selected re (lines input),[]) ↔ Short input := by
  obtain ⟨out,unread,ran,all,some⟩ := grepFrom_cases cleanRe choices 0 [] input clean closed (by simp) (by decide)
  rw [List.nil_append] at all some
  rw [grep,ran]
  constructor
  · intro same
    by_contra long
    exact some long (by simpa using congrArg (Option.map Prod.snd) same)
  · intro short
    obtain ⟨rfl,rfl⟩ := all short
    rfl

/-- The pattern `b` and two lines, which are read byte by byte. -/
theorem grep_filters_two : grep (terminated [98]) (fun _ => 1) [97,newline,98,newline] =
    some (selected [98] (lines [97,newline,98,newline]),[]) :=
  (grep_filters_iff (by decide) (by decide) (.inr rfl) _).mpr (by unfold Short; decide)

/-- A line of 1024 bytes is not read to its end, and neither is what follows. -/
theorem grep_stops {l : List UInt8} (clean : 0 ∉ l) (open_ : newline ∉ l) (full : l.length = 1023) (choices : Nat → Nat) :
    ∃ out unread, grep (terminated [97]) choices (l ++ [newline]) = some (out,unread) ∧ unread ≠ [] := by
  obtain ⟨out,unread,ran,_,some⟩ := grepFrom_cases (show 0 ∉ [97] by decide) choices 0 [] (l ++ [newline])
    (by simp [clean,newline]) (.inr (by simp)) (by simp) (by decide)
  refine ⟨out,unread,ran,some fun short => ?_⟩
  have := short (l ++ [newline]) (by rw [List.nil_append,lines_append open_]; exact List.mem_cons_self)
  simp [full] at this

theorem grep_stops_a : ∃ out unread, grep (terminated [97]) (fun _ => 1024) (List.replicate 1023 97 ++ [newline]) =
    some (out,unread) ∧ unread ≠ [] :=
  grep_stops (fun inside => absurd (List.eq_of_mem_replicate inside) (by decide))
    (fun inside => absurd (List.eq_of_mem_replicate inside) (by decide)) List.length_replicate _

end Xv6.Programs
