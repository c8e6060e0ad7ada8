import Mathlib.Data.Nat.Digits.Defs
import Xv6.Programs.Lines

/-! `cat -n`: `ncat` numbers the lines of what it reads. -/
namespace Xv6.Programs

abbrev tab : UInt8 := 9
abbrev minus : UInt8 := 45

section Model

/-- `digits[x]` for a decimal digit. -/
def digit (x : Nat) : UInt8 := UInt8.ofNat (48 + x)

/-- The digits that `printint` puts into `buf`, last one first, and prints from behind.
`room` of its 16 bytes are left. -/
def printDigits : Nat → Nat → List UInt8
  | 0, _ => []
  | room + 1, x => (if x / 10 = 0 then [] else printDigits room (x / 10)) ++ [digit (x % 10)]

def printint (xx : BitVec 32) : List UInt8 :=
  if xx.toInt < 0 then minus :: printDigits 16 (-xx).toNat else printDigits 16 xx.toNat

def mark (counter : BitVec 32) : List UInt8 := printint counter ++ [tab]

def ncatBytes (counter : BitVec 32) : List UInt8 → List UInt8 × BitVec 32
  | [] => ([],counter)
  | c :: rest =>
    let counter := if c = newline then counter + 1 else counter
    let (out,last) := ncatBytes counter rest
    -- `i<n-1` says that there is another byte
    (c :: (if c = newline ∧ rest ≠ [] then mark counter else []) ++ out,last)

/-- The loop of `ncat` over what the calls of `read` return until one of them returns 0. -/
def ncatFrom (counter : BitVec 32) : List (List UInt8) → List UInt8
  | [] => []
  | buf :: chunks => mark counter ++ (ncatBytes counter buf).1 ++ ncatFrom (ncatBytes counter buf).2 chunks

def ncat (chunks : List (List UInt8)) : List UInt8 := ncatFrom 1 chunks

end Model

/-! What should be printed. -/

def numeral (n : Nat) : List UInt8 := (Nat.digits 10 n).reverse.map digit

/-- Each line after its number and a tab, from number `k` on. -/
def numbered (k : Nat) (ls : List (List UInt8)) : List UInt8 :=
  (ls.zipIdx k).flatMap fun (line,number) => numeral number ++ tab :: line

/-- The calls of `read` return parts of the content, at most as much as `buf` holds. -/
structure Splits (content : List UInt8) (chunks : List (List UInt8)) : Prop where
  whole : chunks.flatten = content
  some : ∀ buf ∈ chunks, buf ≠ []
  small : ∀ buf ∈ chunks, buf.length ≤ 512

/-- Only the last part may end inside of a line. -/
def Aligned (chunks : List (List UInt8)) : Prop := ∀ buf ∈ chunks.dropLast, buf.getLast? = some newline

instance (chunks : List (List UInt8)) : Decidable (Aligned chunks) :=
  inferInstanceAs (Decidable (∀ buf ∈ chunks.dropLast, buf.getLast? = some newline))

/-- The bytes of a text with the numbers of the lines that start in it. The number of the first byte's line is `k`, and
it is printed if the byte is `first` in its line. -/
def numberedFrom (first : Bool) (k : Nat) : List UInt8 → List UInt8
  | [] => []
  | c :: s => (if first then numeral k ++ [tab] else []) ++
      c :: numberedFrom (c = newline) (if c = newline then k + 1 else k) s

/-! Numbers. -/

theorem printDigits_numeral (room : Nat) {x : Nat} (pos : 0 < x) (small : x < 10 ^ room) :
    printDigits room x = numeral x := by
  induction room generalizing x with
  | zero => omega
  | succ room ih =>
    rw [printDigits,numeral,Nat.digits_def' (by decide) pos,List.reverse_cons,List.map_append]
    congr 1
    split
    · rename_i single
      simp [single]
    · rename_i more
      exact ih (by omega) (by rw [Nat.pow_succ] at small; omega)

theorem mark_numeral {k : Nat} (pos : 0 < k) (int : k < 2 ^ 31) : mark (BitVec.ofNat 32 k) = numeral k ++ [tab] := by
  have value : (BitVec.ofNat 32 k).toNat = k := by
    rw [BitVec.toNat_ofNat,Nat.mod_eq_of_lt (by omega)]
  have sign : ¬(BitVec.ofNat 32 k).toInt < 0 := by
    rw [BitVec.toInt_eq_toNat_cond,value]
    omega
  rw [mark,printint,if_neg sign,value,printDigits_numeral 16 pos (by omega)]

/-! Lines. -/

@[simp] theorem numbered_cons (k : Nat) (l : List UInt8) (ls : List (List UInt8)) :
    numbered k (l :: ls) = numeral k ++ tab :: l ++ numbered (k + 1) ls := by
  simp [numbered,List.zipIdx_cons]

theorem numberedFrom_first (k : Nat) {s : List UInt8} (some : s ≠ []) :
    numberedFrom true k s = numeral k ++ tab :: numberedFrom false k s := by
  cases s with
  | nil => exact absurd rfl some
  | cons c s => simp [numberedFrom]

theorem numbered_eq (k : Nat) (s : List UInt8) : numberedFrom true k s = numbered k (lines s) := by
  induction s generalizing k with
  | nil => rfl
  | cons c s ih =>
    rw [numberedFrom_first k (by simp)]
    obtain rfl | isNewline := eq_or_ne c newline
    · rw [lines_newline,numbered_cons,← ih (k + 1)]
      simp [numberedFrom]
    · by_cases last : s = []
      · subst last
        rw [lines_singleton isNewline]
        simp [numberedFrom,numbered]
      · obtain ⟨l,ls,more⟩ := List.exists_cons_of_ne_nil (lines_ne_nil last)
        have rest := ih k
        rw [numberedFrom_first k last,more,numbered_cons] at rest
        rw [lines_cons isNewline more,numbered_cons]
        simp only [numberedFrom,isNewline]
        simpa using rest

theorem numberedFrom_append (first : Bool) (k : Nat) {a : List UInt8} (b : List UInt8) (some : a ≠ []) :
    numberedFrom first k (a ++ b) = numberedFrom first k a ++
      numberedFrom (a.getLast? = Option.some newline) (k + a.count newline) b := by
  induction a generalizing first k with
  | nil => exact absurd rfl some
  | cons c a ih =>
    have number : (if c = newline then k + 1 else k) + a.count newline = k + (c :: a).count newline := by
      rw [List.count_cons]
      by_cases isNewline : c = newline
      · simp only [isNewline,if_true,beq_self_eq_true]
        omega
      · simp [isNewline]
    by_cases last : a = []
    · subst last
      rw [← number]
      simp [numberedFrom]
    · have tail := ih (c = newline) (if c = newline then k + 1 else k) last
      rw [number] at tail
      have ends : (c :: a).getLast? = a.getLast? := by
        rw [List.getLast?_cons,List.getLast?_eq_getLast_of_ne_nil last]
        simp
      simp only [List.cons_append,numberedFrom,tail,ends,List.append_assoc]

/-! The loops. -/

theorem ncatBytes_eq (buf : List UInt8) {k : Nat} (int : k + buf.count newline < 2 ^ 31) :
    ncatBytes (BitVec.ofNat 32 k) buf = (numberedFrom false k buf,BitVec.ofNat 32 (k + buf.count newline)) := by
  induction buf generalizing k with
  | nil => rfl
  | cons c rest ih =>
    obtain rfl | isNewline := eq_or_ne c newline
    · rw [List.count_cons_self] at int ⊢
      have next : BitVec.ofNat 32 k + 1 = BitVec.ofNat 32 (k + 1) := (BitVec.ofNat_add k 1).symm
      have later := ih (k := k + 1) (by omega)
      rw [Nat.add_right_comm,Nat.add_assoc] at later
      by_cases last : rest = []
      · subst last
        simp only [ncatBytes,if_true,next]
        simp [numberedFrom]
      · simp only [ncatBytes,if_true,next,later,numberedFrom,last,ne_eq,not_false_iff,and_self,decide_true,
          mark_numeral (show 0 < k + 1 by omega) (show k + 1 < 2 ^ 31 by omega),numberedFrom_first (k + 1) last]
        simp
    · have count : (c :: rest).count newline = rest.count newline := List.count_cons_of_ne isNewline
      rw [count] at int ⊢
      simp [ncatBytes,numberedFrom,isNewline,ih int]

theorem ncatFrom_cons {buf : List UInt8} (some : buf ≠ []) (chunks : List (List UInt8)) {k : Nat} (pos : 0 < k)
    (int : k + buf.count newline < 2 ^ 31) :
    ncatFrom (BitVec.ofNat 32 k) (buf :: chunks) =
      numberedFrom true k buf ++ ncatFrom (BitVec.ofNat 32 (k + buf.count newline)) chunks := by
  rw [ncatFrom,ncatBytes_eq buf int,mark_numeral pos (by omega),numberedFrom_first k some]
  simp

theorem aligned_cons (buf : List UInt8) (chunks : List (List UInt8)) :
    Aligned (buf :: chunks) ↔ (chunks = [] ∨ buf.getLast? = some newline) ∧ Aligned chunks := by
  cases chunks with
  | nil => simp [Aligned]
  | cons next chunks => simp [Aligned]

/-- Every chunk gets a number, so that there is one too many where a chunk starts inside of a line. The induction is over
the chunks; `first` says whether they start with a line. -/
theorem ncatFrom_iff (chunks : List (List UInt8)) (some : ∀ buf ∈ chunks, buf ≠ []) (first : Bool) {k : Nat} (pos : 0 < k)
    (int : k + chunks.flatten.count newline < 2 ^ 31) :
    (numberedFrom first k chunks.flatten).length ≤ (ncatFrom (BitVec.ofNat 32 k) chunks).length ∧
      (ncatFrom (BitVec.ofNat 32 k) chunks = numberedFrom first k chunks.flatten ↔
        (chunks = [] ∨ first = true) ∧ Aligned chunks) := by
  induction chunks generalizing first k with
  | nil => simp [ncatFrom,numberedFrom,Aligned]
  | cons buf chunks ih =>
    have here : buf ≠ [] := some buf (by simp)
    rw [List.flatten_cons,List.count_append] at int
    obtain ⟨longer,same⟩ := ih (fun b member => some b (by simp [member])) (buf.getLast? = Option.some newline)
      (k := k + buf.count newline) (by omega) (by omega)
    rw [ncatFrom_cons here chunks pos (by omega),List.flatten_cons,numberedFrom_append first k _ here,aligned_cons]
    cases first with
    | true =>
      refine ⟨by simpa using longer,?_⟩
      rw [List.append_cancel_left_eq,same]
      simp
    | false =>
      have extra := congrArg List.length (numberedFrom_first k here)
      simp only [List.length_append,List.length_cons] at extra ⊢
      refine ⟨by omega,iff_of_false (fun equal => ?_) (by simp)⟩
      have := congrArg List.length equal
      simp only [List.length_append] at this
      omega

/-- `ncat` numbers the lines of a file if no call of `read` but the last one stops inside of a line. -/
theorem ncat_numbers_iff {content : List UInt8} {chunks : List (List UInt8)} (splits : Splits content chunks)
    (int : content.length < 2 ^ 31 - 1) : ncat chunks = numbered 1 (lines content) ↔ Aligned chunks := by
  have few := List.count_le_length (a := newline) (l := content)
  rw [← numbered_eq,← splits.whole,ncat]
  have main := (ncatFrom_iff chunks splits.some true (k := 1) (by omega) (by rw [splits.whole]; omega)).2
  simpa using main

/-- Two lines are read at once, then a third one and the start of a fourth. -/
theorem ncat_numbers_four : ncat [[97,newline,98,newline],[newline,99]] =
    numbered 1 (lines [97,newline,98,newline,newline,99]) :=
  (ncat_numbers_iff ⟨rfl,by decide,by decide⟩ (by decide)).mpr (by decide)

/-- `buf` does not hold a line of 513 bytes. -/
theorem ncat_long_line {buf : List UInt8} (full : buf.length = 512) (inside : newline ∉ buf) :
    Splits (buf ++ [newline]) [buf,[newline]] ∧ ncat [buf,[newline]] ≠ numbered 1 (lines (buf ++ [newline])) := by
  have here : buf ≠ [] := fun empty => by simp [empty] at full
  have some : ∀ b ∈ [buf,[newline]], b ≠ [] := by simp [here]
  refine ⟨⟨by simp,some,by simp [full]⟩,fun equal => ?_⟩
  have main := (ncatFrom_iff _ some true (k := 1) (by decide) (by simp [List.count_eq_zero.mpr inside])).2
  rw [numbered_eq,List.flatten_cons,List.flatten_singleton] at main
  have aligned := (main.mp equal).2 buf (by simp)
  exact inside (List.mem_of_getLast? aligned)

theorem ncat_long_line_a : Splits (List.replicate 512 97 ++ [newline]) [List.replicate 512 97,[newline]] ∧
    ncat [List.replicate 512 97,[newline]] ≠ numbered 1 (lines (List.replicate 512 97 ++ [newline])) :=
  ncat_long_line List.length_replicate fun inside => absurd (List.eq_of_mem_replicate inside) (by decide)

end Xv6.Programs
