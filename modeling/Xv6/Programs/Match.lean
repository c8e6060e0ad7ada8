import Mathlib.Computability.Language

/-! The matcher of `grep`. A pointer into a string is the rest of the string with its terminator; what lies behind the
terminator cannot be read, and a function that reads it returns `none`. -/
namespace Xv6.Programs

open Computability

abbrev caret : UInt8 := 94
abbrev dot : UInt8 := 46
abbrev star : UInt8 := 42
abbrev dollar : UInt8 := 36

def terminated (s : List UInt8) : List UInt8 := s ++ [0]

/-- `*s`. -/
def deref (s : List UInt8) : Option UInt8 := s.head?

/-- `if(first) return 1;` before `second`. -/
def orElse (first second : Option Bool) : Option Bool := first.bind fun found => if found then some true else second

section Model

mutual

def matchhere (re text : List UInt8) : Option Bool :=
  match re with
  | [] => none
  | r0 :: re1 =>
    if r0 = 0 then some true
    else
      match re1 with
      | [] => none
      | r1 :: re2 =>
        if r1 = star then matchstar r0 re2 text
        else
          match text with
          | [] => none
          | t :: text1 =>
            if r0 = dollar ∧ r1 = 0 then some (t = 0)
            else if t ≠ 0 ∧ (r0 = dot ∨ r0 = t) then matchhere (r1 :: re2) text1
            else some false
  termination_by (re.length,0,0)

def matchstar (c : UInt8) (re text : List UInt8) : Option Bool :=
  orElse (matchhere re text) (match text with
    | [] => none
    | t :: text1 => if t ≠ 0 ∧ (t = c ∨ c = dot) then matchstar c re text1 else some false)
  termination_by (re.length,1,text.length)

end

def matchFrom (re : List UInt8) : List UInt8 → Option Bool
  | [] => none
  | t :: text => orElse (matchhere re (t :: text)) (if t ≠ 0 then matchFrom re text else some false)

def matchText (re text : List UInt8) : Option Bool :=
  (deref re).bind fun r0 => if r0 = caret then matchhere re.tail text else matchFrom re text

end Model

/-! What a pattern means. -/

/-- A character, or any number of them. -/
structure Item where
  char : UInt8
  starred : Bool
  deriving DecidableEq

/-- The items of a pattern and whether it ends with `$`. A `*` belongs to the character before it. -/
def items : List UInt8 → List Item × Bool
  | [] => ([],false)
  | [c] => if c = dollar then ([],true) else ([⟨c,false⟩],false)
  | c :: d :: re =>
    if d = star then (⟨c,true⟩ :: (items re).1,(items re).2) else (⟨c,false⟩ :: (items (d :: re)).1,(items (d :: re)).2)

/-- The strings of one character that `c` stands for. -/
def letter (c : UInt8) : Language UInt8 := {w | ∃ x, w = [x] ∧ (c = dot ∨ c = x)}

def Item.denote (item : Item) : Language UInt8 := if item.starred then (letter item.char)∗ else letter item.char

/-- The strings that a sequence of items matches. -/
def denote (l : List Item) : Language UInt8 := (l.map Item.denote).prod

/-- A pattern without its leading `^`. -/
def body (re : List UInt8) : List UInt8 := if re.head? = some caret then re.tail else re

/-- A part of the text matches, at the beginning of it after `^` and at the end of it before `$`. -/
def Matches (re text : List UInt8) : Prop :=
  ∃ before part after, text = before ++ part ++ after ∧ part ∈ denote (items (body re)).1 ∧
    (re.head? = some caret → before = []) ∧ ((items (body re)).2 = true → after = [])

/-! Languages of texts that begin with a match. -/

theorem nil_mem_letter_mul (c : UInt8) (m : Language UInt8) : [] ∉ letter c * m := by
  rintro ⟨_,⟨x,rfl,_⟩,b,_,empty⟩
  simp at empty

theorem cons_mem_letter_mul {c t : UInt8} {text : List UInt8} {m : Language UInt8} :
    t :: text ∈ letter c * m ↔ (c = dot ∨ c = t) ∧ text ∈ m := by
  constructor
  · rintro ⟨_,⟨x,rfl,fits⟩,b,inside,whole⟩
    obtain ⟨rfl,rfl⟩ : x = t ∧ b = text := by simpa using whole
    exact ⟨fits,inside⟩
  · rintro ⟨fits,inside⟩
    exact ⟨[t],⟨t,rfl,fits⟩,text,inside,rfl⟩

/-- Repeated letters are none, or one and then others. -/
theorem star_mul (l m : Language UInt8) : l∗ * m = m + l * (l∗ * m) := by
  nth_rewrite 1 [← Language.one_add_self_mul_kstar_eq_kstar l]
  rw [add_mul,one_mul,mul_assoc]

def rest (stop : Bool) : Language UInt8 := if stop then 1 else ⊤

/-- The texts that begin with what the pattern says. -/
def begins (re : List UInt8) : Language UInt8 := denote (items re).1 * rest (items re).2

theorem begins_nil : begins [] = ⊤ := by simp [begins,items,denote,rest]

theorem begins_dollar : begins [dollar] = 1 := by simp [begins,items,denote,rest]

theorem begins_star (c : UInt8) (re : List UInt8) : begins (c :: star :: re) = (letter c)∗ * begins re := by
  simp [begins,items,denote,Item.denote,mul_assoc]

theorem begins_char {c : UInt8} {re : List UInt8} (plain : re.head? ≠ some star) (inner : c = dollar → re ≠ []) :
    begins (c :: re) = letter c * begins re := by
  cases re with
  | nil =>
    have other : c ≠ dollar := fun same => inner same rfl
    simp [begins,items,denote,Item.denote,other,rest]
  | cons d re =>
    have other : d ≠ star := fun same => plain (by simp [same])
    simp [begins,items,denote,Item.denote,other,mul_assoc]

/-! The functions. -/

/-- The value of a function that has read only what is there. -/
def Decides (out : Option Bool) (p : Prop) : Prop := ∃ b, out = some b ∧ (b = true ↔ p)

theorem Decides.of_some {b : Bool} {p : Prop} (same : b = true ↔ p) : Decides (some b) p := ⟨b,rfl,same⟩

theorem Decides.congr {out : Option Bool} {p q : Prop} (decides : Decides out p) (same : p ↔ q) : Decides out q := by
  obtain ⟨b,value,isP⟩ := decides
  exact ⟨b,value,isP.trans same⟩

theorem Decides.orElse {first second : Option Bool} {p q : Prop} (left : Decides first p) (right : Decides second q) :
    Decides (Programs.orElse first second) (p ∨ q) := by
  obtain ⟨b,rfl,isP⟩ := left
  cases b with
  | true => exact .of_some (iff_of_true rfl (.inl (isP.mp rfl)))
  | false =>
    have not : ¬p := fun holds => absurd (isP.mpr holds) (by simp)
    exact right.congr (by simp [not])

theorem clean_cons {c : UInt8} {s : List UInt8} (clean : 0 ∉ c :: s) : c ≠ 0 ∧ 0 ∉ s := by
  simp only [List.mem_cons,not_or] at clean
  exact ⟨fun same => clean.1 same.symm,clean.2⟩

/-- The loop of `matchstar`, if `matchhere` is right about the rest of the pattern. -/
theorem matchstar_decides {c : UInt8} {re : List UInt8} {m : Language UInt8}
    (here : ∀ text, 0 ∉ text → Decides (matchhere re (terminated text)) (text ∈ m)) (text : List UInt8)
    (clean : 0 ∉ text) : Decides (matchstar c re (terminated text)) (text ∈ (letter c)∗ * m) := by
  induction text with
  | nil =>
    rw [matchstar.eq_def,star_mul,Language.mem_add]
    exact (here [] clean).orElse (.of_some (iff_of_false (by simp) (nil_mem_letter_mul c _)))
  | cons t text ih =>
    obtain ⟨nonzero,clean'⟩ := clean_cons clean
    rw [matchstar.eq_def,star_mul,Language.mem_add]
    refine (here (t :: text) clean).orElse ?_
    rw [cons_mem_letter_mul]
    by_cases fits : t = c ∨ c = dot
    · simp only [terminated,List.cons_append,if_pos (And.intro nonzero fits)]
      refine (ih clean').congr (iff_and_self.mpr fun _ => ?_)
      exact fits.symm.imp id Eq.symm
    · have apart : ¬(t ≠ 0 ∧ (t = c ∨ c = dot)) := fun both => fits both.2
      simp only [terminated,List.cons_append,if_neg apart]
      exact .of_some (iff_of_false (by simp) fun both => fits (both.1.symm.imp Eq.symm id))

theorem matchhere_char {r0 r1 : UInt8} {re text : List UInt8} (nonzero : r0 ≠ 0) (plain : r1 ≠ star)
    (inner : ¬(r0 = dollar ∧ r1 = 0)) (t : UInt8) :
    matchhere (r0 :: r1 :: re) (t :: text) =
      if t ≠ 0 ∧ (r0 = dot ∨ r0 = t) then matchhere (r1 :: re) text else some false := by
  rw [matchhere.eq_def]
  simp only [if_neg nonzero,if_neg plain,if_neg inner]

theorem matchhere_decides (re text : List UInt8) (cleanRe : 0 ∉ re) (clean : 0 ∉ text) :
    Decides (matchhere (terminated re) (terminated text)) (text ∈ begins re) := by
  -- the pattern gets shorter in every call of `matchhere`, so the induction is on its length
  induction size : re.length using Nat.strong_induction_on generalizing re text with
  | _ n ih =>
    subst size
    cases re with
    | nil =>
      rw [begins_nil,terminated,List.nil_append,matchhere,if_pos rfl]
      exact .of_some (iff_of_true rfl trivial)
    | cons r0 re =>
      obtain ⟨nonzero,cleanRe'⟩ := clean_cons cleanRe
      by_cases starred : re.head? = some star
      · obtain ⟨re,rfl⟩ : ∃ re', re = star :: re' := ⟨re.tail,(List.cons_head?_tail starred).symm⟩
        have shorter : re.length < (r0 :: star :: re).length := by
          simp only [List.length_cons]
          omega
        rw [begins_star,matchhere.eq_def]
        simp only [terminated,List.cons_append,if_neg nonzero,if_true]
        exact matchstar_decides (fun text clean => ih _ shorter re text (clean_cons cleanRe').2 clean rfl) text clean
      by_cases final : r0 = dollar ∧ re = []
      · obtain ⟨rfl,rfl⟩ := final
        rw [begins_dollar,Language.mem_one]
        cases text with
        | nil => exact ⟨true,by rw [matchhere.eq_def]; rfl,by simp⟩
        | cons t text =>
          have nonzero := (clean_cons clean).1
          refine ⟨false,?_,by simp⟩
          rw [matchhere.eq_def]
          simp [terminated,nonzero,dollar,star]
      · have inner : r0 = dollar → re ≠ [] := fun same empty => final ⟨same,empty⟩
        obtain ⟨r1,re1,split,plain,last⟩ : ∃ r1 re1, terminated re = r1 :: re1 ∧ r1 ≠ star ∧ (r1 = 0 → re = []) := by
          cases re with
          | nil => exact ⟨0,[],rfl,by decide,fun _ => rfl⟩
          | cons d re =>
            exact ⟨d,terminated re,rfl,fun same => starred (by simp [same]),
              fun zero => absurd zero (clean_cons cleanRe').1⟩
        have single : ¬(r0 = dollar ∧ r1 = 0) := fun both => final ⟨both.1,last both.2⟩
        rw [begins_char starred inner,show terminated (r0 :: re) = r0 :: r1 :: re1 by rw [← split]; rfl]
        cases text with
        | nil =>
          rw [terminated,List.nil_append,matchhere_char nonzero plain single,if_neg (by simp)]
          exact .of_some (iff_of_false (by simp) (nil_mem_letter_mul r0 _))
        | cons t text =>
          obtain ⟨some,clean'⟩ := clean_cons clean
          rw [show terminated (t :: text) = t :: terminated text from rfl,matchhere_char nonzero plain single,
            cons_mem_letter_mul]
          by_cases fits : r0 = dot ∨ r0 = t
          · rw [if_pos ⟨some,fits⟩,← split]
            exact (ih re.length (by simp) re text cleanRe' clean' rfl).congr (iff_and_self.mpr fun _ => fits)
          · rw [if_neg fun both => fits both.2]
            exact .of_some (iff_of_false (by simp) fun both => fits both.1)

theorem matchFrom_decides {re text : List UInt8} (cleanRe : 0 ∉ re) (clean : 0 ∉ text) :
    Decides (matchFrom (terminated re) (terminated text)) (∃ before after, text = before ++ after ∧
      after ∈ begins re) := by
  induction text with
  | nil =>
    refine ((matchhere_decides re [] cleanRe clean).orElse (q := False) (.of_some (by simp))).congr ?_
    simp
  | cons t text ih =>
    obtain ⟨some,clean'⟩ := clean_cons clean
    have later : Decides (if t ≠ 0 then matchFrom (terminated re) (terminated text) else Option.some false)
        (∃ before after, text = before ++ after ∧ after ∈ begins re) := by
      rw [if_pos some]
      exact ih clean'
    refine ((matchhere_decides re (t :: text) cleanRe clean).orElse later).congr ?_
    constructor
    · rintro (here | ⟨before,after,rfl,there⟩)
      · exact ⟨[],t :: text,rfl,here⟩
      · exact ⟨t :: before,after,rfl,there⟩
    · rintro ⟨before,after,split,there⟩
      cases before with
      | nil => exact .inl (by rw [split]; exact there)
      | cons b before =>
        obtain ⟨rfl,rfl⟩ : t = b ∧ text = before ++ after := by simpa using split
        exact .inr ⟨before,after,rfl,there⟩

theorem mem_begins {re text : List UInt8} : text ∈ begins re ↔
    ∃ part after, text = part ++ after ∧ part ∈ denote (items re).1 ∧ ((items re).2 = true → after = []) := by
  have tail (after : List UInt8) : after ∈ rest (items re).2 ↔ ((items re).2 = true → after = []) := by
    cases (items re).2 with
    | false => exact iff_of_true trivial (by simp)
    | true => simp [rest,Language.mem_one]
  rw [begins,Language.mem_mul]
  constructor
  · rintro ⟨part,matched,after,inside,rfl⟩
    exact ⟨part,after,rfl,matched,(tail after).mp inside⟩
  · rintro ⟨part,after,rfl,matched,stops⟩
    exact ⟨part,matched,after,(tail after).mpr stops,rfl⟩

theorem matchText_eq (re text : List UInt8) : matchText (terminated re) text =
    if re.head? = some caret then matchhere (terminated re.tail) text else matchFrom (terminated re) text := by
  cases re with
  | nil => rfl
  | cons r0 re => simp [matchText,deref,terminated]

theorem matchText_some {re text : List UInt8} (cleanRe : 0 ∉ re) (clean : 0 ∉ text) :
    ∃ b, matchText (terminated re) (terminated text) = some b := by
  rw [matchText_eq]
  split
  · obtain ⟨b,value,_⟩ := matchhere_decides re.tail text (fun inside => cleanRe (List.mem_of_mem_tail inside)) clean
    exact ⟨b,value⟩
  · obtain ⟨b,value,_⟩ := matchFrom_decides cleanRe clean
    exact ⟨b,value⟩

/-- `match` reads no byte behind the terminators, and it returns 1 if the pattern matches and 0 if it does not. -/
theorem match_denotes {re text : List UInt8} (cleanRe : 0 ∉ re) (clean : 0 ∉ text) :
    Decides (matchText (terminated re) (terminated text)) (Matches re text) := by
  rw [matchText_eq]
  by_cases anchored : re.head? = some caret
  · have whole : body re = re.tail := if_pos anchored
    rw [if_pos anchored]
    refine (matchhere_decides re.tail text (fun inside => cleanRe (List.mem_of_mem_tail inside)) clean).congr ?_
    simp only [mem_begins,Matches,whole]
    constructor
    · rintro ⟨part,after,rfl,matched,stops⟩
      exact ⟨[],part,after,rfl,matched,fun _ => rfl,stops⟩
    · rintro ⟨before,part,after,rfl,matched,starts,stops⟩
      obtain rfl := starts anchored
      exact ⟨part,after,rfl,matched,stops⟩
  · have whole : body re = re := if_neg anchored
    rw [if_neg anchored]
    refine (matchFrom_decides cleanRe clean).congr ?_
    simp only [mem_begins,Matches,whole]
    constructor
    · rintro ⟨before,_,rfl,part,after,rfl,matched,stops⟩
      exact ⟨before,part,after,by simp,matched,fun starts => absurd starts anchored,stops⟩
    · rintro ⟨before,part,after,rfl,matched,-,stops⟩
      exact ⟨before,part ++ after,by simp,part,after,rfl,matched,stops⟩

/-- `^*a*$` in `*aa`: the first `*` is literal. -/
theorem match_literal_star : Decides (matchText (terminated [caret,star,97,star,dollar]) (terminated [star,97,97]))
    (Matches [caret,star,97,star,dollar] [star,97,97]) := match_denotes (by decide) (by decide)

end Xv6.Programs
