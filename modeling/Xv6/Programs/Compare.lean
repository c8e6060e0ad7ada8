import Xv6.Programs.Match

/-! The matcher of `find`, which compares a whole name. -/
namespace Xv6.Programs

/-- `*temp1==*temp2||(*temp2=='.'&&*temp1!='\0')`. -/
def fits (t p : UInt8) : Bool := t = p ∨ (p = dot ∧ t ≠ 0)

def compare (temp1 temp2 : List UInt8) : Option Bool :=
  match temp1, temp2 with
  | t0 :: text, p0 :: re =>
    if p0 = 0 then some (t0 = 0)
    else
      match re with
      | [] => none
      | p1 :: re2 =>
        if p1 ≠ star then if fits t0 p0 then compare text (p1 :: re2) else some false
        else if fits t0 p0 then orElse (compare (t0 :: text) re2) (compare text (p0 :: p1 :: re2))
        else compare (t0 :: text) re2
  | _, _ => none
  termination_by (temp2.length,temp1.length)

/-- A character of a pattern is not NUL, so neither is the one that fits. -/
theorem fits_iff {t p : UInt8} (nonzero : p ≠ 0) : fits t p = true ↔ t ≠ 0 ∧ (p = dot ∨ p = t) := by
  rw [fits,decide_eq_true_iff]
  constructor
  · rintro (rfl | ⟨any,some⟩)
    · exact ⟨nonzero,.inr rfl⟩
    · exact ⟨some,.inl any⟩
  · rintro ⟨some,any | rfl⟩
    · exact .inr ⟨any,some⟩
    · exact .inl rfl

theorem compare_plain {p0 p1 : UInt8} (nonzero : p0 ≠ 0) (plain : p1 ≠ star) (t0 : UInt8) (text re : List UInt8) :
    compare (t0 :: text) (p0 :: p1 :: re) = if fits t0 p0 then compare text (p1 :: re) else some false := by
  rw [compare.eq_def]
  simp only [if_neg nonzero,if_pos plain]

theorem compare_star {p0 : UInt8} (nonzero : p0 ≠ 0) (t0 : UInt8) (text re : List UInt8) :
    compare (t0 :: text) (p0 :: star :: re) =
      if fits t0 p0 then orElse (compare (t0 :: text) re) (compare text (p0 :: star :: re))
      else compare (t0 :: text) re := by
  rw [compare.eq_def]
  simp only [if_neg nonzero,if_neg (not_not.mpr (rfl : star = star))]

theorem orElse_false (first : Option Bool) : orElse first (some false) = first := by
  cases first with
  | none => rfl
  | some b => cases b <;> rfl

/-- The loop of `matchstar` is a recursion of `compare`. -/
theorem matchstar_eq_compare {c : UInt8} {re target : List UInt8} (nonzero : c ≠ 0)
    (here : ∀ text, matchhere target (terminated text) = compare (terminated text) re) (text : List UInt8) :
    matchstar c target (terminated text) = compare (terminated text) (c :: star :: re) := by
  induction text with
  | nil =>
    have stop : fits 0 c = false := by
      rw [Bool.eq_false_iff,ne_eq,fits_iff nonzero]
      simp
    rw [matchstar.eq_def,here []]
    simp only [terminated,List.nil_append]
    rw [compare_star nonzero,stop]
    simp [orElse_false]
  | cons t text ih =>
    rw [matchstar.eq_def,here (t :: text)]
    simp only [terminated,List.cons_append] at ih ⊢
    rw [compare_star nonzero]
    have same : (t ≠ 0 ∧ (t = c ∨ c = dot)) ↔ fits t c = true := by
      rw [fits_iff nonzero,or_comm,@eq_comm _ t c]
    by_cases go : fits t c = true
    · rw [if_pos (same.mpr go),if_pos go,ih]
    · rw [if_neg (mt same.mp go),if_neg go,orElse_false]

/-- `matchhere` with a final `$` compares the whole text. -/
theorem matchhere_eq_compare (re text : List UInt8) (clean : 0 ∉ re) :
    matchhere (terminated (re ++ [dollar])) (terminated text) = compare (terminated text) (terminated re) := by
  induction size : re.length using Nat.strong_induction_on generalizing re text with
  | _ n ih =>
    subst size
    cases re with
    | nil =>
      cases text with
      | nil | cons t text => rw [matchhere.eq_def,compare.eq_def]; rfl
    | cons r0 re =>
      obtain ⟨nonzero,clean'⟩ := clean_cons clean
      by_cases starred : re.head? = some star
      · obtain ⟨re,rfl⟩ : ∃ re', re = star :: re' := ⟨re.tail,(List.cons_head?_tail starred).symm⟩
        have shorter : re.length < (r0 :: star :: re).length := by
          simp only [List.length_cons]
          omega
        rw [matchhere.eq_def]
        simp only [terminated,List.cons_append,if_neg nonzero,if_true]
        exact matchstar_eq_compare nonzero (fun text => ih _ shorter re text (clean_cons clean').2 rfl) text
      · -- the final `$` is behind the pattern, so that a `$` in the pattern is literal
        obtain ⟨r1,re1,r2,re2,long,short,plain,plain',some⟩ : ∃ r1 re1 r2 re2, terminated (re ++ [dollar]) = r1 :: re1 ∧
            terminated re = r2 :: re2 ∧ r1 ≠ star ∧ r2 ≠ star ∧ r1 ≠ 0 := by
          cases re with
          | nil => exact ⟨dollar,[0],0,[],rfl,rfl,by decide,by decide,by decide⟩
          | cons d re =>
            have other : d ≠ star := fun same => starred (by simp [same])
            exact ⟨d,_,d,_,rfl,rfl,other,other,(clean_cons clean').1⟩
        rw [show terminated (r0 :: re ++ [dollar]) = r0 :: r1 :: re1 by rw [← long]; rfl,
          show terminated (r0 :: re) = r0 :: r2 :: re2 by rw [← short]; rfl]
        have step (t : UInt8) (text : List UInt8) : matchhere (r0 :: r1 :: re1) (t :: text) =
            if fits t r0 then matchhere (r1 :: re1) text else Option.some false := by
          rw [matchhere_char nonzero plain fun both => some both.2]
          simp only [fits_iff nonzero]
        cases text with
        | nil =>
          have stop : ¬fits 0 r0 = true := by simp [fits_iff nonzero]
          rw [terminated,List.nil_append,step,compare_plain nonzero plain',if_neg stop,if_neg stop]
        | cons t text =>
          rw [show terminated (t :: text) = t :: terminated text from rfl,step,compare_plain nonzero plain',← long,
            ← short,ih re.length (by simp) re text clean' rfl]

theorem compare_some {t p : List UInt8} (cleanText : 0 ∉ t) (clean : 0 ∉ p) :
    ∃ b, compare (terminated t) (terminated p) = some b := by
  have cleanLong : 0 ∉ p ++ [dollar] := by simp [clean,dollar]
  obtain ⟨b,value,_⟩ := matchhere_decides (p ++ [dollar]) t cleanLong cleanText
  exact ⟨b,by rw [← matchhere_eq_compare p t clean,value]⟩

/-- `compare` returns what `match` returns for the pattern between `^` and `$`. Both read only what is there. -/
theorem compare_agrees {t p : List UInt8} (cleanText : 0 ∉ t) (clean : 0 ∉ p) :
    ∃ b, compare (terminated t) (terminated p) = some b ∧
      matchText (terminated (caret :: p ++ [dollar])) (terminated t) = some b := by
  have search : matchText (terminated (caret :: p ++ [dollar])) (terminated t) =
      matchhere (terminated (p ++ [dollar])) (terminated t) := rfl
  obtain ⟨b,value⟩ := compare_some cleanText clean
  exact ⟨b,value,by rw [search,matchhere_eq_compare p t clean,value]⟩

/-- The pattern `a*.$` and the text `aab$`. -/
theorem compare_agrees_dollar : ∃ b, compare (terminated [97,97,98,dollar]) (terminated [97,star,dot,dollar]) = some b ∧
    matchText (terminated (caret :: [97,star,dot,dollar] ++ [dollar])) (terminated [97,97,98,dollar]) = some b :=
  compare_agrees (by decide) (by decide)

end Xv6.Programs
