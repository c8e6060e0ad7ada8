import Mathlib.Logic.Basic

/-! Programs over a state that may stop with an error, and their weakest preconditions. A
specification has one postcondition for returning and one for the error. -/

/-- A program reads and changes a state of type `σ`; it returns a value or stops. -/
structure Prog (ε σ α : Type) : Type where
  run : σ → Except ε (α × σ)

namespace Prog

variable {ε σ α β : Type}

instance : Monad (Prog ε σ) where
  pure a := ⟨fun s => .ok (a,s)⟩
  bind x f := ⟨fun s => match x.run s with
    | .ok (a,t) => (f a).run t
    | .error e => .error e⟩

theorem ext_run {x y : Prog ε σ α} (same : ∀ s, x.run s = y.run s) : x = y := by
  cases x
  cases y
  congr
  exact funext same

theorem bind_bind {γ : Type} (x : Prog ε σ α) (f : α → Prog ε σ β) (g : β → Prog ε σ γ) :
    x >>= f >>= g = x >>= fun a => f a >>= g := by
  refine ext_run fun s => ?_
  simp only [bind]
  cases x.run s <;> rfl

theorem bind_pure (a : α) (f : α → Prog ε σ β) : pure a >>= f = f a := rfl

theorem ite_bind {c : Prop} [Decidable c] {x y : Prog ε σ α} (f : α → Prog ε σ β) :
    (if c then x else y) >>= f = if c then x >>= f else y >>= f := by
  split <;> rfl

def get : Prog ε σ σ := ⟨fun s => .ok (s,s)⟩
def modify (f : σ → σ) : Prog ε σ Unit := ⟨fun s => .ok ((),f s)⟩
def fail (e : ε) : Prog ε σ α := ⟨fun _ => .error e⟩
def asks (f : σ → α) : Prog ε σ α := ⟨fun s => .ok (f s,s)⟩

/-- `f n`, with `n` computed first: the case split is what makes the kernel do that. -/
def strict {γ : Type} (n : Nat) (f : Nat → γ) : γ :=
  match n with
  | 0 => f 0
  | m + 1 => f (m + 1)

@[simp] theorem strict_eq {γ : Type} (n : Nat) (f : Nat → γ) : strict n f = f n := by cases n <;> rfl

/-- The error a run stops with, if it does. -/
def errorOf (x : Prog ε σ α) (s : σ) : Option ε :=
  match x.run s with
  | .ok _ => none
  | .error e => some e

/-- The value and the state a run returns with, if it does. -/
def resultOf (x : Prog ε σ α) (s : σ) : Option (α × σ) :=
  match x.run s with
  | .ok r => some r
  | .error _ => none

/-- `Q` holds of the result and the state if the run from `s` returns, `E` of the error if
it stops. -/
def wp (x : Prog ε σ α) (Q : α → σ → Prop) (E : ε → Prop) (s : σ) : Prop :=
  match x.run s with
  | .ok (a,t) => Q a t
  | .error e => E e

section Rules

variable {x : Prog ε σ α} {f : α → Prog ε σ β} {Q R : α → σ → Prop} {E : ε → Prop} {s t : σ} {a : α} {e : ε}

@[simp] theorem wp_pure : wp (pure a : Prog ε σ α) Q E s ↔ Q a s := Iff.rfl
@[simp] theorem wp_get {Q : σ → σ → Prop} : wp get Q E s ↔ Q s s := Iff.rfl
@[simp] theorem wp_modify {g : σ → σ} {Q : Unit → σ → Prop} : wp (modify g) Q E s ↔ Q () (g s) := Iff.rfl
@[simp] theorem wp_asks {g : σ → α} : wp (asks g) Q E s ↔ Q (g s) s := Iff.rfl
@[simp] theorem wp_fail : wp (fail e) Q E s ↔ E e := Iff.rfl

@[simp] theorem wp_bind {Q : β → σ → Prop} : wp (x >>= f) Q E s ↔ wp x (fun a t => wp (f a) Q E t) E s := by
  simp only [wp,bind]
  cases x.run s <;> simp

theorem wp_ite {c : Prop} [Decidable c] {y : Prog ε σ α} :
    wp (if c then x else y) Q E s ↔ if c then wp x Q E s else wp y Q E s := by
  split <;> rfl

theorem wp_mono {F : ε → Prop} (holds : wp x Q E s)
    (result : ∀ a t, Q a t → R a t) (error : ∀ e, E e → F e) : wp x R F s := by
  unfold wp at *
  cases out : x.run s with
  | ok r =>
    rw [out] at holds
    exact result _ _ holds
  | error e =>
    rw [out] at holds
    exact error _ holds

/-- The rule for a call: what the callee guarantees is what the rest may use. -/
theorem wp_seq {Q : β → σ → Prop} (first : wp x R E s)
    (rest : ∀ a t, R a t → wp (f a) Q E t) : wp (x >>= f) Q E s :=
  wp_bind.mpr (wp_mono first rest fun _ => id)

theorem wp_post (holds : wp x Q E s) (result : ∀ a t, Q a t → R a t) :
    wp x R E s := wp_mono holds result fun _ => id

theorem wp_and {F : ε → Prop} (left : wp x Q E s) (right : wp x R F s) :
    wp x (fun a t => Q a t ∧ R a t) (fun e => E e ∧ F e) s := by
  unfold wp at *
  cases out : x.run s <;> simp_all

theorem wp_ok (holds : wp x Q E s) {a : α} {t : σ} (out : x.run s = .ok (a,t)) : Q a t := by
  unfold wp at holds
  rw [out] at holds
  exact holds

theorem wp_error (holds : wp x Q E s) (out : x.run s = .error e) : E e := by
  unfold wp at holds
  rw [out] at holds
  exact holds

theorem wp_resultOf (holds : wp x Q E s) {r : α × σ} (out : resultOf x s = some r) : Q r.1 r.2 := by
  unfold resultOf at out
  unfold wp at holds
  cases run : x.run s with
  | ok r' =>
    rw [run] at out holds
    exact Option.some.inj out ▸ holds
  | error e =>
    rw [run] at out
    exact absurd out (by simp)

theorem wp_errorOf (holds : wp x Q E s) (out : errorOf x s = some e) : E e := by
  unfold errorOf at out
  unfold wp at holds
  cases run : x.run s with
  | ok r =>
    rw [run] at out
    exact absurd out (by simp)
  | error e' =>
    rw [run] at out holds
    exact Option.some.inj out ▸ holds

theorem wp_of_ok (out : x.run s = .ok (a,t)) (holds : Q a t) : wp x Q E s := by
  unfold wp
  rw [out]
  exact holds

theorem wp_congr {y : Prog ε σ α} (same : x.run s = y.run s) : wp x Q E s ↔ wp y Q E s := by
  unfold wp
  rw [same]

theorem wp_returns (holds : wp x Q (fun _ => False) s) : ∃ a t, x.run s = .ok (a,t) ∧ Q a t := by
  cases out : x.run s with
  | error e => exact (wp_error holds out).elim
  | ok r => exact ⟨r.1,r.2,rfl,wp_ok holds out⟩

theorem run_bind (out : x.run s = .ok (a,t)) : (x >>= f).run s = (f a).run t := by
  simp only [bind,out]

theorem run_bind_error (out : x.run s = .error e) : (x >>= f).run s = .error e := by
  simp only [bind,out]

end Rules

section Keeps

variable {γ : Type} {g : σ → γ} {x y : Prog ε σ α} {f : α → Prog ε σ β}

def Keeps (g : σ → γ) (x : Prog ε σ α) : Prop := ∀ s, wp x (fun _ t => g t = g s) (fun _ => True) s

namespace Keeps

theorem pure (a : α) : Keeps g (pure a : Prog ε σ α) := fun _ => rfl
theorem fail (e : ε) : Keeps g (fail e : Prog ε σ α) := fun _ => trivial
theorem asks (h : σ → α) : Keeps g (asks h : Prog ε σ α) := fun _ => rfl

theorem modify {h : σ → σ} (same : ∀ s, g (h s) = g s) : Keeps g (modify h : Prog ε σ Unit) := same

theorem bind (first : Keeps g x) (rest : ∀ a, Keeps g (f a)) : Keeps g (x >>= f) := fun s => by
  apply wp_seq (first s)
  intro a t same
  exact wp_post (rest a t) fun _ _ later => later.trans same

theorem ite {c : Prop} [Decidable c] (left : Keeps g x) (right : Keeps g y) : Keeps g (if c then x else y) := by
  split
  · exact left
  · exact right

theorem seq {s : σ} {Q : β → σ → Prop} (first : Keeps g x) (rest : ∀ a t, g t = g s → wp (f a) Q (fun _ => True) t) :
    wp (x >>= f) Q (fun _ => True) s := wp_seq (first s) rest

end Keeps

end Keeps

/-- A run is known from what can be seen of it. -/
theorem run_of_seen {x : Prog ε σ α} {s : σ} {γ : Type} {g : α × σ → γ} {c : γ}
    (seen : (x.run s).toOption.map g = some c) : ∃ a t, x.run s = .ok (a,t) ∧ g (a,t) = c := by
  cases out : x.run s with
  | error e => simp [out,Except.toOption] at seen
  | ok r => exact ⟨r.1,r.2,rfl,by simpa [out,Except.toOption] using seen⟩

theorem wp_trivial (x : Prog ε σ α) (s : σ) : wp x (fun _ _ => True) (fun _ => True) s := by
  unfold wp
  split <;> trivial

theorem wp_skip {x : Prog ε σ α} {f : α → Prog ε σ β} {s : σ} {Q : β → σ → Prop}
    (rest : ∀ a t, wp (f a) Q (fun _ => True) t) : wp (x >>= f) Q (fun _ => True) s :=
  wp_seq (wp_trivial x s) fun a t _ => rest a t

end Prog
