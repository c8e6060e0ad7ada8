import Xv6.Fs.Read

/-! A byte that `piperead` takes out of the pipe and cannot copy: `nread` is incremented before `copyout`. -/
namespace Xv6.Fs

/-- The pipe that the copying loop of `piperead` starts with. -/
def ReadsFrom (later : List (Bool × Pipe)) (pi₀ pi : Pipe) : Prop :=
  ∃ rest, await (fun pi => pi.isEmpty && pi.writeopen) later pi₀ = .ready pi rest

/-- The call is over with `r` bytes copied. These and no others are gone from the pipe, so that the next byte is the
first that was not copied. -/
def Lossless (later : List (Bool × Pipe)) (addr : Nat) (n : Int) (pi₀ : Pipe) (u : User) : Prop :=
  ∀ pi, ReadsFrom later pi₀ pi → ∃ r pi' u', piperead later addr n pi₀ u = some (Int.ofNat r,pi',u') ∧
    pi'.nread = pi.nread + BitVec.ofNat 32 r ∧ pi'.ring = pi.ring.drop r

/-- The `copyout` of byte `i` fails, after those before it. -/
structure CopyFails (addr : Nat) (n : Int) (pi : Pipe) (u : User) (i : Nat) : Prop where
  wanted : (i : Int) < n
  there : i < pi.count
  before : ∀ j < i, u.ok (addr + j) = true
  fails : u.ok (addr + i) = false

/-- The loop has gone from byte `k` to byte `i`, and `m` bytes have been taken. -/
structure Took (addr k : Nat) (pi : Pipe) (u : User) (i m : Nat) (pi' : Pipe) : Prop where
  start : k ≤ i
  copied : ∀ j, k ≤ j → j < i → u.ok (addr + j) = true
  nread : pi'.nread = pi.nread + BitVec.ofNat 32 m
  ring : pi'.ring = pi.ring.drop m
  there : m ≤ pi.count

theorem Took.refl (addr k : Nat) (pi : Pipe) (u : User) : Took addr k pi u k 0 pi :=
  ⟨Nat.le_refl k,fun j low high => absurd high (Nat.not_lt.mpr low),by simp,by simp,Nat.zero_le _⟩

theorem Took.step {addr k i m : Nat} {pi pi' : Pipe} {u : User} {byte : UInt8} (some : 0 < pi.count)
    (ok : u.ok (addr + k) = true) (took : Took addr (k + 1) (pi.take true) (u.put (addr + k) byte) i m pi') :
    Took addr k pi u i (m + 1) pi' where
  start := Nat.le_of_succ_le took.start
  copied j low high := by
    rcases Nat.eq_or_lt_of_le low with rfl | low
    · exact ok
    · exact took.copied j low high
  nread := by
    have next : (pi.take true).nread = pi.nread + 1 := rfl
    rw [took.nread,next]
    bv_omega
  ring := by rw [took.ring,Pipe.ring_take true some,List.drop_succ_cons]
  there := by
    have count := Pipe.count_take true some
    have there := took.there
    omega

/-- The loop stops at a byte that cannot be copied, which it has taken, or there is nothing left to do. -/
theorem pipeCopy_took (addr : Nat) (n : Int) (turns k : Nat) (pi : Pipe) (u : User) (enough : n ≤ k + turns) :
    let (i,pi',_) := pipeCopy addr n turns k pi u
    (Took addr k pi u i (i - k + 1) pi' ∧ (i : Int) < n ∧ u.ok (addr + i) = false) ∨
      Took addr k pi u i (i - k) pi' ∧ (n ≤ i ∨ pi.count = i - k) := by
  induction turns generalizing k pi u with
  | zero =>
    refine .inr ⟨?_,.inl (by simpa using enough)⟩
    rw [Nat.sub_self]
    exact Took.refl addr k pi u
  | succ turns ih =>
    have nonempty : pi.isEmpty = false → 0 < pi.count := by
      intro some
      have : pi.count ≠ 0 := fun none => by simp [Pipe.isEmpty_iff.mpr none] at some
      omega
    rw [pipeCopy]
    split_ifs with more ok
    · have some := nonempty more.2
      have count := Pipe.count_take true some
      push_cast at enough
      have rest := ih (k + 1) (pi.take true) (u.put (addr + k) (pi.data (Pipe.slot pi.nread))) (by push_cast; omega)
      revert rest
      rcases pipeCopy addr n turns (k + 1) (pi.take true) _ with ⟨i,pi',u'⟩
      rintro (⟨took,wanted,fails⟩ | ⟨took,last⟩)
      · have start := took.start
        have steps : i - (k + 1) + 1 + 1 = i - k + 1 := by omega
        exact .inl ⟨steps ▸ took.step some ok,wanted,fails⟩
      · have start := took.start
        have steps : i - (k + 1) + 1 = i - k := by omega
        exact .inr ⟨steps ▸ took.step some ok,last.imp_right fun all => by omega⟩
    · -- the byte is gone, although `i` does not count it
      have some := nonempty more.2
      refine .inl ⟨?_,more.1,Bool.eq_false_iff.mpr ok⟩
      rw [Nat.sub_self]
      have ring := Pipe.ring_take false some
      exact ⟨Nat.le_refl k,fun j low high => absurd high (Nat.not_lt.mpr low),rfl,by rw [ring]; rfl,some⟩
    · refine .inr ⟨by rw [Nat.sub_self]; exact Took.refl addr k pi u,?_⟩
      rw [Nat.sub_self]
      rcases Classical.not_and_iff_not_or_not.mp more with done | empty
      · exact .inl (Int.not_lt.mp done)
      · exact .inr (Pipe.isEmpty_iff.mp (by simpa using empty))

/-- What is gone from the pipe after a call that copied `r` bytes. -/
theorem piperead_took {later : List (Bool × Pipe)} {pi₀ pi : Pipe} (reads : ReadsFrom later pi₀ pi) (addr : Nat)
    (n : Int) (u : User) : ∃ r pi' u', piperead later addr n pi₀ u = some (Int.ofNat r,pi',u') ∧
      ((Took addr 0 pi u r (r + 1) pi' ∧ CopyFails addr n pi u r) ∨
        Took addr 0 pi u r r pi' ∧ ∀ i, ¬CopyFails addr n pi u i) := by
  obtain ⟨rest,ready⟩ := reads
  have took := pipeCopy_took addr n n.toNat 0 pi u (by omega)
  rw [piperead,ready]
  dsimp only
  revert took
  rcases pipeCopy addr n n.toNat 0 pi u with ⟨i,pi',u'⟩
  rintro (⟨took,wanted,fails⟩ | ⟨took,last⟩)
  · exact ⟨i,pi',u',rfl,.inl ⟨took,wanted,took.there,fun j => took.copied j (Nat.zero_le j),fails⟩⟩
  · refine ⟨i,pi',u',rfl,.inr ⟨took,fun j fails => ?_⟩⟩
    have beyond : i ≤ j := by
      by_contra below
      have ok := took.copied j (Nat.zero_le j) (Nat.lt_of_not_le below)
      simp [fails.fails] at ok
    have wanted := fails.wanted
    have there := fails.there
    omega

/-- No byte is lost exactly when every `copyout` of the call succeeds. -/
theorem piperead_lossless_iff (later : List (Bool × Pipe)) (addr : Nat) (n : Int) (pi₀ : Pipe) (u : User) :
    Lossless later addr n pi₀ u ↔ ∀ pi, ReadsFrom later pi₀ pi → ∀ i, ¬CopyFails addr n pi u i := by
  constructor
  · intro lossless pi reads i fails
    obtain ⟨r,pi',u',out,nread,ring⟩ := lossless pi reads
    obtain ⟨r',_,_,out',⟨took,_⟩ | ⟨_,never⟩⟩ := piperead_took reads addr n u
    · -- `r` bytes gone and `r + 1` bytes gone
      rw [out] at out'
      obtain ⟨rfl,rfl,rfl⟩ : r = r' ∧ pi' = _ ∧ u' = _ := by simpa using out'
      have both := took.nread.symm.trans nread
      rw [BitVec.ofNat_add,← BitVec.add_assoc] at both
      exact absurd both (by bv_omega)
    · exact never i fails
  · intro never pi reads
    obtain ⟨r,pi',u',out,⟨_,fails⟩ | ⟨took,_⟩⟩ := piperead_took reads addr n u
    · exact absurd fails (never pi reads r)
    · exact ⟨r,pi',u',out,took.nread,took.ring⟩

def oneByte : Pipe := (Pipe.alloc fun _ => 0).put 7

/-- The byte goes to address 0. -/
theorem piperead_keeps : Lossless [] 0 1 oneByte ⟨fun _ => 0,(· < maxva),by simp⟩ := by
  refine (piperead_lossless_iff [] 0 1 oneByte _).mpr fun pi _ i fails => ?_
  have first : i = 0 := by
    have wanted := fails.wanted
    omega
  subst first
  exact absurd fails.fails (by decide)

def unmapped : User := ⟨fun _ => 0,fun _ => false,by simp⟩

/-- The call returns 0, and the byte is gone. -/
theorem piperead_loses :
    oneByte.ring = [7] ∧ CopyFails 0 1 oneByte unmapped 0 ∧ ¬Lossless [] 0 1 oneByte unmapped := by
  refine ⟨rfl,⟨by decide,by decide,by simp,rfl⟩,fun lossless => ?_⟩
  obtain ⟨r,pi',u',out,nread,-⟩ := lossless oneByte ⟨[],rfl⟩
  have run : piperead [] 0 1 oneByte unmapped = some (0,oneByte.take false,unmapped) := rfl
  rw [run,Option.some.injEq,Prod.mk.injEq,Prod.mk.injEq] at out
  obtain ⟨zero,rfl,-⟩ := out
  obtain rfl : 0 = r := Int.ofNat.inj zero
  exact absurd nread (by decide)

end Xv6.Fs
