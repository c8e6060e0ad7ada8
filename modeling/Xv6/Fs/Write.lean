import Xv6.Fs.Content

/-! Writing to inodes: `writei` changes the bytes it is asked to change and no others, and its
inode has a block wherever it has bytes. -/
namespace Xv6.Fs

open Prog Function

/-- Of the contents of all inodes only bytes `lo` to `hi` of inode `i` may have changed. -/
structure Rewrites (sb : Superblock) (i lo hi : Nat) (A A' : Abs) : Prop where
  others : ∀ j, j ≠ i → A'.ino j = A.ino j
  fields : A'.ino i = { A.ino i with size := (A'.ino i).size, addrs := (A'.ino i).addrs }
  kept : ∀ j < sb.ninodes, ∀ o, A.block sb j (o / bsize) ≠ 0 → (j = i → o < lo ∨ hi ≤ o) →
    A'.block sb j (o / bsize) ≠ 0 ∧ A'.bytes sb j o = A.bytes sb j o

namespace Rewrites

variable {sb : Superblock} {i lo hi : Nat} {A B C : Abs}

theorem refl (A : Abs) : Rewrites sb i lo hi A A := ⟨fun _ _ => rfl,rfl,fun _ _ _ some _ => ⟨some,rfl⟩⟩

theorem trans (first : Rewrites sb i lo hi A B) (second : Rewrites sb i lo hi B C) : Rewrites sb i lo hi A C := by
  refine ⟨fun j ne => (second.others j ne).trans (first.others j ne),?_,fun j hj o some outside => ?_⟩
  · rw [second.fields,first.fields]
  · obtain ⟨block,bytes⟩ := first.kept j hj o some outside
    obtain ⟨block',bytes'⟩ := second.kept j hj o block outside
    exact ⟨block',bytes'.trans bytes⟩

theorem widen (part : Rewrites sb i lo hi A B) {lo' hi' : Nat} (low : lo' ≤ lo) (high : hi ≤ hi') :
    Rewrites sb i lo' hi' A B :=
  ⟨part.others,part.fields,fun j hj o some outside => part.kept j hj o some fun here => by
    have := outside here
    omega⟩

theorem of_grows (grows : Grows sb i A B) : Rewrites sb i lo hi A B := by
  refine ⟨grows.others,?_,fun j hj o some _ => ⟨?_,grows.bytes hj some⟩⟩
  · rw [grows.fields]
  · rwa [(grows.kept j hj _ some).1]

end Rewrites

section Sound

variable {sb : Superblock} {A : Abs} {i bn : Nat}

section

variable (sound : Sound sb A) (some : A.block sb i bn ≠ 0) (blk : Block)
include sound some blk

theorem Sound.setData_ptr : (A.setData (A.block sb i bn) blk).ptr sb = A.ptr sb := by
  funext ⟨j,m⟩
  by_cases hj : j < sb.ninodes
  · apply Abs.ptr_congr
    · exact fun _ _ => rfl
    · intro table
      exact update_of_ne (sound.table_ne hj some) ..
  · simp [Abs.ptr,hj]

theorem Sound.setData : Sound sb (A.setData (A.block sb i bn) blk) := by
  have ptrs := sound.setData_ptr some blk
  refine ⟨?_,sound.metadata,sound.free,fun j hj typed bn' inside => ?_,sound.fits⟩
  · rw [ptrs]
    exact sound.owned
  · have := sound.whole j hj typed bn' inside
    rwa [Abs.block,ptrs]

theorem Sound.setData_bytes {j o : Nat} (there : A.block sb j (o / bsize) ≠ 0) :
    (A.setData (A.block sb i bn) blk).bytes sb j o =
      if j = i ∧ o / bsize = bn then blk (o % bsize) else A.bytes sb j o := by
  have block : (A.setData (A.block sb i bn) blk).block sb j (o / bsize) = A.block sb j (o / bsize) := by
    rw [Abs.block,sound.setData_ptr some blk]
    rfl
  rw [Abs.bytes,block]
  by_cases here : j = i ∧ o / bsize = bn
  · rw [if_pos here,here.1,here.2]
    simp [Abs.setData]
  · rw [if_neg here]
    have ne : A.block sb j (o / bsize) ≠ A.block sb i bn := by
      intro same
      have meet := Prod.mk.inj (sound.owned.apart _ _ there same)
      exact here ⟨meet.1,place_inj meet.2⟩
    rw [Abs.bytes,Abs.setData]
    simp [ne]

end

theorem Abs.setIno_ptr {din : Dinode} (addrs : din.addrs = (A.ino i).addrs) :
    (A.setIno i din).ptr sb = A.ptr sb := by
  funext ⟨j,m⟩
  apply Abs.ptr_congr
  · intro k _
    obtain rfl | here := eq_or_ne j i
    · simp [Abs.setIno,addrs]
    · simp [Abs.setIno,here]
  · exact fun _ => rfl

theorem Sound.setIno (sound : Sound sb A) {din : Dinode} (addrs : din.addrs = (A.ino i).addrs) (fits : din.Fits)
    (free : din.type = 0 → ∀ k ≤ ndirect, din.addrs k = 0)
    (whole : din.type ≠ 0 → ∀ bn, bn * bsize < din.size → bn < maxfile ∧ A.block sb i bn ≠ 0) :
    Sound sb (A.setIno i din) := by
  have ptrs := @Abs.setIno_ptr sb A i din addrs
  have here : (A.setIno i din).ino i = din := update_self ..
  have others (j : Nat) (ne : j ≠ i) : (A.setIno i din).ino j = A.ino j := update_of_ne ne ..
  refine ⟨?_,sound.metadata,fun j hj => ?_,fun j hj => ?_,fun j hj => ?_⟩
  · rw [ptrs]
    exact sound.owned
  · obtain rfl | same := eq_or_ne j i
    · rwa [here]
    · rw [others j same]
      exact sound.free j hj
  · simp only [Abs.block,ptrs]
    obtain rfl | same := eq_or_ne j i
    · rwa [here]
    · rw [others j same]
      exact sound.whole j hj
  · by_cases same : j = i
    · rwa [same,here]
    · rw [others j same]
      exact sound.fits j hj

end Sound

/-- A copy into a block leaves the rest of the block alone; if it does not fail, it has copied
everything. -/
theorem copyin_spec (blk : Block) (o : Nat) (src : Nat → Option UInt8) (a m : Nat) :
    (∀ x, x < o ∨ o + m ≤ x → (copyin blk o src a m).2 x = blk x) ∧
    ((copyin blk o src a m).1 = true → ∀ j < m, src (a + j) = some ((copyin blk o src a m).2 (o + j))) ∧
    ((copyin blk o src a m).1 = false → ∃ j, src j = none) := by
  induction m generalizing blk o a with
  | zero => exact ⟨fun _ _ => rfl,fun _ j hj => absurd hj (Nat.not_lt_zero j),
        fun fails => absurd fails (by simp [copyin])⟩
  | succ m ih =>
    rw [copyin]
    cases byte : src a with
    | none => exact ⟨fun _ _ => rfl,fun fails => absurd fails (by simp),fun _ => ⟨a,byte⟩⟩
    | some c =>
      obtain ⟨outside,copied,fails⟩ := ih (update blk o c) (o + 1) (a + 1)
      refine ⟨fun x apart => ?_,fun all j hj => ?_,fails⟩
      · dsimp only
        rw [outside x (by omega),update_of_ne (by omega)]
      · dsimp only at all ⊢
        cases j with
        | zero =>
          simp only [Nat.add_zero]
          rw [outside o (by omega),update_self,byte]
        | succ j =>
          have next := copied all j (by omega)
          rwa [Nat.add_assoc,Nat.add_comm 1 j,Nat.add_assoc,Nat.add_comm 1 j] at next

variable {sb : Superblock} {T : Tables} {s : State} {A : Abs} {R : Multiset (Nat × Nat)}
  {L : Set (Nat × Nat)} {E : Panic → Prop} {k i : Nat}

theorem Rewrites.setData (sound : Sound sb A) {p m : Nat}
    (some : A.block sb i (p / bsize) ≠ 0) {blk : Block}
    (outside : ∀ x, x < p % bsize ∨ p % bsize + m ≤ x → blk x = A.data (A.block sb i (p / bsize)) x) :
    Rewrites sb i p (p + m) A (A.setData (A.block sb i (p / bsize)) blk) := by
  refine ⟨fun _ _ => rfl,rfl,fun j hj o there apart => ⟨?_,?_⟩⟩
  · rwa [Abs.block,sound.setData_ptr some blk]
  · rw [sound.setData_bytes some blk there]
    split
    · rename_i here
      have away := apart here.1
      rw [outside (o % bsize) ?_,Abs.bytes,here.1,here.2]
      have same := here.2
      simp only [bsize] at *
      omega
    · rfl

theorem Rewrites.resize {lo hi : Nat} (size : Nat) :
    Rewrites sb i lo hi A (A.setIno i { A.ino i with size := size }) := by
  refine ⟨fun j ne => update_of_ne ne ..,by simp [Abs.setIno],fun j _ o some _ => ?_⟩
  simp only [Abs.block,Abs.bytes,@Abs.setIno_ptr sb A i { A.ino i with size := size } rfl]
  exact ⟨some,rfl⟩

/-- There is no block for the `bn`th of an inode: it has none, and none is left. -/
structure Exhausted (sb : Superblock) (A : Abs) (i bn : Nat) : Prop where
  missing : A.block sb i bn = 0
  full : ∀ c < sb.size, A.used c = true

/-- What the loop of `writei` has done when it has got from `tot` to `r` of `n` bytes. A source
that can be read everywhere makes it stop at the end of a block, if not at the end. -/
structure Wrote (sb : Superblock) (i : Nat) (src : Nat → Option UInt8) (off n tot r : Nat) (A A' : Abs) : Prop where
  rewrites : Rewrites sb i (off + tot) (off + n) A A'
  size : (A'.ino i).size = (A.ino i).size
  lower : tot ≤ r
  upper : r ≤ n
  content : ∀ o, off + tot ≤ o → o < off + r →
    A'.block sb i (o / bsize) ≠ 0 ∧ src (o - off) = some (A'.bytes sb i o)
  stops : (∀ a, src a ≠ none) → Rewrites sb i (off + tot) (off + r) A A' ∧
    (r = tot ∨ r = n ∨ (off + r) % bsize = 0) ∧ (r = n ∨ Exhausted sb A' i ((off + r) / bsize))

theorem Wrote.none {src : Nat → Option UInt8} {off n tot : Nat} {A' : Abs} (bound : tot ≤ n) (grows : Grows sb i A A')
    (why : tot = n ∨ Exhausted sb A' i ((off + tot) / bsize)) : Wrote sb i src off n tot tot A A' :=
  ⟨Rewrites.of_grows grows,grows.size i,Nat.le_refl _,bound,fun o lower upper => by omega,
    fun _ => ⟨Rewrites.of_grows grows,.inl rfl,why⟩⟩

/-- The loop of `writei`: each turn writes to the end of a block. -/
theorem writeFrom_spec (layout : sb.Layout) (harmless : Harmless E) (locked : (k,i) ∈ L)
    (src : Nat → Option UInt8) (off n turns tot : Nat) (bound : tot ≤ n)
    (enough : n - tot ≤ turns * bsize - (off + tot) % bsize) (sound : Sound sb A) (repr : Repr sb T s A {i} R L) :
    wp (writeFrom sb k n src turns tot (off + tot)) (fun r t => ∃ A', Repr sb T t A' {i} R L ∧ Sound sb A' ∧
      Wrote sb i src off n tot r.1 A A' ∧ r.2 = off + r.1) E s := by
  induction turns generalizing tot s A with
  | zero =>
    rw [writeFrom,wp_pure]
    exact ⟨A,repr,sound,.none bound (Grows.refl A) (.inl (by omega)),rfl⟩
  | succ turns ih =>
    rw [writeFrom]
    by_cases more : tot < n
    swap
    · rw [if_neg more,wp_pure]
      exact ⟨A,repr,sound,.none bound (Grows.refl A) (.inl (by omega)),rfl⟩
    obtain ⟨_,hi,_⟩ := repr.slot k i (repr.locked k i locked).1
    rw [if_pos more]
    apply wp_seq (bmap_spec layout harmless locked sound ((off + tot) / bsize) repr)
    rintro addr t ⟨_,A₁,repr,sound₁,grows,found,exhausted⟩
    rw [Set.insert_eq_of_mem (Set.mem_singleton i)] at repr
    by_cases none : addr = 0
    · rw [if_pos none,wp_pure]
      obtain ⟨missing,full⟩ := exhausted none
      exact ⟨A₁,repr,sound₁,.none bound grows (.inr ⟨missing,full⟩),rfl⟩
    obtain rfl := found none
    obtain ⟨data,contents⟩ := repr.block sound₁ none
    obtain ⟨m,isM⟩ : ∃ m, m = min (n - tot) (bsize - (off + tot) % bsize) := ⟨_,rfl⟩
    have part := Nat.mod_lt (off + tot) (show 0 < bsize by decide)
    rw [if_neg none,wp_bind,wp_bread,contents]
    dsimp only
    rw [← isM]
    obtain ⟨outside,copied,fails⟩ := copyin_spec (A₁.data (A₁.block sb i ((off + tot) / bsize)))
      ((off + tot) % bsize) src tot m
    cases isCopy : copyin (A₁.data (A₁.block sb i ((off + tot) / bsize))) ((off + tot) % bsize) src tot m with
    | mk all blk =>
      rw [isCopy] at outside copied fails
      have written := repr.setData layout data blk
      have sound₂ := sound₁.setData none blk
      have change : Rewrites sb i (off + tot) (off + tot + m) A
          (A₁.setData (A₁.block sb i ((off + tot) / bsize)) blk) :=
        (Rewrites.of_grows grows).trans (Rewrites.setData sound₁ none outside)
      have size : ((A₁.setData (A₁.block sb i ((off + tot) / bsize)) blk).ino i).size = (A.ino i).size :=
        grows.size i
      cases all with
      | false =>
        rw [wp_bind,wp_setBlock,wp_pure]
        obtain ⟨a,unreadable⟩ := fails rfl
        exact ⟨_,written,sound₂,⟨change.widen (Nat.le_refl _) (by omega),size,Nat.le_refl _,bound,
          fun o lower upper => by omega,fun all => absurd unreadable (all a)⟩,rfl⟩
      | true =>
        simp only [wp_bind,wp_setBlock]
        apply wp_logWrite harmless
        intro log
        rw [Nat.add_assoc]
        have enough' : n - (tot + m) ≤ turns * bsize - (off + (tot + m)) % bsize := by
          rw [Nat.add_mul,Nat.one_mul] at enough
          by_cases last : m = n - tot
          · omega
          · have aligned : (off + (tot + m)) % bsize = 0 := by
              rw [show off + (tot + m) = off + tot + (bsize - (off + tot) % bsize) by omega]
              simp only [bsize] at *
              omega
            omega
        apply wp_post (ih (tot + m) (by omega) enough' sound₂ (written.log log))
        rintro r u ⟨A₃,repr,sound,rest,last⟩
        refine ⟨A₃,repr,sound,⟨?_,rest.size.trans size,by have := rest.lower; omega,rest.upper,?_,?_⟩,last⟩
        · exact (change.widen (Nat.le_refl _) (by omega)).trans (rest.rewrites.widen (by omega) (Nat.le_refl _))
        · intro o low high
          by_cases later : off + (tot + m) ≤ o
          · exact rest.content o later high
          obtain ⟨j,rfl⟩ : ∃ j, o = off + tot + j := ⟨o - (off + tot),by omega⟩
          have quotient : (off + tot + j) / bsize = (off + tot) / bsize := by
            simp only [bsize] at *
            omega
          have rem : (off + tot + j) % bsize = (off + tot) % bsize + j := by
            simp only [bsize] at *
            omega
          have there : (A₁.setData (A₁.block sb i ((off + tot) / bsize)) blk).block sb i
              ((off + tot + j) / bsize) ≠ 0 := by
            rwa [Abs.block,sound₁.setData_ptr none blk,quotient]
          obtain ⟨block,bytes⟩ := rest.rewrites.kept i hi (off + tot + j) there (fun _ => .inl (by omega))
          refine ⟨block,?_⟩
          rw [bytes,sound₁.setData_bytes none blk (by rwa [quotient]),if_pos ⟨rfl,quotient⟩,rem]
          have := copied rfl j (by omega)
          rwa [show off + tot + j - off = tot + j by omega]
        · intro all
          have lower := rest.lower
          obtain ⟨part',aligned,why⟩ := rest.stops all
          refine ⟨(change.widen (Nat.le_refl _) (by omega)).trans (part'.widen (by omega) (Nat.le_refl _)),.inr ?_,why⟩
          rcases aligned with here | there
          · by_cases done : tot + m = n
            · exact .inl (here.trans done)
            · refine .inr ?_
              rw [here,show off + (tot + m) = off + tot + (bsize - (off + tot) % bsize) by omega]
              simp only [bsize]
              omega
          · exact there

/-- `writei` writes `n` bytes from `off` on, as many as there is room and source for, and the
file grows to hold them. -/
theorem writei_spec (layout : sb.Layout) (harmless : Harmless E) (locked : (k,i) ∈ L) (sound : Sound sb A)
    (src : Nat → Option UInt8) (off n : Nat) (repr : Repr sb T s A ∅ R L) :
    wp (writei sb k src off n) (fun r t => ∃ A', Repr sb T t A' ∅ R L ∧ Sound sb A' ∧
      Rewrites sb i off (off + n) A A' ∧ (r = -1 ∧ A' = A ∧ (off ≤ (A.ino i).size → maxfile * bsize < off + n) ∨
        ∃ tot : Nat, r = tot ∧ tot ≤ n ∧
        off ≤ (A.ino i).size ∧ (A'.ino i).size = max (A.ino i).size (off + tot) ∧
        (∀ o, off ≤ o → o < off + tot → src (o - off) = some (A'.bytes sb i o)) ∧
        ((∀ a, src a ≠ none) → Rewrites sb i off (off + tot) A A' ∧ (tot = 0 ∨ tot = n ∨ (off + tot) % bsize = 0) ∧
          (tot = n ∨ Exhausted sb A' i ((off + tot) / bsize))))) E s := by
  obtain ⟨hi,din,_⟩ := repr.at_locked locked
  rw [writei,wp_bind,wp_getInode,din]
  by_cases outside : (A.ino i).size < off ∨ (off + n) % 2 ^ 32 < off
  · rw [if_pos outside,wp_pure]
    have limit : maxfile * bsize < 2 ^ 32 := by decide
    exact ⟨A,repr,sound,Rewrites.refl A,.inl ⟨rfl,rfl,fun start => by omega⟩⟩
  rw [if_neg outside]
  by_cases large : maxfile * bsize < off + n
  · rw [if_pos large,wp_pure]
    exact ⟨A,repr,sound,Rewrites.refl A,.inl ⟨rfl,rfl,fun _ => large⟩⟩
  rw [if_neg large]
  have enough : n - 0 ≤ (n / bsize + 2) * bsize - (off + 0) % bsize := by
    have := Nat.mod_lt off (show 0 < bsize by decide)
    simp only [bsize] at *
    omega
  apply wp_seq (writeFrom_spec layout harmless locked src off n (n / bsize + 2) 0 (Nat.zero_le n) enough sound
    (repr.dirty (Set.empty_subset {i})))
  rintro ⟨tot,last⟩ t ⟨A₁,repr,sound₁,wrote,isLast⟩
  obtain rfl : last = off + tot := isLast
  obtain ⟨_,din,typed⟩ := repr.at_locked locked
  have start : off ≤ (A.ino i).size := by omega
  have bound : tot ≤ n := wrote.upper
  simp only [wp_bind,wp_getInode,din,wrote.size]
  by_cases grows : (A.ino i).size < off + tot
  · rw [if_pos grows]
    have limit : maxfile * bsize < 2 ^ 32 := by decide
    have whole : ∀ bn, bn * bsize < off + tot → bn < maxfile ∧ A₁.block sb i bn ≠ 0 := by
      intro bn below
      refine ⟨Nat.lt_of_mul_lt_mul_right (Nat.lt_of_lt_of_le below (by omega)),?_⟩
      by_cases old : bn * bsize < (A.ino i).size
      · exact (sound₁.whole i hi typed bn (by rwa [wrote.size])).2
      · have := (wrote.content (bn * bsize) (by omega) below).1
        rwa [Nat.mul_div_cancel bn (show 0 < bsize by decide)] at this
    have fits := sound₁.fits i hi
    have resized := @Sound.setIno sb A₁ i sound₁ { A₁.ino i with size := off + tot } rfl
      ⟨fits.type,fits.major,fits.minor,fits.nlink,by dsimp only; omega,fits.addrs,fits.beyond⟩
      (fun zero => absurd zero typed) (fun _ => whole)
    apply wp_seq (setDinode_spec locked (by exact typed) repr)
    intro _ u repr
    apply wp_seq (iupdate_spec layout harmless locked (resized.fits i hi) repr)
    intro _ v repr
    rw [wp_pure]
    refine ⟨_,repr.dirty (by simp),resized,wrote.rewrites.trans (Rewrites.resize _),
      .inr ⟨tot,rfl,bound,start,?_,fun o lower upper => ?_,fun all => ?_⟩⟩
    · simp only [Abs.setIno,update_self]
      omega
    · rw [Abs.bytes,Abs.block,@Abs.setIno_ptr sb A₁ i { A₁.ino i with size := off + tot } rfl]
      exact (wrote.content o lower upper).2
    · obtain ⟨part,stops,why⟩ := wrote.stops all
      refine ⟨part.trans (Rewrites.resize _),stops,why.imp id fun short => ⟨?_,short.2⟩⟩
      rw [Abs.block,@Abs.setIno_ptr sb A₁ i { A₁.ino i with size := off + tot } rfl]
      exact short.1
  · rw [if_neg grows]
    apply wp_seq (iupdate_spec layout harmless locked (sound₁.fits i hi) repr)
    intro _ v repr
    rw [wp_pure]
    exact ⟨A₁,repr.dirty (by simp),sound₁,wrote.rewrites,.inr ⟨tot,rfl,bound,start,by rw [wrote.size]; omega,
      fun o lower upper => (wrote.content o lower upper).2,wrote.stops⟩⟩

end Xv6.Fs
