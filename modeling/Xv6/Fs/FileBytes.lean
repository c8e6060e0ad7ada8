import Xv6.Fs.Check

/-! A file is an array of bytes: what `writei` and `readi` do, from the side of their caller. -/
namespace Xv6.Fs

open Prog

/-! Room in the log. -/

/-- A transaction is open and the log has room for `m` more calls of `log_write`. -/
structure Roomy (log : Log) (m : Nat) : Prop where
  opened : 1 ≤ log.outstanding
  header : log.lh.length + m ≤ logSize
  blocks : (log.lh.length : Int) + m ≤ log.size - 1

section Cost

variable {sb : Superblock} {s : State} {m : Nat} {α : Type}

/-- `log_write` panics. -/
def Panic.inLog (e : Panic) : Prop := e = .tooBig ∨ e = .outsideTrans

/-- The call makes at most `c` calls of `log_write`, and nothing but too little room for them keeps it from returning. -/
def Costs (c : Nat) (x : Kernel α) : Prop :=
  ∀ s, wp x (fun _ t => ∀ m, Roomy s.log (c + m) → Roomy t.log m) (fun e => e.inLog ∧ ¬Roomy s.log c) s

theorem Roomy.fewer {log : Log} {n : Nat} (roomy : Roomy log n) (less : m ≤ n) : Roomy log m :=
  ⟨roomy.opened,by have := roomy.header; omega,by have := roomy.blocks; omega⟩

namespace Costs

variable {β : Type} {c d : Nat} {x : Kernel α}

theorem full {Q : α → State → Prop} (costs : Costs c x) (spec : wp x Q (fun _ => True) s) :
    wp x Q (fun e => e.inLog ∧ ¬Roomy s.log c) s :=
  wp_mono (wp_and spec (costs s)) (fun _ _ => And.left) fun _ => And.right

theorem needs {Q : α → State → Prop} (costs : Costs c x) (spec : wp x Q (fun _ => True) s) :
    wp x Q (fun _ => ¬Roomy s.log c) s :=
  wp_mono (costs.full spec) (fun _ _ => id) fun _ => And.right

theorem returns (costs : Costs c x) (roomy : Roomy s.log c) : wp x (fun _ _ => True) (fun _ => False) s :=
  wp_mono (costs s) (fun _ _ _ => trivial) fun _ error => error.2 roomy

theorem free (same : wp x (fun _ t => t.log = s.log) (fun _ => False) s) :
    wp x (fun _ t => ∀ m, Roomy s.log (0 + m) → Roomy t.log m) (fun e => e.inLog ∧ ¬Roomy s.log 0) s := by
  refine wp_mono same (fun _ t same m roomy => ?_) fun _ => False.elim
  rw [same]
  rwa [Nat.zero_add] at roomy

theorem pure (a : α) : Costs 0 (pure a : Kernel α) := fun _ => free rfl

theorem bind {f : α → Kernel β} (first : Costs c x) (rest : ∀ a, Costs d (f a)) : Costs (c + d) (x >>= f) := by
  intro s
  rw [wp_bind]
  refine wp_mono (first s) (fun a t left => wp_mono (rest a t) (fun _ u after m roomy => ?_) ?_) ?_
  · exact after m (left (d + m) (by rwa [← Nat.add_assoc]))
  · exact fun e error => ⟨error.1,fun roomy => error.2 (left d roomy)⟩
  · exact fun e error => ⟨error.1,fun roomy => error.2 (roomy.fewer (Nat.le_add_right c d))⟩

theorem mono (costs : Costs c x) (more : c ≤ d) : Costs d x := by
  intro s
  refine wp_mono (costs s) (fun _ t left m roomy => ?_) fun e error => ⟨error.1,fun roomy => error.2 (roomy.fewer more)⟩
  exact (left (d - c + m) (roomy.fewer (by omega))).fewer (by omega)

theorem asks (g : State → α) : Costs 0 (asks g : Kernel α) := fun _ => free rfl

theorem setBlock (b : Nat) (blk : Block) : Costs 0 (setBlock b blk) := fun s => free (by rw [wp_setBlock]; rfl)

theorem setDinode (k : Nat) (f : Dinode → Dinode) : Costs 0 (setDinode k f) := fun s => free (by
  rw [Fs.setDinode,wp_bind,wp_getInode,wp_setInode]
  rfl)

theorem logWrite (b : Nat) : Costs 1 (logWrite b) := by
  intro s
  simp only [Fs.logWrite,wp_bind,wp_get,wp_ite,wp_fail,wp_modify]
  split
  · refine ⟨.inl rfl,fun roomy => ?_⟩
    have header := roomy.header
    have blocks := roomy.blocks
    omega
  · split
    · refine ⟨.inr rfl,fun roomy => ?_⟩
      have := roomy.opened
      omega
    · intro m roomy
      have header := roomy.header
      have blocks := roomy.blocks
      have grown : (Log.absorb s.log.lh b).length ≤ s.log.lh.length + 1 := by
        unfold Log.absorb
        split <;> simp
      exact ⟨roomy.opened,by dsimp only; omega,by dsimp only; omega⟩

theorem bzero (b : Nat) : Costs 1 (bzero b) := (asks _).bind fun _ => (setBlock _ _).bind fun _ => logWrite b

theorem ballocFrom (sb : Superblock) (n b : Nat) : Costs 2 (ballocFrom sb n b) := by
  induction n generalizing b with
  | zero => exact (pure 0).mono (by omega)
  | succ n ih =>
    rw [Fs.ballocFrom]
    refine ((asks _).bind (d := 2) fun blk => ?_).mono (Nat.le_refl _)
    cases clearFrom blk (min bpb (sb.size - b)) 0 with
    | none => exact ih (b + bpb)
    | some bi =>
      exact (setBlock _ _).bind fun _ => (logWrite _).bind fun _ => (bzero _).bind fun _ => pure _

theorem balloc (sb : Superblock) : Costs 2 (balloc sb) := ballocFrom sb _ 0

theorem ite {p : Prop} [Decidable p] {y : Kernel α} (left : Costs c x) (right : Costs c y) :
    Costs c (if p then x else y) := by
  split
  · exact left
  · exact right

theorem bmapTable (sb : Superblock) (k : Nat) : Costs 2 (bmapTable sb k) := by
  rw [Fs.bmapTable,bmapTableWith]
  refine (asks _).bind (d := 2) fun ip => ?_
  refine ite ((pure _).mono (by omega)) ?_
  refine (balloc sb).bind fun addr => ite (pure 0) ?_
  exact (setDinode _ _).bind fun _ => pure _

theorem bmap (sb : Superblock) (k : Nat) {bn : Nat} (bound : bn < maxfile) : Costs 5 (bmap sb k bn) := by
  rw [Fs.bmap,bmapWith]
  refine (asks _).bind (d := 5) fun ip => ?_
  by_cases direct : bn < ndirect
  · rw [if_pos direct]
    refine ite ((pure _).mono (by omega)) ?_
    refine Costs.mono ((balloc sb).bind fun addr => ite (pure 0) ?_) (by omega : 2 ≤ 5)
    exact (setDinode _ _).bind fun _ => pure _
  · rw [if_neg direct]
    have inside : bn - ndirect < nindirect := by
      simp only [maxfile] at bound
      omega
    dsimp only
    rw [if_pos inside]
    refine (bmapTable sb k).bind (d := 3) fun table => ite ((pure 0).mono (by omega)) ?_
    refine (asks _).bind (d := 3) fun a => ite ((pure _).mono (by omega)) ?_
    refine (balloc sb).bind (d := 1) fun addr => ite ((pure 0).mono (by omega)) ?_
    exact (asks _).bind fun a => (setBlock _ _).bind fun _ => (logWrite _).bind fun _ => pure _

theorem iupdate (sb : Superblock) (k : Nat) : Costs 1 (iupdate sb k) :=
  (asks _).bind fun _ => (asks _).bind fun _ => (setBlock _ _).bind fun _ => logWrite _

/-- The loop of `writei` makes at most six calls for each block it comes to. -/
theorem writeFrom (sb : Superblock) (k : Nat) (src : Nat → Option UInt8) {off n : Nat} (fits : off + n ≤ maxfile * bsize)
    (turns tot : Nat) {c : Nat} (enough : tot < n → 6 * (((off + tot) % bsize + (n - tot) + (bsize - 1)) / bsize) ≤ c) :
    Costs c (writeFrom sb k n src turns tot (off + tot)) := by
  induction turns generalizing tot c with
  | zero => exact (pure _).mono (Nat.zero_le c)
  | succ turns ih =>
    rw [Fs.writeFrom]
    by_cases more : tot < n
    swap
    · rw [if_neg more]
      exact (pure _).mono (Nat.zero_le c)
    have bound : (off + tot) / bsize < maxfile := by
      simp only [maxfile,bsize,ndirect,nindirect] at *
      omega
    obtain ⟨m,isM⟩ : ∃ m, m = min (n - tot) (bsize - (off + tot) % bsize) := ⟨_,rfl⟩
    have cost := enough more
    have part := Nat.mod_lt (off + tot) (show 0 < bsize by decide)
    have least : 6 ≤ c := by
      simp only [bsize] at *
      omega
    have rest : tot + m < n → 6 * (((off + (tot + m)) % bsize + (n - (tot + m)) + (bsize - 1)) / bsize) ≤ c - 6 := by
      intro more
      simp only [bsize] at *
      omega
    rw [if_pos more]
    dsimp only
    rw [← isM]
    refine Costs.mono ((bmap sb k bound).bind (d := c - 5) fun addr => ite ((pure _).mono (Nat.zero_le _)) ?_) (by omega)
    refine Costs.mono ((asks _).bind (d := c - 5) fun blk => ?_) (by omega)
    cases copyin blk ((off + tot) % bsize) src tot m with
    | mk all blk =>
      cases all with
      | false => exact Costs.mono ((setBlock _ _).bind fun _ => pure _) (Nat.zero_le _)
      | true =>
        refine Costs.mono ((setBlock _ _).bind fun _ => (logWrite _).bind (d := c - 6) fun _ => ?_) (by omega)
        have next := ih (tot + m) rest
        rwa [← Nat.add_assoc] at next

theorem writei (sb : Superblock) (k : Nat) (src : Nat → Option UInt8) (off n : Nat) :
    Costs (6 * ((off % bsize + n + (bsize - 1)) / bsize) + 1) (writei sb k src off n) := by
  rw [Fs.writei]
  refine Costs.mono ((asks _).bind (d := 6 * ((off % bsize + n + (bsize - 1)) / bsize) + 1) fun ip => ?_) (by omega)
  refine ite ((pure _).mono (by omega)) ?_
  by_cases large : maxfile * bsize < off + n
  · rw [if_pos large]
    exact (pure _).mono (by omega)
  rw [if_neg large]
  have loop := writeFrom sb k src (Nat.not_lt.mp large) (n / bsize + 2) 0 (fun _ => Nat.le_refl _)
  refine loop.bind (d := 1) fun done => Costs.mono ((asks _).bind (d := 1) fun ip => ?_) (by omega)
  have finish : Costs 1 (do
      Fs.iupdate sb k
      return (done.1 : Int)) := (iupdate sb k).bind fun _ => pure _
  exact ite (((setDinode _ _).bind fun _ => finish).mono (by omega)) finish

end Costs

end Cost

/-! Files. -/

section Files

variable {sb : Superblock} {T : Tables} {s : State} {A A' : Abs} {R : Multiset (Nat × Nat)} {L : Set (Nat × Nat)}
  {k i : Nat}

/-- What `readi` returns for a file with these contents. -/
def ReadsAs (sb : Superblock) (s : State) (k size : Nat) (content : Bytes.Storage) : Prop :=
  ∀ off n dst, off ≤ size → off + n < 2 ^ 32 → (readi sb k dst (fun _ => true) off n).run s =
    .ok ((min n (size - off),Bytes.copy dst 0 content off (min n (size - off))),s)

theorem ReadsAs.congr {size : Nat} {content content' : Bytes.Storage} (reads : ReadsAs sb s k size content)
    (same : ∀ o < size, content o = content' o) : ReadsAs sb s k size content' := by
  intro off n dst start small
  rw [reads off n dst start small]
  congr 3
  funext j
  simp only [Bytes.copy]
  split
  · rw [same _ (by omega)]
  · rfl

def SameFile (sb : Superblock) (A A' : Abs) (j : Nat) : Prop :=
  A'.ino j = A.ino j ∧ ((A.ino j).type ≠ 0 → ∀ o < (A.ino j).size, A'.bytes sb j o = A.bytes sb j o)

theorem Rewrites.sameFile {lo hi j : Nat} (rewrites : Rewrites sb i lo hi A A') (sound : Sound sb A)
    (hj : j < sb.ninodes) (other : j ≠ i) : SameFile sb A A' j := by
  refine ⟨rewrites.others j other,fun typed o inside => ?_⟩
  have block := (sound.whole j hj typed (o / bsize) (by
    have := Nat.div_mul_le_self o bsize
    omega)).2
  exact (rewrites.kept j hj o block fun same => absurd same other).2

/-- `readi` returns the bytes between `off` and the end of the file, as many as asked for, and
changes nothing. -/
theorem reads_bytes (repr : Repr sb T s A ∅ R L) (sound : Sound sb A) (locked : (k,i) ∈ L) :
    ReadsAs sb s k (A.ino i).size (A.bytes sb i) := fun _ _ dst first small => readi_run locked sound repr first small dst

/-- A file reads as its bytes. `writei` returns the number of bytes that it found blocks for, unless `log_write` panics
for lack of room in the log; the file then reads as before with these bytes replaced, and other files are as before. -/
theorem file_bytes (layout : sb.Layout) (repr : Repr sb T s A ∅ R L) (sound : Sound sb A) (locked : (k,i) ∈ L) :
    ReadsAs sb s k (A.ino i).size (A.bytes sb i) ∧
    ∀ (src : Bytes.Storage) (off n : Nat), off ≤ (A.ino i).size → off + n ≤ maxfile * bsize →
      wp (writei sb k (fun a => some (src a)) off n) (fun r t => ∃ (tot : Nat) (A' : Abs), r = tot ∧
        Repr sb T t A' ∅ R L ∧ Sound sb A' ∧
        (tot = n ∨ tot < n ∧ (tot = 0 ∨ (off + tot) % bsize = 0) ∧ Exhausted sb A' i ((off + tot) / bsize)) ∧
        (A'.ino i).size = max (A.ino i).size (off + tot) ∧
        ReadsAs sb t k (A'.ino i).size (Bytes.copy (A.bytes sb i) off src 0 tot) ∧
        ∀ j < sb.ninodes, j ≠ i → SameFile sb A A' j)
      (fun e => e.inLog ∧ ¬Roomy s.log (6 * ((off % bsize + n + (bsize - 1)) / bsize) + 1)) s := by
  refine ⟨reads_bytes repr sound locked,fun src off n start fits => ?_⟩
  have spec := writei_spec layout always locked sound (fun a => some (src a)) off n repr
  refine (Costs.writei sb k (fun a => some (src a)) off n).full (wp_post spec ?_)
  rintro r t ⟨A',repr',sound',_,⟨_,_,large⟩ | ⟨tot,rfl,upper,_,size,content,stops⟩⟩
  · exact absurd (large start) (by omega)
  obtain ⟨part,aligned,why⟩ := stops fun a => by simp
  obtain ⟨_,hi,_⟩ := repr.slot k i (repr.locked k i locked).1
  have typed := (repr.valid k i (repr.locked k i locked).1 (repr.locked k i locked).2).2
  refine ⟨tot,A',rfl,repr',sound',?_,size,?_,fun j hj other => part.sameFile sound hj other⟩
  · rcases why with all | exhausted
    · exact .inl all
    · by_cases all : tot = n
      · exact .inl all
      · exact .inr ⟨by omega,by omega,exhausted⟩
  · refine (reads_bytes repr' sound' locked).congr fun o inside => ?_
    by_cases written : off ≤ o ∧ o < off + tot
    · obtain ⟨j,rfl⟩ : ∃ j, o = off + j := ⟨o - off,by omega⟩
      have byte := content (off + j) written.1 written.2
      rw [Nat.add_sub_cancel_left] at byte
      rw [Bytes.copy_inside (by omega),Nat.zero_add]
      exact (Option.some.inj byte).symm
    · have block := (sound.whole i hi typed (o / bsize) (by
        have := Nat.div_mul_le_self o bsize
        omega)).2
      rw [Bytes.copy_outside (by omega)]
      exact (part.kept i hi o block fun _ => by omega).2

/-! Concrete files. -/

/-- A transaction is open and one inode is locked, with its only reference. -/
def holding (sb : Superblock) (image : Disk) (i : Nat) : State where
  disk := image
  log := ⟨sb.logstart,sb.nlog,1,false,[]⟩
  itable k := if k = 0 then ⟨i,1,true,true,dinode sb image i⟩ else ⟨0,0,false,false,Dinode.blank 0⟩
  ftable _ := ⟨.none,0,false,false,0,0,0⟩
  proc _ := none

theorem holding_repr {image : Disk} (hi : i < sb.ninodes) (typed : (dinode sb image i).type ≠ 0) :
    Repr sb (holding sb image i).tables (holding sb image i) (ofDisk sb image) ∅ {(0,i)} {(0,i)} := by
  refine ⟨fun j _ _ => rfl,fun b _ => rfl,fun b _ => rfl,fun k j member => ?_,fun k _ => ?_,fun k j member _ => ?_,
    fun k l j left right => ?_,fun k j member => ?_,rfl⟩
  · obtain ⟨rfl,rfl⟩ := Prod.mk.inj (Multiset.mem_singleton.mp member)
    exact ⟨by decide,hi,rfl⟩
  · obtain rfl | first := eq_or_ne k 0
    · simp [holding]
    · simp [holding,first]
  · obtain ⟨rfl,rfl⟩ := Prod.mk.inj (Multiset.mem_singleton.mp member)
    exact ⟨rfl,typed⟩
  · rw [(Prod.mk.inj (Multiset.mem_singleton.mp left)).1,(Prod.mk.inj (Multiset.mem_singleton.mp right)).1]
  · obtain ⟨rfl,rfl⟩ := Prod.mk.inj (Set.mem_singleton_iff.mp member)
    exact ⟨Multiset.mem_singleton_self _,rfl⟩

def wideSb : Superblock := ⟨80,46,8,30,2,32,33⟩

theorem wide_layout : wideSb.Layout := ⟨by decide,by decide,by decide,by decide,by decide⟩

theorem wide_sound : Sound wideSb (ofDisk wideSb twice) :=
  sound_of_owner wide_layout (fun b => (b - 33,0)) (by decide +kernel) (by decide +kernel) (by decide +kernel)

theorem wide_repr : Repr wideSb (holding wideSb twice 2).tables (holding wideSb twice 2) (ofDisk wideSb twice) ∅
    {(0,2)} {(0,2)} := holding_repr (by decide) (by decide +kernel)

/-- Thirteen blocks go into an empty file, the last of them through the indirect block. -/
theorem wide_bytes : ∃ t, (writei wideSb 0 (fun _ => some 7) 0 (13 * bsize)).run (holding wideSb twice 2) =
    .ok (13312,t) ∧ ReadsAs wideSb t 0 13312 (fun _ => 7) := by
  have seen : ((writei wideSb 0 (fun _ => some 7) 0 (13 * bsize)).run (holding wideSb twice 2)).toOption.map Prod.fst =
      some 13312 := by decide +kernel
  obtain ⟨r,t,ran,rfl⟩ := run_of_seen seen
  -- for any count, so that nothing is evaluated here
  have spec (n : Nat) (fits : 0 + n ≤ maxfile * bsize) {r : Int} {t : State}
      (ran : (writei wideSb 0 (fun _ => some 7) 0 n).run (holding wideSb twice 2) = .ok (r,t)) :=
    wp_ok ((file_bytes wide_layout wide_repr wide_sound rfl).2 (fun _ => 7) 0 n (Nat.zero_le _) fits) ran
  obtain ⟨tot,A',count,_,_,_,size,reads,_⟩ := spec (13 * bsize) (by decide) ran
  obtain rfl : tot = 13312 := by omega
  have empty : ((ofDisk wideSb twice).ino 2).size = 0 := by decide +kernel
  rw [size,empty,Nat.zero_add,Nat.zero_max] at reads
  refine ⟨t,ran,reads.congr fun o inside => ?_⟩
  exact if_pos ⟨Nat.zero_le o,by rwa [Nat.zero_add]⟩

/-- Thirty blocks are more than the log holds. -/
theorem long_write_panics : Sound wideSb (ofDisk wideSb twice) ∧
    Repr wideSb (holding wideSb twice 2).tables (holding wideSb twice 2) (ofDisk wideSb twice) ∅ {(0,2)} {(0,2)} ∧
    0 ≤ ((ofDisk wideSb twice).ino 2).size ∧ 0 + 30 * bsize ≤ maxfile * bsize ∧
    errorOf (writei wideSb 0 (fun _ => some 7) 0 (30 * bsize)) (holding wideSb twice 2) = some .tooBig :=
  ⟨wide_sound,wide_repr,Nat.zero_le _,by decide,by decide +kernel⟩

end Files

end Xv6.Fs
