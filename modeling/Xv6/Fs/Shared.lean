import Xv6.Runs
import Xv6.Fs.FileBytes
import Xv6.Fs.Steps

/-! Processes that read and write through one `struct file` of type `FD_INODE`. Between `ilock` and `iunlock` nobody
else uses the inode or `f->off`, so what is done there is one step: a read, or one turn of the loop of `filewrite`. -/
namespace Xv6.Fs

open Prog Function

section Model

variable (sb : Superblock)

/-- One turn of the loop of `filewrite`; it returns what `writei` returns. -/
def writeChunk (f : Nat) (src : Nat → Option UInt8) (n1 : Nat) : Kernel Int := do
  beginOp
  let file ← getFile f
  ilock sb file.ip
  let r ← writei sb file.ip src file.off n1
  if r > 0 then setFile f { file with off := (file.off + r.toNat) % 2 ^ 32 }
  iunlock file.ip
  endOp
  return r

def readChunk (f : Nat) (dst : Bytes.Storage) (ok : Nat → Bool) (n : Nat) : Kernel (Int × Bytes.Storage) := do
  let file ← getFile f
  ilock sb file.ip
  let (r,dst) ← readi sb file.ip dst ok file.off n
  if r > 0 then setFile f { file with off := (file.off + r.toNat) % 2 ^ 32 }
  iunlock file.ip
  return (r,dst)

/-- A call of `filewrite`, which has a source, or of `fileread`; `i` bytes are done. -/
structure FileCall where
  number : Nat
  src : Option (Nat → UInt8)
  n : Nat
  i : Nat

/-- A transfer between the bytes of a call from `first` on and those of the file from `start` on. -/
structure Chunk where
  call : Nat
  src : Option (Nat → UInt8)
  first : Nat
  start : Nat
  length : Nat

/-- The calls under way, how many there were, and the transfers in the order in which they were made. -/
structure Sharing where
  fs : State
  calls : Nat → Option FileCall
  count : Nat
  trace : List Chunk

inductive FileAction
  | filewrite (p : Nat) (src : Nat → UInt8) (n : Nat)
  | fileread (p n : Nat)
  | next (p : Nat)

namespace Sharing

def call (s : Sharing) (p : Nat) (src : Option (Nat → UInt8)) (n : Nat) : Option Sharing :=
  if s.calls p = none ∧ n < 2 ^ 31 then
    some { s with calls := update s.calls p (some ⟨s.count,src,n,0⟩), count := s.count + 1 }
  else none

def advance (f : Nat) (s : Sharing) (p : Nat) (c : FileCall) (r : Int) (fs : State) (rest : Option FileCall) : Sharing :=
  { s with
    fs
    calls := update s.calls p rest
    trace := if r > 0 then s.trace ++ [⟨c.number,c.src,c.i,(s.fs.ftable f).off,r.toNat⟩] else s.trace }

def step (f : Nat) (s : Sharing) : FileAction → Option Sharing
  | .filewrite p src n => s.call p (some src) n
  | .fileread p n => s.call p none n
  | .next p =>
    match s.calls p with
    | none => none
    | some c =>
      match c.src with
      | none =>
        (resultOf (readChunk sb f (fun _ => 0) (fun _ => true) c.n) s.fs).map fun ((r,_),fs) => s.advance f p c r fs none
      | some src =>
        let n1 := min (c.n - c.i) writeMax
        if c.i < c.n then
          (resultOf (writeChunk sb f (fun a => some (src (c.i + a))) n1) s.fs).map fun (r,fs) =>
            s.advance f p c r fs (if r ≠ n1 then none else some { c with i := c.i + n1 })
        else some { s with calls := update s.calls p none }

end Sharing

end Model

/-! What a chunk does. -/

section Chunks

variable {sb : Superblock} {s : State} {A : Abs} {R : Multiset (Nat × Nat)} {L : Set (Nat × Nat)} {k i f : Nat}

theorem Repr.setTables {T : Tables} {D : Set Nat} (repr : Repr sb T s A D R L) (T' : Tables) :
    Repr sb T' { s with ftable := T'.file, proc := T'.proc } A D R L :=
  ⟨repr.inodes,repr.bits,repr.data,repr.slot,repr.refs,repr.valid,repr.unique,repr.locked,rfl⟩

/-- The files and processes are as they were, but the offset of `f` has advanced by `r`. -/
def Advanced (f r : Nat) (s t : State) : Prop :=
  t.tables = s.tables.setFile f { s.ftable f with off := (s.ftable f).off + r }

theorem unlock_spec {α : Type} {x : Kernel α} {r : Int} {t : State} (repr : Repr sb s.tables t A ∅ R L)
    (small : (s.ftable f).off + r.toNat < 2 ^ 32) {Q : α → State → Prop}
    (rest : ∀ u, Repr sb u.tables u A ∅ R L → (u.itable k).locked = false → Advanced f r.toNat s u →
      wp x Q (fun _ => True) u) :
    wp (do
      if r > 0 then setFile f { s.ftable f with off := ((s.ftable f).off + r.toNat) % 2 ^ 32 }
      iunlock k
      x) Q (fun _ => True) t := by
  have finish (u : State) (repr : Repr sb u.tables u A ∅ R L) (advanced : Advanced f r.toNat s u) :
      wp (do
        iunlock k
        x) Q (fun _ => True) u := by
    simp only [iunlock,wp_bind,wp_getInode,wp_ite,wp_fail,wp_setInode]
    split
    · trivial
    · exact rest _ (repr.setLock false) (by simp) advanced
  have same := repr.tables
  split
  · rw [wp_bind]
    refine finish _ (repr.setTables _) ?_
    have file : t.ftable = s.ftable := congrArg Tables.file same
    have proc : t.proc = s.proc := congrArg Tables.proc same
    rw [Nat.mod_eq_of_lt small]
    simp only [Advanced,State.tables,Tables.setFile,file,proc]
  · rename_i none
    refine finish t (same ▸ repr) ?_
    have zero : r.toNat = 0 := by omega
    rw [Advanced,same,zero]
    simp [Tables.setFile,State.tables]

/-- What a chunk that has written the first `tot` bytes of `src` at `off` does to the file. -/
structure Written (sb : Superblock) (i off : Nat) (src : Nat → UInt8) (tot : Nat) (A A' : Abs) : Prop where
  type : (A'.ino i).type = (A.ino i).type
  grows : (A.ino i).size ≤ (A'.ino i).size
  inside : 0 < tot → off + tot ≤ (A'.ino i).size
  rewrites : Rewrites sb i off (off + tot) A A'
  content : ∀ j < tot, A'.bytes sb i (off + j) = src j

theorem wp_getFile_iff {E : Panic → Prop} {Q : File → State → Prop} : wp (getFile f) Q E s ↔ Q (s.ftable f) s :=
  Iff.rfl

theorem writei_written (layout : sb.Layout) {T : Tables} (repr : Repr sb T s A ∅ R L) (sound : Sound sb A)
    (locked : (k,i) ∈ L) (src : Nat → UInt8) (off n : Nat) :
    wp (writei sb k (fun a => some (src a)) off n) (fun r t => ∃ A', Repr sb T t A' ∅ R L ∧ Sound sb A' ∧
      r.toNat ≤ n ∧ Written sb i off src r.toNat A A') (fun _ => True) s := by
  apply wp_post (writei_spec layout always locked sound (fun a => some (src a)) off n repr)
  rintro r t ⟨A',repr',sound',-,⟨rfl,rfl,-⟩ | ⟨tot,rfl,bound,start,size,content,stops⟩⟩
  · refine ⟨A',repr',sound',Nat.zero_le _,rfl,le_rfl,fun some => ?_,.refl A',fun j below => ?_⟩
    · exact absurd some (by decide)
    · exact absurd below (Nat.not_lt_zero j)
  · obtain ⟨rewrites,-⟩ := stops fun a => by simp
    refine ⟨A',repr',sound',bound,?_,?_,fun _ => ?_,rewrites,fun j below => ?_⟩
    · rw [rewrites.fields]
    · rw [size]
      exact le_max_left _ _
    · rw [size]
      exact le_max_right _ _
    · have byte := content (off + j) (by omega) (by simpa using below)
      rw [Nat.add_sub_cancel_left] at byte
      exact (Option.some.inj byte).symm

theorem writeChunk_spec (layout : sb.Layout) (repr : Repr sb s.tables s A ∅ R L) (sound : Sound sb A)
    (member : (k,i) ∈ R) (typed : (A.ino i).type ≠ 0) (ip : (s.ftable f).ip = k) (src : Nat → UInt8) (n1 : Nat)
    (offset : (s.ftable f).off < 2 ^ 32) :
    wp (writeChunk sb f (fun a => some (src a)) n1) (fun r t => ∃ A' L', Repr sb t.tables t A' ∅ R L' ∧ Sound sb A' ∧
      (t.itable k).locked = false ∧ Advanced f r.toNat s t ∧ r.toNat ≤ n1 ∧
      Written sb i (s.ftable f).off src r.toNat A A') (fun _ => True) s := by
  subst ip
  have hi := (repr.slot _ i member).2.1
  have begun : wp beginOp (fun _ t => Repr sb s.tables t A ∅ R L) (fun _ => True) s := by
    simp only [beginOp,wp_bind,wp_get,wp_ite,wp_fail,wp_modify]
    split
    · trivial
    · exact repr.log _
  rw [writeChunk]
  apply wp_seq begun
  intro _ t repr
  have file : t.ftable = s.ftable := congrArg Tables.file repr.tables
  rw [wp_bind,wp_getFile_iff,file]
  apply wp_seq (ilock_spec always member (Set.notMem_empty i) (.inl typed) repr)
  rintro _ u ⟨repr,-⟩
  apply wp_seq (writei_written layout repr sound (Set.mem_insert ..) src _ n1)
  rintro r v ⟨A',repr,sound,bound,written⟩
  have small : (s.ftable f).off + r.toNat < 2 ^ 32 := by
    by_cases none : r.toNat = 0
    · omega
    · have limit : maxfile * bsize < 2 ^ 32 := by decide
      have := written.inside (by omega)
      have := sound.size_le hi (by rwa [written.type])
      omega
  refine unlock_spec repr small fun w repr unlocked advanced => ?_
  rw [wp_bind]
  exact ⟨A',_,repr.log _,sound,unlocked,advanced,bound,written⟩

theorem readChunk_spec (repr : Repr sb s.tables s A ∅ R L) (sound : Sound sb A)
    (member : (k,i) ∈ R) (typed : (A.ino i).type ≠ 0) (ip : (s.ftable f).ip = k) {n : Nat} (int : n < 2 ^ 31)
    (offset : (s.ftable f).off < 2 ^ 32) (dst : Bytes.Storage) :
    wp (readChunk sb f dst (fun _ => true) n) (fun r t => ∃ L', Repr sb t.tables t A ∅ R L' ∧
      (t.itable k).locked = false ∧ Advanced f r.1.toNat s t ∧ r.1.toNat ≤ n ∧
      (0 < r.1.toNat → (s.ftable f).off + r.1.toNat ≤ (A.ino i).size)) (fun _ => True) s := by
  subst ip
  have hi := (repr.slot _ i member).2.1
  have limit : maxfile * bsize < 2 ^ 31 := by decide
  have largest := sound.size_le hi typed
  rw [readChunk,wp_bind,wp_getFile_iff]
  apply wp_seq (ilock_spec always member (Set.notMem_empty i) (.inl typed) repr)
  rintro _ u ⟨repr,-⟩
  have locked : ((s.ftable f).ip,i) ∈ insert ((s.ftable f).ip,i) L := Set.mem_insert ..
  obtain ⟨_,din,_⟩ := repr.at_locked locked
  have read : wp (readi sb (s.ftable f).ip dst (fun _ => true) (s.ftable f).off n) (fun r t => t = u ∧ r.1.toNat ≤ n ∧
      (0 < r.1.toNat → (s.ftable f).off + r.1.toNat ≤ (A.ino i).size)) (fun _ => True) u := by
    by_cases start : (s.ftable f).off ≤ (A.ino i).size
    · refine wp_of_ok (readi_run locked sound repr start (by omega) dst) ⟨rfl,?_,?_⟩
      · simp
      · simp only
        omega
    · rw [readi,readiWith,wp_bind,wp_getInode,din,if_pos (.inl (by omega)),wp_pure]
      exact ⟨rfl,Nat.zero_le _,fun some => absurd some (by simp)⟩
  apply wp_seq read
  rintro ⟨r,dst'⟩ v ⟨rfl,bound,inside⟩
  refine unlock_spec repr ?_ fun w repr unlocked advanced => ?_
  · by_cases none : r.toNat = 0
    · omega
    · have := inside (by simpa using none)
      simp only at this
      omega
  · exact ⟨_,repr,unlocked,advanced,bound,inside⟩

theorem ilock_returns {T : Tables} (repr : Repr sb T s A ∅ R L) (member : (k,i) ∈ R) (typed : (A.ino i).type ≠ 0)
    (unlocked : (s.itable k).locked = false) :
    ∃ t, (ilock sb k).run s = .ok ((),t) ∧ Repr sb T t A ∅ R (insert (k,i) L) := by
  obtain ⟨-,hi,inum⟩ := repr.slot k i member
  have ref := repr.ref_pos member
  have disk : getDinode (s.disk (sb.iblock i)) (i % ipb * dinodeSize) = A.ino i := repr.inodes i hi (Set.notMem_empty i)
  have returns : wp (ilock sb k) (fun _ _ => True) (fun _ => False) s := by
    simp only [ilock,wp_bind,wp_getInode,wp_ite,wp_fail,wp_setInode,unlocked,inum,wp_bread,disk,wp_pure]
    rw [if_neg (by omega),if_neg (by decide)]
    simp [typed]
  have both := wp_and (ilock_spec always member (Set.notMem_empty i) (.inl typed) repr) returns
  cases out : (ilock sb k).run s with
  | error e => exact (wp_error both out).2.elim
  | ok r => exact ⟨r.2,rfl,(wp_ok both out).1.1⟩

end Chunks

/-! Runs. -/

def total (chunks : List Chunk) : Nat := (chunks.map Chunk.length).sum

def ofCall (number : Nat) (chunks : List Chunk) : List Chunk := chunks.filter (·.call = number)

@[simp] theorem total_append (front back : List Chunk) : total (front ++ back) = total front + total back := by
  simp [total]

def Holds (sb : Superblock) (i : Nat) (A : Abs) (trace : List Chunk) : Prop :=
  ∀ c ∈ trace, c.start + c.length ≤ (A.ino i).size ∧
    ∀ src, c.src = some src → ∀ j < c.length, A.bytes sb i (c.start + j) = src (c.first + j)

theorem Holds.write {sb : Superblock} {i : Nat} {A A' : Abs} {src : Nat → UInt8} {tot off : Nat} {trace : List Chunk}
    (holds : Holds sb i A trace) (sound : Sound sb A) (hi : i < sb.ninodes) (typed : (A.ino i).type ≠ 0)
    (before : ∀ c ∈ trace, c.start + c.length ≤ off) (written : Written sb i off src tot A A') : Holds sb i A' trace := by
  intro c member
  obtain ⟨inside,content⟩ := holds c member
  refine ⟨inside.trans written.grows,fun own hown j below => ?_⟩
  have ends := before c member
  have block := (sound.whole i hi typed ((c.start + j) / bsize) (by
    have := Nat.div_mul_le_self (c.start + j) bsize
    omega)).2
  rw [(written.rewrites.kept i hi _ block fun _ => .inl (by omega)).2,content own hown j below]

/-- The chunks follow each other in the file, and those of each call follow each other in its bytes. -/
def Ordered (start : Nat) (trace : List Chunk) : Prop :=
  ∀ before c after, trace = before ++ c :: after → c.start = start + total before ∧
    c.first = total (ofCall c.call before) ∧ (c.src.isSome → c.length ≤ writeMax)

theorem Ordered.concat {start : Nat} {trace : List Chunk} {c : Chunk} (ordered : Ordered start trace)
    (placed : c.start = start + total trace) (first : c.first = total (ofCall c.call trace))
    (bound : c.src.isSome → c.length ≤ writeMax) : Ordered start (trace ++ [c]) := by
  intro before d after split
  rcases List.eq_nil_or_concat after with rfl | ⟨after,e,rfl⟩
  · obtain ⟨rfl,last⟩ := List.append_inj' split rfl
    obtain rfl : c = d := by simpa using last
    exact ⟨placed,first,bound⟩
  · rw [List.concat_eq_append,← List.cons_append,← List.append_assoc] at split
    exact ordered before d after (List.append_inj' split rfl).1

theorem Ordered.mem {start : Nat} {trace : List Chunk} {c : Chunk} (ordered : Ordered start trace) (member : c ∈ trace) :
    start ≤ c.start ∧ c.start + c.length ≤ start + total trace := by
  obtain ⟨before,after,rfl⟩ := List.append_of_mem member
  have placed := (ordered before c after rfl).1
  simp only [total,List.map_append,List.sum_append,List.map_cons,List.sum_cons] at placed ⊢
  omega

theorem Ordered.disjoint {start : Nat} {trace : List Chunk} (ordered : Ordered start trace) :
    trace.Pairwise fun c d => c.start + c.length ≤ d.start := by
  induction trace using List.reverseRecOn with
  | nil => exact .nil
  | append_singleton front d ih =>
    have earlier : Ordered start front := fun before c after split =>
      ordered before c (after ++ [d]) (by simp [split])
    refine List.pairwise_append.mpr ⟨ih earlier,List.pairwise_singleton ..,fun c member e last => ?_⟩
    obtain rfl := List.mem_singleton.mp last
    rw [(ordered front e [] rfl).1]
    exact (earlier.mem member).2

namespace Sharing

structure Inv (sb : Superblock) (f k i start : Nat) (s : Sharing) : Prop where
  file : ∃ A R L, Repr sb s.fs.tables s.fs A ∅ R L ∧ Sound sb A ∧ (k,i) ∈ R ∧ (A.ino i).type ≠ 0 ∧
    Holds sb i A s.trace
  ip : (s.fs.ftable f).ip = k
  unlocked : (s.fs.itable k).locked = false
  small : (s.fs.ftable f).off < 2 ^ 32
  off : (s.fs.ftable f).off = start + total s.trace
  ordered : Ordered start s.trace
  calls : ∀ p c, s.calls p = some c → c.number < s.count ∧ c.i = total (ofCall c.number s.trace) ∧ c.n < 2 ^ 31
  apart : ∀ p q c d, s.calls p = some c → s.calls q = some d → c.number = d.number → p = q
  known : ∀ c ∈ s.trace, c.call < s.count

variable {sb : Superblock} {f k i start p : Nat} {s t : Sharing}

theorem ofCall_unknown {trace : List Chunk} {count : Nat} (known : ∀ c ∈ trace, c.call < count) :
    ofCall count trace = [] :=
  List.filter_eq_nil_iff.mpr fun c member => by simpa using (known c member).ne

theorem Inv.call {src : Option (Nat → UInt8)} {n : Nat} (inv : Inv sb f k i start s)
    (called : s.call p src n = some t) : Inv sb f k i start t := by
  simp only [Sharing.call] at called
  obtain ⟨⟨idle,int⟩,rfl⟩ := Runs.enabled called
  refine ⟨inv.file,inv.ip,inv.unlocked,inv.small,inv.off,inv.ordered,fun q c at_ => ?_,fun q r c d one two same => ?_,
    fun c member => (inv.known c member).trans (Nat.lt_succ_self _)⟩
  · by_cases self : q = p
    · obtain rfl : _ = c := by simpa [self] using at_
      exact ⟨Nat.lt_succ_self _,by rw [ofCall_unknown inv.known]; rfl,int⟩
    · obtain ⟨number,rest⟩ := inv.calls q c (by simpa [self] using at_)
      exact ⟨number.trans (Nat.lt_succ_self _),rest⟩
  · have fresh {q : Nat} {c : FileCall} (other : q ≠ p) (at_ : s.calls q = some c) : c.number ≠ s.count :=
      (inv.calls q c at_).1.ne
    by_cases first : q = p <;> by_cases second : r = p
    · exact first.trans second.symm
    · obtain rfl : _ = c := by simpa [first] using one
      exact (fresh second (by simpa [second] using two) same.symm).elim
    · obtain rfl : _ = d := by simpa [second] using two
      exact (fresh first (by simpa [first] using one) same).elim
    · exact inv.apart q r c d (by simpa [first] using one) (by simpa [second] using two) same

theorem Inv.advance {c : FileCall} {r : Int} {fs : State} {rest : Option FileCall} {A : Abs} {R : Multiset (Nat × Nat)}
    {L : Set (Nat × Nat)} (inv : Inv sb f k i start s) (at_ : s.calls p = some c) (repr : Repr sb fs.tables fs A ∅ R L)
    (sound : Sound sb A) (member : (k,i) ∈ R) (typed : (A.ino i).type ≠ 0) (holds : Holds sb i A s.trace)
    (unlocked : (fs.itable k).locked = false) (advanced : Advanced f r.toNat s.fs fs)
    (inside : 0 < r.toNat → (s.fs.ftable f).off + r.toNat ≤ (A.ino i).size)
    (content : ∀ src, c.src = some src → ∀ j < r.toNat, A.bytes sb i ((s.fs.ftable f).off + j) = src (c.i + j))
    (bound : c.src.isSome → r.toNat ≤ writeMax)
    (rest_eq : ∀ d, rest = some d → d.number = c.number ∧ d.i = c.i + r.toNat ∧ d.n < 2 ^ 31) :
    Inv sb f k i start (s.advance f p c r fs rest) := by
  have file : fs.ftable f = { s.fs.ftable f with off := (s.fs.ftable f).off + r.toNat } := by
    have := congrFun (congrArg Tables.file advanced) f
    simpa [State.tables,Tables.setFile] using this
  have rest_old {q : Nat} {d : FileCall} (there : update s.calls p rest q = some d) :
      ∃ e, s.calls q = some e ∧ d.number = e.number := by
    obtain rfl | self := eq_or_ne q p
    · exact ⟨c,at_,(rest_eq d (by simpa using there)).1⟩
    · exact ⟨d,by simpa [self] using there,rfl⟩
  have limit : maxfile * bsize < 2 ^ 32 := by decide
  have largest := sound.size_le (repr.slot k i member).2.1 typed
  have small := inv.small
  -- a chunk of no bytes leaves no trace
  by_cases moved : r > 0
  swap
  · have zero : r.toNat = 0 := by omega
    rw [zero,Nat.add_zero] at file
    rw [Sharing.advance,if_neg moved]
    refine ⟨⟨A,R,L,repr,sound,member,typed,holds⟩,by rw [file]; exact inv.ip,unlocked,by rw [file]; exact inv.small,
      by rw [file]; exact inv.off,inv.ordered,fun q d there => ?_,fun q q' d d' one two same => ?_,inv.known⟩
    · by_cases self : q = p
      · obtain ⟨number,done,int⟩ := rest_eq d (by simpa [self] using there)
        obtain ⟨known,total,-⟩ := inv.calls p c at_
        exact ⟨number ▸ known,by rw [done,zero,number]; exact total,int⟩
      · exact inv.calls q d (by simpa [self] using there)
    · obtain ⟨e,one,left⟩ := rest_old one
      obtain ⟨e',two,right⟩ := rest_old two
      exact inv.apart q q' e e' one two (left.symm.trans (same.trans right))
  · have some_ : 0 < r.toNat := by omega
    have ends := inside some_
    obtain ⟨known,done,-⟩ := inv.calls p c at_
    rw [Sharing.advance,if_pos moved]
    refine ⟨⟨A,R,L,repr,sound,member,typed,fun d there => ?_⟩,by rw [file]; exact inv.ip,unlocked,
      by rw [file]; dsimp only; omega,?_,inv.ordered.concat inv.off done bound,fun q d there => ?_,
      fun q q' d d' one two same => ?_,fun d there => ?_⟩
    · rcases List.mem_append.mp there with old | new
      · exact holds d old
      · obtain rfl := List.mem_singleton.mp new
        exact ⟨ends,content⟩
    · rw [file,total_append]
      simp only [total,List.map_cons,List.map_nil,List.sum_singleton,inv.off]
      omega
    · by_cases self : q = p
      · obtain ⟨number,now,int⟩ := rest_eq d (by simpa [self] using there)
        refine ⟨number ▸ known,?_,int⟩
        rw [now,done,number]
        simp [ofCall,total]
      · obtain ⟨before,old,int⟩ := inv.calls q d (by simpa [self] using there)
        have other : c.number ≠ d.number := fun same =>
          self (inv.apart q p d c (by simpa [self] using there) at_ same.symm)
        refine ⟨before,?_,int⟩
        rw [old]
        simp [ofCall,total,other]
    · obtain ⟨e,one,left⟩ := rest_old one
      obtain ⟨e',two,right⟩ := rest_old two
      exact inv.apart q q' e e' one two (left.symm.trans (same.trans right))
    · rcases List.mem_append.mp there with old | new
      · exact inv.known d old
      · obtain rfl := List.mem_singleton.mp new
        exact known

theorem Inv.step (layout : sb.Layout) {a : FileAction} (inv : Inv sb f k i start s)
    (stepped : Sharing.step sb f s a = some t) : Inv sb f k i start t := by
  cases a with
  | filewrite p src n | fileread p n => exact inv.call stepped
  | next p =>
    obtain ⟨A,R,L,repr,sound,member,typed,holds⟩ := inv.file
    simp only [Sharing.step] at stepped
    cases at_ : s.calls p with
    | none => simp [at_] at stepped
    | some c =>
      obtain ⟨-,-,int⟩ := inv.calls p c at_
      simp only [at_] at stepped
      cases isSrc : c.src with
      | none =>
        simp only [isSrc,Option.map_eq_some_iff] at stepped
        obtain ⟨⟨⟨r,dst⟩,fs⟩,ran,rfl⟩ := stepped
        obtain ⟨L',repr',unlocked,advanced,-,inside⟩ :=
          wp_resultOf (readChunk_spec repr sound member typed inv.ip int inv.small _) ran
        exact inv.advance at_ repr' sound member typed holds unlocked advanced inside (by simp [isSrc]) (by simp [isSrc])
          (by simp)
      | some src =>
        simp only [isSrc] at stepped
        split at stepped
        · rename_i more
          obtain ⟨⟨r,fs⟩,ran,rfl⟩ := Option.map_eq_some_iff.mp stepped
          obtain ⟨A',L',repr',sound',unlocked,advanced,bound,written⟩ := wp_resultOf
            (writeChunk_spec layout repr sound member typed inv.ip (fun a => src (c.i + a)) _ inv.small) ran
          refine inv.advance at_ repr' sound' member (by rwa [written.type]) ?_ unlocked advanced written.inside ?_
            (fun _ => bound.trans (min_le_right _ _)) ?_
          · refine holds.write sound (repr.slot k i member).2.1 typed (fun d there => ?_) written
            rw [inv.off]
            exact (inv.ordered.mem there).2
          · rintro own hown
            obtain rfl : src = own := by simpa [isSrc] using hown
            exact written.content
          · intro d going
            split at going
            · cases going
            · rename_i whole
              cases going
              exact ⟨rfl,by simp at whole; simp only; omega,int⟩
        · cases stepped
          refine ⟨⟨A,R,L,repr,sound,member,typed,holds⟩,inv.ip,inv.unlocked,inv.small,inv.off,inv.ordered,
            fun q d there => ?_,fun q q' d d' one two => ?_,inv.known⟩
          · by_cases self : q = p
            · simp [self] at there
            · exact inv.calls q d (by simpa [self] using there)
          · by_cases self : q = p
            · simp [self] at one
            · by_cases self' : q' = p
              · simp [self'] at two
              · exact inv.apart q q' d d' (by simpa [self] using one) (by simpa [self'] using two)

def init (fs : State) : Sharing := ⟨fs,fun _ => none,0,[]⟩

/-- The transfers lie one behind the other from `start` to the offset, those of each call in its own order, and the
file holds what was written. -/
structure Serial (sb : Superblock) (f k start : Nat) (s : Sharing) : Prop where
  off : (s.fs.ftable f).off = start + total s.trace
  consecutive : ∀ before c after, s.trace = before ++ c :: after → c.start = start + total before
  disjoint : s.trace.Pairwise fun c d => c.start + c.length ≤ d.start
  bounded : ∀ c ∈ s.trace, c.src.isSome → c.length ≤ writeMax
  own : ∀ before c after, s.trace = before ++ c :: after → c.first = total (ofCall c.call before)
  kept : ∀ c ∈ s.trace, ∀ src, c.src = some src → ∀ dst, ∃ out t, (do
      ilock sb k
      readi sb k dst (fun _ => true) c.start c.length).run s.fs = .ok ((c.length,out),t) ∧
    ∀ j < c.length, out j = src (c.first + j)

theorem Inv.kept (inv : Inv sb f k i start s) {c : Chunk} (member : c ∈ s.trace) {src : Nat → UInt8}
    (isSrc : c.src = some src) (dst : Bytes.Storage) :
    ∃ out t, (do
        ilock sb k
        readi sb k dst (fun _ => true) c.start c.length).run s.fs = .ok ((c.length,out),t) ∧
      ∀ j < c.length, out j = src (c.first + j) := by
  obtain ⟨A,R,L,repr,sound,slot,typed,holds⟩ := inv.file
  obtain ⟨inside,content⟩ := holds c member
  have limit : maxfile * bsize < 2 ^ 32 := by decide
  have largest := sound.size_le (repr.slot k i slot).2.1 typed
  obtain ⟨t,locks,repr'⟩ := ilock_returns repr slot typed inv.unlocked
  have reads := readi_run (Set.mem_insert ..) sound repr' (by omega : c.start ≤ (A.ino i).size)
    (by omega : c.start + c.length < 2 ^ 32) dst
  rw [min_eq_left (by omega : c.length ≤ (A.ino i).size - c.start),
    min_eq_left (by omega : (c.length : Int) ≤ (A.ino i).size - c.start)] at reads
  refine ⟨_,t,(run_bind locks).trans reads,fun j below => ?_⟩
  rw [Bytes.copy,if_pos (by omega),Nat.sub_zero,content src isSrc j below]

/-- Processes read and write through one `struct file`, and their chunks are interleaved in any way. -/
theorem shared_writes_serial (layout : sb.Layout) {fs : State} {A : Abs} {R : Multiset (Nat × Nat)}
    {L : Set (Nat × Nat)} (repr : Repr sb fs.tables fs A ∅ R L) (sound : Sound sb A) (member : (k,i) ∈ R)
    (typed : (A.ino i).type ≠ 0) (ip : (fs.ftable f).ip = k) (unlocked : (fs.itable k).locked = false)
    (uint : (fs.ftable f).off < 2 ^ 32) (schedule : List FileAction)
    (ran : Runs.run (Sharing.step sb f) (init fs) schedule = some s) : Serial sb f k (fs.ftable f).off s := by
  have first : Inv sb f k i (fs.ftable f).off (init fs) :=
    ⟨⟨A,R,L,repr,sound,member,typed,by simp [Holds,init]⟩,ip,unlocked,uint,by simp [init,total],by simp [Ordered,init],
      by simp [init],by simp [init],by simp [init]⟩
  have inv := Runs.run_invariant _ (fun s a t inv stepped => Inv.step layout inv stepped) first ran
  refine ⟨inv.off,fun before c after split => (inv.ordered before c after split).1,inv.ordered.disjoint,
    fun c there => ?_,fun before c after split => (inv.ordered before c after split).2.1,
    fun c there src isSrc => inv.kept there isSrc⟩
  obtain ⟨before,after,split⟩ := List.append_of_mem there
  exact (inv.ordered before c after split).2.2

def opened : State where
  disk := twice
  log := ⟨wideSb.logstart,wideSb.nlog,0,false,[]⟩
  itable := update (holding wideSb twice 2).itable 0 { (holding wideSb twice 2).itable 0 with locked := false }
  ftable _ := ⟨.inode,1,true,true,0,0,0⟩
  proc _ := none

theorem opened_repr : Repr wideSb opened.tables opened (ofDisk wideSb twice) ∅ {(0,2)} {(0,2)} :=
  ((wide_repr.setLock (k := 0) false).log ⟨wideSb.logstart,wideSb.nlog,0,false,[]⟩).setTables opened.tables

/-- Two processes write in turns: one of them needs two chunks, and the other one reads after its write. -/
def turns : List FileAction := [.filewrite 0 (fun _ => 7) 3080,.filewrite 1 (fun _ => 9) 5,.next 0,.next 1,.next 0,
  .next 1,.fileread 1 4,.next 1,.next 0]

theorem two_writers_serial : ∃ s, Runs.run (Sharing.step wideSb 0) (init opened) turns = some s ∧
    s.trace.map (fun c => (c.call,c.first,c.start,c.length)) = [(0,0,0,3072),(1,0,3072,5),(0,3072,3077,8)] ∧
    Serial wideSb 0 0 0 s := by
  exact Runs.reaches (fun s => s.trace.map (fun c => (c.call,c.first,c.start,c.length)) =
    [(0,0,0,3072),(1,0,3072,5),(0,3072,3077,8)]) (by decide +kernel) fun s ran trace => ⟨trace,
      shared_writes_serial wide_layout opened_repr wide_sound (Multiset.mem_singleton_self _) (by decide +kernel) rfl rfl
        (by decide) turns ran⟩

end Sharing

end Xv6.Fs
