import Xv6.Fs.Syscall
import Xv6.Fs.Refine

/-! What a call takes and gives back: locks and references of the inode table, operations of the log, files and
descriptors. -/
namespace Xv6.Fs

open Prog Function

structure Marks where
  locks : Nat → Bool
  refs : Nat → Int
  outstanding : Int
  tables : Tables

def State.marks (s : State) : Marks :=
  ⟨fun l => (s.itable l).locked,fun l => (s.itable l).ref,s.log.outstanding,s.tables⟩

namespace Marks

variable (f : Marks) (k l : Nat)

@[simp] def put (lock : Bool) (ref : Int) : Marks :=
  { f with locks := update f.locks k lock, refs := update f.refs k ref }

/-- With another reference to the inode in slot `k`. -/
@[simp] def hold : Marks := { f with refs := update f.refs k (f.refs k + 1) }

/-- With another reference and the lock. -/
@[simp] def own : Marks := f.put k true (f.refs k + 1)

def holds : Option Nat → Marks
  | none => f
  | some k => f.hold k

/-- With `n` more operations of the log. -/
def ops (n : Int) : Marks := { f with outstanding := f.outstanding + n }

theorem own_hold : (f.own k).hold l = (f.hold l).own k := by
  by_cases same : l = k
  · simp [same]
  · simp [same,Ne.symm same,update_comm same]

end Marks

theorem State.locked_eq (s : State) (k : Nat) : (s.itable k).locked = s.marks.locks k := rfl
theorem State.ref_eq (s : State) (k : Nat) : (s.itable k).ref = s.marks.refs k := rfl

@[simp] theorem State.setSlot_marks (s : State) (k : Nat) (ip : Inode) :
    (s.setSlot k ip).marks = s.marks.put k ip.locked ip.ref := by
  have field {β : Type} (g : Inode → β) : (fun l => g (update s.itable k ip l)) =
    update (fun l => g (s.itable l)) k (g ip) := by
    funext l
    by_cases here : l = k <;> simp [here]
  simp only [State.marks,State.setSlot_itable,field Inode.locked,field Inode.ref]
  rfl

def Quiet {α : Type} (x : Kernel α) : Prop := Keeps State.marks x

namespace Quiet

theorem bread (b : Nat) : Quiet (bread b) := .asks _
theorem getInode (k : Nat) : Quiet (getInode k) := .asks _
theorem setBlock (b : Nat) (blk : Block) : Quiet (setBlock b blk) := by
  rw [Fs.setBlock,strict_eq]
  exact .modify fun _ => rfl

theorem logWrite (b : Nat) : Quiet (logWrite b) := fun s => by
  simp only [Fs.logWrite,wp_bind,wp_get,wp_ite,wp_fail,wp_modify]
  split
  · trivial
  · split <;> trivial

theorem setDinode (k : Nat) (f : Dinode → Dinode) : Quiet (setDinode k f) := fun s => by
  simp only [Fs.setDinode,wp_bind,wp_getInode,wp_setInode]
  simp [State.locked_eq,State.ref_eq]

theorem myproc (p : Nat) : Quiet (myproc p) := fun s => by
  rw [Fs.myproc,wp_bind,wp_get]
  split <;> trivial

/-! Blocks. -/

theorem bzero (b : Nat) : Quiet (bzero b) := .bind (bread b) fun _ => .bind (setBlock b _) fun _ => logWrite b

section Superblock

variable (sb : Superblock)

theorem ballocFrom (n b : Nat) : Quiet (ballocFrom sb n b) := by
  induction n generalizing b with
  | zero => exact .pure 0
  | succ n ih =>
    refine .bind (bread _) fun blk => ?_
    cases clearFrom blk (min bpb (sb.size - b)) 0 with
    | none => exact ih (b + bpb)
    | some bi => exact .bind (setBlock _ _) fun _ => .bind (logWrite _) fun _ => .bind (bzero _) fun _ => .pure _

theorem balloc : Quiet (balloc sb) := ballocFrom sb _ 0

theorem bfree (b : Nat) : Quiet (bfree sb b) := by
  have rest (blk : Block) : Quiet (do
      Fs.setBlock (sb.bblock b) (clearBit blk (b % bpb))
      Fs.logWrite (sb.bblock b)) := .bind (setBlock _ _) fun _ => logWrite _
  exact .bind (bread _) fun blk => .ite (.bind (.fail _) fun _ => rest blk) (rest blk)

/-! Inodes. -/

theorem iupdate (k : Nat) : Quiet (iupdate sb k) :=
  .bind (getInode k) fun _ => .bind (bread _) fun _ => .bind (setBlock _ _) fun _ => logWrite _

theorem bmapTable (k : Nat) : Quiet (bmapTable sb k) :=
  .bind (getInode k) fun _ => .ite (.pure _) (.bind (balloc sb) fun _ =>
    .ite (.pure 0) (.bind (setDinode _ _) fun _ => .pure _))

theorem bmap (k bn : Nat) : Quiet (bmap sb k bn) := by
  refine .bind (getInode k) fun ip => .ite ?_ (.ite ?_ (.fail _))
  · exact .ite (.pure _) (.bind (balloc sb) fun _ => .ite (.pure 0) (.bind (setDinode _ _) fun _ => .pure _))
  · refine .bind (bmapTable sb k) fun _ => .ite (.pure 0) (.bind (bread _) fun _ => .ite (.pure _) ?_)
    refine .bind (balloc sb) fun _ => .ite (.pure 0) (.bind (bread _) fun _ => ?_)
    exact .bind (setBlock _ _) fun _ => .bind (logWrite _) fun _ => .pure _

theorem freeDirect (k n i : Nat) : Quiet (freeDirect sb k n i) := by
  induction n generalizing i with
  | zero => exact .pure ()
  | succ n ih =>
    exact .bind (getInode k) fun _ => .ite (.bind (bfree sb _) fun _ => .bind (setDinode _ _) fun _ => ih _) (ih _)

theorem freeEntries (a : Block) (n j : Nat) : Quiet (freeEntries sb a n j) := by
  induction n generalizing j with
  | zero => exact .pure ()
  | succ n ih => exact .ite (.bind (bfree sb _) fun _ => ih _) (ih _)

theorem itrunc (k : Nat) : Quiet (itrunc sb k) := by
  have rest : Quiet (do
      Fs.setDinode k fun din => { din with size := 0 }
      Fs.iupdate sb k) := .bind (setDinode _ _) fun _ => iupdate sb k
  refine .bind (freeDirect sb k _ _) fun _ => .bind (getInode k) fun ip => .ite ?_ rest
  exact .bind (bread _) fun _ => .bind (freeEntries sb _ _ _) fun _ => .bind (bfree sb _) fun _ =>
    .bind (setDinode _ _) fun _ => rest

/-! Contents. -/

theorem readFrom (k n : Nat) (ok : Nat → Bool) (turns tot off : Nat) (dst : Bytes.Storage) :
    Quiet (readFromWith (Fs.bmap sb k) n ok turns tot off dst) := by
  induction turns generalizing tot off dst with
  | zero => exact .pure _
  | succ turns ih =>
    refine .ite (.bind (bmap sb k _) fun addr => .ite (.pure _) (.bind (bread _) fun blk => ?_)) (.pure _)
    dsimp only
    split
    · exact ih _ _ _
    · exact .pure _

theorem readi (k : Nat) (dst : Bytes.Storage) (ok : Nat → Bool) (off n : Nat) : Quiet (readi sb k dst ok off n) :=
  .bind (getInode k) fun _ => .ite (.pure _) (readFrom sb k _ ok _ 0 off dst)

theorem writeFrom (k n : Nat) (src : Nat → Option UInt8) (turns tot off : Nat) :
    Quiet (writeFrom sb k n src turns tot off) := by
  induction turns generalizing tot off with
  | zero => exact .pure _
  | succ turns ih =>
    refine .ite (.bind (bmap sb k _) fun addr => .ite (.pure _) (.bind (bread _) fun blk => ?_)) (.pure _)
    dsimp only
    split
    · exact .bind (setBlock _ _) fun _ => .bind (logWrite _) fun _ => ih _ _
    · exact .bind (setBlock _ _) fun _ => .pure _

theorem writei (k : Nat) (src : Nat → Option UInt8) (off n : Nat) : Quiet (writei sb k src off n) := by
  refine .bind (getInode k) fun _ => .ite (.pure _) (.ite (.pure _) (.bind (writeFrom sb k n src _ 0 off) fun r => ?_))
  have rest : Quiet (do
      Fs.iupdate sb k
      return (r.1 : Int)) := .bind (iupdate sb k) fun _ => .pure _
  exact .bind (getInode k) fun _ => .ite (.bind (setDinode _ _) fun _ => rest) rest

/-! Directories. -/

theorem readDirent (k off : Nat) : Quiet (readDirent sb k off) := .bind (readi sb k _ _ off _) fun _ => .pure _

theorem emptyDirent (k n off : Nat) : Quiet (emptyDirent sb k n off) := by
  induction n generalizing off with
  | zero => exact .pure _
  | succ n ih =>
    refine .bind (readDirent sb k off) fun r => ?_
    have rest := Keeps.ite (c := r.2.inum = 0) (.pure off) (ih (off + direntSize))
    exact .ite (.bind (.fail _) fun _ => rest) rest

theorem isdiremptyFrom (k n off : Nat) : Quiet (isdiremptyFromWith (Fs.bmap sb k) k n off) := by
  induction n generalizing off with
  | zero => exact .pure _
  | succ n ih =>
    refine .bind (readDirent sb k off) fun r => ?_
    have rest := Keeps.ite (c := r.2.inum ≠ 0) (.pure false) (ih (off + direntSize))
    exact .ite (.bind (.fail _) fun _ => rest) rest

theorem isFull (k type : Nat) : Quiet (isFull sb k type) :=
  .ite (.bind (.bind (getInode k) fun _ => isdiremptyFrom sb k _ _) fun _ => .pure _) (.pure _)

end Superblock

end Quiet

/-! What takes and gives back. -/

section Take

variable {sb : Superblock} {s : State} {f : Marks} {k : Nat}

theorem beginOp_marks : wp beginOp (fun _ t => t.marks = s.marks.ops 1) (fun _ => True) s := by
  simp only [beginOp,wp_bind,wp_get,wp_ite,wp_fail,wp_modify]
  split <;> trivial

theorem endOp_marks (now : s.marks = f.ops 1) (r : Int) :
    wp (do
      endOp
      return r) (fun _ t => t.marks = f) (fun _ => True) s := by
  show { s.marks with outstanding := s.marks.outstanding - 1 } = f
  rw [now]
  simp [Marks.ops]

theorem iget_marks (inum : Nat) : wp (iget inum) (fun k t => t.marks = s.marks.hold k) (fun _ => True) s := by
  simp only [iget,strict_eq,wp_bind,wp_get]
  split
  · simp only [wp_bind,wp_setInode,wp_pure]
    simp [State.locked_eq,State.ref_eq]
  · split
    · trivial
    · rename_i k empty
      have zero : (s.itable k).ref = 0 := by simpa using List.find?_some empty
      rw [State.ref_eq] at zero
      simp only [wp_bind,wp_setInode,wp_pure]
      simp [State.locked_eq,zero]

theorem idup_marks : wp (idup k) (fun l t => t.marks = s.marks.hold l) (fun _ => True) s := by
  simp only [idup,wp_bind,wp_getInode,wp_setInode,wp_pure]
  simp [State.locked_eq,State.ref_eq]

theorem iallocFrom_marks (type n inum : Nat) :
    wp (iallocFrom sb type n inum) (fun r t => t.marks = s.marks.holds r) (fun _ => True) s := by
  induction n generalizing inum with
  | zero => rfl
  | succ n ih =>
    rw [iallocFrom,wp_bind,wp_bread]
    dsimp only
    split
    · refine Keeps.seq (Quiet.setBlock _ _) fun _ t first => Keeps.seq (Quiet.logWrite _) fun _ u second => ?_
      refine wp_seq (iget_marks inum) fun k v taken => ?_
      rw [wp_pure,taken,second,first]
      rfl
    · exact ih _

/-- An inode that is freed is locked for that, which nobody else can see. -/
theorem iput_marks (now : s.marks = f.hold k) : wp (iput sb k) (fun _ t => t.marks = f) (fun _ => True) s := by
  have drop (t : State) (same : t.marks = s.marks) : wp (do
      let ip ← getInode k
      setInode k { ip with ref := ip.ref - 1 }) (fun _ u => u.marks = f) (fun _ => True) t := by
    simp only [wp_bind,wp_getInode,wp_setInode]
    simp [State.locked_eq,State.ref_eq,same,now]
  rw [iput,wp_bind,wp_getInode]
  split
  swap
  · exact drop s rfl
  split
  · trivial
  rename_i unlocked
  have unlocked : s.marks.locks k = false := by simpa [State.locked_eq] using unlocked
  simp only [wp_bind (x := setInode _ _),wp_setInode]
  refine Keeps.seq (Quiet.itrunc sb k) fun _ t first => Keeps.seq (Quiet.setDinode k _) fun _ u second =>
    Keeps.seq (Quiet.iupdate sb k) fun _ v third => ?_
  rw [wp_bind,wp_getInode,wp_bind,wp_setInode]
  refine drop _ ?_
  simp [State.ref_eq,third,second,first,← unlocked]

theorem dirlookup_marks (name : List UInt8) :
    wp (dirlookup sb k name) (fun r t => t.marks = s.marks.holds (r.map Prod.fst)) (fun _ => True) s := by
  have loop (n off : Nat) (s : State) :
      wp (dirlookupFromWith (Fs.bmap sb k) k name n off) (fun r t => t.marks = s.marks.holds (r.map Prod.fst))
        (fun _ => True) s := by
    induction n generalizing off s with
    | zero => rfl
    | succ n ih =>
      refine Keeps.seq (Quiet.readDirent sb k off) fun r t same => ?_
      rw [← same]
      dsimp only
      split
      · trivial
      split
      · exact wp_seq (iget_marks _) fun ip u taken => taken
      · exact ih _ t
  rw [dirlookup,dirlookupWith,wp_bind,wp_getInode]
  split
  · trivial
  · exact loop _ 0 s

namespace Quiet

theorem dirlink (name : List UInt8) (inum : Nat) : Quiet (dirlink sb k name inum) := fun s => by
  apply wp_seq (dirlookup_marks name)
  intro found t now
  cases found with
  | some x => exact wp_seq (iput_marks now) fun _ _ same => same
  | none =>
    rw [← show t.marks = s.marks from now]
    exact Keeps.bind (getInode k) (fun _ => .bind (emptyDirent sb k _ 0) fun _ => .bind (writei sb k _ _ _) fun _ =>
      .pure _) t

theorem createDots (ip type self up : Nat) : Quiet (createDots sb ip type self up) :=
  .ite (.bind (dirlink _ _) fun _ => .ite (.pure _) (dirlink _ _)) (.pure _)

end Quiet

/-- Slot `k` is referenced and locked by the caller, beside what `f` says. -/
structure Held (f : Marks) (k : Nat) (s : State) : Prop where
  free : f.locks k = false
  now : s.marks = f.own k

namespace Held

theorem same {t : State} (held : Held f k s) (same : t.marks = s.marks) : Held f k t := ⟨held.free,same.trans held.now⟩

theorem ne {l : Nat} (held : Held (f.own l) k s) : k ≠ l := by
  rintro rfl
  simpa using held.free

theorem swap {l : Nat} (free : f.locks l = false) (held : Held (f.own l) k s) : f.locks k = false ∧
    Held (f.own k) l s := by
  have ne := held.ne
  refine ⟨by simpa [ne] using held.free,by simpa [Ne.symm ne] using free,held.now.trans ?_⟩
  simp [ne,Ne.symm ne,update_comm ne]

end Held

theorem ilock_marks (now : s.marks = f.hold k) : wp (ilock sb k) (fun _ t => Held f k t) (fun _ => True) s := by
  have taken {ip : Inode} (unlocked : ¬s.marks.locks k = true) (lock : ip.locked = true)
      (ref : ip.ref = s.marks.refs k) : Held f k (s.setSlot k ip) := by
    rw [now] at unlocked ref
    refine ⟨by simpa using unlocked,?_⟩
    simp [lock,ref,now]
  simp only [ilock,wp_bind,wp_getInode,wp_ite,wp_fail]
  split
  · trivial
  split
  · trivial
  rename_i free
  split
  · rw [wp_setInode]
    exact taken free rfl rfl
  · simp only [wp_bread,wp_setInode,wp_pure]
    split
    · trivial
    · exact taken free rfl rfl

theorem iunlock_marks (held : Held f k s) : wp (iunlock k) (fun _ t => t.marks = f.hold k) (fun _ => True) s := by
  simp only [iunlock,wp_bind,wp_getInode,wp_ite,wp_fail,wp_setInode]
  split
  · trivial
  · simp [State.ref_eq,held.now,← held.free]

theorem iunlockput_marks (held : Held f k s) : wp (iunlockput sb k) (fun _ t => t.marks = f) (fun _ => True) s :=
  wp_seq (iunlock_marks held) fun _ _ now => iput_marks now

end Take

section Paths

variable {sb : Superblock} {s : State} {f : Marks} {k : Nat}

theorem namexFrom_marks (parent : Bool) (turns : Nat) (path : List UInt8) (now : s.marks = f.hold k) :
    wp (namexFrom sb parent turns k path) (fun r t => t.marks = f.holds (r.map Prod.fst)) (fun _ => True) s := by
  induction turns generalizing s k path with
  | zero => trivial
  | succ turns ih =>
    rw [namexFrom]
    cases skipelem path with
    | none =>
      dsimp only
      split
      · exact wp_seq (iput_marks now) fun _ _ same => same
      · exact now
    | some found =>
      apply wp_seq (ilock_marks now)
      intro _ t held
      rw [wp_bind,wp_getInode]
      split
      · exact wp_seq (iunlockput_marks held) fun _ _ same => same
      split
      · exact wp_seq (iunlock_marks held) fun _ _ same => same
      apply wp_seq (dirlookup_marks found.1)
      intro r u taken
      cases r with
      | none => exact wp_seq (iunlockput_marks (held.same taken)) fun _ _ same => same
      | some x =>
        have both : Held (f.hold x.1) k u := ⟨held.free,by rw [taken,held.now]; exact Marks.own_hold ..⟩
        exact wp_seq (iunlockput_marks both) fun _ v now => ih found.2 now

theorem namex_marks (cwd : Nat) (path : List UInt8) (parent : Bool) :
    wp (namex sb cwd path parent) (fun r t => t.marks = s.marks.holds (r.map Prod.fst)) (fun _ => True) s := by
  rw [namex]
  split
  · exact wp_seq (iget_marks _) fun _ _ now => namexFrom_marks parent _ path now
  · exact wp_seq idup_marks fun _ _ now => namexFrom_marks parent _ path now

theorem namei_marks (cwd : Nat) (path : List UInt8) :
    wp (namei sb cwd path) (fun r t => t.marks = s.marks.holds r) (fun _ => True) s :=
  wp_seq (namex_marks cwd path false) fun _ _ now => now

/-- A file system call that has begun an operation of the log gives back all that it takes. -/
theorem release (held : Held (f.ops 1) k s) :
    wp (do
      iunlockput sb k
      endOp
      return (-1 : Int)) (fun _ t => t.marks = f) (fun _ => True) s :=
  wp_seq (iunlockput_marks held) fun _ _ now => endOp_marks now _

end Paths

namespace Quiet

variable {sb : Superblock} {s : State} {f : Marks}

theorem linkBad {ip : Nat} (now : s.marks = (f.ops 1).hold ip) :
    wp (linkBad sb ip) (fun _ t => t.marks = f) (fun _ => True) s := by
  apply wp_seq (ilock_marks now)
  intro _ t held
  refine Keeps.seq (setDinode ip _) fun _ u first => Keeps.seq (iupdate sb ip) fun _ v second => ?_
  exact release (held.same (second.trans first))

theorem sysLink (p : Nat) (old new : Option (List UInt8)) : Quiet (sysLink sb p old new) := fun s => by
  cases old with
  | none => rfl
  | some old =>
  cases new with
  | none => rfl
  | some new =>
  refine Keeps.seq (myproc p) fun pr t same => ?_
  rw [← same]
  apply wp_seq beginOp_marks
  intro _ u begun
  apply wp_seq (namei_marks _ old)
  intro found v now
  rw [begun] at now
  cases found with
  | none => exact endOp_marks now _
  | some ip =>
    apply wp_seq (ilock_marks now)
    intro _ w held
    rw [wp_bind,wp_getInode]
    split
    · exact release held
    refine Keeps.seq (setDinode ip _) fun _ a first => Keeps.seq (iupdate sb ip) fun _ b second => ?_
    apply wp_seq (iunlock_marks (held.same (second.trans first)))
    intro _ c now
    apply wp_seq (namex_marks _ new true)
    intro found d now'
    rw [now] at now'
    cases found with
    | none => exact linkBad now'
    | some x =>
      apply wp_seq (ilock_marks now')
      intro _ e held
      rw [wp_bind,wp_getInode]
      refine Keeps.seq (dirlink _ _) fun r g same => ?_
      apply wp_seq (iunlockput_marks (held.same same))
      intro _ h now
      split
      · exact linkBad now
      · exact wp_seq (iput_marks now) fun _ _ now => endOp_marks now _

/-- The inode is locked as well, and given back first or last. -/
theorem unlinkFound {dp ip off : Nat} (free : f.locks dp = false) (now : s.marks = ((f.ops 1).own dp).hold ip) :
    wp (unlinkFound sb dp ip off) (fun _ t => t.marks = f) (fun _ => True) s := by
  apply wp_seq (ilock_marks now)
  intro _ t held
  rw [wp_bind,wp_getInode]
  dsimp only
  split
  · trivial
  refine Keeps.seq (isFull sb ip _) fun full u same => ?_
  have held := held.same same
  split
  · exact wp_seq (iunlockput_marks held) fun _ _ now => release ⟨free,now⟩
  refine Keeps.seq (writei sb dp _ _ _) fun r v same => ?_
  obtain ⟨free',held⟩ := Held.swap (f := f.ops 1) free (held.same same)
  split
  · trivial
  have rest : ∀ w : State, w.marks = v.marks → wp (do
      iunlockput sb dp
      nlinkDec ip
      Fs.iupdate sb ip
      iunlockput sb ip
      endOp
      return (0 : Int)) (fun _ t => t.marks = f) (fun _ => True) w := fun w same => by
    apply wp_seq (iunlockput_marks (held.same same))
    intro _ x now
    refine Keeps.seq (setDinode ip _) fun _ y first => Keeps.seq (iupdate sb ip) fun _ z second => ?_
    have held : Held (f.ops 1) ip z := ⟨free',(second.trans first).trans now⟩
    exact wp_seq (iunlockput_marks held) fun _ _ now => endOp_marks now _
  split
  · refine Keeps.seq (setDinode dp _) fun _ x first => Keeps.seq (iupdate sb dp) fun _ y second => ?_
    exact rest y (second.trans first)
  · exact rest v rfl

theorem sysUnlink (p : Nat) (path : Option (List UInt8)) : Quiet (sysUnlink sb p path) := fun s => by
  cases path with
  | none => rfl
  | some path =>
  refine Keeps.seq (myproc p) fun pr t same => ?_
  rw [← same]
  apply wp_seq beginOp_marks
  intro _ u begun
  apply wp_seq (namex_marks _ path true)
  intro found v now
  rw [begun] at now
  cases found with
  | none => exact endOp_marks now _
  | some x =>
  obtain ⟨dp,name⟩ := x
  apply wp_seq (ilock_marks now)
  intro _ w held
  split
  · exact release held
  apply wp_seq (dirlookup_marks name)
  intro r a taken
  rw [held.now] at taken
  cases r with
  | none => exact release ⟨held.free,taken⟩
  | some found => exact unlinkFound held.free taken

end Quiet

/-! `create` returns with the lock of its inode. -/

section Create

variable {sb : Superblock} {f : Marks} {s : State}

/-- What there is after `create`: nothing, or the inode and its lock. -/
def Made (f : Marks) : Option Nat → State → Prop
  | none, s => s.marks = f
  | some k, s => Held f k s

theorem createFail_marks {dp ip : Nat} (free : f.locks dp = false) (held : Held (f.own dp) ip s) :
    wp (createFail sb dp ip) (Made f) (fun _ => True) s := by
  refine Keeps.seq (Quiet.setDinode ip _) fun _ t first => Keeps.seq (Quiet.iupdate sb ip) fun _ u second => ?_
  apply wp_seq (iunlockput_marks (held.same (second.trans first)))
  intro _ v now
  exact wp_seq (iunlockput_marks ⟨free,now⟩) fun _ _ now => now

theorem createNew_marks {dp : Nat} {name : List UInt8} {type major minor : Nat} (held : Held f dp s) :
    wp (createNew sb dp name type major minor) (Made f) (fun _ => True) s := by
  apply wp_seq (iallocFrom_marks type _ 1)
  intro r t now
  rw [held.now] at now
  cases r with
  | none => exact wp_seq (iunlockput_marks ⟨held.free,now⟩) fun _ _ now => now
  | some ip =>
    apply wp_seq (ilock_marks now)
    intro _ u both
    refine Keeps.seq (Quiet.setDinode ip _) fun _ v first => Keeps.seq (Quiet.iupdate sb ip) fun _ w second => ?_
    rw [wp_bind,wp_getInode,wp_bind,wp_getInode]
    refine Keeps.seq (Quiet.createDots ip type _ _) fun dots x third => ?_
    have both := both.same (third.trans (second.trans first))
    split
    · exact createFail_marks held.free both
    refine Keeps.seq (Quiet.dirlink name _) fun r y fourth => ?_
    have both := both.same fourth
    split
    · exact createFail_marks held.free both
    obtain ⟨free,both⟩ := both.swap held.free
    have rest : ∀ z : State, z.marks = y.marks → wp (do
        iunlockput sb dp
        return some ip) (Made f) (fun _ => True) z := fun z same =>
      wp_seq (iunlockput_marks (both.same same)) fun _ _ now => ⟨free,now⟩
    split
    · refine Keeps.seq (Quiet.setDinode dp _) fun _ z first => Keeps.seq (Quiet.iupdate sb dp) fun _ a second => ?_
      exact rest a (second.trans first)
    · exact rest y rfl

theorem create_marks (cwd : Nat) (path : List UInt8) (type major minor : Nat) :
    wp (create sb cwd path type major minor) (Made s.marks) (fun _ => True) s := by
  apply wp_seq (namex_marks cwd path true)
  intro found t now
  cases found with
  | none => exact now
  | some x =>
  obtain ⟨dp,name⟩ := x
  apply wp_seq (ilock_marks now)
  intro _ u held
  apply wp_seq (dirlookup_marks name)
  intro r v taken
  cases r with
  | none => exact createNew_marks (held.same taken)
  | some found =>
    obtain ⟨ip,off⟩ := found
    have both : Held (s.marks.hold ip) dp v := ⟨held.free,by rw [taken,held.now]; exact Marks.own_hold ..⟩
    apply wp_seq (iunlockput_marks both)
    intro _ w now
    apply wp_seq (ilock_marks now)
    intro _ x held
    rw [wp_bind,wp_getInode]
    dsimp only
    split
    · exact held
    · exact wp_seq (iunlockput_marks held) fun _ _ now => now

end Create

end Xv6.Fs
