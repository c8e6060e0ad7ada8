import Xv6.Loops
import Xv6.Fs.Path
import Xv6.Fs.Shared

/-! `sys_read` from a file of any type. The count is an `int`, which `readi` takes as a `uint`. -/
namespace Xv6.Fs

open Prog Function
open Loops (Cons)

section Model

/-- The memory of a process by virtual addresses. The addresses in its pages are `ok`. -/
structure User where
  mem : Bytes.Storage
  ok : Nat → Bool
  low : ∀ a, ok a = true → a < maxva

namespace User

def put (u : User) (a : Nat) (byte : UInt8) : User := { u with mem := update u.mem a byte }

def above (u : User) (addr : Nat) (dst : Bytes.Storage) : User :=
  { u with mem := fun a => if a < addr then u.mem a else dst (a - addr) }

end User

/-- What becomes of a process that waits: it goes on, it was killed, or it sleeps after all turns that are given. -/
inductive Waited (σ : Type)
  | ready (s : σ) (later : List (Bool × σ))
  | killed (s : σ)
  | asleep

/-- A loop `while(blocked){ if(killed(pr)) return -1; sleep(..); }`. A turn is what `killed` returns and what the
process finds after `sleep`. -/
def await {σ : Type} (blocked : σ → Bool) : List (Bool × σ) → σ → Waited σ
  | [], s => if blocked s then .asleep else .ready s []
  | (killed,next) :: later, s =>
    if blocked s then if killed then .killed s else await blocked later next else .ready s ((killed,next) :: later)

/-- The loop of `piperead` that copies, after `i` bytes. -/
def pipeCopy (addr : Nat) (n : Int) : Nat → Nat → Pipe → User → Nat × Pipe × User
  | 0, i, pi, u => (i,pi,u)
  | turns + 1, i, pi, u =>
    if (i : Int) < n ∧ pi.isEmpty = false then
      if u.ok (addr + i) then
        pipeCopy addr n turns (i + 1) (pi.take true) (u.put (addr + i) (pi.data (Pipe.slot pi.nread)))
      else (i,pi.take false,u)
    else (i,pi,u)

def piperead (later : List (Bool × Pipe)) (addr : Nat) (n : Int) (pi : Pipe) (u : User) : Option (Int × Pipe × User) :=
  match await (fun pi => pi.isEmpty && pi.writeopen) later pi with
  | .asleep => none
  | .killed pi => some (-1,pi,u)
  | .ready pi _ =>
    let (i,rest) := pipeCopy addr n n.toNat 0 pi u
    some (i,rest)

/-- The outer loop of `consoleread`, with `n` bytes to go. `target` is a `uint`, so the difference is one too. -/
def consoleFrom (target : Int) : Nat → Int → Nat → List (Bool × Cons) → Cons → User → Option (Int × Cons × User)
  | 0, n, _, _, cons, u => some (Int.bmod (target - n) (2 ^ 32),cons,u)
  | turns + 1, n, dst, later, cons, u =>
    if 0 < n then
      match await (fun cons => cons.r == cons.w) later cons with
      | .asleep => none
      | .killed cons => some (-1,cons,u)
      | .ready cons later =>
        let c := cons.buf (Cons.slot cons.r)
        let next := { cons with r := cons.r + 1 }
        if c = 4 then
          -- ^D is left for the next call unless it comes first
          some (Int.bmod (target - n) (2 ^ 32),if n < target then cons else next,u)
        else if u.ok dst then
          if c = 10 then some (Int.bmod (target - (n - 1)) (2 ^ 32),next,u.put dst c)
          else consoleFrom target turns (n - 1) (dst + 1) later next (u.put dst c)
        else some (Int.bmod (target - n) (2 ^ 32),next,u)
    else some (Int.bmod (target - n) (2 ^ 32),cons,u)

def consoleread (later : List (Bool × Cons)) (dst : Nat) (n : Int) (cons : Cons) (u : User) :
    Option (Int × Cons × User) :=
  consoleFrom n n.toNat n dst later cons u

/-- What `fileread` uses beside the file system: the pipes of the files of type `FD_PIPE`, the console and the memory
of the caller. -/
structure Outer where
  pipe : Nat → Option Pipe
  cons : Cons
  user : User

/-- The turns of a caller that has to wait. -/
structure Sleeps where
  pipe : List (Bool × Pipe)
  cons : List (Bool × Cons)

variable (sb : Superblock)

/-- The result is `none` while the caller sleeps. -/
def fileread (sleeps : Sleeps) (f addr : Nat) (n : Int) (w : Outer) : Kernel (Option (Int × Outer)) := do
  let file ← getFile f
  if !file.readable then return some (-1,w)
  match w.pipe f with
  | some pi =>
    return (piperead sleeps.pipe addr n pi w.user).map fun (r,pi,user) =>
      (r,{ w with pipe := update w.pipe f (some pi), user })
  | none =>
    match file.type with
    | .device =>
      if short file.major < 0 ∨ ndev ≤ short file.major ∨ file.major ≠ console then return some (-1,w)
      return (consoleread sleeps.cons addr n w.cons w.user).map fun (r,cons,user) => (r,{ w with cons, user })
    | .inode => do
      let (r,dst) ← readChunk sb f (fun a => w.user.mem (addr + a)) (fun a => w.user.ok (addr + a)) (n % 2 ^ 32).toNat
      return some (r,{ w with user := w.user.above addr dst })
    | .none => fail .fileread

def sysRead (sleeps : Sleeps) (p fd addr : Nat) (n : Int) (w : Outer) : Kernel (Option (Int × Outer)) := do
  match ← argfd p fd with
  | none => return some (-1,w)
  | some f => fileread sb sleeps f addr n w

end Model

/-! Pipes and the console count down from `n`, so they keep to the buffer. -/

/-- The result is at most `n`, and no byte outside of the buffer has changed. -/
structure Fits (addr : Nat) (n : Int) (u : User) (r : Int) (u' : User) : Prop where
  count : r ≤ max n 0
  kept : ∀ a, a < addr ∨ addr + n.toNat ≤ a → u'.mem a = u.mem a

variable {n r : Int} {addr : Nat} {u u' : User}

theorem Fits.refl (count : r ≤ max n 0) : Fits addr n u r u := ⟨count,fun _ _ => rfl⟩

theorem Fits.put {a : Nat} {byte : UInt8} (fits : Fits addr n (u.put a byte) r u')
    (inside : addr ≤ a ∧ a < addr + n.toNat) : Fits addr n u r u' := by
  refine ⟨fits.count,fun x outside => ?_⟩
  have other : x ≠ a := by omega
  rw [fits.kept x outside]
  exact update_of_ne other byte u.mem

theorem pipeCopy_fits (addr : Nat) (n : Int) (turns i : Nat) (pi : Pipe) (u : User) (start : (i : Int) ≤ max n 0) :
    Fits addr n u (pipeCopy addr n turns i pi u).1 (pipeCopy addr n turns i pi u).2.2 := by
  induction turns generalizing i pi u with
  | zero => exact .refl start
  | succ turns ih =>
    rw [pipeCopy]
    split
    · rename_i go
      split
      · exact (ih (i + 1) _ _ (by omega)).put (by omega)
      · exact .refl start
    · exact .refl start

theorem piperead_fits {later : List (Bool × Pipe)} {pi pi' : Pipe}
    (out : piperead later addr n pi u = some (r,pi',u')) : Fits addr n u r u' := by
  rw [piperead] at out
  split at out
  · cases out
  · cases out
    exact .refl (by omega)
  · rename_i ready later' found
    have fits := pipeCopy_fits addr n n.toNat 0 ready u (by omega)
    simp only [Option.some.injEq,Prod.mk.injEq] at out
    obtain ⟨rfl,same⟩ := out
    rwa [same] at fits

theorem consoleFrom_fits {target : Int} (int : target < 2 ^ 31) (turns done : Nat)
    {later : List (Bool × Cons)} {cons cons' : Cons} (start : (done : Int) ≤ max target 0)
    (out : consoleFrom target turns (target - done) (addr + done) later cons u = some (r,cons',u')) :
    Fits addr target u r u' := by
  have whole {d : Nat} (small : (d : Int) ≤ max target 0) : Int.bmod (target - (target - d)) (2 ^ 32) = d := by
    rw [Int.sub_sub_self]
    exact Int.bmod_eq_of_le (by omega) (by omega)
  have next : target - done - 1 = target - (done + 1 : Nat) := by omega
  induction turns generalizing done later cons u with
  | zero =>
    cases out
    exact .refl (by rw [whole start]; exact start)
  | succ turns ih =>
    rw [consoleFrom] at out
    split at out
    · rename_i go
      have more : ((done + 1 : Nat) : Int) ≤ max target 0 := by omega
      have inside : addr ≤ addr + done ∧ addr + done < addr + target.toNat := by omega
      split at out
      · cases out
      · cases out
        exact .refl (by omega)
      · dsimp only at out
        split at out
        · cases out
          exact .refl (by rw [whole start]; exact start)
        · split at out
          · split at out
            · cases out
              refine Fits.put (.refl ?_) inside
              rw [next,whole more]
              exact more
            · rw [next] at out
              exact (ih (done + 1) more out (by omega)).put inside
          · cases out
            exact .refl (by rw [whole start]; exact start)
    · cases out
      exact .refl (by rw [whole start]; exact start)

theorem consoleread_fits {later : List (Bool × Cons)} {cons cons' : Cons}
    (int : n < 2 ^ 31) (out : consoleread later addr n cons u = some (r,cons',u')) : Fits addr n u r u' :=
  consoleFrom_fits int n.toNat 0 (by omega) (by simpa [consoleread] using out)

/-! An inode is read with the count as a `uint`. -/

section Inode

variable {sb : Superblock} {s : State} {A : Abs} {R : Multiset (Nat × Nat)} {L : Set (Nat × Nat)} {k i f : Nat}

/-- What `readi` returns and leaves in `dst`. -/
def received (sb : Superblock) (A : Abs) (i off n : Nat) (dst : Bytes.Storage) (ok : Nat → Bool) : Int × Bytes.Storage :=
  let len := min n ((A.ino i).size - off)
  if (A.ino i).size < off ∨ 2 ^ 32 ≤ off + n then (0,dst)
  else (if reach ok 0 len = len then (len : Int) else -1,Bytes.copy dst 0 (A.bytes sb i) off (reach ok 0 len))

theorem readi_received {T : Tables} {D : Set Nat} (locked : (k,i) ∈ L) (sound : Sound sb A) (repr : Repr sb T s A D R L)
    {off n : Nat} (offset : off < 2 ^ 32) (count : n < 2 ^ 32) (dst : Bytes.Storage) (ok : Nat → Bool) :
    (readi sb k dst ok off n).run s = .ok (received sb A i off n dst ok,s) := by
  obtain ⟨_,din,_⟩ := repr.at_locked locked
  by_cases early : (A.ino i).size < off ∨ 2 ^ 32 ≤ off + n
  · rw [readi,readiWith,run_getInode,din,if_pos (by omega),received,if_pos early]
    rfl
  · rw [readi_until locked sound repr (by omega) (by omega),received,if_neg early]

theorem readChunk_returns (repr : Repr sb s.tables s A ∅ R L) (sound : Sound sb A) (member : ((s.ftable f).ip,i) ∈ R)
    (typed : (A.ino i).type ≠ 0) (unlocked : (s.itable (s.ftable f).ip).locked = false)
    (offset : (s.ftable f).off < 2 ^ 32) {n : Nat} (count : n < 2 ^ 32) (dst : Bytes.Storage) (ok : Nat → Bool) :
    wp (readChunk sb f dst ok n) (fun r _ => r = received sb A i (s.ftable f).off n dst ok) (fun _ => False) s := by
  rw [readChunk,wp_bind,wp_getFile_iff]
  apply wp_seq (ilock_run member typed (.inl unlocked) repr)
  rintro _ t ⟨repr,-,flags⟩
  have read : wp (readi sb (s.ftable f).ip dst ok (s.ftable f).off n)
      (fun r u => r = received sb A i (s.ftable f).off n dst ok ∧ u = t) (fun _ => False) t :=
    wp_of_ok (readi_received (Set.mem_insert ..) sound repr offset count dst ok) ⟨rfl,rfl⟩
  apply wp_seq read
  rintro ⟨r,dst'⟩ u ⟨same,rfl⟩
  have locked : (u.itable (s.ftable f).ip).locked = true := by rw [flags,if_pos rfl]
  have held : ¬(u.itable (s.ftable f).ip).ref < 1 := by
    have := repr.ref_pos member
    omega
  have finish (v : State) (table : v.itable = u.itable) :
      wp (do
        iunlock (s.ftable f).ip
        pure (r,dst')) (fun r _ => r = received sb A i (s.ftable f).off n dst ok) (fun _ => False) v := by
    simp only [iunlock,wp_bind,wp_getInode,wp_ite,wp_fail,wp_setInode,wp_pure,table,locked,held]
    simpa using same
  dsimp only
  split
  · rw [wp_bind]
    exact finish _ rfl
  · exact finish u rfl

theorem uint_of_neg (low : -2 ^ 31 ≤ n) (neg : n < 0) : ((n % 2 ^ 32).toNat : Int) = n + 2 ^ 32 := by omega

theorem uint_of_nonneg (high : n < 2 ^ 31) (pos : 0 ≤ n) : (n % 2 ^ 32).toNat = n.toNat := by omega

/-- The count is negative but `off + n` does not overflow, so that the rest of the file is read, however long it is. The
buffer has room for all of it, or one of the bytes that have room is another than before. -/
def Overruns (sb : Superblock) (A : Abs) (i off addr : Nat) (n : Int) (u : User) : Prop :=
  let rest := (A.ino i).size - off
  let there := reach (fun a => u.ok (addr + a)) 0 rest
  n < 0 ∧ (off : Int) < -n ∧ off < (A.ino i).size ∧
    (there = rest ∨ ∃ a < there, A.bytes sb i (off + a) ≠ u.mem (addr + a))

theorem received_fits_iff (sound : Sound sb A) (hi : i < sb.ninodes) (typed : (A.ino i).type ≠ 0) {off : Nat}
    (addr : Nat) (offset : off < 2 ^ 32) (low : -2 ^ 31 ≤ n) (high : n < 2 ^ 31) (u : User) :
    Fits addr n u (received sb A i off (n % 2 ^ 32).toNat (fun a => u.mem (addr + a)) fun a => u.ok (addr + a)).1
      (u.above addr (received sb A i off (n % 2 ^ 32).toNat (fun a => u.mem (addr + a)) fun a => u.ok (addr + a)).2) ↔
      ¬Overruns sb A i off addr n u := by
  have limit : maxfile * bsize < 2 ^ 31 := by decide
  have largest := sound.size_le hi typed
  have whole (count : Int) (some : count ≤ max n 0) : Fits addr n u count (u.above addr fun a => u.mem (addr + a)) := by
    refine ⟨some,fun a _ => ?_⟩
    simp only [User.above]
    split
    · rfl
    · rw [Nat.add_sub_cancel' (by omega)]
  by_cases pos : 0 ≤ n
  · -- the count is taken as it is
    rw [uint_of_nonneg high pos]
    refine iff_of_true ?_ fun overruns => by
      have := overruns.1
      omega
    rw [received]
    have bound := reach_le (fun a => u.ok (addr + a)) 0 (min n.toNat ((A.ino i).size - off))
    split
    · exact whole 0 (by omega)
    · refine ⟨by dsimp only; split <;> omega,fun a outside => ?_⟩
      simp only [User.above]
      split
      · rfl
      · rw [Bytes.copy_outside (by omega),Nat.add_sub_cancel' (by omega)]
  have uint := uint_of_neg low (by omega)
  have empty : n.toNat = 0 := by omega
  by_cases early : (A.ino i).size < off ∨ 2 ^ 32 ≤ off + (n % 2 ^ 32).toNat
  · rw [received,if_pos early]
    refine iff_of_true (whole 0 (by omega)) ?_
    rintro ⟨-,below,inside,-⟩
    omega
  have rest : min (n % 2 ^ 32).toNat ((A.ino i).size - off) = (A.ino i).size - off := by omega
  rw [received,if_neg early,rest]
  have bound := reach_le (fun a => u.ok (addr + a)) 0 ((A.ino i).size - off)
  constructor
  · rintro fits ⟨-,-,inside,full | ⟨a,below,differs⟩⟩
    · have := fits.count
      rw [if_pos full] at this
      omega
    · have kept := fits.kept (addr + a) (.inr (by omega))
      simp only [User.above,if_neg (show ¬addr + a < addr by omega),Nat.add_sub_cancel_left] at kept
      rw [← Nat.zero_add a,Bytes.copy_inside below,Nat.zero_add] at kept
      exact differs kept
  · intro calm
    by_cases last : off = (A.ino i).size
    · rw [show (A.ino i).size - off = 0 by omega]
      refine ⟨by simp [reach],fun a outside => ?_⟩
      have kept := (whole 0 (by omega)).kept a outside
      simpa [User.above,reach,Bytes.copy] using kept
    · have missing : ¬(reach (fun a => u.ok (addr + a)) 0 ((A.ino i).size - off) = (A.ino i).size - off ∨
          ∃ a < reach (fun a => u.ok (addr + a)) 0 ((A.ino i).size - off), A.bytes sb i (off + a) ≠ u.mem (addr + a)) :=
        fun noticed => calm ⟨by omega,by omega,by omega,noticed⟩
      push Not at missing
      rw [if_neg missing.1]
      refine ⟨by omega,fun a _ => ?_⟩
      simp only [User.above]
      split
      · rfl
      · rename_i above
        have place : addr + (a - addr) = a := by omega
        rw [Bytes.copy]
        split
        · rename_i there
          have same := missing.2 (a - addr) (by omega)
          rwa [Nat.sub_zero,← place,Nat.add_sub_cancel_left] at *
        · rw [place]

/-- The file `f` is open. The lock of its inode is free, so that the call need not wait for it. -/
structure Readable (sb : Superblock) (s : State) (A : Abs) (R : Multiset (Nat × Nat)) (w : Outer) (f i : Nat) : Prop where
  kind : (w.pipe f).isSome = true ∨ (s.ftable f).type ≠ .none
  offset : (s.ftable f).off < 2 ^ 32
  inode : (s.ftable f).type = .inode → ((s.ftable f).ip,i) ∈ R ∧ (A.ino i).type ≠ 0 ∧
    (s.itable (s.ftable f).ip).locked = false

/-- The call does not panic. If it returns, it has kept to the buffer. -/
def Within (x : Kernel (Option (Int × Outer))) (addr : Nat) (n : Int) (w : Outer) (s : State) : Prop :=
  wp x (fun out _ => ∀ r w', out = some (r,w') → Fits addr n w.user r w'.user) (fun _ => False) s

theorem fileread_within_iff (repr : Repr sb s.tables s A ∅ R L) (sound : Sound sb A) {w : Outer}
    (opened : Readable sb s A R w f i) (low : -2 ^ 31 ≤ n) (high : n < 2 ^ 31) (sleeps : Sleeps) (addr : Nat) :
    Within (fileread sb sleeps f addr n w) addr n w s ↔
      ¬((s.ftable f).readable = true ∧ w.pipe f = none ∧ (s.ftable f).type = .inode ∧
        Overruns sb A i (s.ftable f).off addr n w.user) := by
  have minus : (-1 : Int) ≤ max n 0 := by omega
  rw [Within,fileread,wp_bind,wp_getFile_iff]
  cases readable : (s.ftable f).readable with
  | false =>
    refine iff_of_true ?_ (by simp)
    rintro r w' ⟨⟩
    exact .refl minus
  | true =>
    simp only [Bool.not_true,Bool.false_eq_true,if_false,true_and]
    cases pipe : w.pipe f with
    | some pi =>
      refine iff_of_true ?_ (by simp)
      intro r w' out
      obtain ⟨⟨r',pi',u'⟩,read,same⟩ := Option.map_eq_some_iff.mp out
      cases same
      exact piperead_fits read
    | none =>
      simp only [true_and]
      cases type : (s.ftable f).type with
      | none =>
        rcases opened.kind with there | typed
        · simp [pipe] at there
        · exact absurd type typed
      | device =>
        refine iff_of_true ?_ (by simp)
        dsimp only
        split
        · rintro r w' ⟨⟩
          exact .refl minus
        · intro r w' out
          obtain ⟨⟨r',cons',u'⟩,read,same⟩ := Option.map_eq_some_iff.mp out
          cases same
          exact consoleread_fits high read
      | inode =>
        obtain ⟨member,typed,unlocked⟩ := opened.inode type
        have read := readChunk_returns repr sound member typed unlocked opened.offset
          (show (n % 2 ^ 32).toNat < 2 ^ 32 by omega) (fun a => w.user.mem (addr + a)) fun a => w.user.ok (addr + a)
        obtain ⟨_,t,ran,rfl⟩ := wp_returns read
        have fits := received_fits_iff sound (repr.slot _ i member).2.1 typed addr opened.offset low high w.user
        simp only [true_and]
        rw [← fits,wp_bind]
        constructor
        · exact fun within => wp_ok within ran _ _ rfl
        · intro fits
          refine wp_of_ok ran ?_
          rintro r w' ⟨⟩
          exact fits

/-- A call of `read` on an open file keeps to the buffer, unless it gives a negative count for an inode. -/
theorem sys_read_within_iff (repr : Repr sb s.tables s A ∅ R L) (sound : Sound sb A) {w : Outer} {p fd : Nat} {pr : Proc}
    (caller : s.proc p = some pr) (bound : fd < nofile) (file : pr.ofile fd = some f) (opened : Readable sb s A R w f i)
    {n : Int} (low : -2 ^ 31 ≤ n) (high : n < 2 ^ 31) (sleeps : Sleeps) (addr : Nat) :
    Within (sysRead sb sleeps p fd addr n w) addr n w s ↔
      ¬((s.ftable f).readable = true ∧ w.pipe f = none ∧ (s.ftable f).type = .inode ∧
        Overruns sb A i (s.ftable f).off addr n w.user) := by
  have found : (argfd p fd).run s = .ok (some f,s) := by
    have current : (myproc p).run s = .ok (pr,s) := by
      simp only [myproc]
      exact (run_bind (show (get : Kernel State).run s = .ok (s,s) from rfl)).trans (by rw [caller]; rfl)
    rw [argfd,run_bind current,if_pos bound,file]
    rfl
  rw [← fileread_within_iff repr sound opened low high sleeps addr,Within,Within,sysRead,wp_congr (run_bind found)]

end Inode

/-- A process has opened the root directory for reading. -/
def listing : State where
  disk := nested
  log := ⟨smallSb.logstart,smallSb.nlog,0,false,[]⟩
  itable := update (holding smallSb nested 1).itable 0 { (holding smallSb nested 1).itable 0 with locked := false }
  ftable _ := ⟨.inode,1,true,false,0,0,0⟩
  proc p := if p = 0 then some ⟨0,fun fd => if fd = 0 then some 0 else none⟩ else none

theorem listing_repr : Repr smallSb listing.tables listing (ofDisk smallSb nested) ∅ {(0,1)} {(0,1)} :=
  (((holding_repr (by decide) (by decide +kernel)).setLock (k := 0) false).log
    ⟨smallSb.logstart,smallSb.nlog,0,false,[]⟩).setTables listing.tables

def zeros : Outer where
  pipe _ := none
  cons := ⟨fun _ => 0,0,0,0⟩
  user := ⟨fun _ => 0,fun a => decide (a < 4096),fun a there => by
    have := of_decide_eq_true there
    simp only [maxva]
    omega⟩

theorem listing_within : Within (sysRead smallSb ⟨[],[]⟩ 0 0 100 20 zeros) 100 20 zeros listing := by
  refine (sys_read_within_iff (i := 1) listing_repr nested_sound (w := zeros) rfl (by decide) rfl ?_
    (by decide) (by decide) ⟨[],[]⟩ 100).mpr ?_
  · exact ⟨.inr (by decide),by decide,fun _ => ⟨Multiset.mem_singleton_self _,by decide +kernel,rfl⟩⟩
  · rintro ⟨-,-,-,negative,-⟩
    exact absurd negative (by decide)

/-- With a count of -1 the whole directory is copied. -/
theorem listing_overrun : ∃ w' t, (sysRead smallSb ⟨[],[]⟩ 0 0 100 (-1) zeros).run listing = .ok (some (48,w'),t) ∧
    zeros.user.mem 100 = 0 ∧ w'.user.mem 100 = 1 := by
  obtain ⟨out,t,ran,seen⟩ := run_of_seen (c := some (48,1))
    (g := fun out : Option (Int × Outer) × State => out.1.map fun (r,w') => (r,w'.user.mem 100))
    (show ((sysRead smallSb ⟨[],[]⟩ 0 0 100 (-1) zeros).run listing).toOption.map _ = _ by decide +kernel)
  obtain ⟨⟨r,w'⟩,rfl,same⟩ := Option.map_eq_some_iff.mp seen
  obtain ⟨rfl,changed⟩ := Prod.mk.inj same
  exact ⟨w',t,ran,rfl,changed⟩

end Xv6.Fs
