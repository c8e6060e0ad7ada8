import Xv6.Bcache
import Xv6.Fs.ItableSafe
import Xv6.Fs.Safety

/-! When the fixed tables run out: exactly who has to hold what for `iget` and `bget` to panic, and
processes that make it happen with ordinary system calls. -/
namespace Xv6.Load

/-- The inode table and the buffer cache. A system call of one of `n` processes, with what it does while others are in
calls of their own, is a sequence of steps on the two. -/
structure State (n : Nat) where
  inodes : Itable.State
  buffers : Bcache.State n

inductive Action (n : Nat) where
  | inode (a : Itable.Action)
  | buffer (a : Bcache.Action n)

variable {n : Nat}

def step (s : State n) : Action n → Option (State n)
  | .inode a => (s.inodes.step a).map fun inodes => { s with inodes := inodes }
  | .buffer a => (Bcache.step s.buffers a).map fun buffers => { s with buffers := buffers }

def init (n : Nat) (slot : Nat → Itable.Slot) (disk : Itable.Key → Fs.Dinode) (data : Itable.Key → Bytes.Storage) :
    State n :=
  ⟨.init slot disk data,Bcache.init n⟩

/-- A process that is free to do so calls `iget` or `bget`, which panics. -/
def Panics (s : State n) : Action n → Prop
  | .inode (.iget p key) =>
    (s.inodes.doing p = .nothing ∨ s.inodes.doing p = .allocated key) ∧ s.inodes.find key = none
  | .buffer (.bread p key) => s.buffers.doing p = .nothing ∧ s.buffers.bget p key = none
  | _ => False

/-- The inodes that calls in progress, open files and current directories refer to. -/
def referenced (s : Itable.State) : Finset Itable.Key := (s.refs.map fun ref => (s.slot ref.2).key).toFinset

/-- The buffers that somebody holds or waits for or that are pinned. -/
def busy (s : Bcache.State n) : Finset Nat :=
  (Finset.range nbuf).filter fun k => 0 < s.holders k + s.waiters k + (s.buf k).pins

/-- There are `NINODE` other inodes in use, or `NBUF` other blocks. -/
def Full (s : State n) : Action n → Prop
  | .inode (.iget p key) =>
    (s.inodes.doing p = .nothing ∨ s.inodes.doing p = .allocated key) ∧
      key ∉ referenced s.inodes ∧ (referenced s.inodes).card = ninode
  | .buffer (.bread p key) =>
    s.buffers.doing p = .nothing ∧ (∀ k < nbuf, (s.buffers.buf k).key ≠ key) ∧ (busy s.buffers).card = nbuf
  | _ => False

theorem referenced_eq {s : Itable.State} (inv : Itable.Inv s) : referenced s =
    ((Finset.range ninode).filter fun k => 0 < (s.slot k).ref).image fun k => (s.slot k).key := by
  ext key
  simp only [referenced,Multiset.mem_toFinset,Multiset.mem_map,Finset.mem_image,Finset.mem_filter,Finset.mem_range]
  constructor
  · rintro ⟨⟨owner,k⟩,member,rfl⟩
    have positive : 0 < (s.slot k).ref := by
      rw [inv.count k]
      exact Multiset.countP_pos.mpr ⟨(owner,k),member,rfl⟩
    exact ⟨k,⟨inv.inside owner k member,positive⟩,rfl⟩
  · rintro ⟨k,⟨-,positive⟩,rfl⟩
    rw [inv.count k] at positive
    obtain ⟨⟨owner,l⟩,member,same⟩ := Multiset.countP_pos.mp positive
    obtain rfl : l = k := same
    exact ⟨(owner,l),member,rfl⟩

theorem filter_card_eq_iff {m : Nat} {P : Nat → Prop} [DecidablePred P] :
    ((Finset.range m).filter P).card = m ↔ ∀ k < m, P k := by
  constructor
  · intro card k inside
    have all : (Finset.range m).filter P = Finset.range m :=
      Finset.eq_of_subset_of_card_le (Finset.filter_subset _ _) (by simp [card])
    exact (Finset.mem_filter.mp (all ▸ Finset.mem_range.mpr inside)).2
  · intro all
    rw [Finset.filter_true_of_mem fun k member => all k (Finset.mem_range.mp member),Finset.card_range]

theorem find_eq_none_iff {s : Itable.State} (inv : Itable.Inv s) {key : Itable.Key} :
    s.find key = none ↔ key ∉ referenced s ∧ (referenced s).card = ninode := by
  have card : (referenced s).card = ((Finset.range ninode).filter fun k => 0 < (s.slot k).ref).card := by
    rw [referenced_eq inv]
    refine Finset.card_image_of_injOn fun k kIn l lIn same => ?_
    exact inv.unique k l (Finset.mem_filter.mp kIn).2 (Finset.mem_filter.mp lIn).2 same
  rw [card,filter_card_eq_iff,referenced_eq inv]
  simp only [Itable.State.find,Option.or_eq_none_iff,List.find?_eq_none,List.mem_range,decide_eq_true_eq,
    Finset.mem_image,Finset.mem_filter,Finset.mem_range]
  constructor
  · rintro ⟨absent,full⟩
    refine ⟨?_,fun k inside => Nat.pos_of_ne_zero (full k inside)⟩
    rintro ⟨k,⟨inside,positive⟩,same⟩
    exact absent k inside ⟨positive,same⟩
  · rintro ⟨absent,full⟩
    refine ⟨?_,fun k inside => Nat.ne_of_gt (full k inside)⟩
    rintro k inside ⟨positive,same⟩
    exact absent ⟨k,⟨inside,positive⟩,same⟩

theorem bget_eq_none_iff {s : Bcache.State n} {lru : List Nat} (inv : Bcache.Inv s lru) {p : Fin n} {key : Bcache.Key} :
    s.bget p key = none ↔ (∀ k < nbuf, (s.buf k).key ≠ key) ∧ (busy s).card = nbuf := by
  rw [busy,filter_card_eq_iff,Bcache.State.bget,inv.cached_eq,inv.unused_eq]
  have counted := inv.counted
  cases cached : lru.find? fun k => (s.buf k).key = key with
  | some k =>
    have inside := inv.mem_lru.mp (List.mem_of_find?_eq_some cached)
    have found : (s.buf k).key = key := by simpa using List.find?_some cached
    simpa using fun absent => absurd found (absent k inside)
  | none =>
    have absent : ∀ k < nbuf, (s.buf k).key ≠ key := fun k inside => by
      simpa using List.find?_eq_none.mp cached k (inv.mem_lru.mpr inside)
    cases unused : lru.reverse.find? fun k => (s.buf k).refcnt = 0 with
    | some k =>
      have inside := inv.mem_lru.mp (List.mem_reverse.mp (List.mem_of_find?_eq_some unused))
      have free : (s.buf k).refcnt = 0 := by simpa using List.find?_some unused
      simp only [reduceCtorEq,false_iff]
      rintro ⟨-,full⟩
      have := full k inside
      have := counted k
      omega
    | none =>
      refine iff_of_true rfl ⟨absent,fun k inside => ?_⟩
      have used : (s.buf k).refcnt ≠ 0 := by
        simpa using List.find?_eq_none.mp unused k (List.mem_reverse.mpr (inv.mem_lru.mpr inside))
      have := counted k
      omega

/-- At every moment of every run `iget` panics exactly if it is for an inode that nobody refers to while `NINODE` others
are referred to, and `bget` exactly if no buffer has the block and all of them are held, waited for or pinned. -/
theorem tables_panic_iff_full {slot : Nat → Itable.Slot} {disk : Itable.Key → Fs.Dinode}
    {data : Itable.Key → Bytes.Storage} {schedule : List (Action n)} {s : State n}
    (ran : Runs.run step (init n slot disk data) schedule = some s) (a : Action n) : Panics s a ↔ Full s a := by
  obtain ⟨inodes,lru,buffers⟩ := Runs.run_invariant
    (fun s : State n => Itable.Inv s.inodes ∧ ∃ lru, Bcache.Inv s.buffers lru)
    (by
      rintro s a t ⟨inodes,lru,buffers⟩ stepped
      cases a with
      | inode a =>
        obtain ⟨u,moved,rfl⟩ := Option.map_eq_some_iff.mp stepped
        exact ⟨inodes.step moved,lru,buffers⟩
      | buffer a =>
        obtain ⟨u,moved,rfl⟩ := Option.map_eq_some_iff.mp stepped
        exact ⟨inodes,_,buffers.step moved⟩)
    (show Itable.Inv (init n slot disk data).inodes ∧ _ from ⟨.init slot disk data,_,.init n⟩) ran
  match a with
  | .inode (.iget p key) => exact and_congr_right fun _ => find_eq_none_iff inodes
  | .buffer (.bread p key) => exact and_congr_right fun _ => bget_eq_none_iff buffers
  | .inode (.idup ..) | .inode (.give ..) | .inode (.ilock ..) | .inode (.next ..) | .inode (.change ..)
  | .inode (.write ..) | .inode (.iupdate ..) | .inode (.iunlock ..) | .inode (.iput ..) | .inode (.ialloc ..)
  | .buffer (.next ..) | .buffer (.brelse ..) | .buffer (.bpin ..) | .buffer (.bunpin ..) => exact Iff.rfl

def readers : List (Action 31) :=
  (List.finRange 30).map fun p => .buffer (.bread p.castSucc ⟨1,100 + p.val⟩)

theorem tables_panic_iff_full_readers :
    ∃ s, Runs.run step (init 31 (fun _ => ⟨(0,0),0,false,none,.blank 0,false⟩) (fun _ => .blank 0) fun _ _ => 0) readers =
        some s ∧ Panics s (.buffer (.bread 30 ⟨1,200⟩)) ∧ Full s (.buffer (.bread 30 ⟨1,200⟩)) := by
  refine Runs.reaches (fun s => s.buffers.doing 30 = .nothing ∧ (s.buffers.bget 30 ⟨1,200⟩).isNone = true)
    (by decide +kernel) fun s ran ⟨idle,full⟩ => ?_
  have panics : Panics s (.buffer (.bread 30 ⟨1,200⟩)) := ⟨idle,Option.isNone_iff_eq_none.mp full⟩
  exact ⟨panics,(tables_panic_iff_full ran _).mp panics⟩

section Broad

open Fs

/-! A disk with 50 directories in the root: inode `i` is the one of name `[64 + i]`. -/

def broadSb : Superblock := ⟨102,64,64,30,2,32,37⟩
def breadth : Nat := 51

def broadInode (i : Nat) : Dinode :=
  if i = 0 ∨ breadth < i then .blank 0
  else if i = rootino then oneBlock tDir breadth (16 * (breadth + 1)) (broadSb.bmapstart + i)
  else oneBlock tDir 1 32 (broadSb.bmapstart + i)

def broadDir (i : Nat) : List Dirent :=
  [⟨i,dot⟩,⟨rootino,dotdot⟩] ++
    if i = rootino then (List.range' 2 (breadth - 1)).map fun j => ⟨j,[UInt8.ofNat (64 + j)]⟩ else []

def broad : Disk := fun b =>
  if b < broadSb.inodestart then fun _ => 0
  else if b < broadSb.bmapstart then fun a =>
    putDinode (fun _ => 0) 0 (broadInode ((b - broadSb.inodestart) * ipb + a / dinodeSize)) (a % dinodeSize)
  else if b = broadSb.bmapstart then mapBlock (broadSb.datastart + breadth)
  else dirBlock (broadDir (b - broadSb.bmapstart))

/-- The first `n` processes have the root as their current directory. -/
def crowd (n : Nat) : Fs.State :=
  { boot broadSb broad with
    itable := fun k => ⟨if k = 0 then rootino else 0,if k = 0 then n else 0,false,false,.blank 0⟩
    proc := fun p => if p < n then some ⟨0,fun _ => none⟩ else none }

/-- Process `p` goes to directory `p + 1`. -/
def enter (p : Nat) : Nat × Call := (p,.chdir (some [UInt8.ofNat (65 + p)]))

end Broad

/-- 50 processes have 50 different current directories; another one's `chdir` panics in `iget`. And while 30 processes
read different blocks, a read of another block panics in `bget`. -/
theorem tables_exhausted :
    ((Runs.run (Fs.step broadSb) (crowd 51) ((List.range' 1 49).map enter)).map fun s =>
        Prog.errorOf (Fs.syscall broadSb 50 (enter 50).2) s) = some (some .igetNoInodes) ∧
      ((Runs.run Bcache.step (Bcache.init 31) ((List.finRange 30).map fun p => .bread p.castSucc ⟨1,100 + p.val⟩)).map
        fun s => (s.bget 30 ⟨1,200⟩).isNone) = some true :=
  ⟨by decide +kernel,by decide +kernel⟩

end Xv6.Load
