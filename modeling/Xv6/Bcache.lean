import Xv6.Links
import Xv6.Param
import Xv6.Runs
import Mathlib.Algebra.BigOperators.Group.Finset.Piecewise
import Mathlib.Data.Fintype.Card

/-! The list of the buffer cache: `bio.c` with the links of its buffers, any number of processes and
several devices. What is done under `bcache.lock` is one step. -/
namespace Xv6.Bcache

open Linked Function

/-- `dev` and `blockno`. -/
@[ext] structure Key where
  dev : Nat
  blockno : Nat
deriving DecidableEq

/-- `struct buf` without its data and its links. Beside the owner of the sleep-lock stands the block that it asked
for; `pins` counts the `bpin` calls without a `bunpin`. -/
structure Buf (n : Nat) where
  key : Key
  valid : Bool
  refcnt : Nat
  holder : Option (Fin n × Key)
  pins : Nat

/-- Where a process is in `bread` or `brelse`: before `acquiresleep`, before it looks at `valid`, and after
`releasesleep`; with the buffer and the block that it asked for. -/
inductive Doing where
  | nothing
  | lock (k : Nat) (key : Key)
  | read (k : Nat) (key : Key)
  | release (k : Nat) (key : Key)
deriving DecidableEq

/-- `bcache`; `none` is the node `bcache.head`. -/
structure State (n : Nat) where
  buf : Nat → Buf n
  links : Links (Option Nat)
  doing : Fin n → Doing

namespace State

variable {n : Nat} (s : State n)

def set (p : Fin n) (k : Nat) (x : Buf n) (d : Doing) : State n :=
  { s with buf := update s.buf k x, doing := update s.doing p d }

/-- The first loop of `bget`; there is no result if it goes on for ever. -/
def cached (key : Key) : Option (Option Nat) :=
  (scan s.links.next none (·.any fun k => (s.buf k).key = key) (nbuf + 1) (s.links.next none)).map Option.join

/-- The second loop of `bget`. -/
def unused : Option (Option Nat) :=
  (scan s.links.prev none (·.any fun k => (s.buf k).refcnt = 0) (nbuf + 1) (s.links.prev none)).map Option.join

/-- `bget` up to `acquiresleep`; it panics if every buffer is in use. -/
def bget (p : Fin n) (key : Key) : Option (State n) :=
  match s.cached key with
  | none => none
  | some (some k) => some (s.set p k { s.buf k with refcnt := (s.buf k).refcnt + 1 } (.lock k key))
  | some none =>
    match s.unused with
    | some (some k) => some (s.set p k { s.buf k with key := key, valid := false, refcnt := 1 } (.lock k key))
    | _ => none

/-- `brelse` under `bcache.lock`. -/
def unref (p : Fin n) (k : Nat) : State n :=
  let x := { s.buf k with refcnt := (s.buf k).refcnt - 1 }
  { s.set p k x .nothing with
    links := if x.refcnt = 0 then (s.links.unlink (some k)).push none (some k) else s.links }

/-- The next step of a process in `bread` or `brelse`; `acquiresleep` waits for the lock. -/
def next (p : Fin n) : Option (State n) :=
  match s.doing p with
  | .nothing => none
  | .lock k key =>
    if (s.buf k).holder = none then some (s.set p k { s.buf k with holder := some (p,key) } (.read k key)) else none
  | .read k _ => some (s.set p k { s.buf k with valid := true } .nothing)
  | .release k _ => some (s.unref p k)

end State

inductive Action (n : Nat) where
  | bread (p : Fin n) (key : Key)
  | next (p : Fin n)
  /-- The holder of a buffer gives it back; before that `holdingsleep` makes sure that it is the holder. -/
  | brelse (p : Fin n) (k : Nat)
  | bpin (k : Nat)
  /-- There is one for each `bpin`. -/
  | bunpin (k : Nat)
deriving DecidableEq

def step {n : Nat} (s : State n) : Action n → Option (State n)
  | .bread p key => if s.doing p = .nothing then s.bget p key else none
  | .next p => s.next p
  | .brelse p k =>
    match (s.buf k).holder with
    | none => none
    | some (q,key) =>
      if q = p ∧ s.doing p = .nothing then some (s.set p k { s.buf k with holder := none } (.release k key)) else none
  | .bpin k =>
    let x := { s.buf k with refcnt := (s.buf k).refcnt + 1, pins := (s.buf k).pins + 1 }
    if k < nbuf then some { s with buf := update s.buf k x } else none
  | .bunpin k =>
    let x := { s.buf k with refcnt := (s.buf k).refcnt - 1, pins := (s.buf k).pins - 1 }
    if 0 < (s.buf k).pins then some { s with buf := update s.buf k x } else none

/-- The list that `binit` makes: one buffer after the other is put at the front. -/
def binit : Links (Option Nat) :=
  (List.range nbuf).foldl (fun links k => links.push none (some k)) ⟨fun _ => none,fun _ => none⟩

/-- After `binit`: the buffers are zero. -/
def init (n : Nat) : State n where
  buf _ := ⟨⟨0,0⟩,false,0,none,0⟩
  links := binit
  doing _ := .nothing

def Doing.waits : Doing → Option Nat
  | .lock k _ => some k
  | _ => none

def Doing.leaves : Doing → Option Nat
  | .release k _ => some k
  | _ => none

/-- The number of processes at the place that `f` tells of. -/
def tally {n : Nat} (f : Doing → Option Nat) (doing : Fin n → Doing) (k : Nat) : Nat :=
  (Finset.univ.filter fun p => f (doing p) = some k).card

namespace State

variable {n : Nat} (s : State n)

def waiters (k : Nat) : Nat := tally Doing.waits s.doing k

/-- Those who hold it, or have just given up its lock and not yet their reference. -/
def holders (k : Nat) : Nat := (if (s.buf k).holder = none then 0 else 1) + tally Doing.leaves s.doing k

/-- A process holds a buffer, waits for it or is about to give it back, and asked for this block. -/
def Uses (p : Fin n) (k : Nat) (key : Key) : Prop :=
  (s.buf k).holder = some (p,key) ∨ s.doing p = .lock k key ∨ s.doing p = .read k key ∨ s.doing p = .release k key

end State

variable {n : Nat} {s t : State n} {p : Fin n} {k : Nat} {key : Key} {lru : List Nat}

structure Inv (s : State n) (lru : List Nat) : Prop where
  circle : Circle s.links none (lru.map some)
  all : lru.Perm (List.range nbuf)
  unique : ∀ k l, k < nbuf → l < nbuf → (s.buf k).key = (s.buf l).key → (s.buf k).key.dev ≠ 0 → k = l
  counted : ∀ k, (s.buf k).refcnt = s.holders k + s.waiters k + (s.buf k).pins
  inside : ∀ k, 0 < (s.buf k).refcnt → k < nbuf
  named : ∀ p k key, s.Uses p k key → (s.buf k).key = key
  reads : ∀ p k key, s.doing p = .read k key → (s.buf k).holder = some (p,key)

theorem tally_update (f : Doing → Option Nat) (doing : Fin n → Doing) (p : Fin n) (d : Doing) (k : Nat) :
    tally f (update doing p d) k + (if f (doing p) = some k then 1 else 0) =
      tally f doing k + (if f d = some k then 1 else 0) := by
  have others : ∑ q ∈ Finset.univ.erase p, (if f (update doing p d q) = some k then 1 else 0) =
      ∑ q ∈ Finset.univ.erase p, (if f (doing q) = some k then 1 else 0) := by
    refine Finset.sum_congr rfl fun q member => ?_
    rw [update_of_ne (Finset.ne_of_mem_erase member)]
  simp only [tally,Finset.card_filter]
  rw [← Finset.add_sum_erase Finset.univ _ (Finset.mem_univ p),others,
    ← Finset.add_sum_erase Finset.univ (fun q => if f (doing q) = some k then 1 else 0) (Finset.mem_univ p),
    update_self]
  omega

theorem tally_pos {f : Doing → Option Nat} {doing : Fin n → Doing} (there : f (doing p) = some k) :
    0 < tally f doing k :=
  Finset.card_pos.mpr ⟨p,by simp [there]⟩

theorem Inv.length (inv : Inv s lru) : (lru.map some).length < nbuf + 1 := by
  simp [inv.all.length_eq]

theorem Inv.mem_lru (inv : Inv s lru) : k ∈ lru ↔ k < nbuf := by simp [inv.all.mem_iff]

theorem join_map_some {α : Type} (x : Option α) : (x.map some).join = x := by cases x <;> rfl

theorem Inv.cached_eq (inv : Inv s lru) : s.cached key = some (lru.find? fun k => (s.buf k).key = key) := by
  rw [State.cached,inv.circle.scan_next inv.length,List.find?_map]
  simp only [Option.map_some,Option.some.injEq]
  exact join_map_some _

theorem Inv.unused_eq (inv : Inv s lru) : s.unused = some (lru.reverse.find? fun k => (s.buf k).refcnt = 0) := by
  rw [State.unused,inv.circle.scan_prev inv.length,← List.map_reverse,List.find?_map]
  simp only [Option.map_some,Option.some.injEq]
  exact join_map_some _

@[simp] def Doing.about : Doing → Option Nat
  | .nothing => none
  | .lock k _ | .read k _ | .release k _ => some k

theorem Inv.referenced (inv : Inv s lru) (uses : s.Uses p k key) : 0 < (s.buf k).refcnt := by
  have counted := inv.counted k
  have held : (s.buf k).holder ≠ none → 0 < s.holders k := by
    intro held
    simp only [State.holders,held,if_false]
    omega
  rcases uses with holder | lock | reading | release
  · have := held (by simp [holder])
    omega
  · have : 0 < s.waiters k := tally_pos (p := p) (by rw [lock]; rfl)
    omega
  · have := held (by simp [inv.reads p k key reading])
    omega
  · have : 0 < tally Doing.leaves s.doing k := tally_pos (p := p) (by rw [release]; rfl)
    simp only [State.holders] at counted
    omega

theorem Inv.set (inv : Inv s lru) {x : Buf n} {d : Doing} {links : Links (Option Nat)} {lru' : List Nat}
    (circle : Circle links none (lru'.map some)) (all : lru'.Perm (List.range nbuf))
    (inside : k < nbuf) (before : ∀ l, (s.doing p).about = some l → l = k) (after : ∀ l, d.about = some l → l = k)
    (renamed : x.key = (s.buf k).key ∨ ∀ l < nbuf, (s.buf l).key ≠ x.key)
    (counted : x.refcnt = (if x.holder = none then 0 else 1) + tally Doing.leaves (update s.doing p d) k +
      tally Doing.waits (update s.doing p d) k + x.pins)
    (named : ∀ q key, x.holder = some (q,key) ∨ update s.doing p d q = .lock k key ∨
      update s.doing p d q = .release k key → x.key = key)
    (reads : ∀ q key, update s.doing p d q = .read k key → x.holder = some (q,key)) :
    Inv { s.set p k x d with links := links } lru' := by
  have same : ∀ f : Doing → Option Nat, (∀ d l, f d = some l → d.about = some l) → ∀ l ≠ k,
      tally f (update s.doing p d) l = tally f s.doing l := by
    intro f about l other
    have moved := tally_update f s.doing p d l
    have old : f (s.doing p) ≠ some l := fun there => other (before l (about _ l there))
    have new : f d ≠ some l := fun there => other (after l (about _ l there))
    simpa [old,new] using moved
  have waits := same Doing.waits (by intro d l; cases d <;> simp [Doing.waits])
  have leaves := same Doing.leaves (by intro d l; cases d <;> simp [Doing.leaves])
  have doing : ∀ q l, l ≠ k → ∀ e : Doing, e.about = some l → update s.doing p d q = e → s.doing q = e := by
    intro q l other e about now
    by_cases mine : q = p
    · subst q
      rw [update_self] at now
      exact absurd (after l (now ▸ about)) other
    · rwa [update_of_ne mine] at now
  refine ⟨circle,all,?_,?_,?_,?_,?_⟩
  · intro i j iInside jInside equal device
    by_cases ik : i = k <;> by_cases jk : j = k
    · rw [ik,jk]
    · subst i
      have equal : x.key = (s.buf j).key := by simpa [State.set,jk] using equal
      have device : x.key.dev ≠ 0 := by simpa [State.set] using device
      rcases renamed with same | fresh
      · exact inv.unique k j iInside jInside (same ▸ equal) (same ▸ device)
      · exact absurd equal.symm (fresh j jInside)
    · subst j
      have equal : (s.buf i).key = x.key := by simpa [State.set,ik] using equal
      have device : (s.buf i).key.dev ≠ 0 := by simpa [State.set,ik] using device
      rcases renamed with same | fresh
      · exact inv.unique i k iInside jInside (equal.trans same) device
      · exact absurd equal (fresh i iInside)
    · exact inv.unique i j iInside jInside (by simpa [State.set,ik,jk] using equal) (by simpa [State.set,ik] using device)
  · intro l
    by_cases self : l = k
    · subst l
      simpa [State.set,State.holders,State.waiters] using counted
    · simpa [State.set,State.holders,State.waiters,self,waits l self,leaves l self] using inv.counted l
  · intro l positive
    by_cases self : l = k
    · exact self ▸ inside
    · exact inv.inside l (by simpa [State.set,self] using positive)
  · intro q l key uses
    by_cases self : l = k
    · subst l
      show (update s.buf k x k).key = key
      have uses : (update s.buf k x k).holder = some (q,key) ∨ update s.doing p d q = .lock k key ∨
        update s.doing p d q = .read k key ∨ update s.doing p d q = .release k key := uses
      rw [update_self] at uses ⊢
      rcases uses with holder | lock | read | release
      · exact named q key (.inl holder)
      · exact named q key (.inr (.inl lock))
      · exact named q key (.inl (reads q key read))
      · exact named q key (.inr (.inr release))
    · have old : s.Uses q l key := by
        rcases uses with holder | lock | read | release
        · exact .inl (by simpa [State.set,self] using holder)
        · exact .inr (.inl (doing q l self _ rfl lock))
        · exact .inr (.inr (.inl (doing q l self _ rfl read)))
        · exact .inr (.inr (.inr (doing q l self _ rfl release)))
      simpa [State.set,self] using inv.named q l key old
  · intro q l key reading
    by_cases self : l = k
    · subst l
      simpa [State.set] using reads q key reading
    · simpa [State.set,self] using inv.reads q l key (doing q l self _ rfl reading)

theorem uses_before {d : Doing} {q : Fin n} {e : Doing} (now : update s.doing p d q = e) :
    q = p ∧ d = e ∨ s.doing q = e := by
  by_cases mine : q = p
  · subst q
    exact .inl ⟨rfl,by simpa using now⟩
  · exact .inr (by rwa [update_of_ne mine] at now)

theorem Inv.bget (inv : Inv s lru) (idle : s.doing p = .nothing) (got : s.bget p key = some t) : Inv t lru := by
  have waits := fun k => tally_update Doing.waits s.doing p (.lock k key) k
  have leaves := fun k => tally_update Doing.leaves s.doing p (.lock k key) k
  simp only [idle,Doing.waits,Doing.leaves,reduceCtorEq,if_false,if_true,Nat.add_zero] at waits leaves
  unfold State.bget at got
  rw [inv.cached_eq,inv.unused_eq] at got
  cases cached : lru.find? fun k => (s.buf k).key = key with
  | some k =>
    rw [cached] at got
    cases got
    have found : (s.buf k).key = key := by simpa using List.find?_some cached
    have counted := inv.counted k
    refine inv.set inv.circle inv.all (inv.mem_lru.mp (List.mem_of_find?_eq_some cached))
      (by simp [idle]) (by simp) (.inl rfl) ?_ ?_ ?_
    · simp only [State.holders,State.waiters] at counted
      rw [waits k,leaves k]
      dsimp only
      omega
    · rintro q key' (holder | lock | release)
      · exact inv.named q k key' (.inl holder)
      · rcases uses_before lock with ⟨-,same⟩ | old
        · obtain ⟨-,rfl⟩ := Doing.lock.inj same
          exact found
        · exact inv.named q k key' (.inr (.inl old))
      · rcases uses_before release with ⟨-,same⟩ | old
        · cases same
        · exact inv.named q k key' (.inr (.inr (.inr old)))
    · intro q key' reading
      rcases uses_before reading with ⟨-,same⟩ | old
      · cases same
      · exact inv.reads q k key' old
  | none =>
    rw [cached] at got
    cases unused : lru.reverse.find? fun k => (s.buf k).refcnt = 0 with
    | none => simp [unused] at got
    | some k =>
      rw [unused] at got
      cases got
      have free : (s.buf k).refcnt = 0 := by simpa using List.find?_some unused
      have nobody : ∀ q key', ¬s.Uses q k key' := fun q key' uses => by
        have := inv.referenced uses
        omega
      have counted := inv.counted k
      refine inv.set inv.circle inv.all (inv.mem_lru.mp (List.mem_reverse.mp (List.mem_of_find?_eq_some unused)))
        (by simp [idle]) (by simp) (.inr ?_) ?_ ?_ ?_
      · intro l inside
        simpa using List.find?_eq_none.mp cached l (inv.mem_lru.mpr inside)
      · simp only [State.holders,State.waiters] at counted
        rw [waits k,leaves k]
        dsimp only
        omega
      · rintro q key' (holder | lock | release)
        · exact absurd (.inl holder) (nobody q key')
        · rcases uses_before lock with ⟨-,same⟩ | old
          · exact (Doing.lock.inj same).2
          · exact absurd (.inr (.inl old)) (nobody q key')
        · rcases uses_before release with ⟨-,same⟩ | old
          · cases same
          · exact absurd (.inr (.inr (.inr old))) (nobody q key')
      · intro q key' reading
        rcases uses_before reading with ⟨-,same⟩ | old
        · cases same
        · exact absurd (.inr (.inr (.inl old))) (nobody q key')

/-- The buffer that a process gives back has moved to the front of the list if nobody uses it. -/
theorem Inv.unref (inv : Inv s lru) (place : s.doing p = .release k key) :
    Inv (s.unref p k) (if (s.buf k).refcnt - 1 = 0 then k :: lru.erase k else lru) := by
  have waits := tally_update Doing.waits s.doing p .nothing k
  have leaves := tally_update Doing.leaves s.doing p .nothing k
  simp only [place,Doing.waits,Doing.leaves,reduceCtorEq,if_false,if_true,Nat.add_zero] at waits leaves
  have counted := inv.counted k
  have inside := inv.inside k (inv.referenced (.inr (.inr (.inr place))))
  obtain ⟨front,back,_,split,erased⟩ := List.exists_erase_eq (inv.mem_lru.mpr inside)
  have all : (k :: lru.erase k).Perm (List.range nbuf) :=
    (List.perm_cons_erase (inv.mem_lru.mpr inside)).symm.trans inv.all
  have fresh : k ∉ lru.erase k := (List.nodup_cons.mp (all.nodup_iff.mpr List.nodup_range)).1
  have moved : Circle ((s.links.unlink (some k)).push none (some k)) none ((k :: lru.erase k).map some) := by
    have circle := inv.circle
    rw [split,List.map_append,List.map_cons] at circle
    have unlinked := circle.unlink
    rw [← List.map_append,← erased] at unlinked
    exact unlinked.push (by simpa using fresh)
  obtain ⟨circle,all⟩ :
      Circle (if (s.buf k).refcnt - 1 = 0 then (s.links.unlink (some k)).push none (some k) else s.links) none
        ((if (s.buf k).refcnt - 1 = 0 then k :: lru.erase k else lru).map some) ∧
      (if (s.buf k).refcnt - 1 = 0 then k :: lru.erase k else lru).Perm (List.range nbuf) := by
    split
    · exact ⟨moved,all⟩
    · exact ⟨inv.circle,inv.all⟩
  refine inv.set circle all inside (by simp [place]) (by simp) (.inl rfl) ?_ ?_ ?_
  · simp only [State.holders,State.waiters] at counted
    dsimp only
    omega
  · rintro q key' (holder | lock | release)
    · exact inv.named q k key' (.inl holder)
    · rcases uses_before lock with ⟨-,same⟩ | old
      · cases same
      · exact inv.named q k key' (.inr (.inl old))
    · rcases uses_before release with ⟨-,same⟩ | old
      · cases same
      · exact inv.named q k key' (.inr (.inr (.inr old)))
  · intro q key' reading
    rcases uses_before reading with ⟨-,same⟩ | old
    · cases same
    · exact inv.reads q k key' old

theorem Inv.go (inv : Inv s lru) {x : Buf n} {d : Doing} (inside : k < nbuf)
    (before : ∀ l, (s.doing p).about = some l → l = k) (after : ∀ l, d.about = some l → l = k)
    (same : x.key = (s.buf k).key ∧ x.refcnt = (s.buf k).refcnt ∧ x.pins = (s.buf k).pins)
    (counted : (if x.holder = none then 0 else 1) + tally Doing.leaves (update s.doing p d) k +
      tally Doing.waits (update s.doing p d) k = s.holders k + s.waiters k)
    (named : ∀ q key, x.holder = some (q,key) ∨ update s.doing p d q = .release k key → s.Uses q k key)
    (locks : ∀ key, d ≠ .lock k key)
    (reads : ∀ q key, update s.doing p d q = .read k key → x.holder = some (q,key)) :
    Inv (s.set p k x d) lru := by
  refine inv.set inv.circle inv.all inside before after (.inl same.1) ?_ ?_ reads
  · rw [counted,same.2.1,same.2.2,inv.counted k]
  · rintro q key (holder | lock | release)
    · rw [same.1]
      exact inv.named q k key (named q key (.inl holder))
    · rcases uses_before lock with ⟨-,now⟩ | old
      · exact absurd now (locks key)
      · rw [same.1]
        exact inv.named q k key (.inr (.inl old))
    · rw [same.1]
      exact inv.named q k key (named q key (.inr release))

/-- The list after a step. -/
def State.reorder (s : State n) (lru : List Nat) : Action n → List Nat
  | .next p =>
    match s.doing p with
    | .release k _ => if (s.buf k).refcnt - 1 = 0 then k :: lru.erase k else lru
    | _ => lru
  | _ => lru

theorem Inv.next (inv : Inv s lru) (stepped : s.next p = some t) : Inv t (s.reorder lru (.next p)) := by
  unfold State.next at stepped
  simp only [State.reorder]
  cases place : s.doing p with
  | nothing => simp [place] at stepped
  | lock k key =>
    simp only [place] at stepped
    obtain ⟨free,rfl⟩ := Runs.enabled stepped
    have waits := tally_update Doing.waits s.doing p (.read k key) k
    have leaves := tally_update Doing.leaves s.doing p (.read k key) k
    simp only [place,Doing.waits,Doing.leaves,reduceCtorEq,if_false,if_true,Nat.add_zero] at waits leaves
    refine inv.go (inv.inside k (inv.referenced (.inr (.inl place)))) (by simp [place])
      (by simp) ⟨rfl,rfl,rfl⟩ ?_ ?_ (by simp) ?_
    · simp only [State.holders,State.waiters,free,if_true,reduceCtorEq,if_false]
      omega
    · rintro q key' (holder | release)
      · cases holder
        exact .inr (.inl place)
      · rcases uses_before release with ⟨-,now⟩ | old
        · cases now
        · exact .inr (.inr (.inr old))
    · intro q key' reading
      rcases uses_before reading with ⟨rfl,now⟩ | old
      · obtain ⟨-,rfl⟩ := Doing.read.inj now
        rfl
      · have holder := inv.reads q k key' old
        simp [free] at holder
  | read k key =>
    simp only [place] at stepped
    cases stepped
    have waits := tally_update Doing.waits s.doing p .nothing k
    have leaves := tally_update Doing.leaves s.doing p .nothing k
    simp only [place,Doing.waits,Doing.leaves,reduceCtorEq,if_false,Nat.add_zero] at waits leaves
    refine inv.go (inv.inside k (inv.referenced (.inr (.inr (.inl place))))) (by simp [place])
      (by simp) ⟨rfl,rfl,rfl⟩ ?_ ?_ (by simp) ?_
    · simp only [State.holders,State.waiters,waits,leaves]
    · rintro q key' (holder | release)
      · exact .inl holder
      · rcases uses_before release with ⟨-,now⟩ | old
        · cases now
        · exact .inr (.inr (.inr old))
    · intro q key' reading
      rcases uses_before reading with ⟨-,now⟩ | old
      · cases now
      · exact inv.reads q k key' old
  | release k key =>
    simp only [place] at stepped
    cases stepped
    exact inv.unref place

theorem Inv.brelse (inv : Inv s lru) (holder : (s.buf k).holder = some (p,key)) (idle : s.doing p = .nothing) :
    Inv (s.set p k { s.buf k with holder := none } (.release k key)) lru := by
  have waits := tally_update Doing.waits s.doing p (.release k key) k
  have leaves := tally_update Doing.leaves s.doing p (.release k key) k
  simp only [idle,Doing.waits,Doing.leaves,reduceCtorEq,if_false,if_true,Nat.add_zero] at waits leaves
  refine inv.go (inv.inside k (inv.referenced (.inl holder))) (by simp [idle]) (by simp)
    ⟨rfl,rfl,rfl⟩ ?_ ?_ (by simp) ?_
  · simp only [State.holders,State.waiters,holder,if_true,reduceCtorEq,if_false]
    omega
  · rintro q key' (now | release)
    · cases now
    · rcases uses_before release with ⟨rfl,now⟩ | old
      · obtain ⟨-,rfl⟩ := Doing.release.inj now
        exact .inl holder
      · exact .inr (.inr (.inr old))
  · intro q key' reading
    rcases uses_before reading with ⟨-,now⟩ | old
    · cases now
    · -- Another process cannot read a buffer that `p` holds, and `p` is not in `bread`.
      have same := inv.reads q k key' old
      rw [holder] at same
      obtain ⟨rfl,-⟩ := Prod.mk.inj (Option.some.inj same)
      simp [idle] at old

theorem key_update {buf : Nat → Buf n} {x : Buf n} {l : Nat} (same : x.key = (buf l).key) (k : Nat) :
    (update buf l x k).key = (buf k).key := by
  by_cases self : k = l
  · subst k
    simpa using same
  · simp [self]

theorem Inv.pin (inv : Inv s lru) (inside : k < nbuf) {refcnt pins : Nat}
    (counted : refcnt = s.holders k + s.waiters k + pins) :
    Inv { s with buf := update s.buf k { s.buf k with refcnt := refcnt, pins := pins } } lru := by
  have key := key_update (x := { s.buf k with refcnt := refcnt, pins := pins }) (l := k) rfl
  have holder : ∀ l, (update s.buf k { s.buf k with refcnt := refcnt, pins := pins } l).holder =
      (s.buf l).holder := by
    intro l
    by_cases self : l = k
    · simp [self]
    · simp [self]
  refine ⟨inv.circle,inv.all,?_,?_,?_,?_,?_⟩
  · simpa only [key] using inv.unique
  · intro l
    by_cases self : l = k
    · subst l
      simpa [State.holders,State.waiters] using counted
    · simpa [State.holders,State.waiters,self] using inv.counted l
  · intro l positive
    by_cases self : l = k
    · exact self ▸ inside
    · exact inv.inside l (by simpa [self] using positive)
  · simpa only [State.Uses,key,holder] using inv.named
  · simpa only [holder] using inv.reads

theorem Inv.step {a : Action n} (inv : Inv s lru) (stepped : step s a = some t) : Inv t (s.reorder lru a) := by
  cases a with
  | bread p key =>
    simp only [Bcache.step,Option.ite_none_right_eq_some] at stepped
    exact inv.bget stepped.1 stepped.2
  | next p => exact inv.next stepped
  | brelse p k =>
    simp only [Bcache.step] at stepped
    cases holder : (s.buf k).holder with
    | none => simp [holder] at stepped
    | some found =>
      obtain ⟨q,key⟩ := found
      simp only [holder] at stepped
      obtain ⟨⟨rfl,idle⟩,rfl⟩ := Runs.enabled stepped
      exact inv.brelse holder idle
  | bpin k =>
    simp only [Bcache.step] at stepped
    obtain ⟨inside,rfl⟩ := Runs.enabled stepped
    exact inv.pin inside (by rw [inv.counted k]; omega)
  | bunpin k =>
    simp only [Bcache.step] at stepped
    obtain ⟨pinned,rfl⟩ := Runs.enabled stepped
    have counted := inv.counted k
    exact inv.pin (inv.inside k (by omega)) (by omega)

theorem binit_circle (count : Nat) : Circle
    ((List.range count).foldl (fun links k => links.push none (some k)) ⟨fun _ => none,fun _ => none⟩) none
    ((List.range count).reverse.map some) := by
  induction count with
  | zero => exact .empty rfl rfl
  | succ count ih =>
    rw [List.range_succ,List.foldl_concat,List.reverse_concat,List.map_cons]
    exact ih.push (by simp)

theorem Inv.init (n : Nat) : Inv (init n) (List.range nbuf).reverse := by
  refine ⟨binit_circle nbuf,List.reverse_perm _,?_,?_,?_,?_,?_⟩
  · intro k l _ _ _ device
    simp [Bcache.init] at device
  all_goals simp [Bcache.init,State.holders,State.waiters,State.Uses,tally,Doing.waits,Doing.leaves]

/-- A buffer gets another block only when its count is 0. -/
theorem Inv.renames {a : Action n} (inv : Inv s lru) (stepped : Bcache.step s a = some t)
    (changed : (t.buf k).key ≠ (s.buf k).key) : (s.buf k).refcnt = 0 := by
  cases a with
  | bread p key =>
    simp only [Bcache.step,Option.ite_none_right_eq_some] at stepped
    have got := stepped.2
    unfold State.bget at got
    rw [inv.cached_eq,inv.unused_eq] at got
    cases cached : lru.find? fun k => (s.buf k).key = key with
    | some l =>
      rw [cached] at got
      cases got
      exact (changed (key_update (by rfl) k)).elim
    | none =>
      rw [cached] at got
      cases unused : lru.reverse.find? fun k => (s.buf k).refcnt = 0 with
      | none => simp [unused] at got
      | some l =>
        rw [unused] at got
        cases got
        by_cases self : k = l
        · subst k
          simpa using List.find?_some unused
        · simp [State.set,self] at changed
  | next p =>
    simp only [Bcache.step,State.next] at stepped
    cases place : s.doing p with
    | nothing => simp [place] at stepped
    | lock l key =>
      simp only [place] at stepped
      obtain ⟨-,rfl⟩ := Runs.enabled stepped
      exact (changed (key_update (by rfl) k)).elim
    | read l key | release l key =>
      simp only [place] at stepped
      cases stepped
      exact (changed (key_update (by rfl) k)).elim
  | brelse p l =>
    simp only [Bcache.step] at stepped
    cases holder : (s.buf l).holder with
    | none => simp [holder] at stepped
    | some found =>
      simp only [holder] at stepped
      obtain ⟨-,rfl⟩ := Runs.enabled stepped
      exact (changed (key_update (by rfl) k)).elim
  | bpin l | bunpin l =>
    simp only [Bcache.step] at stepped
    obtain ⟨-,rfl⟩ := Runs.enabled stepped
    exact (changed (key_update (by rfl) k)).elim

/-- What holds of the cache at every moment. -/
structure Represented (s : State n) : Prop where
  /-- The links make one circle through the head, with every buffer once. -/
  list : ∃ lru : List Nat, Circle s.links none (lru.map some) ∧ lru.Perm (List.range nbuf)
  inverse : ∀ x : Option Nat, (∀ k ∈ x, k < nbuf) → s.links.prev (s.links.next x) = x ∧ s.links.next (s.links.prev x) = x
  unique : ∀ k l, k < nbuf → l < nbuf → (s.buf k).key = (s.buf l).key → (s.buf k).key.dev ≠ 0 → k = l
  count : ∀ k < nbuf, (s.buf k).refcnt = s.holders k + s.waiters k + (s.buf k).pins
  /-- A user of a buffer finds in it the block that it asked for. -/
  named : ∀ p k key, s.Uses p k key → k < nbuf ∧ (s.buf k).key = key
  recycled : ∀ a t, step s a = some t → ∀ k, (t.buf k).key ≠ (s.buf k).key → (s.buf k).refcnt = 0

/-- For every interleaving of any number of processes. -/
theorem cache_represented {schedule : List (Action n)} (ran : Runs.run step (init n) schedule = some s) :
    Represented s := by
  obtain ⟨lru,inv⟩ := Runs.run_invariant (fun s => ∃ lru, Inv s lru) (fun _ _ _ ⟨_,inv⟩ stepped => ⟨_,inv.step stepped⟩)
    ⟨_,.init n⟩ ran
  refine ⟨⟨lru,inv.circle,inv.all⟩,?_,inv.unique,fun k _ => inv.counted k,?_,fun a t stepped k => inv.renames stepped⟩
  · intro x node
    refine inv.circle.inverse ?_
    cases x with
    | none => exact List.mem_cons_self
    | some k => simpa using inv.mem_lru.mpr (node k rfl)
  · intro p k key uses
    exact ⟨inv.inside k (inv.referenced uses),inv.named p k key uses⟩

/-- One process holds a block and has pinned it; another uses 30 other blocks in turn, so that the buffer of
the first of them is recycled, and then waits for the first process's block. -/
def sharing : List (Action 2) :=
  ([.bread 0 ⟨1,7⟩,.next 0,.next 0,.bpin 0] : List (Action 2)) ++
    ((List.range 29).map (fun i => (i + 1,100 + i)) ++ [(1,200)]).flatMap
      (fun (k,blockno) => ([.bread 1 ⟨1,blockno⟩,.next 1,.next 1,.brelse 1 k,.next 1] : List (Action 2))) ++
    [Action.bread 1 ⟨1,7⟩]

theorem cache_represented_sharing :
    ∃ s, Runs.run step (init 2) sharing = some s ∧ (s.buf 0).refcnt = 3 ∧ (s.buf 0).key = ⟨1,7⟩ ∧
      (s.buf 1).key = ⟨1,200⟩ ∧ Represented s := by
  exact Runs.reaches (fun s => (s.buf 0).refcnt = 3 ∧ (s.buf 0).key = ⟨1,7⟩ ∧ (s.buf 1).key = ⟨1,200⟩) (by decide +kernel)
    fun s ran ⟨refcnt,key,recycled⟩ => ⟨refcnt,key,recycled,cache_represented ran⟩

end Xv6.Bcache
