import Xv6.Param
import Xv6.Runs
import Mathlib.Data.Multiset.AddSub
import Mathlib.Logic.Function.Basic

/-! The buffer cache of `bio.c` under any interleaving of its users: what is done under
`bcache.lock` is one step, and so is a transfer to or from the disk, which has the buffer locked. All
blocks are of one device. -/
namespace Xv6.Bio

/-- `struct buf`, with the number of its `bpin` calls without a `bunpin`; `block` is not there in the buffers
that `binit` makes. -/
structure Buf (α : Type) where
  block : Option Nat
  valid : Bool
  refcnt : Nat
  holder : Option Nat
  data : α
  pins : Nat

/-- Where a thread is in `bread` or `brelse`: before `acquiresleep`, before it looks at `valid`, and before
it takes `bcache.lock` to give the buffer back. -/
inductive Doing
  | nothing
  | lock (k : Nat)
  | read (k : Nat)
  | release (k : Nat)
  deriving DecidableEq

/-- `lru` is the list of the buffers from `head.next` on. `refs` has a thread and a buffer for each `bread` that
the thread has not yet released. -/
structure Cache (α : Type) where
  buf : Nat → Buf α
  lru : List Nat
  disk : Nat → α
  refs : Multiset (Nat × Nat)
  doing : Nat → Doing

namespace Cache

variable {α : Type} (c : Cache α) (p k : Nat)

@[simp] def set (x : Buf α) (doing : Doing) (refs : Multiset (Nat × Nat)) : Cache α :=
  { c with buf := Function.update c.buf k x, doing := Function.update c.doing p doing, refs := refs }

def cached (b : Nat) : Option Nat := c.lru.find? fun k => (c.buf k).block = some b

/-- The least recently used buffer that nobody uses. -/
def unused : Option Nat := c.lru.reverse.find? fun k => (c.buf k).refcnt = 0

/-- `bget` under `bcache.lock`, and the buffer that it returns; it panics when all are in use. -/
def bget (b : Nat) : Option (Cache α × Nat) :=
  match c.cached b with
  | some k => some (c.set p k { c.buf k with refcnt := (c.buf k).refcnt + 1 } (.lock k) ((p,k) ::ₘ c.refs),k)
  | none => c.unused.map fun k =>
    (c.set p k { c.buf k with block := some b, valid := false, refcnt := 1 } (.lock k) ((p,k) ::ₘ c.refs),k)

def acquire : Option (Cache α) :=
  if (c.buf k).holder = none then some (c.set p k { c.buf k with holder := some p } (.read k) c.refs) else none

def load : Cache α :=
  match (c.buf k).valid, (c.buf k).block with
  | false, some b => c.set p k { c.buf k with data := c.disk b, valid := true } .nothing c.refs
  | _, _ => c.set p k (c.buf k) .nothing c.refs

def brelse : Cache α := c.set p k { c.buf k with holder := none } (.release k) c.refs

def unref : Cache α :=
  let x := { c.buf k with refcnt := (c.buf k).refcnt - 1 }
  { c.set p k x .nothing (c.refs.erase (p,k)) with lru := if x.refcnt = 0 then k :: c.lru.erase k else c.lru }

/-- The next step of a thread that is in `bread` or `brelse`. -/
def next : Option (Cache α) :=
  match c.doing p with
  | .nothing => none
  | .lock k => c.acquire p k
  | .read k => some (c.load p k)
  | .release k => some (c.unref p k)

def write (data : α) : Cache α := { c with buf := Function.update c.buf k { c.buf k with data := data } }

def bpin : Cache α :=
  { c with buf := Function.update c.buf k { c.buf k with refcnt := (c.buf k).refcnt + 1, pins := (c.buf k).pins + 1 } }

def bunpin : Cache α :=
  { c with buf := Function.update c.buf k { c.buf k with refcnt := (c.buf k).refcnt - 1, pins := (c.buf k).pins - 1 } }

def bwrite : Cache α :=
  match (c.buf k).block with
  | some b => { c with disk := Function.update c.disk b (c.buf k).data }
  | none => c

def init (blank : α) (disk : Nat → α) : Cache α where
  buf _ := ⟨none,false,0,none,blank,0⟩
  lru := (List.range nbuf).reverse
  disk := disk
  refs := 0
  doing _ := .nothing

structure Ok : Prop where
  lru : c.lru.Perm (List.range nbuf)
  inside : ∀ k b, (c.buf k).block = some b → k < nbuf
  count : ∀ k, (c.buf k).refcnt = c.refs.countP (·.2 = k) + (c.buf k).pins
  unique : ∀ k l b, (c.buf k).block = some b → (c.buf l).block = some b → k = l
  named : ∀ k, 0 < (c.buf k).refcnt → (c.buf k).block ≠ none
  held : ∀ k p, (c.buf k).holder = some p → (p,k) ∈ c.refs ∧ ((c.buf k).valid = true ∨ c.doing p = .read k)
  locks : ∀ p k, c.doing p = .lock k → (p,k) ∈ c.refs
  reads : ∀ p k, c.doing p = .read k → (c.buf k).holder = some p
  releases : ∀ p k, c.doing p = .release k → (p,k) ∈ c.refs ∧ (c.buf k).holder ≠ some p

end Cache

namespace Cache.Ok

variable {α : Type} {c d : Cache α} {p k : Nat}

theorem referenced (ok : c.Ok) (mem : (p,k) ∈ c.refs) : 0 < (c.buf k).refcnt := by
  have : 0 < c.refs.countP (·.2 = k) := Multiset.countP_pos.mpr ⟨_,mem,rfl⟩
  rw [ok.count]
  omega

theorem unreferenced (ok : c.Ok) (unused : (c.buf k).refcnt = 0) (q : Nat) : (q,k) ∉ c.refs := by
  intro mem
  have := ok.referenced mem
  omega

theorem mem_lru (ok : c.Ok) {b : Nat} (block : (c.buf k).block = some b) : k ∈ c.lru :=
  ok.lru.mem_iff.mpr (List.mem_range.mpr (ok.inside k b block))

theorem set (ok : c.Ok) {x : Buf α} {doing : Doing} {refs : Multiset (Nat × Nat)} (inside : k < nbuf)
    (count : x.refcnt = refs.countP (·.2 = k) + x.pins)
    (counts : ∀ l ≠ k, refs.countP (·.2 = l) = c.refs.countP (·.2 = l))
    (refs_mem : ∀ q l, (q,l) ∈ c.refs → l ≠ k ∨ q ≠ p → (q,l) ∈ refs)
    (unique : ∀ l b, x.block = some b → (c.buf l).block = some b → l = k)
    (named : 0 < x.refcnt → x.block ≠ none)
    (held : ∀ q, x.holder = some q → (q,k) ∈ refs ∧ (x.valid = true ∨ Function.update c.doing p doing q = .read k))
    (locks : ∀ l, doing = .lock l → (p,l) ∈ refs)
    (reads : ∀ l, doing = .read l → l = k ∧ x.holder = some p)
    (releases : ∀ l, doing = .release l → l = k ∧ (p,k) ∈ refs ∧ x.holder ≠ some p)
    (others : ∀ q ≠ p, (c.doing q = .read k → x.holder = some q) ∧ (c.doing q = .release k → x.holder ≠ some q))
    (before : ∀ l ≠ k, c.doing p ≠ .read l) : (c.set p k x doing refs).Ok := by
  constructor
  case lru => exact ok.lru
  case inside =>
    intro l b
    obtain rfl | other := eq_or_ne l k
    · exact fun _ => inside
    · simpa [other] using ok.inside l b
  case count =>
    intro l
    obtain rfl | other := eq_or_ne l k
    · simpa using count
    · simpa [other,counts l other] using ok.count l
  case unique =>
    intro l m b
    by_cases one : l = k <;> by_cases two : m = k
    · exact fun _ _ => one.trans two.symm
    · subst one
      simpa [two] using fun here there => (unique m b here there).symm
    · subst two
      simpa [one] using fun here there => unique l b there here
    · simpa [one,two] using ok.unique l m b
  case named =>
    intro l
    obtain rfl | other := eq_or_ne l k
    · simpa using named
    · simpa [other] using ok.named l
  case held =>
    intro l q
    obtain rfl | other := eq_or_ne l k
    · simpa using held q
    · simp only [Cache.set,Function.update_of_ne other]
      intro holder
      obtain ⟨mem,valid⟩ := ok.held l q holder
      refine ⟨refs_mem q l mem (.inl other),?_⟩
      obtain rfl | another := eq_or_ne q p
      · exact .inl (valid.resolve_right (before l other))
      · simpa [another] using valid
  case locks =>
    intro q l
    obtain rfl | another := eq_or_ne q p
    · simpa using locks l
    · simpa [another] using fun waits => refs_mem q l (ok.locks q l waits) (.inr another)
  case reads =>
    intro q l
    obtain rfl | another := eq_or_ne q p
    · simp only [Cache.set,Function.update_self]
      intro reading
      obtain ⟨rfl,holder⟩ := reads l reading
      simpa using holder
    · simp only [Cache.set,Function.update_of_ne another]
      intro reading
      obtain rfl | other := eq_or_ne l k
      · simpa using (others q another).1 reading
      · simpa [other] using ok.reads q l reading
  case releases =>
    intro q l
    obtain rfl | another := eq_or_ne q p
    · simp only [Cache.set,Function.update_self]
      intro releasing
      obtain ⟨rfl,mem,free⟩ := releases l releasing
      exact ⟨mem,by simpa using free⟩
    · simp only [Cache.set,Function.update_of_ne another]
      intro releasing
      obtain ⟨mem,free⟩ := ok.releases q l releasing
      refine ⟨refs_mem q l mem (.inr another),?_⟩
      obtain rfl | other := eq_or_ne l k
      · simpa using (others q another).2 releasing
      · simpa [other] using free

theorem countP_cons (refs : Multiset (Nat × Nat)) (l : Nat) :
    ((p,k) ::ₘ refs).countP (·.2 = l) = refs.countP (·.2 = l) + if l = k then 1 else 0 := by
  obtain rfl | other := eq_or_ne l k
  · simp [Multiset.countP_cons_of_pos]
  · simp [other,other.symm]

section

variable (ok : c.Ok)
include ok

theorem bget_cases {b : Nat} (got : c.bget p b = some (d,k)) : k < nbuf ∧ ((c.buf k).block = some b ∧
      d = c.set p k { c.buf k with refcnt := (c.buf k).refcnt + 1 } (.lock k) ((p,k) ::ₘ c.refs) ∨
    (c.buf k).refcnt = 0 ∧ (∀ l, (c.buf l).block ≠ some b) ∧
      d = c.set p k { c.buf k with block := some b, valid := false, refcnt := 1 } (.lock k) ((p,k) ::ₘ c.refs)) := by
  unfold Cache.bget at got
  split at got
  · rename_i l found
    cases got
    have block := List.find?_some found
    have block : (c.buf k).block = some b := by simpa using block
    exact ⟨ok.inside k b block,.inl ⟨block,rfl⟩⟩
  · rename_i missing
    obtain ⟨l,found,same⟩ := Option.map_eq_some_iff.mp got
    cases same
    have free := List.find?_some found
    have inside := ok.lru.mem_iff.mp (List.mem_reverse.mp (List.mem_of_find?_eq_some found))
    refine ⟨List.mem_range.mp inside,.inr ⟨by simpa using free,?_,rfl⟩⟩
    intro l block
    have := List.find?_eq_none.mp missing l (ok.mem_lru block)
    simp [block] at this

theorem bget {b : Nat} (idle : c.doing p = .nothing) (got : c.bget p b = some (d,k)) : d.Ok := by
  have keeps (q l : Nat) (mem : (q,l) ∈ c.refs) : (q,l) ∈ (p,k) ::ₘ c.refs := Multiset.mem_cons_of_mem mem
  obtain ⟨inside,⟨block,rfl⟩ | ⟨unused,missing,rfl⟩⟩ := ok.bget_cases got
  · refine ok.set inside ?_ ?_ (fun q l mem _ => keeps q l mem) ?_ ?_ ?_ ?_ (by simp) (by simp) ?_ (by simp [idle])
    · simp only [countP_cons,if_pos]
      have := ok.count k
      omega
    · intro l other
      simp [countP_cons,other]
    · exact fun l b here there => ok.unique l k b there here
    · simp [block]
    · intro q holder
      obtain ⟨mem,valid⟩ := ok.held k q holder
      refine ⟨keeps q k mem,valid.imp_right fun reading => ?_⟩
      have another : q ≠ p := by
        rintro rfl
        simp [idle] at reading
      simpa [another] using reading
    · rintro l ⟨⟩
      exact Multiset.mem_cons_self _ _
    · exact fun q _ => ⟨ok.reads q k,fun releasing => (ok.releases q k releasing).2⟩
  · have unheld : (c.buf k).holder = none := by
      by_contra locked
      obtain ⟨q,holder⟩ := Option.ne_none_iff_exists'.mp locked
      exact ok.unreferenced unused q (ok.held k q holder).1
    refine ok.set inside ?_ ?_ (fun q l mem _ => keeps q l mem) ?_ (by simp) (by simp [unheld]) ?_ (by simp) (by simp) ?_
      (by simp [idle])
    · simp only [countP_cons,if_pos]
      have := ok.count k
      omega
    · intro l other
      simp [countP_cons,other]
    · rintro l b ⟨⟩ there
      exact absurd there (missing l)
    · rintro l ⟨⟩
      exact Multiset.mem_cons_self _ _
    · intro q _
      refine ⟨fun reading => ?_,fun releasing => ?_⟩
      · exact absurd (ok.held k q (ok.reads q k reading)).1 (ok.unreferenced unused q)
      · exact absurd (ok.releases q k releasing).1 (ok.unreferenced unused q)

theorem acquire (waits : c.doing p = .lock k) (got : c.acquire p k = some d) : d.Ok := by
  obtain ⟨unheld,rfl⟩ := Runs.enabled got
  have mem := ok.locks p k waits
  have positive := ok.referenced mem
  obtain ⟨b,block⟩ := Option.ne_none_iff_exists'.mp (ok.named k positive)
  refine ok.set (ok.inside k b block) (ok.count k) (fun _ _ => rfl) (fun q l mem _ => mem)
    (fun l b here there => ok.unique l k b there here) (fun _ => ok.named k positive) ?_ (by simp) (by simp) (by simp) ?_
    (by simp [waits])
  · rintro q ⟨⟩
    exact ⟨mem,.inr (by simp)⟩
  · intro q another
    refine ⟨fun reading => ?_,fun _ => by simp [another.symm]⟩
    simp [ok.reads q k reading] at unheld

theorem load (reading : c.doing p = .read k) : (c.load p k).Ok := by
  have holder := ok.reads p k reading
  have mem := (ok.held k p holder).1
  have positive := ok.referenced mem
  obtain ⟨b,block⟩ := Option.ne_none_iff_exists'.mp (ok.named k positive)
  have loaded (x : Buf α) (same : x.block = (c.buf k).block ∧ x.refcnt = (c.buf k).refcnt ∧ x.pins = (c.buf k).pins ∧
      x.holder = (c.buf k).holder) (valid : x.valid = true) : (c.set p k x .nothing c.refs).Ok := by
    refine ok.set (ok.inside k b block) ?_ (fun _ _ => rfl) (fun q l mem _ => mem) ?_ ?_ ?_ (by simp) (by simp) (by simp)
      ?_ ?_
    · simpa [same] using ok.count k
    · rw [same.1]
      exact fun l b here there => ok.unique l k b there here
    · rw [same.1]
      exact fun _ => ok.named k positive
    · rw [same.2.2.2,holder]
      rintro q ⟨⟩
      exact ⟨mem,.inl valid⟩
    · intro q another
      rw [same.2.2.2]
      exact ⟨ok.reads q k,fun releasing => (ok.releases q k releasing).2⟩
    · intro l other same
      rw [reading] at same
      exact other (Doing.read.inj same).symm
  unfold Cache.load
  split
  · exact loaded _ ⟨rfl,rfl,rfl,rfl⟩ rfl
  · rename_i valid same
    refine loaded _ ⟨rfl,rfl,rfl,rfl⟩ ?_
    cases now : (c.buf k).valid with
    | true => rfl
    | false => exact (same b now block).elim

theorem brelse (idle : c.doing p = .nothing) (holder : (c.buf k).holder = some p) : (c.brelse p k).Ok := by
  have mem := (ok.held k p holder).1
  have positive := ok.referenced mem
  obtain ⟨b,block⟩ := Option.ne_none_iff_exists'.mp (ok.named k positive)
  refine ok.set (ok.inside k b block) (ok.count k) (fun _ _ => rfl) (fun q l mem _ => mem)
    (fun l b here there => ok.unique l k b there here) (fun _ => ok.named k positive) (by simp) (by simp) (by simp) ?_ ?_
    (by simp [idle])
  · rintro l ⟨⟩
    exact ⟨rfl,mem,by simp⟩
  · intro q another
    refine ⟨fun reading => ?_,by simp⟩
    have := (ok.reads q k reading).symm.trans holder
    exact absurd (Option.some.inj this) another

theorem unref (releasing : c.doing p = .release k) : (c.unref p k).Ok := by
  obtain ⟨mem,free⟩ := ok.releases p k releasing
  have positive := ok.referenced mem
  obtain ⟨b,block⟩ := Option.ne_none_iff_exists'.mp (ok.named k positive)
  have erased (l : Nat) : c.refs.countP (·.2 = l) = (c.refs.erase (p,k)).countP (·.2 = l) + if l = k then 1 else 0 := by
    rw [← countP_cons,Multiset.cons_erase mem]
  have dropped : (c.set p k { c.buf k with refcnt := (c.buf k).refcnt - 1 } .nothing (c.refs.erase (p,k))).Ok := by
    refine ok.set (ok.inside k b block) ?_ ?_ ?_ (fun l b here there => ok.unique l k b there here) (by simp [block])
      ?_ (by simp) (by simp) (by simp) ?_ (by simp [releasing])
    · have := ok.count k
      have now := erased k
      simp only [if_pos] at now ⊢
      omega
    · intro l other
      simpa [other] using (erased l).symm
    · rintro q l there apart
      refine (Multiset.mem_erase_of_ne ?_).mpr there
      rintro ⟨⟩
      simp at apart
    · intro q holder
      obtain ⟨there,valid⟩ := ok.held k q holder
      have another : q ≠ p := by
        rintro rfl
        exact free holder
      exact ⟨(Multiset.mem_erase_of_ne (by simp [another])).mpr there,by simpa [another] using valid⟩
    · exact fun q _ => ⟨ok.reads q k,fun releasing => (ok.releases q k releasing).2⟩
  refine { dropped with lru := ?_ }
  simp only [Cache.unref]
  split
  · exact ((List.perm_cons_erase (ok.mem_lru block)).symm).trans ok.lru
  · exact ok.lru

theorem next (got : c.next p = some d) : d.Ok := by
  unfold Cache.next at got
  split at got
  · cases got
  · exact ok.acquire ‹_› got
  · cases got
    exact ok.load ‹_›
  · cases got
    exact ok.unref ‹_›

theorem update {x : Buf α} (block : x.block = (c.buf k).block) (valid : x.valid = (c.buf k).valid)
    (holder : x.holder = (c.buf k).holder) (count : x.refcnt = c.refs.countP (·.2 = k) + x.pins)
    (named : (c.buf k).block ≠ none) : Cache.Ok { c with buf := Function.update c.buf k x } := by
  obtain ⟨b,here⟩ := Option.ne_none_iff_exists'.mp named
  have same (l : Nat) : (Function.update c.buf k x l).block = (c.buf l).block ∧
      (Function.update c.buf k x l).valid = (c.buf l).valid ∧
      (Function.update c.buf k x l).holder = (c.buf l).holder := by
    obtain rfl | other := eq_or_ne l k
    · simp [block,valid,holder]
    · simp [other]
  constructor
  case lru => exact ok.lru
  case inside =>
    intro l b
    rw [(same l).1]
    exact ok.inside l b
  case count =>
    intro l
    obtain rfl | other := eq_or_ne l k
    · simpa using count
    · simpa [other] using ok.count l
  case unique =>
    intro l m b
    rw [(same l).1,(same m).1]
    exact ok.unique l m b
  case named =>
    intro l
    obtain rfl | other := eq_or_ne l k
    · exact fun _ => by simpa [block] using named
    · simpa [other] using ok.named l
  case held =>
    intro l q
    rw [(same l).2.1,(same l).2.2]
    exact ok.held l q
  case locks => exact ok.locks
  case reads =>
    intro q l
    rw [(same l).2.2]
    exact ok.reads q l
  case releases =>
    intro q l
    rw [(same l).2.2]
    exact ok.releases q l

theorem write (data : α) (named : (c.buf k).block ≠ none) : (c.write k data).Ok :=
  ok.update rfl rfl rfl (ok.count k) named

theorem bpin (named : (c.buf k).block ≠ none) : (c.bpin k).Ok :=
  ok.update rfl rfl rfl (by simp only [ok.count k]; omega) named

theorem bunpin (named : (c.buf k).block ≠ none) (pinned : 0 < (c.buf k).pins) : (c.bunpin k).Ok :=
  ok.update rfl rfl rfl (by simp only [ok.count k]; omega) named

theorem bwrite : (c.bwrite k).Ok := by
  unfold Cache.bwrite
  split
  · exact ⟨ok.lru,ok.inside,ok.count,ok.unique,ok.named,ok.held,ok.locks,ok.reads,ok.releases⟩
  · exact ok

end

end Cache.Ok

/-! What a thread in `bread` or `brelse` leaves as it is. -/

namespace Cache

variable {α : Type} {c d : Cache α} {p q k b : Nat}

/-- The thread has the block in this buffer, locked and read. -/
def Has (c : Cache α) (p k b : Nat) : Prop :=
  (c.buf k).block = some b ∧ (c.buf k).valid = true ∧ (c.buf k).holder = some p

/-- The thread has called `bread` for the block, which has returned or will return this buffer. -/
def Gets (c : Cache α) (p k b : Nat) : Prop :=
  (c.buf k).block = some b ∧ (p,k) ∈ c.refs ∧
    (c.doing p = .lock k ∨ c.doing p = .read k ∨ c.doing p = .nothing ∧ c.Has p k b)

/-- A step of `bread` or `brelse` by `p`, which may have released the lock of `freed`. -/
structure Moves (c d : Cache α) (p : Nat) (freed : Option Nat) : Prop where
  disk : d.disk = c.disk
  pins : ∀ k, (d.buf k).pins = (c.buf k).pins
  block : ∀ k, 0 < (c.buf k).refcnt → (d.buf k).block = (c.buf k).block
  stays : ∀ k, 0 < (c.buf k).refcnt → (c.buf k).valid = true → (d.buf k).valid = true
  valid : ∀ k b, (d.buf k).valid = true → (d.buf k).block = some b → (c.buf k).block = some b ∧
    ((c.buf k).valid = true ∧ (d.buf k).data = (c.buf k).data ∨ (c.buf k).valid = false ∧ (d.buf k).data = c.disk b)
  holder : ∀ k q, (c.buf k).holder = some q → q ≠ p ∨ freed ≠ some k → (d.buf k).holder = some q
  refs : ∀ q k, q ≠ p → (q,k) ∈ c.refs → (q,k) ∈ d.refs
  doing : ∀ q ≠ p, d.doing q = c.doing q
  unheld : ∀ k, (d.buf k).holder = none → (c.buf k).holder = none ∨ freed = some k

theorem Moves.of_set {x : Buf α} {doing : Doing} {refs : Multiset (Nat × Nat)} {freed : Option Nat}
    (pins : x.pins = (c.buf k).pins) (block : 0 < (c.buf k).refcnt → x.block = (c.buf k).block)
    (stays : 0 < (c.buf k).refcnt → (c.buf k).valid = true → x.valid = true)
    (valid : ∀ b, x.valid = true → x.block = some b → (c.buf k).block = some b ∧
      ((c.buf k).valid = true ∧ x.data = (c.buf k).data ∨ (c.buf k).valid = false ∧ x.data = c.disk b))
    (holder : ∀ q, (c.buf k).holder = some q → q ≠ p ∨ freed ≠ some k → x.holder = some q)
    (refs_mem : ∀ q l, q ≠ p → (q,l) ∈ c.refs → (q,l) ∈ refs)
    (unheld : x.holder = none → (c.buf k).holder = none ∨ freed = some k) :
    Moves c (c.set p k x doing refs) p freed := by
  constructor
  case disk => rfl
  case refs => exact refs_mem
  case doing => exact fun q another => by simp [another]
  all_goals
    intro l
    obtain rfl | other := eq_or_ne l k
  case valid.inr => exact fun b valid block => by simp_all
  all_goals simp_all

theorem Ok.bget_moves (ok : c.Ok) (got : c.bget p b = some (d,k)) : Moves c d p none := by
  have refs (q l : Nat) (_ : q ≠ p) (mem : (q,l) ∈ c.refs) : (q,l) ∈ (p,k) ::ₘ c.refs := Multiset.mem_cons_of_mem mem
  obtain ⟨_,⟨_,rfl⟩ | ⟨unused,_,rfl⟩⟩ := ok.bget_cases got
  · exact .of_set rfl (fun _ => rfl) (fun _ valid => valid) (fun b valid block => ⟨block,.inl ⟨valid,rfl⟩⟩)
      (fun q holder _ => holder) refs .inl
  · exact .of_set rfl (by omega) (by omega) (by simp) (fun q holder _ => holder) refs .inl

theorem bget_gets (ok : c.Ok) (got : c.bget p b = some (d,k)) : d.Gets p k b := by
  obtain ⟨_,⟨block,rfl⟩ | ⟨_,_,rfl⟩⟩ := ok.bget_cases got
  · exact ⟨by simpa using block,Multiset.mem_cons_self _ _,.inl (by simp)⟩
  · exact ⟨by simp,Multiset.mem_cons_self _ _,.inl (by simp)⟩

theorem load_moves (c : Cache α) (p k : Nat) : Moves c (c.load p k) p none := by
  unfold Cache.load
  split
  · rename_i b invalid block
    refine .of_set rfl (fun _ => rfl) (fun _ _ => rfl) (fun b' _ same => ?_) (fun q holder _ => holder)
      (fun q l _ mem => mem) .inl
    obtain rfl : b = b' := Option.some.inj (block.symm.trans same)
    exact ⟨block,.inr ⟨invalid,rfl⟩⟩
  · exact .of_set rfl (fun _ => rfl) (fun _ valid => valid) (fun b valid block => ⟨block,.inl ⟨valid,rfl⟩⟩)
      (fun q holder _ => holder) (fun q l _ mem => mem) .inl

theorem brelse_moves (holder : (c.buf k).holder = some p) : Moves c (c.brelse p k) p (some k) := by
  refine .of_set rfl (fun _ => rfl) (fun _ valid => valid) (fun b valid block => ⟨block,.inl ⟨valid,rfl⟩⟩) ?_
    (fun q l _ mem => mem) (fun _ => .inr rfl)
  intro q same kept
  obtain rfl : p = q := Option.some.inj (holder.symm.trans same)
  simp at kept

theorem brelse_block (c : Cache α) (p k l : Nat) : ((c.brelse p k).buf l).block = (c.buf l).block := by
  obtain rfl | other := eq_or_ne l k
  · simp [brelse,set]
  · simp [brelse,set,other]

theorem next_moves (got : c.next p = some d) : Moves c d p none := by
  unfold Cache.next at got
  split at got
  · cases got
  · rename_i k _
    obtain ⟨unheld,rfl⟩ := Runs.enabled got
    exact .of_set rfl (fun _ => rfl) (fun _ valid => valid) (fun b valid block => ⟨block,.inl ⟨valid,rfl⟩⟩)
      (by simp [unheld]) (fun q l _ mem => mem) (by simp)
  · cases got
    exact load_moves c p _
  · rename_i k _
    cases got
    have moved : Moves c (c.set p k { c.buf k with refcnt := (c.buf k).refcnt - 1 } .nothing (c.refs.erase (p,k)))
        p none :=
      .of_set rfl (fun _ => rfl) (fun _ valid => valid) (fun b valid block => ⟨block,.inl ⟨valid,rfl⟩⟩)
        (fun q holder _ => holder) (fun q l another mem => (Multiset.mem_erase_of_ne (by simp [another])).mpr mem) .inl
    exact ⟨moved.disk,moved.pins,moved.block,moved.stays,moved.valid,moved.holder,moved.refs,moved.doing,moved.unheld⟩

theorem Has.moves (has : c.Has q k b) (ok : c.Ok) {freed : Option Nat} (moved : Moves c d p freed)
    (kept : q ≠ p ∨ freed ≠ some k) : d.Has q k b := by
  obtain ⟨block,valid,holder⟩ := has
  have positive := ok.referenced (ok.held k q holder).1
  exact ⟨(moved.block k positive).trans block,moved.stays k positive valid,moved.holder k q holder kept⟩

theorem Gets.moves (gets : c.Gets q k b) (ok : c.Ok) {freed : Option Nat} (moved : Moves c d p freed)
    (another : q ≠ p) : d.Gets q k b := by
  obtain ⟨block,mem,doing⟩ := gets
  refine ⟨(moved.block k (ok.referenced mem)).trans block,moved.refs q k another mem,?_⟩
  rw [moved.doing q another]
  exact doing.imp_right (Or.imp_right fun ⟨idle,has⟩ => ⟨idle,has.moves ok moved (.inl another)⟩)

theorem Gets.has (gets : c.Gets p k b) (idle : c.doing p = .nothing) : c.Has p k b := by
  obtain ⟨_,_,waits | reading | ⟨_,has⟩⟩ := gets
  · simp [idle] at waits
  · simp [idle] at reading
  · exact has

theorem load_gets (block : (c.buf k).block = some b) (mem : (p,k) ∈ c.refs) (holder : (c.buf k).holder = some p) :
    (c.load p k).Gets p k b := by
  unfold Cache.load
  split
  · exact ⟨by simpa using block,mem,.inr (.inr (by simp [Has,block,holder]))⟩
  · rename_i invalid
    have valid : (c.buf k).valid = true := by
      by_contra unread
      exact invalid b (by simpa using unread) block
    exact ⟨by simpa using block,mem,.inr (.inr (by simp [Has,block,holder,valid]))⟩

theorem Gets.next (gets : c.Gets p k b) (ok : c.Ok) (got : c.next p = some d) : d.Gets p k b := by
  obtain ⟨block,mem,waits | reading | ⟨idle,_⟩⟩ := gets
  · simp only [Cache.next,waits] at got
    obtain ⟨_,rfl⟩ := Runs.enabled got
    exact ⟨by simpa using block,mem,.inr (.inl (by simp))⟩
  · simp only [Cache.next,reading] at got
    cases got
    exact load_gets block mem (ok.reads p k reading)
  · simp [Cache.next,idle] at got

theorem Moves.refl (c : Cache α) (p : Nat) : Moves c c p none := by
  constructor
  case valid => exact fun k b valid block => ⟨block,.inl ⟨valid,rfl⟩⟩
  case unheld => exact fun k free => .inl free
  all_goals simp_all

/-! Changes to a buffer that keep its block, its lock and `valid`. -/

/-- The same blocks are in the same buffers, for the same threads. -/
structure SameBlocks (c d : Cache α) : Prop where
  block : ∀ k, (d.buf k).block = (c.buf k).block
  valid : ∀ k, (d.buf k).valid = (c.buf k).valid
  holder : ∀ k, (d.buf k).holder = (c.buf k).holder
  refs : d.refs = c.refs
  doing : d.doing = c.doing

theorem SameBlocks.has (same : SameBlocks c d) : d.Has p k b ↔ c.Has p k b := by
  simp [Has,same.block,same.valid,same.holder]

theorem write_same (c : Cache α) (k : Nat) (data : α) : SameBlocks c (c.write k data) := by
  constructor
  case refs | doing => rfl
  all_goals
    intro l
    obtain rfl | other := eq_or_ne l k
    · simp [write]
    · simp [write,other]

theorem bpin_same (c : Cache α) (k : Nat) : SameBlocks c (c.bpin k) := by
  constructor
  case refs | doing => rfl
  all_goals
    intro l
    obtain rfl | other := eq_or_ne l k
    · simp [bpin]
    · simp [bpin,other]

theorem bunpin_same (c : Cache α) (k : Nat) : SameBlocks c (c.bunpin k) := by
  constructor
  case refs | doing => rfl
  all_goals
    intro l
    obtain rfl | other := eq_or_ne l k
    · simp [bunpin]
    · simp [bunpin,other]

@[simp] theorem bwrite_buf (c : Cache α) (k : Nat) : (c.bwrite k).buf = c.buf := by
  unfold bwrite
  split <;> rfl

theorem bwrite_same (c : Cache α) (k : Nat) : SameBlocks c (c.bwrite k) := by
  refine ⟨by simp,by simp,by simp,?_,?_⟩ <;> (unfold bwrite; split <;> rfl)

theorem bwrite_disk (block : (c.buf k).block = some b) :
    (c.bwrite k).disk = Function.update c.disk b (c.buf k).data := by
  simp [bwrite,block]

@[simp] theorem write_data_self (c : Cache α) (k : Nat) (data : α) : ((c.write k data).buf k).data = data := by
  simp [write]

theorem write_data_other {data : α} (other : q ≠ k) : ((c.write k data).buf q).data = (c.buf q).data := by
  simp [write,other]

@[simp] theorem write_disk (c : Cache α) (k : Nat) (data : α) : (c.write k data).disk = c.disk := rfl

@[simp] theorem write_pins (c : Cache α) (k l : Nat) (data : α) : ((c.write k data).buf l).pins = (c.buf l).pins := by
  obtain rfl | other := eq_or_ne l k
  · simp [write]
  · simp [write,other]

end Cache

end Xv6.Bio
