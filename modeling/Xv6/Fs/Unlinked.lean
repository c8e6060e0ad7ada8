import Xv6.Fs.ItableSafe
import Mathlib.Data.Multiset.Filter

/-! An inode without links is kept as long as there is a reference to it, and is freed with the
last one. -/
namespace Xv6.Itable

open Fs
open Function (update update_of_ne update_eq_self_iff)

/-- Lookups and allocations keep away from inodes that are being freed. A lookup ends at an inode that
has links, or that the thread has a reference to, as it has for `.`; `ialloc` takes an inode that has no entry
in use. -/
def Action.Apart (s : State) : Action → Prop
  | .iget p key => s.doing p = .nothing →
    (s.disk key).type ≠ 0 ∧ (s.disk key).nlink ≠ 0 ∨ ∃ k < ninode, (.thread p,k) ∈ s.refs ∧ (s.slot k).key = key
  | .ialloc _ key _ => ∀ k < ninode, 0 < (s.slot k).ref → (s.slot k).key ≠ key
  | _ => True

instance (s : State) : (a : Action) → Decidable (a.Apart s)
  | .iget _ _ => inferInstanceAs (Decidable (_ → _))
  | .ialloc _ _ _ => inferInstanceAs (Decidable (∀ k < ninode, _))
  | .idup _ _ _ _ | .give _ _ _ _ | .ilock _ _ _ | .next _ | .change _ _ _ | .write _ _ _ | .iupdate _ _
  | .iunlock _ _ | .iput _ _ _ => .isTrue trivial

def State.apartStep (s : State) (a : Action) : Option State := if a.Apart s then s.step a else none

def Unlinked (din : Dinode) : Prop := din.type ≠ 0 ∧ din.nlink = 0

/-- What `iput` has done before each of its statements. -/
def Slot.Freeing (slot : Slot) (disk : Dinode) (stage : Stage) : Prop :=
  slot.ref = 1 ∧ slot.din.nlink = 0 ∧ disk.nlink = 0 ∧ match stage with
    | .trunc => slot.din.type ≠ 0 ∧ disk.type ≠ 0
    | .truncUpdate => slot.din.type ≠ 0 ∧ disk.type ≠ 0 ∧ slot.din.size = 0 ∧ slot.din.addrs = fun _ => 0
    | .type => disk.type ≠ 0 ∧ slot.din.size = 0 ∧ slot.din.addrs = fun _ => 0
    | .typeUpdate => slot.din.type = 0 ∧ disk.type ≠ 0 ∧ slot.din.size = 0 ∧ slot.din.addrs = fun _ => 0
    | .invalid | .unlock | .drop => disk.type = 0

/-- The same for an entry that a thread works on, with what else holds of it. -/
structure Local.Due (x : Local) : Prop where
  calls : (∀ key, x.doing ≠ .allocated key) ∧ ∀ l, x.doing ≠ .fresh l
  free : ∀ o l stage, x.doing = .free o l stage → x.slot.Freeing x.disk stage
  live : x.disk.type ≠ 0 ∨ ∃ o l stage, x.doing = .free o l stage
  unread : x.slot.holder = none → x.slot.valid = false → ¬Unlinked x.disk

/-- `first` is the disk at the start. -/
structure Lives (first : Key → Dinode) (s : State) : Prop where
  allocated : ∀ p key, s.doing p = .allocated key →
    Unlinked (s.disk key) ∧ ∀ k, 0 < (s.slot k).ref → (s.slot k).key ≠ key
  single : ∀ p q key, s.doing p = .allocated key → s.doing q = .allocated key → p = q
  fresh : ∀ p k, s.doing p = .fresh k → (.thread p,k) ∈ s.refs
  free : ∀ p o k stage, s.doing p = .free o k stage → (s.slot k).Freeing (s.disk (s.slot k).key) stage
  live : ∀ k, 0 < (s.slot k).ref → (s.disk (s.slot k).key).type ≠ 0 ∨ ∃ p o stage, s.doing p = .free o k stage
  unread : ∀ k, 0 < (s.slot k).ref → (s.slot k).holder = none → (s.slot k).valid = false →
    ¬Unlinked (s.disk (s.slot k).key) ∨ ∃ p, s.doing p = .fresh k
  kept : ∀ key, Unlinked (s.disk key) →
    (∃ k, 0 < (s.slot k).ref ∧ (s.slot k).key = key) ∨ (∃ p, s.doing p = .allocated key) ∨ Unlinked (first key)

section Due

variable {p k : Nat} {x y : Local} {owner : Owner}

theorem Local.Due.of_typed (doing : x.doing = .nothing ∨ ∃ l, x.doing = .load l ∨ x.doing = .check l)
    (typed : x.disk.type ≠ 0) (read : x.slot.holder = none → x.slot.valid = true) : x.Due where
  calls := by grind
  free := by grind
  live := .inl typed
  unread unheld unread := by simp [read unheld] at unread

theorem Local.Due.next {stage : Stage} (doing : x.doing = .free owner k stage) (held : x.slot.holder ≠ none)
    (freeing : x.slot.Freeing x.disk stage) (did : x.next = some y) : y.Due := by
  cases stage
  case drop => simp [Local.next,doing] at did
  all_goals
    simp only [Local.next,doing] at did
    cases did
    simp only [Slot.Freeing] at freeing
    constructor <;> simp_all [Slot.Freeing,Unlinked]

theorem Local.next_cases (did : x.next = some y) : (∃ o l stage, x.doing = .free o l stage) ∨
    (∀ o l stage, x.doing ≠ .free o l stage) ∧ y.disk = x.disk ∧ y.data = x.data ∧
      (y.doing = .nothing ∨ ∃ l, y.doing = .load l ∨ y.doing = .check l) ∧ y.slot.holder = x.slot.holder := by
  cases doing : x.doing with
  | nothing | allocated key | fresh l => simp [Local.next,doing] at did
  | load l =>
    simp only [Local.next,doing] at did
    split at did <;> cases did <;> simp
  | check l =>
    simp only [Local.next,doing,Option.ite_none_left_eq_some,Option.some.injEq] at did
    obtain ⟨_,rfl⟩ := did
    simp
  | free o l stage => exact .inl ⟨o,l,stage,rfl⟩

end Due

namespace Lives

variable {first : Key → Dinode} {s t : State} {p k : Nat} {owner : Owner}

theorem alone (inv : Inv s) (lives : Lives first s) {q : Nat} {o : Owner} {stage : Stage}
    (freeing : s.doing q = .free o k stage) (mem : (owner,k) ∈ s.refs) : owner = o := by
  have single : (s.slot k).ref = 1 := (lives.free q o k stage freeing).1
  have left := inv.countP_erase_ref mem k
  rw [if_pos rfl,single,Nat.sub_self,Multiset.countP_eq_zero] at left
  by_contra other
  have there := (Multiset.mem_erase_of_ne (a := (o,k)) (b := (owner,k)) (by simp [Ne.symm other])).mpr
    (inv.put q o k stage freeing).1
  exact left _ there (by simp)

section

variable (inv : Inv s) (lives : Lives first s) (mem : (owner,k) ∈ s.refs) (usable : owner.usable p = true)
include inv lives mem usable

theorem not_freed {q : Nat} {o : Owner} {stage : Stage} (freeing : s.doing q = .free o k stage) : q = p := by
  obtain rfl := lives.alone inv freeing mem
  have own := (inv.put q owner k stage freeing).2.1
  cases owner <;> simp_all

theorem typed (idle : ∀ o stage, s.doing p ≠ .free o k stage) : (s.disk (s.slot k).key).type ≠ 0 := by
  obtain typed | ⟨q,o,stage,freeing⟩ := lives.live k (inv.ref_pos.mpr ⟨owner,mem⟩)
  · exact typed
  · obtain rfl := lives.not_freed inv mem usable freeing
    exact absurd freeing (idle o stage)

theorem work (on : (s.doing p).On k) {y : Local} (ok : y.Ok s.refs p k) (same : (s.focus p k).Same y) (due : y.Due) :
    Lives first (s.put p k y) := by
  obtain ⟨key,count⟩ := same
  simp only [State.focus] at key count
  have positive := inv.ref_pos.mpr ⟨owner,mem⟩
  have apart (l : Nat) (other : l ≠ k) (pos : 0 < (s.slot l).ref) : (s.slot l).key ≠ (s.slot k).key :=
    fun same => other (inv.unique l k pos positive same)
  have slots (l : Nat) : ((s.put p k y).slot l).ref = (s.slot l).ref ∧
      ((s.put p k y).slot l).key = (s.slot l).key := by
    obtain rfl | other := eq_or_ne l k
    · simp [key,count]
    · simp [other]
  have others (q : Nat) (another : q ≠ p) : (s.put p k y).doing q = s.doing q := by simp [another]
  have mine : (s.put p k y).doing p = y.doing := by simp
  have disk (x : Key) (other : x ≠ (s.slot k).key) : (s.put p k y).disk x = s.disk x := by simp [other]
  have here : (s.put p k y).disk (s.slot k).key = y.disk := by simp
  have before (l : Nat) (other : l ≠ k) : (∀ o stage, s.doing p ≠ .free o l stage) ∧ s.doing p ≠ .fresh l ∧
      ∀ x, s.doing p ≠ .allocated x := by
    obtain idle | idle | at_k := on
    · simp [idle]
    · simp [idle,other.symm]
    · refine ⟨fun o stage freeing => ?_,fun fresh => ?_,fun x allocated => ?_⟩
      · simp [freeing] at at_k
        exact other at_k.2
      · simp [fresh] at at_k
      · simp [allocated] at at_k
  constructor
  case allocated =>
    intro q x doing
    have another : q ≠ p := by
      rintro rfl
      exact due.calls.1 x (mine ▸ doing)
    rw [others q another] at doing
    obtain ⟨unlinked,unused⟩ := lives.allocated q x doing
    refine ⟨disk x (unused k positive).symm ▸ unlinked,fun l => ?_⟩
    rw [(slots l).1,(slots l).2]
    exact unused l
  case single =>
    intro q r x one two
    have another (q : Nat) (doing : (s.put p k y).doing q = .allocated x) : q ≠ p := by
      rintro rfl
      exact due.calls.1 x (mine ▸ doing)
    rw [others q (another q one)] at one
    rw [others r (another r two)] at two
    exact lives.single q r x one two
  case fresh =>
    intro q l doing
    have another : q ≠ p := by
      rintro rfl
      exact due.calls.2 l (mine ▸ doing)
    exact lives.fresh q l (others q another ▸ doing)
  case free =>
    intro q o l stage doing
    rw [(slots l).2]
    obtain rfl | another := eq_or_ne q p
    · rw [mine] at doing
      obtain ⟨rfl,_⟩ := ok.put o l stage doing
      rw [here]
      simpa using due.free o l stage doing
    · rw [others q another] at doing
      have other : l ≠ k := by
        rintro rfl
        exact another (lives.not_freed inv mem usable doing)
      have freeing := lives.free q o l stage doing
      rw [disk _ (apart l other (freeing.1 ▸ Nat.one_pos))]
      simpa [other] using freeing
  case live =>
    intro l
    rw [(slots l).1,(slots l).2]
    intro pos
    obtain rfl | other := eq_or_ne l k
    · rw [here]
      obtain typed | ⟨o,m,stage,freeing⟩ := due.live
      · exact .inl typed
      · obtain ⟨rfl,_⟩ := ok.put o m stage freeing
        exact .inr ⟨p,o,stage,mine.trans freeing⟩
    · rw [disk _ (apart l other pos)]
      obtain typed | ⟨q,o,stage,freeing⟩ := lives.live l pos
      · exact .inl typed
      · have another : q ≠ p := by
          rintro rfl
          exact (before l other).1 o stage freeing
        exact .inr ⟨q,o,stage,(others q another).trans freeing⟩
  case unread =>
    intro l
    rw [(slots l).1,(slots l).2]
    intro pos
    obtain rfl | other := eq_or_ne l k
    · rw [here]
      exact fun unheld unread => .inl (due.unread (by simpa using unheld) (by simpa using unread))
    · rw [disk _ (apart l other pos)]
      intro unheld unread
      obtain linked | ⟨q,fresh⟩ := lives.unread l pos (by simpa [other] using unheld)
        (by simpa [other] using unread)
      · exact .inl linked
      · have another : q ≠ p := by
          rintro rfl
          exact (before l other).2.1 fresh
        exact .inr ⟨q,(others q another).trans fresh⟩
  case kept =>
    intro x unlinked
    simp only [slots]
    obtain rfl | other := eq_or_ne x (s.slot k).key
    · exact .inl ⟨k,positive,rfl⟩
    · rw [disk x other] at unlinked
      obtain used | ⟨q,allocated⟩ | old := lives.kept x unlinked
      · exact .inl used
      · have another : q ≠ p := by
          rintro rfl
          exact (before (k + 1) (by omega)).2.2 x allocated
        exact .inr (.inl ⟨q,(others q another).trans allocated⟩)
      · exact .inr (.inr old)

end

/-- A thread hands out or puts references to an entry, and goes on with `now`. -/
theorem refer (lives : Lives first s) {r : Nat} (refs : Multiset (Owner × Nat)) (now : Doing)
    (after : now = .nothing ∨ now = .fresh k ∧ (.thread p,k) ∈ refs)
    (mine : (∀ l, s.doing p ≠ .fresh l) ∧ (∀ o l stage, s.doing p = .free o l stage → l = k) ∧
      ∀ x, s.doing p = .allocated x → 0 < r ∧ (s.slot k).key = x)
    (allocated : ∀ q ≠ p, ∀ x, s.doing q = .allocated x → 0 < r → (s.slot k).key ≠ x)
    (fresh : ∀ q ≠ p, ∀ l, (.thread q,l) ∈ s.refs → (.thread q,l) ∈ refs)
    (free : ∀ q ≠ p, ∀ o stage, s.doing q ≠ .free o k stage)
    (typed : 0 < r → (s.disk (s.slot k).key).type ≠ 0)
    (unread : 0 < r → (s.slot k).holder = none → (s.slot k).valid = false →
      ¬Unlinked (s.disk (s.slot k).key) ∨ (∃ q, s.doing q = .fresh k) ∨ now = .fresh k)
    (gone : r = 0 → 0 < (s.slot k).ref → ¬Unlinked (s.disk (s.slot k).key)) :
    Lives first { s.setRef k r with refs := refs, doing := update s.doing p now } := by
  have slots := s.setRef_slot k r
  -- the other threads are in the middle of what they were
  have others {q : Nat} {doing : Doing} (another : q ≠ p) : update s.doing p now q = doing ↔ s.doing q = doing := by
    rw [update_of_ne another]
  have allocating {q : Nat} {x : Key} (alloc : update s.doing p now q = .allocated x) : q ≠ p := by
    rintro rfl
    rcases after with rfl | ⟨rfl,_⟩ <;> simp at alloc
  have renewed {q l : Nat} (new : s.doing q = .fresh l) : q ≠ p := by
    rintro rfl
    exact mine.1 l new
  constructor
  case allocated =>
    intro q x alloc
    have another := allocating alloc
    have before := (others another).mp alloc
    obtain ⟨unlinked,unused⟩ := lives.allocated q x before
    refine ⟨unlinked,fun l => ?_⟩
    simp only [slots]
    split
    · subst l
      exact allocated q another x before
    · exact unused l
  case single =>
    exact fun q q' x one two =>
      lives.single q q' x ((others (allocating one)).mp one) ((others (allocating two)).mp two)
  case fresh =>
    intro q l new
    obtain rfl | another := eq_or_ne q p
    · obtain rfl | ⟨rfl,there⟩ := after
      · simp at new
      · obtain rfl : k = l := by simpa using new
        exact there
    · exact fresh q another l (lives.fresh q l ((others another).mp new))
  case free =>
    intro q o l stage freeing
    have another : q ≠ p := by
      rintro rfl
      rcases after with rfl | ⟨rfl,_⟩ <;> simp at freeing
    have before := (others another).mp freeing
    have other : l ≠ k := by
      rintro rfl
      exact free q another o stage before
    show ((s.setRef k r).slot l).Freeing (s.disk ((s.setRef k r).slot l).key) stage
    rw [slots l,if_neg other]
    exact lives.free q o l stage before
  case live =>
    intro l
    simp only [slots]
    split
    · subst l
      exact fun pos => .inl (typed pos)
    · rename_i other
      intro pos
      obtain typed | ⟨q,o,stage,freeing⟩ := lives.live l pos
      · exact .inl typed
      · have another : q ≠ p := by
          rintro rfl
          exact other (mine.2.1 o l stage freeing)
        exact .inr ⟨q,o,stage,(others another).mpr freeing⟩
  case unread =>
    have still {l : Nat} : (∃ q, s.doing q = .fresh l) → ∃ q, update s.doing p now q = .fresh l :=
      fun ⟨q,new⟩ => ⟨q,(others (renewed new)).mpr new⟩
    intro l
    simp only [slots]
    split
    · subst l
      intro pos unheld invalid
      obtain linked | old | new := unread pos unheld invalid
      · exact .inl linked
      · exact .inr (still old)
      · exact .inr ⟨p,by simp [new]⟩
    · exact fun pos unheld invalid => (lives.unread l pos unheld invalid).imp_right still
  case kept =>
    intro x unlinked
    simp only [slots]
    obtain ⟨l,pos,rfl⟩ | ⟨q,alloc⟩ | old := lives.kept x unlinked
    · refine .inl ⟨l,?_,rfl⟩
      split
      · subst l
        by_contra zero
        exact gone (Nat.eq_zero_of_not_pos zero) pos unlinked
      · exact pos
    · obtain rfl | another := eq_or_ne q p
      · exact .inl ⟨k,by simpa using mine.2.2 x alloc⟩
      · exact .inr (.inl ⟨q,(others another).mpr alloc⟩)
    · exact .inr (.inr old)

theorem refer_idle (lives : Lives first s) {r : Nat} (refs : Multiset (Owner × Nat)) (idle : s.doing p = .nothing)
    (allocated : ∀ q x, s.doing q = .allocated x → (s.slot k).key ≠ x)
    (fresh : ∀ q ≠ p, ∀ l, (.thread q,l) ∈ s.refs → (.thread q,l) ∈ refs)
    (free : ∀ q o stage, s.doing q ≠ .free o k stage)
    (typed : (s.disk (s.slot k).key).type ≠ 0)
    (unread : (s.slot k).holder = none → (s.slot k).valid = false →
      ¬Unlinked (s.disk (s.slot k).key) ∨ ∃ q, s.doing q = .fresh k)
    (gone : r = 0 → ¬Unlinked (s.disk (s.slot k).key)) : Lives first { s.setRef k r with refs := refs } := by
  have referred := lives.refer (r := r) refs .nothing (.inl rfl) (by simp [idle])
    (fun q _ x alloc _ => allocated q x alloc) fresh (fun q _ => free q) (fun _ => typed)
    (fun _ unheld invalid => (unread unheld invalid).imp_right .inl) (fun zero _ => gone zero)
  rwa [update_eq_self_iff.mpr idle.symm] at referred

theorem refer_same (inv : Inv s) (lives : Lives first s) {r : Nat} (refs : Multiset (Owner × Nat))
    (mem : (owner,k) ∈ s.refs) (usable : owner.usable p = true) (idle : s.doing p = .nothing)
    (fresh : ∀ q ≠ p, ∀ l, (.thread q,l) ∈ s.refs → (.thread q,l) ∈ refs)
    (gone : r = 0 → ¬Unlinked (s.disk (s.slot k).key)) :
    Lives first { s.setRef k r with refs := refs } := by
  have positive := inv.ref_pos.mpr ⟨owner,mem⟩
  refine lives.refer_idle _ idle (fun q x alloc => (lives.allocated q x alloc).2 k positive) fresh ?_
    (lives.typed inv mem usable (by simp [idle])) (lives.unread k positive) gone
  intro q o stage freeing
  obtain rfl := lives.not_freed inv mem usable freeing
  simp [idle] at freeing

theorem recycle (lives : Lives first s) (key : Key) (unused : (s.slot k).ref = 0) :
    Lives first { s with slot := update s.slot k { s.slot k with key := key, valid := false } } := by
  have alive (l : Nat) (pos : 0 < (update s.slot k { s.slot k with key := key, valid := false } l).ref) :
      l ≠ k := by
    rintro rfl
    simp [unused] at pos
  have inUse (l : Nat) (pos : 0 < (s.slot l).ref) : l ≠ k := fun same => by subst same; omega
  constructor
  case allocated =>
    intro q x allocated
    obtain ⟨unlinked,apart⟩ := lives.allocated q x allocated
    refine ⟨unlinked,fun l pos => ?_⟩
    have other := alive l pos
    simp only [update_of_ne other] at pos ⊢
    exact apart l pos
  case single => exact lives.single
  case fresh => exact lives.fresh
  case free =>
    intro q o l stage freeing
    have before := lives.free q o l stage freeing
    simpa only [update_of_ne (inUse l (before.1 ▸ Nat.one_pos))] using before
  case live =>
    intro l pos
    have other := alive l pos
    simp only [update_of_ne other] at pos ⊢
    exact lives.live l pos
  case unread =>
    intro l pos
    have other := alive l pos
    simp only [update_of_ne other] at pos ⊢
    exact lives.unread l pos
  case kept =>
    intro x unlinked
    obtain ⟨l,pos,same⟩ | rest := lives.kept x unlinked
    · refine .inl ⟨l,?_⟩
      simp only [update_of_ne (inUse l pos)]
      exact ⟨pos,same⟩
    · exact .inr rest

theorem unused_kept (lives : Lives first s) (unused : (s.slot k).ref = 0) (q : Nat) (o : Owner) (stage : Stage) :
    s.doing q ≠ .free o k stage := by
  intro freeing
  have := (lives.free q o k stage freeing).1
  omega

theorem lookup (inv : Inv s) (lives : Lives first s) {key : Key} (idle : s.doing p = .nothing)
    (apart : (Action.iget p key).Apart s) (found : s.find key = some k) :
    Lives first ((s.enter k key).addRef (.thread p) k) := by
  obtain ⟨inside,⟨pos,rfl⟩ | ⟨unused,missing⟩⟩ := Inv.find_some found
  · have notFreed (q : Nat) (o : Owner) (stage : Stage) : s.doing q ≠ .free o k stage := by
      intro freeing
      obtain ⟨_,linked⟩ | ⟨l,_,mem,same⟩ := apart idle
      · exact linked (lives.free q o k stage freeing).2.2.1
      · obtain rfl := inv.unique l k (inv.ref_pos.mpr ⟨_,mem⟩) pos same
        obtain rfl := lives.not_freed (p := p) inv mem (by simp) freeing
        simp [idle] at freeing
    have typed : (s.disk (s.slot k).key).type ≠ 0 := by
      obtain typed | ⟨q,o,stage,freeing⟩ := lives.live k pos
      · exact typed
      · exact absurd freeing (notFreed q o stage)
    have added := lives.refer_idle (r := (s.slot k).ref + 1) ((.thread p,k) ::ₘ s.refs) idle
      (fun q x alloc => (lives.allocated q x alloc).2 k pos) (fun q _ l there => Multiset.mem_cons_of_mem there)
      notFreed typed (lives.unread k pos) (by simp)
    simpa [State.enter,pos] using added
  · have linked : (s.disk key).type ≠ 0 ∧ (s.disk key).nlink ≠ 0 := by
      obtain linked | ⟨l,small,mem,same⟩ := apart idle
      · exact linked
      · exact absurd same (missing l small (inv.ref_pos.mpr ⟨_,mem⟩))
    have added := (lives.recycle key unused).refer_idle (k := k) (r := 1) ((.thread p,k) ::ₘ s.refs) idle ?_
      (fun q _ l there => Multiset.mem_cons_of_mem there) (lives.unused_kept unused) (by simpa using linked.1)
      (fun _ _ => .inl (by simp [Unlinked,linked.2])) (by simp)
    · simpa [State.enter,unused] using added
    · rintro q x alloc same
      obtain rfl : key = x := by simpa using same
      exact linked.2 (lives.allocated q key alloc).1.2

theorem igetNew (lives : Lives first s) {key : Key} (doing : s.doing p = .allocated key)
    (found : s.find key = some k) :
    Lives first (((s.enter k key).addRef (.thread p) k).setDoing p (.fresh k)) := by
  obtain ⟨unlinked,apart⟩ := lives.allocated p key doing
  obtain ⟨_,⟨pos,same⟩ | ⟨unused,_⟩⟩ := Inv.find_some found
  · exact absurd same (apart k pos)
  · have added := (lives.recycle key unused).refer (p := p) (k := k) (r := 1) ((.thread p,k) ::ₘ s.refs) (.fresh k)
      (.inr ⟨rfl,Multiset.mem_cons_self _ _⟩) (by simp [doing]) ?_ (fun q _ l there => Multiset.mem_cons_of_mem there)
      (fun q _ => lives.unused_kept unused q) (fun _ => by simpa using unlinked.1)
      (fun _ _ _ => .inr (.inr rfl)) (by simp)
    · simpa [State.enter,unused] using added
    · intro q another x alloc _ same
      obtain rfl : key = x := by simpa using same
      exact another (lives.single q p key alloc doing)

theorem ialloc (inv : Inv s) (lives : Lives first s) {key : Key} {type : Nat} (idle : s.doing p = .nothing)
    (unused : (s.disk key).type = 0) (typed : type ≠ 0) (apart : (Action.ialloc p key type).Apart s) :
    Lives first { s.setDoing p (.allocated key) with disk := update s.disk key (Dinode.blank type) } := by
  have away (l : Nat) (pos : 0 < (s.slot l).ref) : (s.slot l).key ≠ key := by
    obtain ⟨o,mem⟩ := inv.ref_pos.mp pos
    exact apart l (inv.inside o l mem) pos
  have others (q : Nat) (another : q ≠ p) : (s.setDoing p (.allocated key)).doing q = s.doing q := by
    simp [another]
  have mine : (s.setDoing p (.allocated key)).doing p = .allocated key := by simp
  constructor
  case allocated =>
    intro q x doing
    obtain rfl | another := eq_or_ne q p
    · obtain rfl : key = x := by simpa using doing
      exact ⟨by simp [Unlinked,Dinode.blank,typed],away⟩
    · obtain ⟨unlinked,unused'⟩ := lives.allocated q x (others q another ▸ doing)
      have other : x ≠ key := fun same => unlinked.1 (same ▸ unused)
      exact ⟨by simpa [other] using unlinked,unused'⟩
  case single =>
    intro q r x one two
    by_cases same : x = key
    · have mine (q : Nat) (doing : (s.setDoing p (.allocated key)).doing q = .allocated x) : q = p := by
        by_contra another
        exact (lives.allocated q x (others q another ▸ doing)).1.1 (same ▸ unused)
      exact (mine q one).trans (mine r two).symm
    · have another (q : Nat) (doing : (s.setDoing p (.allocated key)).doing q = .allocated x) : q ≠ p := by
        rintro rfl
        simp [Ne.symm same] at doing
      exact lives.single q r x (others q (another q one) ▸ one) (others r (another r two) ▸ two)
  case fresh =>
    intro q l new
    obtain rfl | another := eq_or_ne q p
    · simp at new
    · exact lives.fresh q l (others q another ▸ new)
  case free =>
    intro q o l stage freeing
    obtain rfl | another := eq_or_ne q p
    · simp at freeing
    · have before := lives.free q o l stage (others q another ▸ freeing)
      have other := away l (before.1 ▸ Nat.one_pos)
      simpa [other] using before
  case live =>
    intro l pos
    obtain typed | ⟨q,o,stage,freeing⟩ := lives.live l pos
    · exact .inl (by simpa [away l pos] using typed)
    · have another : q ≠ p := by
        rintro rfl
        simp [idle] at freeing
      exact .inr ⟨q,o,stage,(others q another).trans freeing⟩
  case unread =>
    intro l pos unheld invalid
    obtain linked | ⟨q,new⟩ := lives.unread l pos unheld invalid
    · exact .inl (by simpa [away l pos] using linked)
    · have another : q ≠ p := by
        rintro rfl
        simp [idle] at new
      exact .inr ⟨q,(others q another).trans new⟩
  case kept =>
    intro x unlinked
    obtain rfl | other := eq_or_ne x key
    · exact .inr (.inl ⟨p,mine⟩)
    · obtain used | ⟨q,allocated⟩ | old := lives.kept x (by simpa [other] using unlinked)
      · exact .inl used
      · have another : q ≠ p := by
          rintro rfl
          simp [idle] at allocated
        exact .inr (.inl ⟨q,(others q another).trans allocated⟩)
      · exact .inr (.inr old)

theorem drop (inv : Inv s) (lives : Lives first s) (mem : (owner,k) ∈ s.refs) (own : owner.own p = true)
    (spare : s.spare owner k = true) (idle : s.doing p = .nothing) (keeps : s.frees k = false) :
    Lives first (s.drop owner k) := by
  have usable := owner.usable_of_own own
  refine lives.refer_same inv _ mem usable idle ?_ ?_
  · intro q another l there
    refine (Multiset.mem_erase_of_ne ?_).mpr there
    rintro ⟨⟩
    exact another (by simpa using own)
  · intro zero
    have positive := inv.ref_pos.mpr ⟨owner,mem⟩
    have single : (s.slot k).ref = 1 := by omega
    have unheld := inv.iput_unheld mem spare single
    by_cases valid : (s.slot k).valid = true
    · have copy := (inv.free k unheld).2 positive valid
      have linked : (s.slot k).din.nlink ≠ 0 := by simpa [State.frees,single,valid] using keeps
      rw [← copy.1]
      exact fun unlinked => linked unlinked.2
    · obtain linked | ⟨q,new⟩ := lives.unread k positive unheld (by simpa using valid)
      · exact linked
      · -- the reference of the allocating thread would be a second one
        have left := inv.countP_erase_ref mem k
        rw [if_pos rfl,single,Nat.sub_self,Multiset.countP_eq_zero] at left
        by_cases same : owner = .thread q
        · obtain rfl : q = p := by simpa [same] using own
          simp [idle] at new
        · have there := (Multiset.mem_erase_of_ne (a := (Owner.thread q,k)) (b := (owner,k))
            (by simp [Ne.symm same])).mpr (lives.fresh q k new)
          exact absurd (by simp) (left _ there)

theorem dropFreed (inv : Inv s) (lives : Lives first s) (doing : s.doing p = .free owner k .drop) :
    Lives first ((s.drop owner k).setDoing p .nothing) := by
  obtain ⟨mem,own,_⟩ := inv.put p owner k .drop doing
  obtain ⟨single,_,_,freed⟩ := lives.free p owner k .drop doing
  refine lives.refer _ .nothing (.inl rfl) ?_ (fun q _ x _ pos => by omega) ?_ ?_ (by omega) (by omega)
    (fun _ _ unlinked => unlinked.1 freed)
  · rw [doing]
    refine ⟨by simp,?_,by simp⟩
    rintro o l stage ⟨⟩
    rfl
  · intro q another l there
    refine (Multiset.mem_erase_of_ne ?_).mpr there
    rintro ⟨⟩
    exact another (by simpa using own)
  · exact fun q another o stage freeing => another (lives.not_freed inv mem (owner.usable_of_own own) freeing)

theorem step (inv : Inv s) (lives : Lives first s) {a : Action} (stepped : s.apartStep a = some t) : Lives first t := by
  obtain ⟨apart,stepped⟩ := Option.ite_none_right_eq_some.mp stepped
  cases step_steps stepped with
  | lookup idle found => exact lives.lookup inv idle apart found
  | igetNew doing found => exact lives.igetNew doing found
  | idup idle usable mem =>
    exact lives.refer_same inv _ mem usable idle (fun q _ l there => Multiset.mem_cons_of_mem there) (by simp)
  | @give p k owner fresh idle usable mem spare =>
    have positive := inv.ref_pos.mpr ⟨owner,mem⟩
    have given := lives.refer_same inv (r := (s.slot k).ref) ((fresh,k) ::ₘ s.refs.erase (owner,k))
      mem usable idle ?_ (by omega)
    · simpa using given
    · intro q another l there
      refine Multiset.mem_cons_of_mem ((Multiset.mem_erase_of_ne ?_).mpr there)
      rintro ⟨⟩
      exact another (by simpa using usable)
  | @ilock p k owner usable mem unheld idle =>
    have on : (s.doing p).On k := idle.imp_right .inl
    have ok := inv.focus_ok ⟨owner,mem⟩ on (by simp [unheld])
    have typed := lives.typed inv mem usable (by rcases idle with idle | idle <;> simp [idle])
    refine lives.work inv mem usable on (ok.ilock mem usable unheld) ⟨rfl,rfl⟩ ?_
    exact .of_typed (.inr ⟨k,.inl rfl⟩) typed (by simp [Local.lock])
  | dropFreed doing => exact lives.dropFreed inv doing
  | @next p k y entry did =>
    obtain ⟨o,holder,_,ok⟩ := inv.entry_ok entry
    obtain ⟨mem,usable,_⟩ := inv.held k p o holder
    refine lives.work inv mem usable (.inr (.inr entry)) (ok.next entry did).1 (ok.next entry did).2 ?_
    obtain ⟨owner,l,stage,doing⟩ | ⟨quiet,disk,_,after,held⟩ := Local.next_cases did
    · obtain ⟨rfl,_⟩ := ok.put owner l stage doing
      exact .next doing (by simp [holder]) (lives.free p owner l stage doing) did
    · refine .of_typed after (disk ▸ lives.typed inv mem usable fun o stage => quiet o k stage) fun unheld => ?_
      simp [held,holder] at unheld
  | @uses p k a y locked did =>
    obtain ⟨idle,o,holder,_,ok⟩ := inv.locked_ok locked
    obtain ⟨mem,usable,_⟩ := inv.held k p o holder
    have typed := lives.typed inv mem usable (by simp [idle])
    refine lives.work inv mem usable (.inl idle) (ok.uses locked did).1 (ok.uses locked did).2 ?_
    obtain ⟨_,_,_,valid,typed',_⟩ := ok.locked locked
    cases did with
    | change type | write bytes | iunlock clean => exact .of_typed (.inl idle) typed (fun _ => valid)
    | iupdate => exact .of_typed (.inl idle) typed' (fun _ => valid)
  | @take p k owner idle own mem frees unheld =>
    have ok := inv.focus_ok ⟨owner,mem⟩ (.inl idle) (by simp [unheld])
    refine lives.work inv mem (owner.usable_of_own own) (.inl idle) (ok.take mem own unheld) ⟨rfl,rfl⟩ ?_
    simp only [State.frees,decide_eq_true_eq] at frees
    obtain ⟨single,valid,unlinked⟩ := frees
    obtain ⟨copy,typed⟩ := (inv.free k unheld).2 (by omega) valid
    have freeing : (s.slot k).Freeing (s.disk (s.slot k).key) .trunc :=
      ⟨single,unlinked,copy ▸ unlinked,typed,copy ▸ typed⟩
    constructor
    · simp [Local.lock]
    · rintro o l stage ⟨⟩
      exact freeing
    · exact .inr ⟨_,_,_,rfl⟩
    · simp [Local.lock]
  | drop idle own mem spare keeps => exact lives.drop inv mem own spare idle keeps
  | ialloc idle unused typed => exact lives.ialloc inv idle unused typed apart

end Lives

/-- Where a step can change an inode on the disk and the bytes of a file. -/
structure Effect (s t : State) (a : Action) : Prop where
  key : ∀ k, 0 < (s.slot k).ref → (t.slot k).key = (s.slot k).key
  disk : ∀ x, t.disk x = s.disk x ∨ (∃ p type, a = .ialloc p x type) ∨
    ∃ k, (s.slot k).key = x ∧ t.disk x = (s.slot k).din ∧ ((s.slot k).din.type ≠ 0 ∧
      (∃ p o, s.doing p = .nothing ∧ (o,k) ∈ s.refs ∧ o.usable p = true) ∨ ∃ p o stage, a = .next p ∧
        s.doing p = .free o k stage ∧ (stage = .truncUpdate ∨ stage = .typeUpdate))
  data : ∀ x, t.data x = s.data x ∨
    (∃ p k bytes, a = .write p k bytes ∧ 0 < (s.slot k).ref ∧ (s.slot k).key = x ∧ t.data x = bytes) ∨
    ∃ p o k, a = .next p ∧ s.doing p = .free o k .trunc ∧ (s.slot k).key = x

namespace Effect

variable {s t : State} {a : Action} {p k : Nat}

theorem of_same (disk : t.disk = s.disk) (data : t.data = s.data)
    (key : ∀ k, 0 < (s.slot k).ref → (t.slot k).key = (s.slot k).key) : Effect s t a :=
  ⟨key,fun x => .inl (by rw [disk]),fun x => .inl (by rw [data])⟩

theorem of_put {y : Local} (same : (s.focus p k).Same y)
    (disk : y.disk = s.disk (s.slot k).key ∨ y.disk = (s.slot k).din ∧ ((s.slot k).din.type ≠ 0 ∧
      (∃ p o, s.doing p = .nothing ∧ (o,k) ∈ s.refs ∧ o.usable p = true) ∨ ∃ p o stage, a = .next p ∧
        s.doing p = .free o k stage ∧ (stage = .truncUpdate ∨ stage = .typeUpdate)))
    (data : y.data = s.data (s.slot k).key ∨ (∃ p, a = .write p k y.data ∧ 0 < (s.slot k).ref) ∨
      ∃ p o, a = .next p ∧ s.doing p = .free o k .trunc) : Effect s (s.put p k y) a where
  key l _ := by
    obtain rfl | other := eq_or_ne l k
    · simpa using same.1
    · simp [other]
  disk x := by
    obtain rfl | other := eq_or_ne x (s.slot k).key
    · obtain old | ⟨new,why⟩ := disk
      · exact .inl (by simpa using old)
      · exact .inr (.inr ⟨k,rfl,by simpa using new,why⟩)
    · exact .inl (by simp [other])
  data x := by
    obtain rfl | other := eq_or_ne x (s.slot k).key
    · obtain old | ⟨q,write,pos⟩ | ⟨q,o,next,doing⟩ := data
      · exact .inl (by simpa using old)
      · exact .inr (.inl ⟨q,k,y.data,write,pos,rfl,by simp⟩)
      · exact .inr (.inr ⟨q,o,k,next,doing,rfl⟩)
    · exact .inl (by simp [other])

theorem of_enter {key : Key} (k : Nat) (doing : Nat → Doing) (refs : Multiset (Owner × Nat)) :
    Effect s { s.enter k key with refs := refs, doing := doing } a := by
  refine of_same ?_ ?_ fun l pos => ?_
  · unfold State.enter
    split <;> rfl
  · unfold State.enter
    split <;> rfl
  · unfold State.enter
    obtain rfl | other := eq_or_ne l k
    · simp [pos]
    · split <;> simp [other]

theorem of_setRef (k r : Nat) (refs : Multiset (Owner × Nat)) (doing : Nat → Doing) :
    Effect s { s.setRef k r with refs := refs, doing := doing } a := by
  refine of_same rfl rfl fun l _ => ?_
  obtain rfl | other := eq_or_ne l k
  · simp
  · simp [other]

theorem of_step (inv : Inv s) (stepped : s.step a = some t) : Effect s t a := by
  cases step_steps stepped with
  | lookup idle found | igetNew doing found => exact of_enter _ _ _
  | idup idle usable mem | dropFreed doing | drop idle own mem spare keeps => exact of_setRef _ _ _ _
  | give idle usable mem spare => exact of_same rfl rfl fun _ _ => rfl
  | ilock usable mem unheld idle | take idle own mem frees unheld => exact of_put ⟨rfl,rfl⟩ (.inl rfl) (.inl rfl)
  | @next p k y entry did =>
    obtain ⟨o,holder,_,ok⟩ := inv.entry_ok entry
    have same := (ok.next entry did).2
    obtain ⟨owner,l,stage,doing⟩ | ⟨_,disk,data,_⟩ := Local.next_cases did
    · obtain ⟨rfl,_⟩ := ok.put owner l stage doing
      have doing : s.doing p = .free owner l stage := doing
      cases stage
      case drop => simp [doing] at entry
      all_goals
        simp only [Local.next,State.focus,doing,Option.some.injEq] at did
        subst did
      case trunc => exact of_put same (.inl rfl) (.inr (.inr ⟨p,owner,rfl,doing⟩))
      case truncUpdate => exact of_put same (.inr ⟨rfl,.inr ⟨p,owner,_,rfl,doing,.inl rfl⟩⟩) (.inl rfl)
      case typeUpdate => exact of_put same (.inr ⟨rfl,.inr ⟨p,owner,_,rfl,doing,.inr rfl⟩⟩) (.inl rfl)
      all_goals exact of_put same (.inl rfl) (.inl rfl)
    · exact of_put same (.inl disk) (.inl data)
  | @uses p k a y locked did =>
    obtain ⟨idle,o,holder,_,ok⟩ := inv.locked_ok locked
    obtain ⟨mem,usable,_⟩ := inv.held k p o holder
    cases did with
    | change type | iunlock clean => exact of_put ⟨rfl,rfl⟩ (.inl rfl) (.inl rfl)
    | write bytes => exact of_put ⟨rfl,rfl⟩ (.inl rfl) (.inr (.inl ⟨p,rfl,inv.ref_pos.mpr ⟨o,mem⟩⟩))
    | iupdate =>
      obtain ⟨_,_,_,_,typed,_⟩ := ok.locked locked
      exact of_put ⟨rfl,rfl⟩ (.inr ⟨rfl,.inl ⟨typed,p,o,idle,mem,usable⟩⟩) (.inl rfl)
  | @ialloc p type key idle unused typed =>
    refine ⟨fun _ _ => rfl,fun x => ?_,fun _ => .inl rfl⟩
    obtain rfl | other := eq_or_ne x key
    · exact .inr (.inl ⟨p,type,rfl⟩)
    · exact .inl (by simp [other])

end Effect

namespace Lives

variable {first : Key → Dinode} {s t : State} {a : Action} {x : Key}

theorem init (slot : Nat → Slot) (disk : Key → Dinode) (data : Key → Bytes.Storage) :
    Lives disk (State.init slot disk data) := by
  constructor <;> simp [State.init]

theorem run {slot : Nat → Slot} {disk : Key → Dinode} {data : Key → Bytes.Storage} {schedule : List Action}
    (ran : Runs.run State.apartStep (State.init slot disk data) schedule = some t) : Inv t ∧ Lives disk t := by
  refine Runs.run_invariant (fun t => Inv t ∧ Lives disk t) ?_ ⟨.init slot disk data,.init slot disk data⟩ ran
  intro s a t both stepped
  exact ⟨both.1.step (Option.ite_none_right_eq_some.mp stepped).2,both.2.step both.1 stepped⟩

/-- The type of an inode is cleared by the `iput` that frees it, with its blocks. -/
theorem freed (inv : Inv s) (lives : Lives first s) (stepped : s.step a = some t) (typed : (s.disk x).type ≠ 0)
    (free : (t.disk x).type = 0) : ∃ p o k, a = .next p ∧ s.doing p = .free o k .typeUpdate ∧ (s.slot k).key = x ∧
      (t.disk x).size = 0 ∧ (t.disk x).addrs = fun _ => 0 := by
  obtain same | ⟨p,type,rfl⟩ | ⟨k,rfl,now,⟨still,_⟩ | ⟨p,o,stage,next,doing,rfl | rfl⟩⟩ :=
    (Effect.of_step inv stepped).disk x
  · exact absurd (same ▸ free) typed
  · simp only [State.step,Option.ite_none_right_eq_some] at stepped
    exact absurd stepped.1.2.1 typed
  · exact absurd (now ▸ free) still
  · obtain ⟨_,_,_,still,_⟩ := lives.free p o k _ doing
    exact absurd (now ▸ free) still
  · obtain ⟨_,_,_,_,_,size,addrs⟩ := lives.free p o k _ doing
    exact ⟨p,o,k,next,doing,rfl,now ▸ size,now ▸ addrs⟩

/-- It is set by `ialloc`, so an inode is freed once for each time it is allocated. -/
theorem reused (inv : Inv s) (lives : Lives first s) (stepped : s.step a = some t) (free : (s.disk x).type = 0)
    (typed : (t.disk x).type ≠ 0) : ∃ p type, a = .ialloc p x type := by
  obtain same | new | ⟨k,rfl,_,⟨_,p,o,idle,mem,usable⟩ | ⟨p,o,stage,_,doing,rfl | rfl⟩⟩ :=
    (Effect.of_step inv stepped).disk x
  · exact absurd free (same ▸ typed)
  · exact new
  · exact absurd free (lives.typed inv mem usable (by simp [idle]))
  · exact absurd free (lives.free p o k _ doing).2.2.2.2.1
  · exact absurd free (lives.free p o k _ doing).2.2.2.2.1

end Lives

def State.readi (s : State) (k : Nat) : Bytes.Storage := s.data (s.slot k).key

/-- The file of an open inode changes only when it is written. -/
theorem readi_step {first : Key → Dinode} {s t : State} {a : Action} {f k : Nat} (inv : Inv s) (lives : Lives first s)
    (stepped : s.step a = some t) (refers : (.file f,k) ∈ s.refs) (quiet : ∀ p bytes, a ≠ .write p k bytes) :
    t.readi k = s.readi k := by
  have effect := Effect.of_step inv stepped
  have positive := inv.ref_pos.mpr ⟨_,refers⟩
  unfold State.readi
  rw [effect.key k positive]
  obtain same | ⟨p,l,bytes,write,pos,same,_⟩ | ⟨p,o,l,_,doing,same⟩ := effect.data (s.slot k).key
  · exact same
  · obtain rfl := inv.unique l k pos positive same
    exact absurd write (quiet p bytes)
  · obtain rfl := inv.unique l k ((lives.free p o l _ doing).1 ▸ Nat.one_pos) positive same
    obtain rfl := lives.alone inv doing refers
    have own := (inv.put p _ l _ doing).2.1
    simp at own

theorem readi_run {first : Key → Dinode} {s t : State} {f k : Nat} {schedule : List Action} (inv : Inv s)
    (lives : Lives first s) (opened : Runs.Always State.apartStep (fun u => (.file f,k) ∈ u.refs) s schedule)
    (quiet : ∀ p bytes, Action.write p k bytes ∉ schedule) (ran : Runs.run State.apartStep s schedule = some t) :
    t.readi k = s.readi k := by
  induction schedule generalizing s with
  | nil => rw [Option.some.inj ran]
  | cons a rest ih =>
    obtain ⟨u,stepped,later⟩ := Option.bind_eq_some_iff.mp ran
    have step := (Option.ite_none_right_eq_some.mp stepped).2
    have same := readi_step inv lives step opened.head fun p bytes write => quiet p bytes (by simp [write])
    rw [← same]
    exact ih (inv.step step) (lives.step inv stepped) (opened.tail stepped)
      (fun p bytes there => quiet p bytes (List.mem_cons_of_mem a there)) later

/-- If lookups and allocations keep apart from inodes that are being freed: an inode with a reference is not
freed, unless it is being freed with that reference, which then is the last one and finds no links; an
inode without links that is not freed has a reference; the type is cleared, after the blocks, by an `iput` that
frees the inode, once for each `ialloc`; and what an open file reads is what was written last. -/
theorem unlinked_lives {slot : Nat → Slot} {disk : Key → Dinode} {data : Key → Bytes.Storage} {schedule : List Action}
    {s : State} (ran : Runs.run State.apartStep (.init slot disk data) schedule = some s) :
    (∀ o k, (o,k) ∈ s.refs → (∀ p stage, s.doing p ≠ .free o k stage) → (s.disk (s.slot k).key).type ≠ 0) ∧
    (∀ p o k stage, s.doing p = .free o k stage →
      o.own p = true ∧ s.refs.filter (·.2 = k) = {(o,k)} ∧ (s.slot k).din.nlink = 0) ∧
    (∀ x, Unlinked (s.disk x) →
      (∃ k, 0 < (s.slot k).ref ∧ (s.slot k).key = x) ∨ (∃ p, s.doing p = .allocated x) ∨ Unlinked (disk x)) ∧
    (∀ a t, s.apartStep a = some t → ∀ x,
      ((s.disk x).type ≠ 0 → (t.disk x).type = 0 → ∃ p o k, a = .next p ∧ s.doing p = .free o k .typeUpdate ∧
        (s.slot k).key = x ∧ (t.disk x).size = 0 ∧ (t.disk x).addrs = fun _ => 0) ∧
      ((s.disk x).type = 0 → (t.disk x).type ≠ 0 → ∃ p type, a = .ialloc p x type)) ∧
    (∀ p k bytes t, s.apartStep (.write p k bytes) = some t → t.readi k = bytes) ∧
    ∀ f k more t, Runs.Always State.apartStep (fun u => (.file f,k) ∈ u.refs) s more →
      (∀ p bytes, Action.write p k bytes ∉ more) → Runs.run State.apartStep s more = some t → t.readi k = s.readi k := by
  obtain ⟨inv,lives⟩ := Lives.run ran
  refine ⟨?_,?_,lives.kept,?_,?_,fun f k more t => readi_run inv lives⟩
  · intro o k mem other
    obtain typed | ⟨p,o',stage,freeing⟩ := lives.live k (inv.ref_pos.mpr ⟨o,mem⟩)
    · exact typed
    · obtain rfl := lives.alone inv freeing mem
      exact absurd freeing (other p stage)
  · intro p o k stage freeing
    obtain ⟨mem,own,_⟩ := inv.put p o k stage freeing
    obtain ⟨single,unlinked,_⟩ := lives.free p o k stage freeing
    refine ⟨own,?_,unlinked⟩
    rw [inv.count,Multiset.countP_eq_card_filter,Multiset.card_eq_one] at single
    obtain ⟨r,only⟩ := single
    have there : (o,k) ∈ s.refs.filter (·.2 = k) := Multiset.mem_filter.mpr ⟨mem,rfl⟩
    rw [only,Multiset.mem_singleton] at there
    rw [only,there]
  · intro a t stepped x
    have step := (Option.ite_none_right_eq_some.mp stepped).2
    exact ⟨lives.freed inv step,lives.reused inv step⟩
  · intro p k bytes t stepped
    have step := (Option.ite_none_right_eq_some.mp stepped).2
    obtain ⟨y,did,rfl⟩ := Option.map_eq_some_iff.mp step
    simp only [Local.write] at did
    obtain ⟨_,rfl⟩ := Runs.enabled did
    simp [State.readi]

def unlinkEntry (p k : Nat) (key : Key) : List Action :=
  ([.iget p key,.ilock p (.thread p) k,.next p] : List Action) ++ relink p k 0 ++
    ([.iunlock p k,.iput p (.thread p) k] : List Action)

/-- A file is opened, unlinked by another thread and written. -/
def writeUnlinked : List Action :=
  openRead 0 0 (1,5) ++ ([.iunlock 0 0,.give 0 (.thread 0) (.file 0) 0] : List Action) ++ unlinkEntry 1 0 (1,5) ++
    ([.ilock 0 (.file 0) 0,.next 0,.write 0 0 fun _ => 7,.iunlock 0 0] : List Action)

theorem writeUnlinked_lives : ∃ s, Runs.run State.apartStep clear writeUnlinked = some s ∧
    ((s.slot 0).ref,(s.slot 0).key,(s.disk (1,5)).nlink) = (1,(1,5),0) ∧ (s.disk (s.slot 0).key).type ≠ 0 := by
  refine Runs.reaches (fun s => ((s.slot 0).ref,(s.slot 0).key,(s.disk (1,5)).nlink) = (1,(1,5),0) ∧ (.file 0,0) ∈ s.refs)
    (by decide +kernel) fun s ran seen => ?_
  obtain ⟨live,freeing,_⟩ := unlinked_lives ran
  refine ⟨seen.1,live (.file 0) 0 seen.2 fun p stage doing => ?_⟩
  simpa using (freeing p _ 0 stage doing).1

/-- The last link of a file is removed and `iput` has taken the lock to free it. -/
def freeing : List Action :=
  openRead 0 0 (1,5) ++ relink 0 0 0 ++ ([.iunlock 0 0,.iput 0 (.thread 0) 0] : List Action)

/-- Before `iput` drops its reference, the inode is allocated, opened, unlinked and closed by another thread. -/
def overtaken : List Action :=
  freeing ++ List.replicate 6 (Action.next 0) ++
    ([.ialloc 1 (1,5) 2,.iget 1 (1,5),.ilock 1 (.thread 1) 0,.next 1,.next 1] : List Action) ++ relink 1 0 1 ++
    ([.iunlock 1 0,.give 1 (.thread 1) (.file 0) 0] : List Action) ++ unlinkEntry 1 0 (1,5) ++
    ([.give 1 (.file 0) (.thread 1) 0,.iput 1 (.thread 1) 0,.next 0] : List Action)

/-- Another thread gets a reference, through the `..` of a directory that was removed before. -/
def dangling : List Action := freeing ++ [Action.iget 1 (1,5)] ++ List.replicate 4 (Action.next 0)

/-- In the first run the inode is left without links and references and is never freed; in the second it is freed
while there is another reference to it. -/
theorem unlinked_races :
    (∃ s, Runs.run State.step clear overtaken = some s ∧ (s.disk (1,5)).type ≠ 0 ∧ (s.disk (1,5)).nlink = 0 ∧
      s.refs.card = 0) ∧
    ∃ s, Runs.run State.step clear dangling = some s ∧ (s.disk (1,5)).type = 0 ∧ (.thread 1,0) ∈ s.refs ∧
      (s.slot 0).key = (1,5) ∧ (s.slot 0).ref = 2 :=
  ⟨Runs.ends (by decide +kernel),Runs.ends (by decide +kernel)⟩

end Xv6.Itable
