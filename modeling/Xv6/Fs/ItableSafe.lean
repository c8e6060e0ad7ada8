import Xv6.Fs.Itable

namespace Xv6.Itable

open Fs
open Function (update update_self update_of_ne)

attribute [simp] Doing.entry State.setDoing State.put State.setRef Owner.own State.addRef Owner.usable State.focus

/-! What a step can do. -/

/-- What a thread that has the lock does with an entry. -/
inductive Local.Uses (p k : Nat) (x : Local) : Action → Local → Prop
  | change {din : Dinode} (type : din.type = x.slot.din.type) :
    x.Uses p k (.change p k din) { x with slot := { x.slot with din := din, dirty := true } }
  | write (bytes : Bytes.Storage) : x.Uses p k (.write p k bytes) { x with data := bytes }
  | iupdate : x.Uses p k (.iupdate p k) { x with slot := { x.slot with dirty := false }, disk := x.slot.din }
  | iunlock (clean : x.slot.dirty = false) :
    x.Uses p k (.iunlock p k) { x with slot := { x.slot with holder := none } }

/-- The entry is locked for what the thread goes on with. -/
def Local.lock (p : Nat) (owner : Owner) (doing : Doing) (x : Local) : Local :=
  { x with slot := { x.slot with holder := some (p,owner) }, doing := doing }

inductive Steps (s : State) : Action → State → Prop
  | lookup {p k : Nat} {key : Key} (idle : s.doing p = .nothing) (found : s.find key = some k) :
    Steps s (.iget p key) ((s.enter k key).addRef (.thread p) k)
  | igetNew {p k : Nat} {key : Key} (doing : s.doing p = .allocated key) (found : s.find key = some k) :
    Steps s (.iget p key) (((s.enter k key).addRef (.thread p) k).setDoing p (.fresh k))
  | idup {p k : Nat} {owner fresh : Owner} (idle : s.doing p = .nothing) (usable : owner.usable p = true)
    (mem : (owner,k) ∈ s.refs) : Steps s (.idup p owner fresh k) ((s.setRef k ((s.slot k).ref + 1)).addRef fresh k)
  | give {p k : Nat} {owner fresh : Owner} (idle : s.doing p = .nothing) (usable : owner.usable p = true)
    (mem : (owner,k) ∈ s.refs) (spare : s.spare owner k = true) :
    Steps s (.give p owner fresh k) { s with refs := (fresh,k) ::ₘ s.refs.erase (owner,k) }
  | ilock {p k : Nat} {owner : Owner} (usable : owner.usable p = true) (mem : (owner,k) ∈ s.refs)
    (unheld : (s.slot k).holder = none) (idle : s.doing p = .nothing ∨ s.doing p = .fresh k) :
    Steps s (.ilock p owner k) (s.put p k ((s.focus p k).lock p owner (.load k)))
  | dropFreed {p k : Nat} {owner : Owner} (doing : s.doing p = .free owner k .drop) :
    Steps s (.next p) ((s.drop owner k).setDoing p .nothing)
  | next {p k : Nat} {y : Local} (entry : (s.doing p).entry = some k) (did : (s.focus p k).next = some y) :
    Steps s (.next p) (s.put p k y)
  | uses {p k : Nat} {a : Action} {y : Local} (locked : (s.focus p k).locked p = true)
    (did : (s.focus p k).Uses p k a y) : Steps s a (s.put p k y)
  | take {p k : Nat} {owner : Owner} (idle : s.doing p = .nothing) (own : owner.own p = true)
    (mem : (owner,k) ∈ s.refs) (frees : s.frees k = true) (unheld : (s.slot k).holder = none) :
    Steps s (.iput p owner k) (s.put p k ((s.focus p k).lock p owner (.free owner k .trunc)))
  | drop {p k : Nat} {owner : Owner} (idle : s.doing p = .nothing) (own : owner.own p = true)
    (mem : (owner,k) ∈ s.refs) (spare : s.spare owner k = true) (keeps : s.frees k = false) :
    Steps s (.iput p owner k) (s.drop owner k)
  | ialloc {p type : Nat} {key : Key} (idle : s.doing p = .nothing) (unused : (s.disk key).type = 0) (typed : type ≠ 0) :
    Steps s (.ialloc p key type)
      { s.setDoing p (.allocated key) with disk := update s.disk key (Dinode.blank type) }

theorem step_steps {s t : State} {a : Action} (stepped : s.step a = some t) : Steps s a t := by
  have uses {p k : Nat} (f : Local → Option Local) (did : s.work p k f = some t)
      (inside : ∀ x y, f x = some y → x.locked p = true ∧ x.Uses p k a y) : Steps s a t := by
    obtain ⟨y,worked,rfl⟩ := Option.map_eq_some_iff.mp did
    exact .uses (inside _ y worked).1 (inside _ y worked).2
  cases a with
  | iget p key =>
    cases doing : s.doing p with
    | nothing =>
      simp only [State.step,doing,Option.map_eq_some_iff] at stepped
      obtain ⟨k,found,rfl⟩ := stepped
      exact .lookup doing found
    | allocated fresh =>
      simp only [State.step,doing,Option.ite_none_right_eq_some,Option.map_eq_some_iff] at stepped
      obtain ⟨rfl,k,found,rfl⟩ := stepped
      exact .igetNew doing found
    | load k | check k | free o k stage | fresh k => simp [State.step,doing] at stepped
  | idup p owner fresh k =>
    simp only [State.step] at stepped
    obtain ⟨⟨idle,usable,mem⟩,rfl⟩ := Runs.enabled stepped
    exact .idup idle usable mem
  | give p owner fresh k =>
    simp only [State.step] at stepped
    obtain ⟨⟨idle,usable,mem,spare⟩,rfl⟩ := Runs.enabled stepped
    exact .give idle usable mem spare
  | ilock p owner k =>
    simp only [State.step,State.work,Local.ilock,Option.ite_none_right_eq_some,Option.map_eq_some_iff] at stepped
    obtain ⟨⟨usable,mem⟩,_,⟨⟨unheld,idle⟩,⟨⟩⟩,rfl⟩ := stepped
    exact .ilock usable mem unheld idle
  | next p =>
    simp only [State.step] at stepped
    split at stepped
    · cases stepped
      exact .dropFreed ‹_›
    · obtain ⟨k,entry,did⟩ := Option.bind_eq_some_iff.mp stepped
      obtain ⟨y,worked,rfl⟩ := Option.map_eq_some_iff.mp did
      exact .next entry worked
  | change p k din =>
    refine uses (·.change p din) stepped fun x y did => ?_
    simp only [Local.change] at did
    obtain ⟨⟨locked,type⟩,rfl⟩ := Runs.enabled did
    exact ⟨locked,.change type⟩
  | write p k bytes =>
    refine uses (·.write p bytes) stepped fun x y did => ?_
    simp only [Local.write] at did
    obtain ⟨locked,rfl⟩ := Runs.enabled did
    exact ⟨locked,.write bytes⟩
  | iupdate p k =>
    refine uses (·.iupdate p) stepped fun x y did => ?_
    simp only [Local.iupdate] at did
    obtain ⟨locked,rfl⟩ := Runs.enabled did
    exact ⟨locked,.iupdate⟩
  | iunlock p k =>
    refine uses (·.iunlock p) stepped fun x y did => ?_
    simp only [Local.iunlock] at did
    obtain ⟨⟨locked,clean⟩,rfl⟩ := Runs.enabled did
    exact ⟨locked,.iunlock clean⟩
  | iput p owner k =>
    simp only [State.step,Option.ite_none_right_eq_some] at stepped
    obtain ⟨⟨idle,own,mem,spare⟩,did⟩ := stepped
    split at did
    · simp only [State.work,Local.take,Option.ite_none_right_eq_some,Option.map_eq_some_iff] at did
      obtain ⟨_,⟨unheld,⟨⟩⟩,rfl⟩ := did
      exact .take idle own mem ‹_› unheld
    · cases did
      exact .drop idle own mem spare (Bool.eq_false_iff.mpr ‹_›)
  | ialloc p key type =>
    simp only [State.step] at stepped
    obtain ⟨⟨idle,unused,typed⟩,rfl⟩ := Runs.enabled stepped
    exact .ialloc idle unused typed

/-! What holds of one entry. -/

/-- An entry that nobody changes has the inode of the disk, once it is valid. -/
def Slot.Settled (slot : Slot) (disk : Dinode) : Prop := slot.valid = true → slot.din = disk ∧ slot.din.type ≠ 0

/-- How far an entry that is locked through `owner` may be from the disk. -/
def Doing.Holds (owner : Owner) (k : Nat) (slot : Slot) (disk : Dinode) (doing : Doing) : Prop :=
  if doing.entry = some k then
    match doing with
    | .load _ => slot.dirty = false ∧ slot.Settled disk
    | .check _ => slot.dirty = false ∧ slot.valid = false ∧ (slot.din = disk ∨ slot.din.type = 0)
    | .free o _ .trunc => o = owner ∧ slot.dirty = false ∧ slot.Settled disk
    | .free o _ .unlock => o = owner ∧ slot.dirty = false ∧ slot.valid = false
    | .free o _ _ => o = owner ∧ slot.dirty = true
    | _ => True
  else slot.valid = true ∧ slot.din.type ≠ 0 ∧ (slot.dirty = false → slot.din = disk)

/-- An entry that nobody but `p` has locked, if anybody has. -/
structure Local.Ok (refs : Multiset (Owner × Nat)) (p k : Nat) (x : Local) : Prop where
  entry : ∀ l, x.doing.entry = some l → l = k ∧ x.slot.holder ≠ none
  free : x.slot.holder = none → x.slot.dirty = false ∧ x.slot.Settled x.disk
  held : ∀ q o, x.slot.holder = some (q,o) →
    q = p ∧ (o,k) ∈ refs ∧ o.usable p = true ∧ x.doing.Holds o k x.slot x.disk
  put : ∀ o l stage, x.doing = .free o l stage →
    l = k ∧ (o,k) ∈ refs ∧ o.own p = true ∧ (stage = .drop → x.slot.holder = none)

theorem Owner.usable_of_own {p : Nat} (owner : Owner) (own : owner.own p = true) : owner.usable p = true := by
  cases owner <;> simp_all [usable]

namespace Local

variable {refs : Multiset (Owner × Nat)} {p k : Nat} {x y : Local} {owner : Owner}

/-- The key and the count of an entry are under `itable.lock`. -/
def Same (x y : Local) : Prop := y.slot.key = x.slot.key ∧ y.slot.ref = x.slot.ref

theorem Ok.ilock (ok : x.Ok refs p k) (mem : (owner,k) ∈ refs) (usable : owner.usable p = true)
    (unheld : x.slot.holder = none) : (x.lock p owner (.load k)).Ok refs p k := by
  refine ⟨by simp [lock],by simp [lock],?_,by simp [lock]⟩
  rintro q o ⟨⟩
  exact ⟨rfl,mem,usable,by simpa [lock,Doing.Holds,Slot.Settled] using ok.free unheld⟩

theorem Ok.take (ok : x.Ok refs p k) (mem : (owner,k) ∈ refs) (own : owner.own p = true)
    (unheld : x.slot.holder = none) : (x.lock p owner (.free owner k .trunc)).Ok refs p k := by
  refine ⟨by simp [lock],by simp [lock],?_,?_⟩
  · rintro q o ⟨⟩
    refine ⟨rfl,mem,owner.usable_of_own own,?_⟩
    simpa [lock,Doing.Holds,Slot.Settled] using ok.free unheld
  · rintro o l stage ⟨⟩
    exact ⟨rfl,mem,own,by simp⟩

theorem Ok.keep {o : Owner} (ok : x.Ok refs p k) (holder : x.slot.holder = some (p,o)) (same : x.Same y)
    (kept : y.slot.holder = x.slot.holder) (entry : ∀ l, y.doing.entry = some l → l = k)
    (holds : y.doing.Holds o k y.slot y.disk)
    (put : ∀ o l stage, y.doing = .free o l stage → stage ≠ .drop ∧ ∃ stage, x.doing = .free o l stage) :
    y.Ok refs p k ∧ x.Same y := by
  have yours : y.slot.holder = some (p,o) := kept.trans holder
  obtain ⟨_,mem,usable,_⟩ := ok.held p o holder
  refine ⟨⟨?_,?_,?_,?_⟩,same⟩
  · exact fun l at_l => ⟨entry l at_l,by simp [yours]⟩
  · simp [yours]
  · rw [yours]
    rintro q o ⟨⟩
    exact ⟨rfl,mem,usable,holds⟩
  · intro o l stage doing
    obtain ⟨late,stage',before⟩ := put o l stage doing
    obtain ⟨at_k,mem,own,_⟩ := ok.put o l stage' before
    exact ⟨at_k,mem,own,fun last => absurd last late⟩

theorem Ok.next (ok : x.Ok refs p k) (entry : x.doing.entry = some k) (did : x.next = some y) :
    y.Ok refs p k ∧ x.Same y := by
  obtain ⟨⟨q,o⟩,holder⟩ := Option.ne_none_iff_exists'.mp (ok.entry k entry).2
  obtain ⟨rfl,mem,usable,holds⟩ := ok.held q o holder
  unfold Doing.Holds at holds
  rw [if_pos entry] at holds
  unfold Local.next at did
  cases doing : x.doing with
  | nothing | allocated key | fresh l => simp [doing] at did
  | load l =>
    obtain rfl : l = k := by simpa [doing] using entry
    simp only [doing] at did holds
    by_cases valid : x.slot.valid = true
    · obtain rfl : _ = y := by simpa [valid] using did
      refine ok.keep holder ⟨rfl,rfl⟩ rfl (by simp) ?_ (by simp)
      have settled := holds.2 valid
      simpa [Doing.Holds,valid,settled] using settled.1 ▸ settled.2
    · obtain rfl : _ = y := by simpa [valid] using did
      refine ok.keep holder ⟨rfl,rfl⟩ rfl (by simp) ?_ (by simp)
      simp [Doing.Holds,holds.1]
  | check l =>
    obtain rfl : l = k := by simpa [doing] using entry
    simp only [doing] at did holds
    by_cases typed : x.slot.din.type = 0
    · simp [typed] at did
    · obtain rfl : _ = y := by simpa [typed] using did
      refine ok.keep holder ⟨rfl,rfl⟩ rfl (by simp) ?_ (by simp)
      simpa [Doing.Holds,typed,holds.1] using holds.2.2
  | free owner l stage =>
    obtain ⟨rfl,_,own,_⟩ := ok.put owner l stage doing
    have unlocked (y : Local) (free : y.slot.holder = none) (clean : y.slot.dirty = false ∧ y.slot.valid = false)
        (drops : y.doing = .free owner l .drop) : y.Ok refs q l := by
      refine ⟨?_,?_,?_,?_⟩
      · simp [drops]
      · simp [Slot.Settled,clean]
      · simp [free]
      · rw [drops]
        rintro o l stage ⟨⟩
        exact ⟨rfl,‹_›,own,fun _ => free⟩
    cases stage
    case drop => simp [doing] at did
    case unlock =>
      simp only [doing,Option.some.injEq] at did holds
      subst did
      exact ⟨unlocked _ rfl holds.2 rfl,rfl,rfl⟩
    all_goals
      simp only [doing,Option.some.injEq] at did holds
      subst did
      refine ok.keep holder ⟨rfl,rfl⟩ rfl (by simp) ?_ (by simp [doing])
      simp [Doing.Holds,holds]

theorem Ok.locked (ok : x.Ok refs p k) (locked : x.locked p = true) :
    x.doing = .nothing ∧ ∃ o, x.slot.holder = some (p,o) ∧ x.slot.valid = true ∧ x.slot.din.type ≠ 0 ∧
      (x.slot.dirty = false → x.slot.din = x.disk) := by
  simp only [Local.locked,decide_eq_true_eq,Option.map_eq_some_iff] at locked
  obtain ⟨idle,⟨q,o⟩,holder,rfl⟩ := locked
  have holds := (ok.held q o holder).2.2.2
  exact ⟨idle,o,holder,by simpa [idle,Doing.Holds] using holds⟩

theorem Ok.uses {a : Action} (ok : x.Ok refs p k) (locked : x.locked p = true) (did : x.Uses p k a y) :
    y.Ok refs p k ∧ x.Same y := by
  obtain ⟨idle,o,holder,valid,typed,same⟩ := ok.locked locked
  cases did with
  | change type =>
    refine ok.keep holder ⟨rfl,rfl⟩ rfl (by simp [idle]) ?_ (by simp [idle])
    simp [idle,Doing.Holds,valid,type,typed]
  | write bytes =>
    refine ok.keep holder ⟨rfl,rfl⟩ rfl (by simp [idle]) ?_ (by simp [idle])
    simpa [idle,Doing.Holds,valid,typed] using same
  | iupdate =>
    refine ok.keep holder ⟨rfl,rfl⟩ rfl (by simp [idle]) ?_ (by simp [idle])
    simp [idle,Doing.Holds,valid,typed]
  | iunlock clean =>
    refine ⟨⟨by simp [idle],?_,by simp,by simp [idle]⟩,rfl,rfl⟩
    exact fun _ => ⟨clean,fun _ => ⟨same clean,typed⟩⟩

end Local

/-! What holds of the table. -/

structure Inv (s : State) : Prop where
  count : ∀ k, (s.slot k).ref = s.refs.countP (·.2 = k)
  inside : ∀ o k, (o,k) ∈ s.refs → k < ninode
  unique : ∀ k l, 0 < (s.slot k).ref → 0 < (s.slot l).ref → (s.slot k).key = (s.slot l).key → k = l
  free : ∀ k, (s.slot k).holder = none →
    (s.slot k).dirty = false ∧ (0 < (s.slot k).ref → (s.slot k).Settled (s.disk (s.slot k).key))
  held : ∀ k p o, (s.slot k).holder = some (p,o) →
    (o,k) ∈ s.refs ∧ o.usable p = true ∧ (s.doing p).Holds o k (s.slot k) (s.disk (s.slot k).key)
  entry : ∀ p k, (s.doing p).entry = some k → ∃ o, (s.slot k).holder = some (p,o)
  put : ∀ p o k stage, s.doing p = .free o k stage →
    (o,k) ∈ s.refs ∧ o.own p = true ∧ (stage = .drop → ∀ o', (s.slot k).holder ≠ some (p,o'))

/-- The thread is in the middle of nothing, or of something with this entry alone. -/
def Doing.On (k : Nat) (doing : Doing) : Prop := doing = .nothing ∨ doing = .fresh k ∨ doing.entry = some k

theorem Doing.holds_off {doing : Doing} {owner : Owner} {k : Nat} {slot : Slot} {disk : Dinode}
    (off : doing.entry ≠ some k) : doing.Holds owner k slot disk ↔
      slot.valid = true ∧ slot.din.type ≠ 0 ∧ (slot.dirty = false → slot.din = disk) := by
  unfold Doing.Holds
  rw [if_neg off]

theorem Slot.Settled.realloc {slot : Slot} {disk disk' : Dinode} (settled : slot.Settled disk) (unused : disk.type = 0) :
    slot.Settled disk' := by
  intro valid
  obtain ⟨same,typed⟩ := settled valid
  exact absurd (same ▸ unused) typed

theorem Doing.Holds.realloc {doing : Doing} {owner : Owner} {k : Nat} {slot : Slot} {disk disk' : Dinode}
    (holds : doing.Holds owner k slot disk) (unused : disk.type = 0) : doing.Holds owner k slot disk' := by
  by_cases entry : doing.entry = some k
  · unfold Doing.Holds at holds ⊢
    rw [if_pos entry] at holds ⊢
    split at holds
    · exact ⟨holds.1,holds.2.realloc unused⟩
    · exact ⟨holds.1,holds.2.1,.inr (holds.2.2.elim (fun same => same ▸ unused) id)⟩
    · exact ⟨holds.1,holds.2.1,holds.2.2.realloc unused⟩
    · exact holds
    · exact holds
    · trivial
  · rw [Doing.holds_off entry] at holds ⊢
    exact ⟨holds.1,holds.2.1,fun clean => absurd (holds.2.2 clean ▸ unused) holds.2.1⟩

theorem State.setRef_slot (s : State) (k r l : Nat) :
    (s.setRef k r).slot l = { s.slot l with ref := if l = k then r else (s.slot l).ref } := by
  obtain rfl | other := eq_or_ne l k
  · simp [setRef]
  · simp [setRef,other]

namespace Inv

variable {s t : State} {p k : Nat} {owner : Owner}

theorem ref_pos (inv : Inv s) : 0 < (s.slot k).ref ↔ ∃ o, (o,k) ∈ s.refs := by
  rw [inv.count,Multiset.countP_pos]
  constructor
  · rintro ⟨⟨o,l⟩,mem,same⟩
    exact ⟨o,by simpa [← show l = k from by simpa using same] using mem⟩
  · rintro ⟨o,mem⟩
    exact ⟨_,mem,by simp⟩

theorem focus_ok (inv : Inv s) (ref : ∃ o, (o,k) ∈ s.refs) (on : (s.doing p).On k)
    (mine : ∀ q o, (s.slot k).holder = some (q,o) → q = p) : (s.focus p k).Ok s.refs p k where
  entry l at_l := by
    obtain ⟨o,holder⟩ := inv.entry p l at_l
    obtain idle | idle | at_k := on
    · simp [idle] at at_l
    · simp [idle] at at_l
    · cases at_l.symm.trans at_k
      exact ⟨rfl,by simp [holder]⟩
  free unheld := ⟨(inv.free k unheld).1,(inv.free k unheld).2 (inv.ref_pos.mpr ref)⟩
  held q o holder := by
    obtain rfl := mine q o holder
    exact ⟨rfl,inv.held k q o holder⟩
  put o l stage doing := by
    obtain idle | idle | at_k := on
    · simp [idle] at doing
    · simp [idle] at doing
    · have late : stage ≠ .drop := by
        rintro rfl
        simp [show s.doing p = _ from doing] at at_k
      obtain rfl : l = k := by simpa [show s.doing p = _ from doing,late] using at_k
      obtain ⟨mem,own,_⟩ := inv.put p o l stage doing
      exact ⟨rfl,mem,own,fun last => absurd last late⟩

/-- A thread works on an entry that no other thread has locked. -/
theorem work (inv : Inv s) {y : Local} (ref : ∃ o, (o,k) ∈ s.refs) (on : (s.doing p).On k)
    (mine : ∀ q o, (s.slot k).holder = some (q,o) → q = p) (ok : y.Ok s.refs p k) (same : (s.focus p k).Same y) :
    Inv (s.put p k y) := by
  obtain ⟨key,count⟩ := same
  have positive := inv.ref_pos.mpr ref
  simp only [State.focus] at key count
  have off (l : Nat) (other : l ≠ k) : (s.doing p).entry ≠ some l := by
    intro at_l
    obtain idle | idle | at_k := on
    · simp [idle] at at_l
    · simp [idle] at at_l
    · exact other (Option.some.inj (at_l.symm.trans at_k))
  -- another entry with references has another inode
  have apart (l : Nat) (other : l ≠ k) (pos : 0 < (s.slot l).ref) : (s.slot l).key ≠ (s.slot k).key :=
    fun same => other (inv.unique l k pos positive same)
  constructor
  case count =>
    intro l
    obtain rfl | other := eq_or_ne l k
    · simpa [count] using inv.count l
    · simpa [other] using inv.count l
  case inside => exact inv.inside
  case unique =>
    intro l m
    have same (l : Nat) : ((s.put p k y).slot l).ref = (s.slot l).ref ∧
        ((s.put p k y).slot l).key = (s.slot l).key := by
      obtain rfl | other := eq_or_ne l k
      · simp [key,count]
      · simp [other]
    rw [(same l).1,(same l).2,(same m).1,(same m).2]
    exact inv.unique l m
  case free =>
    intro l
    obtain rfl | other := eq_or_ne l k
    · simp only [State.put,update_self,key]
      exact fun unheld => ⟨(ok.free unheld).1,fun _ => (ok.free unheld).2⟩
    · simp only [State.put,update_of_ne other]
      intro unheld
      refine ⟨(inv.free l unheld).1,fun pos => ?_⟩
      rw [update_of_ne (apart l other pos)]
      exact (inv.free l unheld).2 pos
  case held =>
    intro l q o
    obtain rfl | other := eq_or_ne l k
    · simp only [State.put,update_self,key]
      intro holder
      obtain ⟨rfl,mem,usable,holds⟩ := ok.held q o holder
      exact ⟨mem,usable,by simpa using holds⟩
    · simp only [State.put,update_of_ne other]
      intro holder
      obtain ⟨mem,usable,holds⟩ := inv.held l q o holder
      rw [update_of_ne (apart l other (inv.ref_pos.mpr ⟨o,mem⟩))]
      refine ⟨mem,usable,?_⟩
      obtain rfl | another := eq_or_ne q p
      · rw [update_self,Doing.holds_off fun at_l => other (ok.entry l at_l).1]
        exact (Doing.holds_off (off l other)).mp holds
      · rwa [update_of_ne another]
  case entry =>
    intro q l
    obtain rfl | another := eq_or_ne q p
    · simp only [State.put,update_self]
      intro at_l
      obtain ⟨rfl,locked⟩ := ok.entry l at_l
      obtain ⟨⟨r,o⟩,holder⟩ := Option.ne_none_iff_exists'.mp locked
      obtain ⟨rfl,_⟩ := ok.held r o holder
      exact ⟨o,by simpa using holder⟩
    · simp only [State.put,update_of_ne another]
      intro at_l
      obtain ⟨o,holder⟩ := inv.entry q l at_l
      obtain rfl | other := eq_or_ne l k
      · exact absurd (mine q o holder) another
      · exact ⟨o,by simpa [other] using holder⟩
  case put =>
    intro q o l stage
    obtain rfl | another := eq_or_ne q p
    · simp only [State.put,update_self]
      intro doing
      obtain ⟨rfl,mem,own,last⟩ := ok.put o l stage doing
      exact ⟨mem,own,fun drops o' => by simp [last drops]⟩
    · simp only [State.put,update_of_ne another]
      intro doing
      obtain ⟨mem,own,last⟩ := inv.put q o l stage doing
      refine ⟨mem,own,fun drops o' => ?_⟩
      obtain rfl | other := eq_or_ne l k
      · rw [update_self]
        exact fun holder => another (ok.held q o' holder).1
      · rw [update_of_ne other]
        exact last drops o'

/-- References to an entry are handed out or put. An entry gets its first one when no other has the
inode, and then has to be read. -/
theorem refer (inv : Inv s) {r : Nat} (refs : Multiset (Owner × Nat)) (doing : Nat → Doing)
    (alive : 0 < r → 0 < (s.slot k).ref ∨ (s.slot k).valid = false ∧
      ∀ m, 0 < (s.slot m).ref → (s.slot m).key ≠ (s.slot k).key)
    (count : ∀ l, refs.countP (·.2 = l) = if l = k then r else (s.slot l).ref)
    (inside : ∀ o l, (o,l) ∈ refs → l < ninode)
    (held : ∀ l q o, (s.slot l).holder = some (q,o) → (o,l) ∈ refs)
    (busy : ∀ q, doing q = s.doing q ∧ (∀ o l stage, doing q = .free o l stage → (o,l) ∈ refs) ∨
      (s.doing q).entry = none ∧ (doing q).entry = none ∧ ∀ o l stage, doing q ≠ .free o l stage) :
    Inv { s.setRef k r with refs := refs, doing := doing } := by
  have slots := s.setRef_slot k r
  have entries (q : Nat) : (doing q).entry = (s.doing q).entry := by
    obtain ⟨same,_⟩ | ⟨before,after,_⟩ := busy q
    · rw [same]
    · rw [before,after]
  -- a new entry is not one of those that had references
  have settled (l : Nat) (pos : 0 < if l = k then r else (s.slot l).ref) (unheld : (s.slot l).holder = none) :
      (s.slot l).Settled (s.disk (s.slot l).key) := by
    by_cases old : 0 < (s.slot l).ref
    · exact (inv.free l unheld).2 old
    · obtain rfl | other := eq_or_ne l k
      · intro valid
        simp [valid,old] at alive
        simp [alive] at pos
      · simp [other,old] at pos
  constructor
  case count => exact fun l => by simp only [slots]; exact (count l).symm
  case inside => exact inside
  case unique =>
    intro l m
    simp only [slots]
    intro posl posm same
    by_cases oldl : 0 < (s.slot l).ref <;> by_cases oldm : 0 < (s.slot m).ref
    · exact inv.unique l m oldl oldm same
    · obtain rfl | other := eq_or_ne m k
      · obtain old | new := alive (by simpa using posm)
        · exact absurd old oldm
        · exact absurd same (new.2 l oldl)
      · exact absurd (by simpa [other] using posm) oldm
    · obtain rfl | other := eq_or_ne l k
      · obtain old | new := alive (by simpa using posl)
        · exact absurd old oldl
        · exact absurd same.symm (new.2 m oldm)
      · exact absurd (by simpa [other] using posl) oldl
    · have onlyl : l = k := by
        by_contra other
        exact oldl (by simpa [other] using posl)
      have onlym : m = k := by
        by_contra other
        exact oldm (by simpa [other] using posm)
      exact onlyl.trans onlym.symm
  case free =>
    intro l
    simp only [slots]
    exact fun unheld => ⟨(inv.free l unheld).1,fun pos => settled l pos unheld⟩
  case held =>
    intro l q o
    simp only [slots]
    intro holder
    obtain ⟨_,usable,holds⟩ := inv.held l q o holder
    refine ⟨held l q o holder,usable,?_⟩
    obtain ⟨same,_⟩ | ⟨before,after,_⟩ := busy q
    · rw [same]
      exact holds
    · exact (Doing.holds_off (by rw [after]; nofun)).mpr ((Doing.holds_off (by rw [before]; nofun)).mp holds)
  case entry =>
    intro q l
    simp only [slots,entries]
    exact inv.entry q l
  case put =>
    intro q o l stage freeing
    simp only [slots]
    obtain ⟨same,mem⟩ | ⟨_,_,never⟩ := busy q
    · obtain ⟨_,own,last⟩ := inv.put q o l stage (same ▸ freeing)
      exact ⟨mem o l stage freeing,own,last⟩
    · exact absurd freeing (never o l stage)

theorem unheld (inv : Inv s) (unused : (s.slot k).ref = 0) : (s.slot k).holder = none := by
  by_contra locked
  obtain ⟨⟨q,o⟩,holder⟩ := Option.ne_none_iff_exists'.mp locked
  have := inv.ref_pos.mpr ⟨o,(inv.held k q o holder).1⟩
  omega

theorem recycle (inv : Inv s) (key : Key) (unused : (s.slot k).ref = 0) :
    Inv { s with slot := update s.slot k { s.slot k with key := key, valid := false } } := by
  have unheld := inv.unheld unused
  have alive (l : Nat) (pos : 0 < (s.slot l).ref) : l ≠ k := fun same => by subst same; omega
  have refs (l : Nat) : (update s.slot k { s.slot k with key := key, valid := false } l).ref = (s.slot l).ref := by
    obtain rfl | other := eq_or_ne l k
    · simp
    · simp [other]
  have holders (l : Nat) : (update s.slot k { s.slot k with key := key, valid := false } l).holder =
      (s.slot l).holder := by
    obtain rfl | other := eq_or_ne l k
    · simp
    · simp [other]
  constructor
  case count => exact fun l => (refs l).trans (inv.count l)
  case inside => exact inv.inside
  case unique =>
    intro l m
    simp only [refs]
    intro posl posm
    rw [update_of_ne (alive l posl),update_of_ne (alive m posm)]
    exact inv.unique l m posl posm
  case free =>
    intro l
    obtain rfl | other := eq_or_ne l k
    · simpa [unused,unheld] using (inv.free l unheld).1
    · simpa [other] using inv.free l
  case held =>
    intro l q o holder
    rw [holders] at holder
    have other : l ≠ k := by
      rintro rfl
      simp [unheld] at holder
    simpa [other] using inv.held l q o holder
  case entry =>
    intro q l at_l
    rw [holders]
    exact inv.entry q l at_l
  case put =>
    intro q o l stage freeing
    simp only [holders]
    exact inv.put q o l stage freeing

theorem countP_cons_ref (owner : Owner) (k l : Nat) (refs : Multiset (Owner × Nat)) :
    ((owner,k) ::ₘ refs).countP (·.2 = l) = if l = k then refs.countP (·.2 = k) + 1 else refs.countP (·.2 = l) := by
  obtain rfl | other := eq_or_ne l k
  · simp [Multiset.countP_cons_of_pos]
  · simp [other,other.symm]

theorem addRef (inv : Inv s) (owner : Owner) {doing : Nat → Doing} (inside : k < ninode)
    (alive : 0 < (s.slot k).ref ∨ (s.slot k).valid = false ∧
      ∀ m, 0 < (s.slot m).ref → (s.slot m).key ≠ (s.slot k).key)
    (busy : ∀ q, doing q = s.doing q ∨
      (s.doing q).entry = none ∧ (doing q).entry = none ∧ ∀ o l stage, doing q ≠ .free o l stage) :
    Inv { s.setRef k ((s.slot k).ref + 1) with refs := (owner,k) ::ₘ s.refs, doing := doing } := by
  refine inv.refer _ _ (fun _ => alive) ?_ ?_ ?_ ?_
  · intro l
    rw [countP_cons_ref]
    split
    · rw [inv.count]
    · rw [inv.count]
  · intro o l mem
    obtain same | mem := Multiset.mem_cons.mp mem
    · cases same
      exact inside
    · exact inv.inside o l mem
  · exact fun l q o holder => Multiset.mem_cons_of_mem (inv.held l q o holder).1
  · intro q
    obtain same | idle := busy q
    · exact .inl ⟨same,fun o l stage freeing => Multiset.mem_cons_of_mem (inv.put q o l stage (same ▸ freeing)).1⟩
    · exact .inr idle

theorem find_some {s : State} {key : Key} (found : s.find key = some k) : k < ninode ∧
    (0 < (s.slot k).ref ∧ (s.slot k).key = key ∨
      (s.slot k).ref = 0 ∧ ∀ m < ninode, 0 < (s.slot m).ref → (s.slot m).key ≠ key) := by
  obtain here | ⟨missing,here⟩ := Option.or_eq_some_iff.mp found
  · have := List.find?_some here
    exact ⟨List.mem_range.mp (List.mem_of_find?_eq_some here),.inl (by simpa using this)⟩
  · have unused := List.find?_some here
    refine ⟨List.mem_range.mp (List.mem_of_find?_eq_some here),.inr ⟨by simpa using unused,?_⟩⟩
    intro m small pos
    have := List.find?_eq_none.mp missing m (List.mem_range.mpr small)
    simpa [pos] using this

section

variable (inv : Inv s)
include inv

theorem iget {key : Key} {doing : Nat → Doing} (found : s.find key = some k)
    (busy : ∀ q, doing q = s.doing q ∨ (s.doing q).entry = none ∧ (doing q).entry = none ∧ ∀ o l stage,
      doing q ≠ .free o l stage)
    :
    Inv { (s.enter k key).addRef owner k with doing := doing } := by
  obtain ⟨inside,⟨pos,_⟩ | ⟨unused,missing⟩⟩ := find_some found
  · simpa [State.enter,pos] using inv.addRef owner inside (.inl pos) busy
  · have recycled := inv.recycle key unused
    have added := recycled.addRef owner inside (.inr ⟨by simp,?_⟩) busy
    · simpa [State.enter,unused] using added
    · intro m pos
      obtain rfl | other := eq_or_ne m k
      · simp [unused] at pos
      · simp only [update_of_ne other] at pos ⊢
        obtain ⟨o,mem⟩ := inv.ref_pos.mp pos
        simpa using missing m (inv.inside o m mem) pos

theorem spare_mem {l q : Nat} {o : Owner} (spare : s.spare owner k = true) (holder : (s.slot l).holder = some (q,o)) :
    (o,l) ∈ s.refs.erase (owner,k) := by
  have mem := (inv.held l q o holder).1
  by_cases same : (o,l) = (owner,k)
  · cases same
    have twice : 1 < s.refs.count (owner,k) := by simpa [State.spare,holder] using spare
    rw [← Multiset.count_pos,Multiset.count_erase_self]
    omega
  · exact (Multiset.mem_erase_of_ne same).mpr mem

theorem countP_erase_ref (mem : (owner,k) ∈ s.refs) (l : Nat) :
    (s.refs.erase (owner,k)).countP (·.2 = l) = if l = k then (s.slot k).ref - 1 else (s.slot l).ref := by
  have before := countP_cons_ref owner k l (s.refs.erase (owner,k))
  rw [Multiset.cons_erase mem,← inv.count l] at before
  split at before
  · subst l
    simp [before]
  · rw [if_neg ‹_›,before]

theorem others_mem {q l : Nat} {o : Owner} {stage : Stage} (other : q ≠ p) (usable : owner.usable p = true)
    (freeing : s.doing q = .free o l stage) : (o,l) ∈ s.refs.erase (owner,k) := by
  obtain ⟨mem,own,_⟩ := inv.put q o l stage freeing
  refine (Multiset.mem_erase_of_ne ?_).mpr mem
  rintro ⟨⟩
  cases owner <;> simp_all

theorem drop {doing : Nat → Doing} (mem : (owner,k) ∈ s.refs) (usable : owner.usable p = true)
    (held : ∀ l q o, (s.slot l).holder = some (q,o) → (o,l) ∈ s.refs.erase (owner,k))
    (idle : (s.doing p).entry = none) (done : doing p = .nothing) (others : ∀ q ≠ p, doing q = s.doing q) :
    Inv { s.drop owner k with doing := doing } := by
  refine inv.refer _ _ ?_ (inv.countP_erase_ref mem) ?_ held ?_
  · exact fun _ => .inl (inv.ref_pos.mpr ⟨owner,mem⟩)
  · exact fun o l there => inv.inside o l (Multiset.mem_of_mem_erase there)
  · intro q
    obtain rfl | other := eq_or_ne q p
    · exact .inr ⟨idle,by simp [done],by simp [done]⟩
    · exact .inl ⟨others q other,fun o l stage freeing =>
        inv.others_mem other usable ((others q other).symm.trans freeing)⟩

theorem give {fresh : Owner} (mem : (owner,k) ∈ s.refs) (usable : owner.usable p = true)
    (spare : s.spare owner k = true) (idle : s.doing p = .nothing) :
    Inv { s with refs := (fresh,k) ::ₘ s.refs.erase (owner,k) } := by
  have pos := inv.ref_pos.mpr ⟨owner,mem⟩
  have given := inv.refer (k := k) (r := (s.slot k).ref) ((fresh,k) ::ₘ s.refs.erase (owner,k))
    s.doing (fun _ => .inl pos) ?_ ?_ ?_ ?_
  · simpa using given
  · intro l
    rw [countP_cons_ref,inv.countP_erase_ref mem,inv.countP_erase_ref mem]
    split
    · simp
      omega
    · rfl
  · intro o l there
    obtain here | there := Multiset.mem_cons.mp there
    · cases here
      exact inv.inside owner k mem
    · exact inv.inside o l (Multiset.mem_of_mem_erase there)
  · exact fun l q o holder => Multiset.mem_cons_of_mem (inv.spare_mem spare holder)
  · refine fun q => .inl ⟨rfl,fun o l stage freeing => Multiset.mem_cons_of_mem ?_⟩
    have other : q ≠ p := by
      rintro rfl
      simp [idle] at freeing
    exact inv.others_mem other usable freeing

/-- The inode that `ialloc` takes is free on the disk, so no entry in use has a copy of it. -/
theorem ialloc {key : Key} {din : Dinode} (idle : s.doing p = .nothing) (unused : (s.disk key).type = 0) :
    Inv { s.setDoing p (.allocated key) with disk := update s.disk key din } := by
  have entries (q : Nat) : ((s.setDoing p (.allocated key)).doing q).entry = (s.doing q).entry := by
    obtain rfl | other := eq_or_ne q p
    · simp [idle]
    · simp [other]
  have freeing (q : Nat) {o : Owner} {l : Nat} {stage : Stage}
      (freeing : (s.setDoing p (.allocated key)).doing q = .free o l stage) : s.doing q = .free o l stage := by
    obtain rfl | other := eq_or_ne q p
    · simp at freeing
    · simpa [other] using freeing
  constructor
  case count => exact inv.count
  case inside => exact inv.inside
  case unique => exact inv.unique
  case free =>
    refine fun l unheld => ⟨(inv.free l unheld).1,fun pos => ?_⟩
    have settled := (inv.free l unheld).2 pos
    by_cases same : (s.slot l).key = key
    · exact settled.realloc (same ▸ unused)
    · simpa [same] using settled
  case held =>
    intro l q o holder
    obtain ⟨mem,usable,holds⟩ := inv.held l q o holder
    refine ⟨mem,usable,?_⟩
    have holds : ((s.setDoing p (.allocated key)).doing q).Holds o l (s.slot l) (s.disk (s.slot l).key) := by
      obtain rfl | other := eq_or_ne q p
      · rw [Doing.holds_off (by simp [idle])] at holds
        exact (Doing.holds_off (by simp)).mpr holds
      · simpa [other] using holds
    by_cases same : (s.slot l).key = key
    · exact holds.realloc (same ▸ unused)
    · simpa [same] using holds
  case entry =>
    intro q l at_l
    exact inv.entry q l ((entries q).symm.trans at_l)
  case put => exact fun q o l stage putting => inv.put q o l stage (freeing q putting)

theorem entry_ok (entry : (s.doing p).entry = some k) : ∃ o, (s.slot k).holder = some (p,o) ∧
    (∀ q o', (s.slot k).holder = some (q,o') → q = p) ∧ (s.focus p k).Ok s.refs p k := by
  obtain ⟨o,holder⟩ := inv.entry p k entry
  have mine (q : Nat) (o' : Owner) (other : (s.slot k).holder = some (q,o')) : q = p := by
    rw [holder] at other
    exact (congrArg Prod.fst (Option.some.inj other)).symm
  exact ⟨o,holder,mine,inv.focus_ok ⟨o,(inv.held k p o holder).1⟩ (.inr (.inr entry)) mine⟩

theorem locked_ok (locked : (s.focus p k).locked p = true) : s.doing p = .nothing ∧
    ∃ o, (s.slot k).holder = some (p,o) ∧ (∀ q o', (s.slot k).holder = some (q,o') → q = p) ∧
      (s.focus p k).Ok s.refs p k := by
  simp only [Local.locked,State.focus,decide_eq_true_eq,Option.map_eq_some_iff] at locked
  obtain ⟨idle,⟨q,o⟩,holder,rfl⟩ := locked
  have mine (r : Nat) (o' : Owner) (other : (s.slot k).holder = some (r,o')) : r = q := by
    rw [holder] at other
    exact (congrArg Prod.fst (Option.some.inj other)).symm
  exact ⟨idle,o,holder,mine,inv.focus_ok ⟨o,(inv.held k q o holder).1⟩ (.inl idle) mine⟩

theorem step {a : Action} (stepped : s.step a = some t) : Inv t := by
  cases step_steps stepped with
  | lookup idle found => exact inv.iget found fun q => .inl (by simp)
  | @igetNew p k key doing found =>
    refine inv.iget found fun q => ?_
    obtain rfl | other := eq_or_ne q p
    · exact .inr (by simp [doing])
    · exact .inl (by simp [other])
  | idup idle usable mem =>
    exact inv.addRef _ (inv.inside _ _ mem) (.inl (inv.ref_pos.mpr ⟨_,mem⟩)) fun q => .inl rfl
  | give idle usable mem spare => exact inv.give mem usable spare idle
  | @ilock p k _ usable mem unheld idle =>
    have on : (s.doing p).On k := idle.imp_right .inl
    exact inv.work ⟨_,mem⟩ on (by simp [unheld])
      ((inv.focus_ok ⟨_,mem⟩ on (by simp [unheld])).ilock mem usable unheld) ⟨rfl,rfl⟩
  | @dropFreed p k o doing =>
    obtain ⟨mem,own,free⟩ := inv.put p o k .drop doing
    refine inv.drop mem (o.usable_of_own own) ?_ (by simp [doing]) (by simp) ?_
    · intro l q o' holder
      obtain ⟨there,usable,_⟩ := inv.held l q o' holder
      refine (Multiset.mem_erase_of_ne ?_).mpr there
      rintro ⟨⟩
      obtain rfl : q = p := by cases o <;> simp_all
      exact free rfl o holder
    · intro q other
      simp [other,State.drop]
  | next entry did =>
    obtain ⟨o,holder,mine,ok⟩ := inv.entry_ok entry
    exact inv.work ⟨o,(inv.held _ _ o holder).1⟩ (.inr (.inr entry)) mine (ok.next entry did).1 (ok.next entry did).2
  | uses locked did =>
    obtain ⟨idle,o,holder,mine,ok⟩ := inv.locked_ok locked
    exact inv.work ⟨o,(inv.held _ _ o holder).1⟩ (.inl idle) mine (ok.uses locked did).1 (ok.uses locked did).2
  | take idle own mem frees unheld =>
    exact inv.work ⟨_,mem⟩ (.inl idle) (by simp [unheld])
      ((inv.focus_ok ⟨_,mem⟩ (.inl idle) (by simp [unheld])).take mem own unheld) ⟨rfl,rfl⟩
  | drop idle own mem spare keeps =>
    exact inv.drop mem (Owner.usable_of_own _ own) (fun l q o => inv.spare_mem spare) (by simp [idle])
      (by simpa [State.drop] using idle) (fun q _ => rfl)
  | ialloc idle unused typed => exact inv.ialloc idle unused

end

theorem init (slot : Nat → Slot) (disk : Key → Dinode) (data : Key → Bytes.Storage) :
    Inv (State.init slot disk data) := by
  constructor <;> simp [State.init]

theorem run {slot : Nat → Slot} {disk : Key → Dinode} {data : Key → Bytes.Storage} {schedule : List Action}
    (ran : Runs.run State.step (State.init slot disk data) schedule = some t) : Inv t :=
  Runs.run_invariant Inv (fun _ _ _ inv stepped => inv.step stepped) (.init slot disk data) ran

/-- As the comment of `iput` says, the last reference is not one that another thread has locked, so
`acquiresleep` does not wait. -/
theorem iput_unheld (inv : Inv s) (mem : (owner,k) ∈ s.refs) (spare : s.spare owner k = true)
    (single : (s.slot k).ref = 1) : (s.slot k).holder = none := by
  by_contra locked
  obtain ⟨⟨q,o⟩,holder⟩ := Option.ne_none_iff_exists'.mp locked
  have left := inv.countP_erase_ref mem k
  rw [if_pos rfl,single,Nat.sub_self,Multiset.countP_eq_zero] at left
  exact left _ (inv.spare_mem spare holder) (by simp)

end Inv

/-- Whatever the threads do: an inode has at most one entry in use, an entry counts the references
to it, and one in use that is valid and not locked is a copy of the inode on the disk. -/
theorem table_coherent {slot : Nat → Slot} {disk : Key → Dinode} {data : Key → Bytes.Storage}
    {schedule : List Action} {t : State} (ran : Runs.run State.step (.init slot disk data) schedule = some t) :
    (∀ k l, 0 < (t.slot k).ref → 0 < (t.slot l).ref → (t.slot k).key = (t.slot l).key → k = l) ∧
    (∀ k, (t.slot k).ref = t.refs.countP (·.2 = k)) ∧
    (∀ k, 0 < (t.slot k).ref → (t.slot k).valid = true → (t.slot k).holder = none →
      (t.slot k).din = t.disk (t.slot k).key) := by
  have inv := Inv.run ran
  exact ⟨inv.unique,inv.count,fun k pos valid unheld => ((inv.free k unheld).2 pos valid).1⟩

/-! Entries that are not in use. -/

/-- Another entry, which is not in use, is still valid for the inode of this one. -/
def State.leftover (s : State) (k : Nat) : Bool :=
  (List.range ninode).any fun l =>
    l ≠ k ∧ (s.slot l).ref = 0 ∧ (s.slot l).valid ∧ (s.slot l).key = (s.slot k).key

/-- The entry that `iupdate` writes to the disk, called by itself or by `iput`. -/
def Action.updates (s : State) : Action → Option Nat
  | .iupdate _ k => some k
  | .next p =>
    match s.doing p with
    | .free _ k .truncUpdate | .free _ k .typeUpdate => some k
    | _ => none
  | _ => none

/-- A step in which an inode is written only through the last entry that has it. -/
def State.soleStep (s : State) (a : Action) : Option State :=
  if (a.updates s).any s.leftover then none else s.step a

theorem soleStep_some {s t : State} {a : Action} (stepped : s.soleStep a = some t) :
    (∀ k, a.updates s = some k → s.leftover k = false) ∧ s.step a = some t := by
  simp only [State.soleStep,Option.ite_none_left_eq_some,Bool.not_eq_true] at stepped
  exact ⟨fun k writes => by simpa [writes] using stepped.1,stepped.2⟩

/-- What `iput` leaves in an entry. -/
def Kept (s : State) : Prop := ∀ l < ninode, (s.slot l).ref = 0 → (s.slot l).Settled (s.disk (s.slot l).key)

namespace Kept

variable {s t : State} {p k : Nat} {owner : Owner}

/-- Nothing is done with an entry that is not in use afterwards. -/
theorem mono (kept : Kept s) (disk : t.disk = s.disk) (same : ∀ l, (t.slot l).ref = 0 → t.slot l = s.slot l) :
    Kept t := by
  intro l inside unused
  rw [disk,same l unused]
  exact kept l inside (same l unused ▸ unused)

theorem enter (kept : Kept s) {key : Key} {refs : Multiset (Owner × Nat)} {doing : Nat → Doing} :
    Kept { s.enter k key with refs := refs, doing := doing } := by
  unfold State.enter
  split
  all_goals
    refine kept.mono rfl fun l unused => ?_
    obtain rfl | other := eq_or_ne l k
    · simp at unused
    · simp [other]

theorem put (kept : Kept s) {y : Local} (pos : 0 < (s.slot k).ref) (same : (s.focus p k).Same y)
    (writes : y.disk = s.disk (s.slot k).key ∨ s.leftover k = false) : Kept (s.put p k y) := by
  intro l inside unused
  have other : l ≠ k := by
    rintro rfl
    simp only [State.put,update_self] at unused
    have := same.2
    simp only [State.focus] at this
    omega
  simp only [State.put,update_of_ne other] at unused ⊢
  have before := kept l inside unused
  by_cases key : (s.slot l).key = (s.slot k).key
  · rw [key,update_self]
    obtain same | last := writes
    · rwa [same,← key]
    · intro valid
      have := List.any_eq_false.mp last l (List.mem_range.mpr inside)
      simp [other,unused,valid,key] at this
  · rwa [update_of_ne key]

/-- The last reference is put when nobody has the lock, and then the entry has the inode of the disk. -/
theorem drop (kept : Kept s) (inv : Inv s) {doing : Nat → Doing} (dropped : Inv { s.drop owner k with doing := doing })
    (mem : (owner,k) ∈ s.refs) : Kept { s.drop owner k with doing := doing } := by
  intro l inside unused
  obtain rfl | other := eq_or_ne l k
  · have unheld := dropped.unheld unused
    simp only [State.drop,State.setRef,update_self] at unheld ⊢
    exact (inv.free l unheld).2 (inv.ref_pos.mpr ⟨owner,mem⟩)
  · simp only [State.drop,State.setRef,update_of_ne other] at unused ⊢
    exact kept l inside unused

theorem next_disk {x y : Local} (did : x.next = some y) :
    y.disk = x.disk ∨ ∃ o l, x.doing = .free o l .truncUpdate ∨ x.doing = .free o l .typeUpdate := by
  unfold Local.next at did
  split at did
  case h_4 o l doing => exact .inr ⟨o,l,.inl doing⟩
  case h_6 o l doing => exact .inr ⟨o,l,.inr doing⟩
  case h_1 => split at did <;> cases did <;> exact .inl rfl
  case h_2 => exact .inl (by simp at did; simp [← did.2])
  case h_9 => cases did
  all_goals cases did; exact .inl rfl

theorem step (kept : Kept s) (inv : Inv s) {a : Action} (stepped : s.soleStep a = some t) : Kept t := by
  obtain ⟨sole,stepped⟩ := soleStep_some stepped
  have after := inv.step stepped
  cases step_steps stepped with
  | lookup idle found => exact kept.enter
  | igetNew doing found => exact kept.enter
  | @idup p k owner fresh idle usable mem =>
    refine kept.mono rfl fun l unused => ?_
    obtain rfl | other := eq_or_ne l k
    · simp at unused
    · simp [other]
  | give idle usable mem spare => exact kept
  | ilock usable mem unheld idle => exact kept.put (inv.ref_pos.mpr ⟨_,mem⟩) ⟨rfl,rfl⟩ (.inl rfl)
  | take idle own mem frees unheld => exact kept.put (inv.ref_pos.mpr ⟨_,mem⟩) ⟨rfl,rfl⟩ (.inl rfl)
  | dropFreed doing => exact kept.drop inv after (inv.put _ _ _ _ doing).1
  | drop idle own mem spare keeps => exact kept.drop inv after mem
  | @next p k y entry did =>
    obtain ⟨o,holder,_,ok⟩ := inv.entry_ok entry
    refine kept.put (inv.ref_pos.mpr ⟨o,(inv.held k p o holder).1⟩) (ok.next entry did).2 ?_
    obtain same | ⟨o,l,doing⟩ := next_disk did
    · exact .inl same
    · refine .inr (sole k ?_)
      obtain doing | doing := doing <;> change s.doing p = _ at doing
      · obtain rfl : l = k := by simpa [doing] using entry
        simp [Action.updates,doing]
      · obtain rfl : l = k := by simpa [doing] using entry
        simp [Action.updates,doing]
  | @uses p k a y locked did =>
    obtain ⟨_,o,holder,_,ok⟩ := inv.locked_ok locked
    refine kept.put (inv.ref_pos.mpr ⟨o,(inv.held k p o holder).1⟩) (ok.uses locked did).2 ?_
    cases did with
    | iupdate => exact .inr (sole k rfl)
    | change | write | iunlock => exact .inl rfl
  | @ialloc p type key idle unused typed =>
    intro l inside free
    have settled := kept l inside free
    by_cases same : (s.slot l).key = key
    · exact settled.realloc (same ▸ unused)
    · simpa [same] using settled

end Kept

/-- If an inode is not written while an entry that is not in use still has it: an inode has at most one
entry in use, an entry counts the references to it, and one that is valid and not locked, in use or not, is a
copy of the inode on the disk. -/
theorem entries_coherent {slot : Nat → Slot} {disk : Key → Dinode} {data : Key → Bytes.Storage}
    {schedule : List Action} {t : State} (invalid : ∀ k, (slot k).valid = false)
    (ran : Runs.run State.soleStep (.init slot disk data) schedule = some t) :
    (∀ k l, 0 < (t.slot k).ref → 0 < (t.slot l).ref → (t.slot k).key = (t.slot l).key → k = l) ∧
    (∀ k, (t.slot k).ref = t.refs.countP (·.2 = k)) ∧
    (∀ k < ninode, (t.slot k).valid = true → (t.slot k).holder = none → (t.slot k).din = t.disk (t.slot k).key) := by
  have start : Kept (State.init slot disk data) := by
    intro l _ _ valid
    simp [State.init,invalid] at valid
  obtain ⟨unique,count,copies⟩ := table_coherent (Runs.run_mono (fun _ _ _ stepped => (soleStep_some stepped).2) ran)
  have kept := (Runs.run_invariant (fun t => Inv t ∧ Kept t)
    (fun s a t both stepped => ⟨both.1.step (soleStep_some stepped).2,both.2.step both.1 stepped⟩)
    ⟨.init slot disk data,start⟩ ran).2
  refine ⟨unique,count,fun k inside valid unheld => ?_⟩
  obtain unused | pos := Nat.eq_zero_or_pos (t.slot k).ref
  · exact (kept k inside unused valid).1
  · exact copies k pos valid unheld

/-- A table as `iinit` leaves it and a disk with files of one link. -/
def clear : State :=
  .init (fun _ => ⟨(0,0),0,false,none,.blank 0,false⟩) (fun _ => { Dinode.blank 2 with nlink := 1 }) fun _ _ => 0

def openRead (p k : Nat) (key : Key) : List Action := [.iget p key,.ilock p (.thread p) k,.next p,.next p]

def relink (p k nlink : Nat) : List Action :=
  [.change p k { Dinode.blank 2 with nlink := nlink },.iupdate p k]

/-- `iput` frees an inode that another thread allocates before it drops its reference; then that one puts
its reference, and the entry stays valid. -/
def reuse : List Action :=
  openRead 0 0 (1,5) ++ relink 0 0 0 ++ ([.iunlock 0 0,.iput 0 (.thread 0) 0,.next 0,.next 0,.next 0,.next 0,
    .ialloc 1 (1,5) 2,.iget 1 (1,5),.next 0,.next 0,.ilock 1 (.thread 1) 0,.next 0,.next 1,.next 1] : List Action) ++
    relink 1 0 1 ++ [Action.iunlock 1 0,.iput 1 (.thread 1) 0]

theorem reuse_coherent : ∃ t, Runs.run State.soleStep clear reuse = some t ∧
    ((t.slot 0).ref,(t.slot 0).valid,(t.slot 0).holder,(t.slot 0).din.nlink) = (0,true,none,1) ∧
    (t.slot 0).ref = t.refs.countP (·.2 = 0) ∧ (t.slot 0).din = t.disk (t.slot 0).key := by
  refine Runs.reaches
    (fun t => ((t.slot 0).ref,(t.slot 0).valid,(t.slot 0).holder,(t.slot 0).din.nlink) = (0,true,none,1))
    (by decide +kernel) fun t ran same => ?_
  obtain ⟨_,counts,copies⟩ := entries_coherent (fun _ => rfl) ran
  have seen := same
  simp only [Prod.mk.injEq] at seen
  exact ⟨same,counts 0,copies 0 (by decide) seen.2.1 seen.2.2.1⟩

/-- An entry that is no longer in use stays valid; the inode is read into another one and changed there. -/
def reopen : List Action :=
  [Action.iget 0 (1,5)] ++ openRead 0 1 (1,7) ++ ([.iunlock 0 1,.iput 0 (.thread 0) 0,.iput 0 (.thread 0) 1] :
    List Action) ++
    openRead 0 0 (1,7) ++ relink 0 0 2 ++ [Action.iunlock 0 0]

theorem stale_entry : ∃ t, Runs.run State.step clear reopen = some t ∧ (t.slot 1).valid = true ∧
    (t.slot 1).holder = none ∧ (t.slot 1).din.nlink ≠ (t.disk (t.slot 1).key).nlink :=
  Runs.ends (by decide +kernel)

end Xv6.Itable
