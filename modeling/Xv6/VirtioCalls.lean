import Xv6.Virtio

/-! Every descriptor in use belongs to one caller: what memory shows of a caller at each place in
`virtio_disk_rw`, the invariant, and that the steps of the callers keep it. -/
namespace Xv6.Virtio

open Function

def Pc.request : Pc → Option Request
  | .idle => none
  | .acquire r | .alloc r | .wait r | .header r _ | .data r _ | .status r _ | .record r _ | .ring r _ | .post r _
  | .test r _ | .sleep r _ | .clear r _ | .free r _ _ | .release r => some r

/-- A caller at such a place holds `vdisk_lock`. -/
def Pc.locked : Pc → Bool
  | .idle | .acquire _ | .wait _ | .sleep _ _ => false
  | _ => true

def Intr.locked : Intr → Bool
  | .test | .handle | .release => true
  | .idle | .acquire => false

def Chain.descs (c : Chain) : List Nat := [c.head,c.data,c.status]

/-- The descriptors that belong to a caller: its chain, and what is left of it in `free_chain`. -/
def Pc.descs : Pc → List Nat
  | .header _ c | .data _ c | .status _ c | .record _ c | .ring _ c | .post _ c | .test _ c | .sleep _ c
  | .clear _ c => c.descs
  | .free _ c i => c.descs.dropWhile (· ≠ i)
  | _ => []

@[simp] def Pc.built : Pc → List (Nat × Desc)
  | .data r c => [(c.head,r.headDesc c)]
  | .status r c => [(c.head,r.headDesc c),(c.data,r.dataDesc c)]
  | .record r c | .ring r c | .post r c | .test r c | .sleep r c | .clear r c =>
    [(c.head,r.headDesc c),(c.data,r.dataDesc c),(c.status,r.statusDesc c)]
  | .free r c i => [(c.head,r.headDesc c),(c.data,r.dataDesc c),(c.status,r.statusDesc c)].dropWhile (·.1 ≠ i)
  | _ => []

/-- A caller whose command is in `disk.ops`. -/
@[simp] def Pc.headed : Pc → Option (Request × Chain)
  | .data r c | .status r c | .record r c | .ring r c | .post r c | .test r c | .sleep r c | .clear r c => some (r,c)
  | _ => none

/-- A caller whose buffer is in `disk.info`. -/
@[simp] def Pc.recorded : Pc → Option (Request × Chain)
  | .ring r c | .post r c | .test r c | .sleep r c | .clear r c => some (r,c)
  | _ => none

/-- A caller whose request has been posted and not collected. -/
def Pc.flight : Pc → Option (Request × Chain)
  | .test r c | .sleep r c | .clear r c => some (r,c)
  | _ => none

variable {s t : State} {p q h : Nat} {pc : Pc} {r : Request} {c : Chain}

theorem Pc.flight_recorded (flight : pc.flight = some (r,c)) : pc.recorded = some (r,c) := by
  cases pc <;> simp_all [Pc.flight]

theorem Pc.recorded_headed (recorded : pc.recorded = some (r,c)) : pc.headed = some (r,c) := by
  cases pc <;> simp_all

theorem Pc.headed_descs (headed : pc.headed = some (r,c)) : pc.descs = c.descs ∧ pc.request = some r := by
  cases pc <;> simp_all [Pc.descs,Pc.request]

theorem Pc.flight_descs (flight : pc.flight = some (r,c)) : pc.descs = c.descs :=
  (Pc.headed_descs (Pc.recorded_headed (Pc.flight_recorded flight))).1

theorem Pc.flight_request (flight : pc.flight = some (r,c)) : pc.request = some r :=
  (Pc.headed_descs (Pc.recorded_headed (Pc.flight_recorded flight))).2

theorem Pc.flight_built (flight : pc.flight = some (r,c)) :
    pc.built = [(c.head,r.headDesc c),(c.data,r.dataDesc c),(c.status,r.statusDesc c)] := by
  cases pc <;> simp_all [Pc.flight]

theorem Pc.built_descs {x : Nat × Desc} (built : x ∈ pc.built) : x.1 ∈ pc.descs := by
  cases pc with
  | free r c i =>
    have all : c.descs = [(c.head,r.headDesc c),(c.data,r.dataDesc c),(c.status,r.statusDesc c)].map Prod.fst := rfl
    rw [Pc.descs,all,List.dropWhile_map]
    exact List.mem_map_of_mem built
  | _ => simp [Pc.descs,Chain.descs] at built ⊢ <;> grind

namespace State

/-- The heads in the available ring that the device has not taken. -/
def queue (s : State) : List Nat := Rings.entries num s.disk.ring s.taken s.disk.availIdx

/-- The heads in the used ring that the handler has not dealt with. -/
def backlog (s : State) : List Nat := Rings.entries num s.disk.used s.disk.usedIdx s.disk.doneIdx

/-- The heads that the device has answered and the handler has not dealt with. -/
def done (s : State) : List Nat := s.answered ++ (s.entering.toList ++ s.backlog)

/-- The heads on their way through the rings and the device. -/
def pending (s : State) : List Nat := s.queue ++ (s.working ++ s.done)

/-- What the handler will record of a head. -/
def entry (s : State) (h : Nat) : Nat × Addr := (s.serial h,.data ((s.disk.info h).b.getD 0))

/-- The caller waits for the completion of a request with this head. -/
def Flies (s : State) (p h : Nat) : Prop :=
  ∃ r c, (s.caller p).flight = some (r,c) ∧ c.head = h ∧ s.flag r.buf = true

/-- What the disk's memory has on the descriptor `i` is the same. -/
structure Same (s t : State) (i : Nat) : Prop where
  desc : t.disk.desc i = s.disk.desc i
  ops : t.disk.ops i = s.disk.ops i
  info : t.disk.info i = s.disk.info i
  serial : t.serial i = s.serial i

theorem Same.entry {i : Nat} (same : s.Same t i) : t.entry i = s.entry i := by
  simp [State.entry,same.info,same.serial]

end State

structure Shows (s : State) (pc : Pc) : Prop where
  built : ∀ x ∈ pc.built, s.disk.desc x.1 = x.2
  ops : ∀ r c, pc.headed = some (r,c) → s.disk.ops c.head = r.header
  info : ∀ r c, pc.recorded = some (r,c) → (s.disk.info c.head).b = some r.buf
  serial : ∀ r c, pc.flight = some (r,c) → s.posted[s.serial c.head]? = some r
  up : ∀ r c, pc = .ring r c ∨ pc = .post r c → s.flag r.buf = true
  down : ∀ r c, pc = .clear r c → s.flag r.buf = false
  rung : ∀ r c, pc = .post r c → s.disk.ring (s.disk.availIdx.toNat % num) = c.head
  walks : ∀ r c i, pc = .free r c i → i ∈ c.descs ∧ c.descs.Nodup

structure Inv (s : State) : Prop where
  running : s.panicked = none
  callers : ∀ p, (s.caller p).locked = true → s.lock = some (.caller p)
  handlers : ∀ cpu, (s.handler cpu).locked = true → s.lock = some (.handler cpu)
  owns : ∀ p r, (s.caller p).request = some r → s.owner r.buf = some p
  nodup : ∀ p, (s.caller p).descs.Nodup
  used : ∀ p, ∀ i ∈ (s.caller p).descs, i < num ∧ s.disk.free i = false
  apart : ∀ p q i, i ∈ (s.caller p).descs → i ∈ (s.caller q).descs → p = q
  covered : ∀ i < num, s.disk.free i = false → ∃ p, i ∈ (s.caller p).descs
  shows : ∀ p, Shows s (s.caller p)
  different : s.pending.Nodup
  flight : ∀ h, h ∈ s.pending ↔ ∃ p, s.Flies p h
  status : ∀ h ∈ s.done, (s.disk.info h).status = 0
  entered : ∀ h ∈ s.entering, s.disk.used (s.disk.doneIdx.toNat % num) = h
  handling : ∀ cpu, s.handler cpu = .handle → s.backlog ≠ []
  record : s.completed = s.cleared ++ s.backlog.map s.entry
  once : (s.cleared.map Prod.fst ++ s.pending.map s.serial).Nodup
  known : ∀ x ∈ s.completed, ∃ r, s.posted[x.1]? = some r ∧ x.2 = .data r.buf
  returned : ∀ p r c, (s.caller p).flight = some (r,c) → s.flag r.buf = false →
    s.serial c.head ∈ s.cleared.map Prod.fst

theorem State.Flies.mem_descs (flies : s.Flies p h) : h ∈ (s.caller p).descs := by
  obtain ⟨r,c,flight,rfl,-⟩ := flies
  simp [Pc.flight_descs flight,Chain.descs]

theorem Inv.flies (inv : Inv s) (pending : h ∈ s.pending) (own : h ∈ (s.caller p).descs) : s.Flies p h := by
  obtain ⟨q,flies⟩ := (inv.flight h).mp pending
  exact inv.apart q p h flies.mem_descs own ▸ flies

theorem Inv.pending_used (inv : Inv s) (pending : h ∈ s.pending) : h < num ∧ s.disk.free h = false := by
  obtain ⟨q,flies⟩ := (inv.flight h).mp pending
  exact inv.used q h flies.mem_descs

theorem Inv.serial_lt (inv : Inv s) (pending : h ∈ s.pending) : s.serial h < s.posted.length := by
  obtain ⟨q,r,c,flight,rfl,-⟩ := (inv.flight h).mp pending
  exact (List.getElem?_eq_some_iff.mp ((inv.shows q).serial r c flight)).1

theorem Inv.cleared_lt (inv : Inv s) {x : Nat × Addr} (cleared : x ∈ s.cleared) : x.1 < s.posted.length := by
  obtain ⟨r,posted,-⟩ := inv.known x (by rw [inv.record]; exact List.mem_append_left _ cleared)
  exact (List.getElem?_eq_some_iff.mp posted).1

theorem backlog_pending (member : h ∈ s.backlog) : h ∈ s.pending := by simp [State.pending,State.done,member]

theorem done_pending (member : h ∈ s.done) : h ∈ s.pending := by simp [State.pending,member]

theorem posted_mono {n : Nat} (grows : s.posted <+: t.posted) (posted : s.posted[n]? = some r) :
    t.posted[n]? = some r := by
  obtain ⟨rest,grows⟩ := grows
  obtain ⟨below,-⟩ := List.getElem?_eq_some_iff.mp posted
  rw [← grows,List.getElem?_append_left below,posted]

theorem Shows.congr (shows : Shows s pc) (same : ∀ i ∈ pc.descs, s.Same t i) (posted : s.posted <+: t.posted)
    (locked : pc.locked = true →
      t.flag = s.flag ∧ t.disk.ring = s.disk.ring ∧ t.disk.availIdx = s.disk.availIdx) : Shows t pc := by
  have head : ∀ r c, pc.headed = some (r,c) → s.Same t c.head := by
    intro r c headed
    exact same c.head (by simp [(Pc.headed_descs headed).1,Chain.descs])
  refine ⟨?_,?_,?_,?_,?_,?_,?_,shows.walks⟩
  · intro x built
    rw [(same x.1 (Pc.built_descs built)).desc,shows.built x built]
  · intro r c headed
    rw [(head r c headed).ops,shows.ops r c headed]
  · intro r c recorded
    rw [(head r c (Pc.recorded_headed recorded)).info,shows.info r c recorded]
  · intro r c flight
    rw [(head r c (Pc.recorded_headed (Pc.flight_recorded flight))).serial]
    exact posted_mono posted (shows.serial r c flight)
  · intro r c place
    rw [(locked (by rcases place with rfl | rfl <;> rfl)).1]
    exact shows.up r c place
  · intro r c place
    rw [(locked (by rw [place]; rfl)).1]
    exact shows.down r c place
  · intro r c place
    obtain ⟨-,ring,index⟩ := locked (by rw [place]; rfl)
    rw [ring,index]
    exact shows.rung r c place

/-- A step of the caller `p` to `pc`, by which the heads in `new` are posted. -/
structure Move (s t : State) (p : Nat) (pc : Pc) (new : Option Nat) : Prop where
  callers : t.caller = update s.caller p pc
  handlers : t.handler = s.handler
  running : t.panicked = s.panicked
  device : t.working = s.working ∧ t.answered = s.answered ∧ t.entering = s.entering
  used : t.disk.used = s.disk.used ∧ t.disk.usedIdx = s.disk.usedIdx ∧ t.disk.doneIdx = s.disk.doneIdx
  records : t.cleared = s.cleared ∧ t.completed = s.completed
  queue : t.queue = s.queue ++ new.toList
  locked : pc.locked = true → t.lock = some (.caller p)
  lock : t.lock = s.lock ∨ s.lock = none ∨ s.lock = some (.caller p)
  request : ∀ r, pc.request = some r → t.owner r.buf = some p
  owner : ∀ q ≠ p, ∀ b, s.owner b = some q → t.owner b = some q
  nodup : pc.descs.Nodup
  descs : ∀ i ∈ pc.descs, i < num ∧ t.disk.free i = false ∧ (i ∈ (s.caller p).descs ∨ s.disk.free i = true)
  free : ∀ i, i ∉ (s.caller p).descs → i ∉ pc.descs → t.disk.free i = s.disk.free i
  freed : ∀ i ∈ (s.caller p).descs, i ∉ pc.descs → t.disk.free i = true
  cells : ∀ i, i ∉ (s.caller p).descs → s.disk.free i = false → s.Same t i
  quiet : ∀ h, s.Flies p h → ∀ i, s.Same t i
  posted : s.posted <+: t.posted
  shows : Shows t pc
  guarded : s.lock = some (.caller p) ∨
    t.flag = s.flag ∧ t.disk.ring = s.disk.ring ∧ t.disk.availIdx = s.disk.availIdx
  flags : ∀ b, s.owner b ≠ some p → t.flag b = s.flag b
  raised : ∀ b, s.flag b = true → t.flag b = true
  flies : ∀ h, t.Flies p h ↔ s.Flies p h ∨ h ∈ new
  fresh : ∀ h ∈ new, h ∈ (s.caller p).descs ∧ ¬s.Flies p h ∧ t.serial h = s.posted.length
  returned : ∀ r c, pc.flight = some (r,c) → t.flag r.buf = false → t.serial c.head ∈ s.cleared.map Prod.fst

namespace Move

variable {new : Option Nat}

section

variable (move : Move s t p pc new)
include move

theorem caller_self : t.caller p = pc := by rw [move.callers,update_self]

theorem caller_other (other : q ≠ p) : t.caller q = s.caller q := by
  rw [move.callers,update_of_ne other]

theorem backlog : t.backlog = s.backlog := by
  obtain ⟨used,first,last⟩ := move.used
  rw [State.backlog,used,first,last,State.backlog]

theorem done : t.done = s.done := by
  obtain ⟨-,answered,entering⟩ := move.device
  rw [State.done,answered,entering,move.backlog,State.done]

theorem pending : t.pending.Perm (new.toList ++ s.pending) := by
  rw [State.pending,move.queue,move.device.1,move.done,State.pending,← List.append_assoc new.toList]
  exact List.perm_append_comm.append_right _

theorem same_other (inv : Inv s) (other : q ≠ p) {i : Nat} (own : i ∈ (s.caller q).descs) : s.Same t i :=
  move.cells i (fun mine => other (inv.apart q p i own mine)) (inv.used q i own).2

theorem same_pending (inv : Inv s) (pending : h ∈ s.pending) : s.Same t h := by
  obtain ⟨q,flies⟩ := (inv.flight h).mp pending
  by_cases self : q = p
  · exact move.quiet h (self ▸ flies) h
  · exact move.same_other inv self flies.mem_descs

theorem flag_other (inv : Inv s) (other : q ≠ p) (request : (s.caller q).request = some r) :
    t.flag r.buf = s.flag r.buf := by
  apply move.flags
  rw [inv.owns q r request]
  simpa using other

theorem flies_other (inv : Inv s) (other : q ≠ p) : t.Flies q h ↔ s.Flies q h := by
  simp only [State.Flies,move.caller_other other]
  constructor
  all_goals
    rintro ⟨r,c,flight,head,flag⟩
    have same := move.flag_other inv other (Pc.flight_request flight)
    exact ⟨r,c,flight,head,by simpa [same] using flag⟩

theorem locks (inv : Inv s) : (∀ q, (t.caller q).locked = true → t.lock = some (.caller q)) ∧
      ∀ cpu, (t.handler cpu).locked = true → t.lock = some (.handler cpu) := by
  constructor
  · intro q locked
    by_cases self : q = p
    · subst q
      exact move.locked (by rwa [move.caller_self] at locked)
    · rw [move.caller_other self] at locked
      have held := inv.callers q locked
      rcases move.lock with same | open_ | mine
      · rw [same,held]
      · simp [held] at open_
      · simp [held,self] at mine
  · intro cpu locked
    rw [move.handlers] at locked
    have held := inv.handlers cpu locked
    rcases move.lock with same | open_ | mine
    · rw [same,held]
    · simp [held] at open_
    · simp [held] at mine

theorem table (inv : Inv s) : (∀ q, ∀ i ∈ (t.caller q).descs, i < num ∧ t.disk.free i = false) ∧
      (∀ q q' i, i ∈ (t.caller q).descs → i ∈ (t.caller q').descs → q = q') ∧
      ∀ i < num, t.disk.free i = false → ∃ q, i ∈ (t.caller q).descs := by
  have apart : ∀ q i, q ≠ p → i ∈ (s.caller q).descs → i ∉ (s.caller p).descs ∧ i ∉ pc.descs := by
    intro q i other own
    have foreign : i ∉ (s.caller p).descs := fun mine => other (inv.apart q p i own mine)
    refine ⟨foreign,fun mine => ?_⟩
    obtain ⟨-,-,old | free⟩ := move.descs i mine
    · exact foreign old
    · simp [(inv.used q i own).2] at free
  refine ⟨?_,?_,?_⟩
  · intro q i own
    by_cases self : q = p
    · subst q
      rw [move.caller_self] at own
      exact ⟨(move.descs i own).1,(move.descs i own).2.1⟩
    · rw [move.caller_other self] at own
      obtain ⟨foreign,unheld⟩ := apart q i self own
      rw [move.free i foreign unheld]
      exact inv.used q i own
  · intro q q' i own own'
    by_cases self : q = p <;> by_cases self' : q' = p
    · rw [self,self']
    · rw [self,move.caller_self] at own
      rw [move.caller_other self'] at own'
      exact absurd own (apart q' i self' own').2
    · rw [self',move.caller_self] at own'
      rw [move.caller_other self] at own
      exact absurd own' (apart q i self own).2
    · rw [move.caller_other self] at own
      rw [move.caller_other self'] at own'
      exact inv.apart q q' i own own'
  · intro i below taken
    by_cases held : i ∈ pc.descs
    · exact ⟨p,by rwa [move.caller_self]⟩
    · have foreign : i ∉ (s.caller p).descs := fun mine => by simp [move.freed i mine held] at taken
      rw [move.free i foreign held] at taken
      obtain ⟨q,own⟩ := inv.covered i below taken
      have other : q ≠ p := fun self => foreign (self ▸ own)
      exact ⟨q,by rwa [move.caller_other other]⟩

theorem inv (inv : Inv s) : Inv t := by
  obtain ⟨callers,handlers⟩ := move.locks inv
  obtain ⟨used,apart,covered⟩ := move.table inv
  obtain ⟨cleared,completed⟩ := move.records
  have outside : ∀ h ∈ new, h ∉ s.pending := fun h member pending =>
    (move.fresh h member).2.1 (inv.flies pending (move.fresh h member).1)
  have serials : s.pending.map t.serial = s.pending.map s.serial :=
    List.map_congr_left fun h member => (move.same_pending inv member).serial
  refine
    { running := move.running.trans inv.running
      callers := callers
      handlers := handlers
      owns := ?_
      nodup := ?_
      used := used
      apart := apart
      covered := covered
      shows := ?_
      different := ?_
      flight := ?_
      status := ?_
      entered := ?_
      handling := by rw [move.handlers,move.backlog]; exact inv.handling
      record := ?_
      once := ?_
      known := ?_
      returned := ?_ }
  · intro q r request
    by_cases self : q = p
    · subst q
      exact move.request r (by rwa [move.caller_self] at request)
    · rw [move.caller_other self] at request
      exact move.owner q self r.buf (inv.owns q r request)
  · intro q
    by_cases self : q = p
    · subst q
      rw [move.caller_self]
      exact move.nodup
    · rw [move.caller_other self]
      exact inv.nodup q
  · intro q
    by_cases self : q = p
    · subst q
      rw [move.caller_self]
      exact move.shows
    · rw [move.caller_other self]
      refine (inv.shows q).congr (fun i own => move.same_other inv self own) move.posted fun locked => ?_
      rcases move.guarded with mine | same
      · have := inv.callers q locked
        simp [mine,Ne.symm self] at this
      · exact same
  · rw [move.pending.nodup_iff,List.nodup_append]
    refine ⟨by cases new <;> simp,inv.different,?_⟩
    rintro h member _ pending rfl
    exact outside h (by simpa using member) pending
  · intro h
    rw [move.pending.mem_iff,List.mem_append,inv.flight h]
    constructor
    · rintro (member | ⟨q,flies⟩)
      · exact ⟨p,(move.flies h).mpr (.inr (by simpa using member))⟩
      · by_cases self : q = p
        · exact ⟨p,(move.flies h).mpr (.inl (self ▸ flies))⟩
        · exact ⟨q,(move.flies_other inv self).mpr flies⟩
    · rintro ⟨q,flies⟩
      by_cases self : q = p
      · rcases (move.flies h).mp (self ▸ flies) with before | member
        · exact .inr ⟨p,before⟩
        · exact .inl (by simpa using member)
      · exact .inr ⟨q,(move.flies_other inv self).mp flies⟩
  · intro h member
    rw [move.done] at member
    rw [(move.same_pending inv (done_pending member)).info]
    exact inv.status h member
  · intro h member
    rw [move.device.2.2] at member
    rw [move.used.1,move.used.2.2]
    exact inv.entered h member
  · rw [completed,inv.record,cleared,move.backlog]
    congr 1
    exact List.map_congr_left fun h member => (move.same_pending inv (backlog_pending member)).entry.symm
  · rw [cleared]
    have perm : (s.cleared.map Prod.fst ++ t.pending.map t.serial).Perm
        ((new.toList.map t.serial) ++ (s.cleared.map Prod.fst ++ s.pending.map s.serial)) := by
      rw [← serials,← List.append_assoc]
      refine ((move.pending.map t.serial).append_left _).trans ?_
      rw [List.map_append,← List.append_assoc]
      exact List.perm_append_comm.append_right _
    rw [perm.nodup_iff,List.nodup_append]
    refine ⟨by cases new <;> simp,inv.once,?_⟩
    intro n member m old same
    obtain ⟨h,fresh,rfl⟩ := List.mem_map.mp member
    have number := (move.fresh h (by simpa using fresh)).2.2
    rcases List.mem_append.mp old with cleared | pending
    · obtain ⟨x,member,rfl⟩ := List.mem_map.mp cleared
      have := inv.cleared_lt member
      omega
    · obtain ⟨h',member,rfl⟩ := List.mem_map.mp pending
      have := inv.serial_lt member
      omega
  · intro x member
    rw [completed] at member
    obtain ⟨r,posted,addr⟩ := inv.known x member
    exact ⟨r,posted_mono move.posted posted,addr⟩
  · intro q r c flight flag
    rw [cleared]
    by_cases self : q = p
    · subst q
      exact move.returned r c (by rwa [move.caller_self] at flight) flag
    · rw [move.caller_other self] at flight
      rw [move.flag_other inv self (Pc.flight_request flight)] at flag
      rw [(move.same_other inv self (i := c.head) (by simp [Pc.flight_descs flight,Chain.descs])).serial]
      exact inv.returned q r c flight flag

end

end Move

theorem allocDesc_some {disk : Disk} {i : Nat} {disk' : Disk} (found : allocDesc disk = some (i,disk')) :
    i < num ∧ disk.free i = true ∧ disk' = { disk with free := update disk.free i false } := by
  obtain ⟨k,search,same⟩ := Option.map_eq_some_iff.mp found
  cases same
  exact ⟨List.mem_range.mp (List.mem_of_find?_eq_some search),List.find?_some search,rfl⟩

theorem freeDesc_ok {disk : Disk} {i : Nat} (below : i < num) (taken : disk.free i = false) : freeDesc disk i = .ok
      { disk with
        desc := update disk.desc i ⟨.null,0,0,0⟩
        free := update disk.free i true } := by
  simp [freeDesc,taken,show ¬num ≤ i by omega]

/-- `alloc3_desc` has three free descriptors, or leaves the map of the free ones and what is in the
others as it was; the calls of `free_desc` in it do not panic. -/
theorem alloc3Desc_cases (disk : Disk) :
    (∃ c, alloc3Desc disk = .ok (some c,{ disk with free := fun i => decide (i ∉ c.descs) && disk.free i }) ∧
        c.descs.Nodup ∧ ∀ i ∈ c.descs, i < num ∧ disk.free i = true) ∨
      ∃ desc, alloc3Desc disk = .ok (none,{ disk with desc := desc }) ∧
        ∀ i, disk.free i = false → desc i = disk.desc i := by
  unfold alloc3Desc
  cases first : allocDesc disk with
  | none => exact .inr ⟨disk.desc,rfl,fun _ _ => rfl⟩
  | some found =>
    obtain ⟨i,disk1⟩ := found
    obtain ⟨iBelow,iFree,rfl⟩ := allocDesc_some first
    dsimp only
    cases second : allocDesc { disk with free := update disk.free i false } with
    | none =>
      refine .inr ⟨update disk.desc i ⟨.null,0,0,0⟩,?_,?_⟩
      · dsimp only
        rw [freeDesc_ok iBelow (by simp)]
        simp only [Except.bind,bind]
        simp [← iFree]
      · intro k taken
        exact update_of_ne (by rintro rfl; simp [iFree] at taken) _ _
    | some found =>
      obtain ⟨j,disk2⟩ := found
      obtain ⟨jBelow,jFree,rfl⟩ := allocDesc_some second
      have ij : j ≠ i := by rintro rfl; simp at jFree
      have jFree' : disk.free j = true := by simpa [ij] using jFree
      dsimp only
      cases third : allocDesc { disk with free := update (update disk.free i false) j false } with
      | none =>
        refine .inr ⟨update (update disk.desc i ⟨.null,0,0,0⟩) j ⟨.null,0,0,0⟩,?_,?_⟩
        · dsimp only
          rw [freeDesc_ok iBelow (by simp [ij.symm])]
          simp only [Except.bind,bind]
          rw [freeDesc_ok jBelow (by simp [ij])]
          simp only
          congr 3
          funext k
          by_cases kj : k = j <;> by_cases ki : k = i <;> simp_all
        · intro k taken
          rw [update_of_ne (by rintro rfl; simp [jFree'] at taken),
            update_of_ne (by rintro rfl; simp [iFree] at taken)]
      | some found =>
        obtain ⟨k,disk3⟩ := found
        obtain ⟨kBelow,kFree,rfl⟩ := allocDesc_some third
        have kj : k ≠ j := by rintro rfl; simp at kFree
        have ki : k ≠ i := by rintro rfl; simp [kj] at kFree
        have kFree' : disk.free k = true := by simpa [kj,ki] using kFree
        refine .inl ⟨⟨i,j,k⟩,?_,by simp [Chain.descs,ij.symm,ki.symm,kj.symm],?_⟩
        · dsimp only
          congr 3
          funext x
          simp only [Chain.descs,update_apply]
          by_cases xi : x = i <;> by_cases xj : x = j <;> by_cases xk : x = k <;> simp_all
        · intro x member
          simp only [Chain.descs,List.mem_cons,List.not_mem_nil,or_false] at member
          rcases member with rfl | rfl | rfl
          · exact ⟨iBelow,iFree⟩
          · exact ⟨jBelow,jFree'⟩
          · exact ⟨kBelow,kFree'⟩

theorem Inv.locked_of (inv : Inv s) {old : Pc} (place : s.caller p = old) (locked : old.locked = true) :
    s.lock = some (.caller p) :=
  inv.callers p (place ▸ locked)

theorem Inv.shows_of (inv : Inv s) {old : Pc} (place : s.caller p = old) : Shows s old := place ▸ inv.shows p

theorem Inv.nodup_of (inv : Inv s) {old : Pc} (place : s.caller p = old) : old.descs.Nodup := place ▸ inv.nodup p

theorem Inv.used_of (inv : Inv s) (descs : pc.descs = (s.caller p).descs) (i : Nat) (own : i ∈ pc.descs) :
    i < num ∧ s.disk.free i = false ∧ (i ∈ (s.caller p).descs ∨ s.disk.free i = true) := by
  rw [descs] at own
  exact ⟨(inv.used p i own).1,(inv.used p i own).2,.inl own⟩

theorem not_flies {old : Pc} (place : s.caller p = old) (grounded : old.flight = none) : ¬s.Flies p h := by
  rintro ⟨r,c,flight,-⟩
  simp [place,grounded] at flight

/-- A step that writes neither to the rings nor to a flag, and posts and collects nothing. -/
theorem Inv.pass (inv : Inv s) {desc : Nat → Desc} {free : Nat → Bool} {lock : Option Holder} {owner : Nat → Option Nat}
    (flight : pc.flight = (s.caller p).flight) (still : ∀ h, s.Flies p h → desc = s.disk.desc)
    (locked : pc.locked = true → lock = some (.caller p)) (held : lock = s.lock ∨ s.lock = none ∨
      s.lock = some (.caller p))
    (request : ∀ r, pc.request = some r → owner r.buf = some p)
    (owners : ∀ q ≠ p, ∀ b, s.owner b = some q → owner b = some q) (nodup : pc.descs.Nodup)
    (descs : ∀ i ∈ pc.descs, i < num ∧ free i = false ∧ (i ∈ (s.caller p).descs ∨ s.disk.free i = true))
    (kept : ∀ i, i ∉ (s.caller p).descs → i ∉ pc.descs → free i = s.disk.free i)
    (freed : ∀ i ∈ (s.caller p).descs, i ∉ pc.descs → free i = true)
    (cells : ∀ i, i ∉ (s.caller p).descs → s.disk.free i = false → desc i = s.disk.desc i)
    (shows : Shows { s with disk := { s.disk with desc, free } } pc) :
    Move s ({ s with lock, owner, disk := { s.disk with desc, free } }.setCaller p pc) p pc none where
  callers := rfl
  handlers := rfl
  running := rfl
  device := ⟨rfl,rfl,rfl⟩
  used := ⟨rfl,rfl,rfl⟩
  records := ⟨rfl,rfl⟩
  queue := (List.append_nil _).symm
  locked := locked
  lock := held
  request := request
  owner := owners
  nodup := nodup
  descs := descs
  free := kept
  freed := freed
  cells i foreign taken := ⟨cells i foreign taken,rfl,rfl,rfl⟩
  quiet h flies i := ⟨congrFun (still h flies) i,rfl,rfl,rfl⟩
  posted := List.prefix_rfl
  shows := ⟨shows.built,shows.ops,shows.info,shows.serial,shows.up,shows.down,shows.rung,shows.walks⟩
  guarded := .inr ⟨rfl,rfl,rfl⟩
  flags _ _ := rfl
  raised _ raised := raised
  flies h := by simp [State.Flies,flight]
  fresh := nofun
  returned r c mine := inv.returned p r c (flight ▸ mine)

/-- A step that only takes or gives up the lock and goes on. -/
theorem Inv.turn (inv : Inv s) {old : Pc} (place : s.caller p = old) {lock : Option Holder}
    (before : s.lock = none ∨ s.lock = some (.caller p)) (locked : pc.locked = true → lock = some (.caller p))
    (descs : pc.descs = old.descs) (request : pc.request = old.request) (flight : pc.flight = old.flight)
    (shows : Shows s pc) : Move s ({ s with lock := lock }.setCaller p pc) p pc none := by
  subst place
  exact inv.pass flight (fun _ _ => rfl) locked (.inr before) (fun r mine => inv.owns p r (request ▸ mine))
    (fun _ _ _ => id) (descs ▸ inv.nodup p) (inv.used_of descs) (fun _ _ _ => rfl)
    (fun i own gone => absurd (descs ▸ own) gone) (fun _ _ _ => rfl) shows

/-- A step under the lock that only writes into the caller's own descriptors and its own buffer. -/
theorem Inv.write (inv : Inv s) {old : Pc} (place : s.caller p = old) (before : old.locked = true)
    {disk : Disk} {flag : Nat → Bool}
    (used : disk.used = s.disk.used ∧ disk.usedIdx = s.disk.usedIdx ∧ disk.doneIdx = s.disk.doneIdx)
    (free : disk.free = s.disk.free)
    (queue : Rings.entries num disk.ring s.taken disk.availIdx = s.queue)
    (descs : pc.descs = old.descs) (request : pc.request = old.request)
    (grounded : old.flight = none) (grounded' : pc.flight = none)
    (cells : ∀ i ∉ old.descs, disk.desc i = s.disk.desc i ∧ disk.ops i = s.disk.ops i ∧ disk.info i = s.disk.info i)
    (flags : ∀ b, s.owner b ≠ some p → flag b = s.flag b) (raised : ∀ b, s.flag b = true → flag b = true)
    (shows : Shows { s with disk := disk, flag := flag } pc) :
    Move s ({ s with disk := disk, flag := flag }.setCaller p pc) p pc none := by
  subst place
  refine
    { callers := rfl, handlers := rfl, running := rfl, device := ⟨rfl,rfl,rfl⟩, records := ⟨rfl,rfl⟩
      owner := fun _ _ _ owner => owner, posted := List.prefix_rfl, fresh := nofun
      used := used
      queue := queue.trans (List.append_nil _).symm
      locked := fun _ => inv.callers p before
      lock := .inl rfl
      request := fun r mine => inv.owns p r (request ▸ mine)
      nodup := descs ▸ inv.nodup p
      descs := ?_
      free := fun i _ _ => congrFun free i
      freed := fun i own gone => absurd (descs ▸ own) gone
      cells := fun i foreign _ => ⟨(cells i foreign).1,(cells i foreign).2.1,(cells i foreign).2.2,rfl⟩
      quiet := fun h flies => absurd flies (not_flies rfl grounded)
      shows := ⟨shows.built,shows.ops,shows.info,shows.serial,shows.up,shows.down,shows.rung,shows.walks⟩
      guarded := .inl (inv.callers p before)
      flags := flags
      raised := raised
      flies := ?_
      returned := by simp [grounded'] }
  · intro i own
    rw [descs] at own
    obtain ⟨below,taken⟩ := inv.used p i own
    exact ⟨below,(congrFun free i).trans taken,.inl own⟩
  · intro h
    simp [State.Flies,grounded,grounded']

theorem Shows.of_headless (built : ∀ x ∈ pc.built, s.disk.desc x.1 = x.2) (headed : pc.headed = none)
    (walks : ∀ r c i, pc = .free r c i → i ∈ c.descs ∧ c.descs.Nodup) : Shows s pc := by
  have recorded : pc.recorded = none := by cases pc <;> simp_all
  have flight : pc.flight = none := by cases pc <;> simp_all [Pc.flight]
  refine ⟨built,?_,?_,?_,?_,?_,?_,walks⟩
  all_goals cases pc <;> simp_all

section

variable (inv : Inv s)
include inv

theorem Inv.queue_room (own : h ∈ (s.caller p).descs) (grounded : (s.caller p).flight = none) :
    s.queue.length < num := by
  have outside : h ∉ s.pending := fun pending => not_flies rfl grounded (inv.flies pending own)
  have queued : ∀ i ∈ s.queue, i ∈ s.pending := fun i member => List.mem_append_left _ member
  have bound := Rings.length_le_of_nodup (n := num)
    (List.nodup_cons.mpr ⟨fun member => outside (queued h member),(List.nodup_append.mp inv.different).1⟩)
    (by
      intro i member
      rcases List.mem_cons.mp member with rfl | member
      · exact (inv.used p i own).1
      · exact (inv.pending_used (queued i member)).1)
  exact Nat.lt_of_succ_le (by simpa using bound)

variable (stepped : callerStep s p = some t)
include stepped

theorem Inv.header_step (place : s.caller p = .header r c) : Move s t p (.data r c) none := by
  simp only [callerStep,place] at stepped
  cases stepped
  refine inv.write place rfl ⟨rfl,rfl,rfl⟩ rfl rfl rfl rfl rfl rfl ?_ (fun _ _ => rfl) (fun _ raised => raised) ?_
  · intro i foreign
    have apart : i ≠ c.head := by rintro rfl; simp [Pc.descs,Chain.descs] at foreign
    simp [apart]
  · constructor <;> simp [Pc.flight]

theorem Inv.data_step (place : s.caller p = .data r c) : Move s t p (.status r c) none := by
  simp only [callerStep,place] at stepped
  cases stepped
  have shows := inv.shows_of place
  have nodup := inv.nodup_of place
  refine inv.write place rfl ⟨rfl,rfl,rfl⟩ rfl rfl rfl rfl rfl rfl ?_ (fun _ _ => rfl) (fun _ raised => raised) ?_
  · intro i foreign
    have apart : i ≠ c.data := by rintro rfl; simp [Pc.descs,Chain.descs] at foreign
    simp [apart]
  · have apart : c.head ≠ c.data := by simp [Pc.descs,Chain.descs] at nodup; tauto
    have built := shows.built
    have ops := shows.ops
    constructor <;> simp_all [Pc.flight]

theorem Inv.status_step (place : s.caller p = .status r c) : Move s t p (.record r c) none := by
  simp only [callerStep,place] at stepped
  cases stepped
  have shows := inv.shows_of place
  have nodup := inv.nodup_of place
  refine inv.write place rfl ⟨rfl,rfl,rfl⟩ rfl rfl rfl rfl rfl rfl ?_ (fun _ _ => rfl) (fun _ raised => raised) ?_
  · intro i foreign
    have apart : i ≠ c.head ∧ i ≠ c.status := by
      constructor <;> rintro rfl <;> simp [Pc.descs,Chain.descs] at foreign
    simp [State.setInfo,apart]
  · have apart : c.head ≠ c.status ∧ c.data ≠ c.status := by simp [Pc.descs,Chain.descs] at nodup; tauto
    have built := shows.built
    have ops := shows.ops
    constructor <;> simp_all [Pc.flight,State.setInfo]

theorem Inv.record_step (place : s.caller p = .record r c) : Move s t p (.ring r c) none := by
  simp only [callerStep,place] at stepped
  cases stepped
  have shows := inv.shows_of place
  refine inv.write place rfl ⟨rfl,rfl,rfl⟩ rfl rfl rfl rfl rfl rfl ?_ ?_ ?_ ?_
  · intro i foreign
    have apart : i ≠ c.head := by rintro rfl; simp [Pc.descs,Chain.descs] at foreign
    simp [apart]
  · intro b foreign
    have apart : b ≠ r.buf := by
      rintro rfl
      exact foreign (inv.owns p r (by rw [place]; rfl))
    exact update_of_ne apart _ _
  · intro b raised
    by_cases same : b = r.buf <;> simp [same,raised]
  · have built := shows.built
    have ops := shows.ops
    constructor <;> simp_all [Pc.flight]

theorem Inv.ring_step (place : s.caller p = .ring r c) : Move s t p (.post r c) none := by
  simp only [callerStep,place] at stepped
  cases stepped
  have shows := inv.shows_of place
  have room : s.queue.length < num :=
    inv.queue_room (h := c.head) (p := p) (by simp [place,Pc.descs,Chain.descs]) (by rw [place]; rfl)
  refine inv.write place rfl ⟨rfl,rfl,rfl⟩ rfl ?_ rfl rfl rfl rfl (fun _ _ => ⟨rfl,rfl,rfl⟩) (fun _ _ => rfl)
    (fun _ raised => raised) ?_
  · exact Rings.entries_write (by decide) room c.head
  · have built := shows.built
    have ops := shows.ops
    have info := shows.info
    have up := shows.up
    constructor <;> simp_all [Pc.flight]

theorem Inv.post_step (place : s.caller p = .post r c) : Move s t p (.test r c) (some c.head) := by
  simp only [callerStep,place] at stepped
  cases stepped
  have shows := inv.shows_of place
  have grounded : (s.caller p).flight = none := by rw [place]; rfl
  have descs : (Pc.test r c).descs = (s.caller p).descs := by rw [place]; rfl
  have own : c.head ∈ (s.caller p).descs := by simp [place,Pc.descs,Chain.descs]
  have up := shows.up r c (.inr rfl)
  refine
    { callers := rfl, handlers := rfl, running := rfl, device := ⟨rfl,rfl,rfl⟩, used := ⟨rfl,rfl,rfl⟩
      records := ⟨rfl,rfl⟩, owner := fun _ _ _ owner => owner, flags := fun _ _ => rfl
      raised := fun _ raised => raised
      queue := ?_
      locked := fun _ => inv.locked_of place rfl
      lock := .inl rfl
      request := fun r' mine => inv.owns p r' (by rw [place]; exact mine)
      nodup := descs ▸ inv.nodup p
      descs := inv.used_of descs
      free := fun _ _ _ => rfl
      freed := fun i own gone => absurd (descs ▸ own) gone
      cells := ?_
      quiet := fun h flies => absurd flies (not_flies rfl grounded)
      posted := List.prefix_append _ _
      shows := ?_
      guarded := .inl (inv.locked_of place rfl)
      flies := ?_
      fresh := ?_
      returned := ?_ }
  · have room := inv.queue_room own grounded
    have advance := Rings.entries_advance (by decide) (by decide) room
    rw [shows.rung r c rfl] at advance
    exact advance
  · intro i foreign _
    have apart : i ≠ c.head := by rintro rfl; exact foreign own
    exact ⟨rfl,rfl,rfl,update_of_ne apart _ _⟩
  · refine ⟨shows.built,shows.ops,shows.info,?_,by simp,by simp,by simp,by simp⟩
    intro r' c' flight
    obtain ⟨rfl,rfl⟩ : r = r' ∧ c = c' := by simpa [Pc.flight] using flight
    simp
  · intro h
    simp [State.Flies,place,Pc.flight,up]
  · rintro h ⟨⟩
    exact ⟨own,not_flies rfl grounded,by simp⟩
  · intro r' c' flight down
    obtain ⟨rfl,rfl⟩ : r = r' ∧ c = c' := by simpa [Pc.flight] using flight
    simp [up] at down

theorem Inv.test_step (place : s.caller p = .test r c) : ∃ pc, Move s t p pc none := by
  have shows := inv.shows_of place
  have lock := inv.locked_of place rfl
  simp only [callerStep,place] at stepped
  split at stepped
  case isTrue raised =>
    cases stepped
    refine ⟨_,inv.turn place (.inr lock) (by simp [Pc.locked]) rfl rfl rfl ?_⟩
    exact ⟨shows.built,shows.ops,shows.info,shows.serial,by simp,by simp,by simp,by simp⟩
  case isFalse down =>
    cases stepped
    refine ⟨_,inv.turn place (.inr lock) (fun _ => lock) rfl rfl rfl ?_⟩
    refine ⟨shows.built,shows.ops,shows.info,shows.serial,by simp,?_,by simp,by simp⟩
    rintro r' c' ⟨⟩
    exact Bool.eq_false_iff.mpr down

theorem Inv.sleep_step (place : s.caller p = .sleep r c) : Move s t p (.test r c) none := by
  have shows := inv.shows_of place
  simp only [callerStep,place] at stepped
  obtain ⟨lock,rfl⟩ := Runs.enabled stepped
  refine inv.turn place (.inl lock) (fun _ => rfl) rfl rfl rfl ?_
  exact ⟨shows.built,shows.ops,shows.info,shows.serial,by simp,by simp,by simp,by simp⟩

theorem Inv.acquire_step (place : s.caller p = .acquire r ∨ s.caller p = .wait r) :
    Move s t p (.alloc r) none := by
  have shows : Shows s (.alloc r) := .of_headless (by simp) rfl (by simp)
  rcases place with place | place <;>
  · simp only [callerStep,place] at stepped
    obtain ⟨lock,rfl⟩ := Runs.enabled stepped
    exact inv.turn place (.inl lock) (fun _ => rfl) rfl rfl rfl shows

theorem Inv.alloc_step (place : s.caller p = .alloc r) : ∃ pc, Move s t p pc none := by
  have lock := inv.locked_of place rfl
  have none_held : (s.caller p).descs = [] := by rw [place]; rfl
  have grounded : (s.caller p).flight = none := by rw [place]; rfl
  have owns (r' : Request) (mine : some r = some r') : s.owner r'.buf = some p :=
    inv.owns p r' (by rw [place]; exact mine)
  rcases alloc3Desc_cases s.disk with ⟨c,result,nodup,free⟩ | ⟨desc,result,kept⟩
  · simp only [callerStep,place,result] at stepped
    cases stepped
    refine ⟨.header r c,inv.pass grounded.symm (fun _ flies => absurd flies (not_flies rfl grounded))
      (fun _ => lock) (.inl rfl)
      owns (fun _ _ _ => id) nodup ?_ ?_ (by simp [none_held]) (fun _ _ _ => rfl) (.of_headless (by simp) rfl (by simp))⟩
    · intro i member
      have member : i ∈ c.descs := member
      exact ⟨(free i member).1,by simp [member],.inr (free i member).2⟩
    · intro i _ foreign
      have foreign : i ∉ c.descs := foreign
      simp [foreign]
  · simp only [callerStep,place,result] at stepped
    cases stepped
    exact ⟨.wait r,inv.pass grounded.symm (fun _ flies => absurd flies (not_flies rfl grounded)) nofun (.inr (.inr lock))
      owns (fun _ _ _ => id) List.nodup_nil (by simp [Pc.descs]) (fun _ _ _ => rfl) (by simp [none_held])
      (fun i _ taken => kept i taken) (.of_headless (by simp) rfl (by simp))⟩

theorem Inv.clear_step (place : s.caller p = .clear r c) : Move s t p (.free r c c.head) none := by
  simp only [callerStep,place] at stepped
  cases stepped
  have shows := inv.shows_of place
  have lock := inv.locked_of place rfl
  have down := shows.down r c rfl
  have idle : ∀ h, ¬s.Flies p h := by
    rintro h ⟨r',c',flight,-,raised⟩
    obtain ⟨rfl,rfl⟩ : r = r' ∧ c = c' := by simpa [place,Pc.flight] using flight
    simp [down] at raised
  have descs : (Pc.free r c c.head).descs = (s.caller p).descs := by simp [place,Pc.descs,Chain.descs]
  have nodup : c.descs.Nodup := by simpa [place,Pc.descs] using inv.nodup p
  refine
    { callers := rfl, handlers := rfl, running := rfl, device := ⟨rfl,rfl,rfl⟩, used := ⟨rfl,rfl,rfl⟩
      records := ⟨rfl,rfl⟩, queue := (List.append_nil _).symm, owner := fun _ _ _ owner => owner
      posted := List.prefix_rfl, flags := fun _ _ => rfl, raised := fun _ raised => raised, fresh := nofun
      locked := fun _ => lock
      lock := .inl rfl
      request := fun r' mine => inv.owns p r' (by rw [place]; exact mine)
      nodup := descs ▸ inv.nodup p
      descs := inv.used_of descs
      free := fun _ _ _ => rfl
      freed := fun i own gone => absurd (descs ▸ own) gone
      cells := ?_
      quiet := fun h flies => absurd flies (idle h)
      shows := ?_
      guarded := .inl lock
      flies := ?_
      returned := by simp [Pc.flight] }
  · intro i foreign _
    have apart : i ≠ c.head := by rintro rfl; simp [place,Pc.descs,Chain.descs] at foreign
    exact ⟨rfl,rfl,update_of_ne apart _ _,rfl⟩
  · have built := shows.built
    constructor <;> simp_all [Pc.flight,State.setInfo,Chain.descs]
  · intro h
    have : ¬State.Flies s p h := idle h
    simp [State.Flies,State.setInfo,Pc.flight] at this ⊢
    exact this

end

/-- Where `free_chain` goes from the descriptor `i`. -/
def Chain.after (c : Chain) (r : Request) (i : Nat) : Pc :=
  if i = c.head then .free r c c.data else if i = c.data then .free r c c.status else .release r

/-- `free_chain` follows the links of the chain, and what it has not freed is still in place. -/
theorem Shows.chain_next {i : Nat} (shows : Shows s (.free r c i)) :
    (if (s.disk.desc i).flags &&& descNext ≠ 0 then .free r c (s.disk.desc i).next else .release r) = c.after r i ∧
      (Pc.free r c i).descs = i :: (c.after r i).descs ∧ (Pc.free r c i).built.tail = (c.after r i).built := by
  obtain ⟨member,nodup⟩ := shows.walks r c i rfl
  have built := shows.built
  obtain ⟨⟨hd,hs⟩,ds⟩ : (c.head ≠ c.data ∧ c.head ≠ c.status) ∧ c.data ≠ c.status := by
    simpa [Chain.descs] using nodup
  simp only [Chain.descs,List.mem_cons,List.not_mem_nil,or_false] at member
  rcases member with rfl | rfl | rfl
  · have desc : s.disk.desc c.head = r.headDesc c := built (c.head,r.headDesc c) (by simp)
    simp [desc,Request.headDesc,descNext,Chain.after,Pc.descs,Chain.descs,hd]
  · have desc : s.disk.desc c.data = r.dataDesc c := built (c.data,r.dataDesc c) (by simp [hd])
    cases write : r.write <;>
      simp [desc,Request.dataDesc,descNext,descWrite,Chain.after,Pc.descs,Chain.descs,hd,hd.symm,hs,ds, write]
  · have desc : s.disk.desc c.status = r.statusDesc c := built (c.status,r.statusDesc c) (by simp [hs,ds])
    simp [desc,Request.statusDesc,descNext,descWrite,Chain.after,Pc.descs,Chain.descs,hs,hs.symm,ds,ds.symm]

theorem Chain.after_pc (c : Chain) (r : Request) (i : Nat) :
    (c.after r i).locked = true ∧ (c.after r i).request = some r ∧ (c.after r i).headed = none ∧
      (c.after r i).flight = none := by
  unfold Chain.after
  split
  · exact ⟨rfl,rfl,rfl,rfl⟩
  split
  · exact ⟨rfl,rfl,rfl,rfl⟩
  · exact ⟨rfl,rfl,rfl,rfl⟩

theorem Shows.after {i : Nat} (shows : Shows s (.free r c i)) : Shows s (c.after r i) := by
  obtain ⟨-,nodup⟩ := shows.walks r c i rfl
  refine .of_headless ?_ (c.after_pc r i).2.2.1 ?_
  · intro x member
    rw [← shows.chain_next.2.2] at member
    exact shows.built x (List.mem_of_mem_tail member)
  · intro r' c' k place
    unfold Chain.after at place
    split at place
    · cases place
      exact ⟨by simp [Chain.descs],nodup⟩
    split at place
    · cases place
      exact ⟨by simp [Chain.descs],nodup⟩
    · cases place

theorem Inv.free_step (inv : Inv s) {i : Nat} (place : s.caller p = .free r c i)
    (stepped : callerStep s p = some t) : ∃ pc, Move s t p pc none := by
  have shows := inv.shows_of place
  have lock := inv.locked_of place rfl
  have grounded : (s.caller p).flight = none := by rw [place]; rfl
  obtain ⟨next,descs,built⟩ := shows.chain_next
  obtain ⟨locked,request,headed,flight⟩ := c.after_pc r i
  have owned : (s.caller p).descs = i :: (c.after r i).descs := by rw [place,descs]
  obtain ⟨below,taken⟩ := inv.used p i (by rw [owned]; exact List.mem_cons_self)
  have nodup := inv.nodup p
  rw [owned,List.nodup_cons] at nodup
  simp only [callerStep,place,freeDesc_ok below taken,next] at stepped
  cases stepped
  have apart : ∀ k ∈ (c.after r i).descs, k ≠ i := by
    rintro k member rfl
    exact nodup.1 member
  refine ⟨c.after r i,inv.pass (flight.trans grounded.symm) (fun _ flies => absurd flies (not_flies rfl grounded))
    (fun _ => lock) (.inl rfl) (fun r' mine => inv.owns p r' (by rw [place]; exact request.symm.trans mine))
    (fun _ _ _ => id) nodup.2 ?_ ?_ ?_ ?_ ?_⟩
  · intro k member
    have own : k ∈ (s.caller p).descs := by rw [owned]; exact List.mem_cons_of_mem _ member
    obtain ⟨below,taken⟩ := inv.used p k own
    exact ⟨below,(update_of_ne (apart k member) _ _).trans taken,.inl own⟩
  · intro k foreign _
    have apart : k ≠ i := by rintro rfl; simp [owned] at foreign
    exact update_of_ne apart _ _
  · intro k own gone
    obtain rfl : k = i := by simpa [owned,gone] using own
    exact update_self _ _ _
  · intro k foreign _
    have apart : k ≠ i := by rintro rfl; simp [owned] at foreign
    exact update_of_ne apart _ _
  · refine shows.after.congr (fun k member => ?_) List.prefix_rfl fun _ => ⟨rfl,rfl,rfl⟩
    exact ⟨update_of_ne (apart k member) _ _,rfl,rfl,rfl⟩

theorem Inv.release_step (inv : Inv s) (place : s.caller p = .release r) (stepped : callerStep s p = some t) :
    Move s t p .idle none := by
  have lock := inv.locked_of place rfl
  have owner := inv.owns p r (by rw [place]; rfl)
  simp only [callerStep,place] at stepped
  cases stepped
  have grounded : (s.caller p).flight = none := by rw [place]; rfl
  refine inv.pass grounded.symm (fun _ _ => rfl) nofun (.inr (.inr lock)) nofun ?_ List.nodup_nil (by simp [Pc.descs])
    (fun _ _ _ => rfl) (by simp [place,Pc.descs]) (fun _ _ _ => rfl) (.of_headless (by simp) rfl (by simp))
  intro q other b held
  have apart : b ≠ r.buf := by
    rintro rfl
    exact other (Option.some.inj (held.symm.trans owner))
  exact (update_of_ne apart _ _).trans held

theorem Inv.call_step (inv : Inv s) (idle : s.caller p = .idle) (unowned : s.owner r.buf = none) :
    Move s ({ s with owner := update s.owner r.buf (some p) }.setCaller p (.acquire r)) p (.acquire r) none := by
  have grounded : (s.caller p).flight = none := by rw [idle]; rfl
  refine inv.pass grounded.symm (fun _ _ => rfl) nofun (.inl rfl) ?_ ?_ List.nodup_nil (by simp [Pc.descs])
    (fun _ _ _ => rfl) (by simp [idle,Pc.descs]) (fun _ _ _ => rfl) (.of_headless (by simp) rfl (by simp))
  · rintro r' ⟨⟩
    exact update_self _ _ _
  · intro q other b held
    have apart : b ≠ r.buf := by
      rintro rfl
      simp [unowned] at held
    exact (update_of_ne apart _ _).trans held

theorem Inv.caller_step (inv : Inv s) (stepped : callerStep s p = some t) : ∃ pc new, Move s t p pc new := by
  cases place : s.caller p with
  | idle => simp [callerStep,place] at stepped
  | acquire r => exact ⟨_,_,inv.acquire_step stepped (.inl place)⟩
  | wait r => exact ⟨_,_,inv.acquire_step stepped (.inr place)⟩
  | alloc r => exact ⟨_,_,(inv.alloc_step stepped place).choose_spec⟩
  | header r c => exact ⟨_,_,inv.header_step stepped place⟩
  | data r c => exact ⟨_,_,inv.data_step stepped place⟩
  | status r c => exact ⟨_,_,inv.status_step stepped place⟩
  | record r c => exact ⟨_,_,inv.record_step stepped place⟩
  | ring r c => exact ⟨_,_,inv.ring_step stepped place⟩
  | post r c => exact ⟨_,_,inv.post_step stepped place⟩
  | test r c => exact ⟨_,_,(inv.test_step stepped place).choose_spec⟩
  | sleep r c => exact ⟨_,_,inv.sleep_step stepped place⟩
  | clear r c => exact ⟨_,_,inv.clear_step stepped place⟩
  | free r c i => exact ⟨_,_,(inv.free_step place stepped).choose_spec⟩
  | release r => exact ⟨_,_,inv.release_step place stepped⟩

end Xv6.Virtio
