import Xv6.VirtioCalls

/-! The device and the handler never confuse a request with another, and every completion is dealt
with once. -/
namespace Xv6.Virtio

open Function

variable {s t : State} {p q h : Nat} {pc : Pc} {r : Request} {c : Chain}

structure Frame (s t : State) : Prop where
  caller : t.caller = s.caller
  owner : t.owner = s.owner
  flag : t.flag = s.flag
  panicked : t.panicked = s.panicked
  posted : t.posted = s.posted
  serial : t.serial = s.serial
  cleared : t.cleared = s.cleared
  free : t.disk.free = s.disk.free
  desc : t.disk.desc = s.disk.desc
  ops : t.disk.ops = s.disk.ops
  ring : t.disk.ring = s.disk.ring
  availIdx : t.disk.availIdx = s.disk.availIdx
  info : ∀ i, (t.disk.info i).b = (s.disk.info i).b

theorem Frame.shows (frame : Frame s t) (shows : Shows s pc) : Shows t pc := by
  obtain ⟨-,-,flag,-,posted,serial,-,-,desc,ops,ring,availIdx,info⟩ := frame
  refine ⟨?_,?_,?_,?_,?_,?_,?_,shows.walks⟩
  · rw [desc]
    exact shows.built
  · rw [ops]
    exact shows.ops
  · intro r c recorded
    rw [info,shows.info r c recorded]
  · rw [posted,serial]
    exact shows.serial
  · rw [flag]
    exact shows.up
  · rw [flag]
    exact shows.down
  · rw [ring,availIdx]
    exact shows.rung

theorem Frame.entry (frame : Frame s t) : t.entry = s.entry := by
  funext h
  rw [State.entry,frame.serial,frame.info,State.entry]

/-- A step that moves heads on their way keeps the invariant if it publishes what it should. -/
theorem Frame.inv (inv : Inv s)
    (callers : ∀ p, (s.caller p).locked = true → t.lock = some (.caller p))
    (handlers : ∀ cpu, (t.handler cpu).locked = true → t.lock = some (.handler cpu))
    (pending : t.pending.Perm s.pending) (status : ∀ h ∈ t.done, (t.disk.info h).status = 0)
    (entered : ∀ h ∈ t.entering, t.disk.used (t.disk.doneIdx.toNat % num) = h)
    (handling : ∀ cpu, t.handler cpu = .handle → t.backlog ≠ [])
    (record : t.completed = s.cleared ++ t.backlog.map s.entry)
    (known : ∀ x ∈ t.completed, ∃ r, s.posted[x.1]? = some r ∧ x.2 = .data r.buf)
    (frame : Frame s t := by exact ⟨rfl,rfl,rfl,rfl,rfl,rfl,rfl,rfl,rfl,rfl,rfl,rfl,fun _ => rfl⟩) : Inv t := by
  have flies : ∀ p h, t.Flies p h ↔ s.Flies p h := by
    intro p h
    rw [State.Flies,frame.caller,frame.flag,State.Flies]
  exact
    { running := frame.panicked.trans inv.running
      callers := frame.caller ▸ callers
      handlers := handlers
      owns := by rw [frame.caller,frame.owner]; exact inv.owns
      nodup := frame.caller ▸ inv.nodup
      used := by rw [frame.caller,frame.free]; exact inv.used
      apart := frame.caller ▸ inv.apart
      covered := by rw [frame.caller,frame.free]; exact inv.covered
      shows := by rw [frame.caller]; exact fun p => frame.shows (inv.shows p)
      different := pending.nodup_iff.mpr inv.different
      flight := by simpa only [pending.mem_iff,flies] using inv.flight
      status := status
      entered := entered
      handling := handling
      record := by rw [frame.cleared,frame.entry]; exact record
      once := by
        rw [frame.cleared,frame.serial]
        exact ((pending.map s.serial).append_left _).nodup_iff.mpr inv.once
      known := frame.posted ▸ known
      returned := by rw [frame.caller,frame.flag,frame.serial,frame.cleared]; exact inv.returned }

theorem Inv.chain (inv : Inv s) (pending : h ∈ s.pending) :
    ∃ p r c, (s.caller p).flight = some (r,c) ∧ c.head = h ∧ s.flag r.buf = true ∧ s.disk.chain h = c ∧
      s.disk.desc c.head = r.headDesc c ∧ s.disk.desc c.data = r.dataDesc c ∧ s.disk.desc c.status = r.statusDesc c ∧
      s.disk.ops c.head = r.header ∧ (s.disk.info c.head).b = some r.buf ∧ s.posted[s.serial c.head]? = some r := by
  obtain ⟨p,r,c,flight,rfl,flag⟩ := (inv.flight h).mp pending
  have shows := inv.shows p
  have built := shows.built
  rw [Pc.flight_built flight] at built
  have head : s.disk.desc c.head = r.headDesc c := built (c.head,r.headDesc c) (by simp)
  have data : s.disk.desc c.data = r.dataDesc c := built (c.data,r.dataDesc c) (by simp)
  have status : s.disk.desc c.status = r.statusDesc c := built (c.status,r.statusDesc c) (by simp)
  have recorded := Pc.flight_recorded flight
  refine ⟨p,r,c,flight,rfl,flag,?_,head,data,status,shows.ops r c (Pc.recorded_headed recorded),
    shows.info r c recorded,shows.serial r c flight⟩
  simp [Disk.chain,head,Request.headDesc,data,Request.dataDesc]

theorem Inv.fetch_step (inv : Inv s) (more : s.taken ≠ s.disk.availIdx) :
    Inv { s with taken := s.taken + 1, working := s.disk.ring (s.taken.toNat % num) :: s.working } := by
  have queue : Rings.entries num s.disk.ring s.taken s.disk.availIdx = s.disk.ring (s.taken.toNat % num) ::
    Rings.entries num s.disk.ring (s.taken + 1) s.disk.availIdx := Rings.entries_cons (by decide) more
  refine Frame.inv inv inv.callers inv.handlers ?_ inv.status inv.entered inv.handling inv.record inv.known
  show (Rings.entries num s.disk.ring (s.taken + 1) s.disk.availIdx ++ (_ :: s.working ++ s.done)).Perm
    (Rings.entries num s.disk.ring s.taken s.disk.availIdx ++ (s.working ++ s.done))
  rw [queue]
  exact List.perm_middle

theorem Inv.answer_step (inv : Inv s) (member : h ∈ s.working) : Inv { s with
      disk := s.disk.store (s.disk.desc (s.disk.chain h).status).addr
      working := s.working.erase h
      answered := h :: s.answered } := by
  obtain ⟨p,r,c,-,rfl,-,chain,-,-,desc,-⟩ := inv.chain (h := h) (by simp [State.pending,member])
  rw [chain,desc]
  have store : s.disk.store (r.statusDesc c).addr =
    { s.disk with info := update s.disk.info c.head { s.disk.info c.head with status := 0 } } := rfl
  rw [store]
  refine Frame.inv inv inv.callers inv.handlers ?_ ?_ inv.entered inv.handling inv.record inv.known
    ⟨rfl,rfl,rfl,rfl,rfl,rfl,rfl,rfl,rfl,rfl,rfl,rfl,?_⟩
  · have moved := (List.perm_cons_erase member).append_right s.done
    exact (List.perm_middle.trans moved.symm).append_left s.queue
  · intro i done
    by_cases same : i = c.head
    · simp [same]
    · have done : i ∈ c.head :: s.done := done
      have done : i ∈ s.done := by simpa [same] using done
      simpa [same] using inv.status i done
  · intro i
    by_cases same : i = c.head
    · simp [same]
    · simp [same]

theorem backlog_sublist : s.backlog.Sublist s.pending :=
  ((List.sublist_append_right _ _).trans (List.sublist_append_right _ _)).trans
    ((List.sublist_append_right _ _).trans (List.sublist_append_right _ _))

section

variable (inv : Inv s)
include inv

theorem Inv.backlog_room (pending : h ∈ s.pending) (outside : h ∉ s.backlog) : s.backlog.length < num := by
  have nodup := inv.different.sublist backlog_sublist
  have bound := Rings.length_le_of_nodup (n := num) (List.nodup_cons.mpr ⟨outside,nodup⟩) (by
      intro i member
      rcases List.mem_cons.mp member with rfl | member
      · exact (inv.pending_used pending).1
      · exact (inv.pending_used (backlog_pending member)).1)
  exact Nat.lt_of_succ_le (by simpa using bound)

theorem Inv.done_nodup : s.done.Nodup := (List.nodup_append.mp (List.nodup_append.mp inv.different).2.1).2.1

theorem Inv.enter_step (member : h ∈ s.answered) (ready : s.entering = none) : Inv { s with
      disk := { s.disk with used := update s.disk.used (s.disk.doneIdx.toNat % num) h }
      answered := s.answered.erase h
      entering := some h } := by
  have room : s.backlog.length < num := by
    refine inv.backlog_room (h := h) (done_pending (by simp [State.done,member])) fun queued => ?_
    have nodup := inv.done_nodup
    rw [State.done,List.nodup_append] at nodup
    exact nodup.2.2 h member h (by simp [queued]) rfl
  have backlog := Rings.entries_write (by decide) room h
  have done : (s.answered.erase h ++ (h :: s.backlog)).Perm s.done := by
    rw [State.done,ready]
    exact List.perm_middle.trans ((List.perm_cons_erase member).append_right s.backlog).symm
  refine Frame.inv inv inv.callers inv.handlers ?_ ?_ ?_ ?_ ?_ inv.known
  · show (s.queue ++ (s.working ++ (s.answered.erase h ++ (h :: Rings.entries num _ _ _)))).Perm _
    rw [backlog]
    exact (done.append_left s.working).append_left s.queue
  · intro i among
    have among : i ∈ s.answered.erase h ++ (h :: Rings.entries num _ _ _) := among
    rw [backlog] at among
    exact inv.status i (done.mem_iff.mp among)
  · rintro i ⟨⟩
    exact update_self _ _ _
  · intro cpu handle
    show Rings.entries num _ _ _ ≠ []
    rw [backlog]
    exact inv.handling cpu handle
  · show s.completed = s.cleared ++ (Rings.entries num _ _ _).map s.entry
    rw [backlog]
    exact inv.record

theorem Inv.publish_step (entering : s.entering = some h) : Inv { s with
      disk := { s.disk with doneIdx := s.disk.doneIdx + 1 }
      entering := none
      completed := s.completed ++ [(s.serial h,(s.disk.desc (s.disk.chain h).data).addr)] } := by
  have member : h ∈ s.done := by simp [State.done,entering]
  have room : s.backlog.length < num := by
    refine inv.backlog_room (done_pending member) fun queued => ?_
    have nodup := inv.done_nodup
    simp only [State.done,entering,Option.toList_some,List.nodup_append] at nodup
    exact nodup.2.1.2.2 h (by simp) h queued rfl
  have backlog := Rings.entries_advance (by decide) (by decide) room
  rw [inv.entered h entering] at backlog
  obtain ⟨p,r,c,-,rfl,-,chain,-,data,-,-,info,posted⟩ := inv.chain (done_pending member)
  have entry : (s.serial c.head,(s.disk.desc (s.disk.chain c.head).data).addr) = s.entry c.head := by
    simp [chain,data,Request.dataDesc,State.entry,info]
  have done : (s.answered ++ (s.backlog ++ [c.head])).Perm s.done := by
    rw [State.done,entering]
    exact List.perm_append_comm.append_left s.answered
  rw [entry]
  refine Frame.inv inv inv.callers inv.handlers ?_ ?_ (by simp) ?_ ?_ ?_
  · show (s.queue ++ (s.working ++ (s.answered ++ Rings.entries num _ _ _))).Perm _
    rw [backlog]
    exact (done.append_left s.working).append_left s.queue
  · intro i among
    have among : i ∈ s.answered ++ Rings.entries num _ _ _ := among
    rw [backlog] at among
    exact inv.status i (done.mem_iff.mp among)
  · intro cpu _
    show Rings.entries num _ _ _ ≠ []
    rw [backlog]
    exact List.append_ne_nil_of_right_ne_nil _ (List.cons_ne_nil _ _)
  · show s.completed ++ [s.entry c.head] = s.cleared ++ (Rings.entries num _ _ _).map s.entry
    rw [backlog,inv.record,List.append_assoc,List.map_append]
    rfl
  · intro x among
    rcases List.mem_append.mp among with old | new
    · exact inv.known x old
    · obtain rfl := List.mem_singleton.mp new
      exact ⟨r,posted,by simp [State.entry,info]⟩

theorem Inv.handler_turn {cpu : Nat} {place : Intr} {lock : Option Holder}
    (before : s.lock = none ∨ s.lock = some (.handler cpu))
    (locked : place.locked = true → lock = some (.handler cpu)) (handling : place = .handle → s.backlog ≠ []) :
    Inv ({ s with lock := lock }.setHandler cpu place) := by
  have free : ∀ other, s.lock = some other → other = .handler cpu := by
    intro other held
    rcases before with none | mine
    · simp [none] at held
    · exact Option.some.inj (held.symm.trans mine)
  refine Frame.inv inv ?_ ?_ (List.Perm.refl _) inv.status inv.entered ?_ inv.record inv.known
  · intro p held
    exact absurd (free _ (inv.callers p held)) (by simp)
  · intro other held
    by_cases self : other = cpu
    · subst other
      exact locked (by simpa using held)
    · have held : (s.handler other).locked = true := by simpa [self] using held
      exact absurd (free _ (inv.handlers other held)) (by simpa using self)

  · intro other handle
    by_cases self : other = cpu
    · subst other
      exact handling (by simpa using handle)
    · exact inv.handling other (by simpa [self] using handle)

/-- What is found at `used_idx`: the head of a request that has been answered. -/
theorem Inv.next_used (more : s.backlog ≠ []) :
    ∃ p r c rest, (s.caller p).flight = some (r,c) ∧ s.flag r.buf = true ∧
      s.disk.used (s.disk.usedIdx.toNat % num) = c.head ∧ (s.disk.info c.head).status = 0 ∧
      (s.disk.info c.head).b = some r.buf ∧ s.backlog = c.head :: rest ∧
      Rings.entries num s.disk.used (s.disk.usedIdx + 1) s.disk.doneIdx = rest := by
  have cons : s.backlog = s.disk.used (s.disk.usedIdx.toNat % num) ::
      Rings.entries num s.disk.used (s.disk.usedIdx + 1) s.disk.doneIdx :=
    Rings.entries_cons (by decide) (mt Rings.entries_eq_nil_iff.mpr more)
  have member : s.disk.used (s.disk.usedIdx.toNat % num) ∈ s.backlog := by rw [cons]; exact List.mem_cons_self
  obtain ⟨p,r,c,flight,head,flag,-,-,-,-,-,info,-⟩ := inv.chain (backlog_pending member)
  rw [← head] at cons member
  exact ⟨p,r,c,_,flight,flag,head.symm,inv.status c.head (by simp [State.done,member]),info,cons,rfl⟩

theorem Inv.same_caller {r' : Request} (request : (s.caller p).request = some r)
    (request' : (s.caller q).request = some r') (same : r'.buf = r.buf) : q = p := by
  have owner := inv.owns q r' request'
  rw [same,inv.owns p r request] at owner
  exact (Option.some.inj owner).symm

/-- The handler's work on one completion: it lowers the flag of the buffer that the request was for. -/
theorem Inv.handle_step {cpu : Nat} (place : s.handler cpu = .handle) (stepped : handlerStep s cpu = some t) :
    Inv t := by
  obtain ⟨p,r,c,rest,flight,flag,used,status,info,backlog,later⟩ := inv.next_used (inv.handling cpu place)
  have lock := inv.handlers cpu (by rw [place]; rfl)
  have unlocked : ∀ q, (s.caller q).locked = false := by
    intro q
    refine Bool.eq_false_iff.mpr fun locked => ?_
    simp [inv.callers q locked] at lock
  simp only [handlerStep,place,used,status,info,ne_eq,not_true_eq_false,if_false] at stepped
  cases stepped
  obtain ⟨left,parts⟩ : ∃ left, left = s.queue ++ (s.working ++ (s.answered ++ (s.entering.toList ++ rest))) :=
    ⟨_,rfl⟩
  have perm : s.pending.Perm (c.head :: left) := by
    rw [State.pending,State.done,backlog,parts]
    refine (List.Perm.append_left _ ?_).trans List.perm_middle
    refine (List.Perm.append_left _ ?_).trans List.perm_middle
    refine (List.Perm.append_left _ ?_).trans List.perm_middle
    exact List.perm_middle
  have done : ∀ h ∈ s.answered ++ (s.entering.toList ++ rest), h ∈ s.done := by
    intro h member
    rw [State.done,backlog]
    simp only [List.mem_append,List.mem_cons] at member ⊢
    tauto
  have gone := (List.nodup_cons.mp (perm.nodup_iff.mp inv.different)).1
  have entry : (s.serial c.head,Addr.data r.buf) = s.entry c.head := by simp [State.entry,info]
  have pending : State.pending (State.setHandler { s with
        flag := update s.flag r.buf false
        disk := { s.disk with usedIdx := s.disk.usedIdx + 1 }
        cleared := s.cleared ++ [(s.serial c.head,Addr.data r.buf)] } cpu .test) = left := by
    rw [parts,← later]
    rfl
  have flag_other : ∀ q r' c', (s.caller q).flight = some (r',c') → c'.head ≠ c.head →
      update s.flag r.buf false r'.buf = s.flag r'.buf := by
    intro q r' c' flight' apart
    refine update_of_ne (fun same => apart ?_) _ _
    obtain rfl := inv.same_caller (Pc.flight_request flight) (Pc.flight_request flight') same
    obtain ⟨-,rfl⟩ := Prod.mk.inj (Option.some.inj (flight.symm.trans flight'))
    rfl
  have flag_self : ∀ q r' c', (s.caller q).flight = some (r',c') → c'.head = c.head → r' = r := by
    intro q r' c' flight' same
    have own : c.head ∈ (s.caller p).descs := by simp [Pc.flight_descs flight,Chain.descs]
    have own' : c.head ∈ (s.caller q).descs := by simp [Pc.flight_descs flight',Chain.descs,← same]
    obtain rfl := inv.apart p q c.head own own'
    exact (Prod.mk.inj (Option.some.inj (flight'.symm.trans flight))).1
  refine
    { running := inv.running
      callers := inv.callers
      handlers := ?_
      owns := inv.owns
      nodup := inv.nodup
      used := inv.used
      apart := inv.apart
      covered := inv.covered
      shows := ?_
      different := ?_
      flight := ?_
      status := ?_
      entered := inv.entered
      handling := ?_
      record := ?_
      once := ?_
      known := inv.known
      returned := ?_ }
  · intro other held
    by_cases self : other = cpu
    · exact self ▸ lock
    · exact inv.handlers other (by simpa [self] using held)
  · intro q
    refine (inv.shows q).congr (fun _ _ => ⟨rfl,rfl,rfl,rfl⟩) List.prefix_rfl fun locked => ?_
    simp [unlocked q] at locked
  · rw [pending]
    exact (List.nodup_cons.mp (perm.nodup_iff.mp inv.different)).2
  · intro h
    rw [pending]
    constructor
    · intro member
      obtain ⟨q,r',c',flight',rfl,raised⟩ := (inv.flight h).mp (perm.mem_iff.mpr (List.mem_cons_of_mem _ member))
      have apart : c'.head ≠ c.head := fun same => gone (same ▸ member)
      exact ⟨q,r',c',flight',rfl,(flag_other q r' c' flight' apart).trans raised⟩
    · rintro ⟨q,r',c',flight',rfl,raised⟩
      have apart : c'.head ≠ c.head := by
        intro same
        obtain rfl := flag_self q r' c' flight' same
        simp at raised
      have raised := (flag_other q r' c' flight' apart).symm.trans raised
      have member := (inv.flight c'.head).mpr ⟨q,r',c',flight',rfl,raised⟩
      exact (List.mem_cons.mp (perm.mem_iff.mp member)).resolve_left apart
  · intro h member
    have member : h ∈ s.answered ++ (s.entering.toList ++
      Rings.entries num s.disk.used (s.disk.usedIdx + 1) s.disk.doneIdx) := member
    rw [later] at member
    exact inv.status h (done h member)
  · intro other handle
    by_cases self : other = cpu
    · simp [self] at handle
    · have handle : s.handler other = .handle := by simpa [self] using handle
      have held := inv.handlers other (by rw [handle]; rfl)
      simp [lock,Ne.symm self] at held
  · show s.completed = s.cleared ++ [_] ++
      (Rings.entries num s.disk.used (s.disk.usedIdx + 1) s.disk.doneIdx).map s.entry
    rw [later,entry,inv.record,backlog]
    simp
  · rw [pending]
    show ((s.cleared ++ [_]).map Prod.fst ++ left.map s.serial).Nodup
    have once := ((perm.map s.serial).append_left (s.cleared.map Prod.fst)).nodup_iff.mp inv.once
    simpa using once
  · intro q r' c' flight' down
    show _ ∈ (s.cleared ++ [_]).map Prod.fst
    rw [List.map_append,List.mem_append]
    by_cases same : c'.head = c.head
    · right
      simp [same]
    · left
      exact inv.returned q r' c' flight' ((flag_other q r' c' flight' same).symm.trans down)

theorem Inv.handler_step {cpu : Nat} (stepped : handlerStep s cpu = some t) : Inv t := by
  cases place : s.handler cpu with
  | idle => simp [Virtio.handlerStep,place] at stepped
  | acquire =>
    simp only [Virtio.handlerStep,place] at stepped
    obtain ⟨lock,rfl⟩ := Runs.enabled stepped
    exact inv.handler_turn (.inl lock) (fun _ => rfl) (by simp)
  | test =>
    have lock := inv.handlers cpu (by rw [place]; rfl)
    simp only [Virtio.handlerStep,place] at stepped
    cases stepped
    refine inv.handler_turn (.inr lock) (fun _ => lock) fun handle => ?_
    rw [State.backlog,ne_eq,Rings.entries_eq_nil_iff]
    intro same
    simp [same] at handle
  | handle => exact inv.handle_step place stepped
  | release =>
    have lock := inv.handlers cpu (by rw [place]; rfl)
    simp only [Virtio.handlerStep,place] at stepped
    cases stepped
    exact inv.handler_turn (.inr lock) (by simp [Intr.locked]) (by simp)

theorem Inv.interrupt_step {cpu : Nat} : Inv (s.setHandler cpu .acquire) := by
  refine Frame.inv inv inv.callers ?_ (List.Perm.refl _) inv.status inv.entered ?_ inv.record inv.known
  all_goals
    intro other place
    by_cases self : other = cpu
    · simp [self,Intr.locked] at place
  · exact inv.handlers other (by simpa [self] using place)
  · exact inv.handling other (by simpa [self] using place)

theorem Inv.step {a : Action} (stepped : step s a = some t) : Inv t := by
  unfold Virtio.step at stepped
  rw [if_neg (by simp [inv.running])] at stepped
  cases a with
  | call p r =>
    obtain ⟨⟨idle,unowned⟩,rfl⟩ := Runs.enabled stepped
    exact (inv.call_step idle unowned).inv inv
  | caller p =>
    obtain ⟨pc,new,move⟩ := inv.caller_step stepped
    exact move.inv inv
  | interrupt cpu =>
    obtain ⟨idle,rfl⟩ := Runs.enabled stepped
    exact inv.interrupt_step
  | handler cpu => exact inv.handler_step stepped
  | fetch =>
    obtain ⟨more,rfl⟩ := Runs.enabled stepped
    exact inv.fetch_step more
  | answer h =>
    obtain ⟨member,rfl⟩ := Runs.enabled stepped
    exact inv.answer_step member
  | enter h =>
    obtain ⟨⟨member,ready⟩,rfl⟩ := Runs.enabled stepped
    exact inv.enter_step member ready
  | publish =>
    cases entering : s.entering with
    | none => simp [entering] at stepped
    | some h =>
      simp only [entering] at stepped
      cases stepped
      exact inv.publish_step entering

end

theorem Inv.init (flag : Nat → Bool) (info : Nat → Info) (ops : Nat → BlkReq) : Inv (Virtio.init flag info ops) := by
  have queue : (Virtio.init flag info ops).queue = [] := Rings.entries_eq_nil_iff.mpr rfl
  have backlog : (Virtio.init flag info ops).backlog = [] := Rings.entries_eq_nil_iff.mpr rfl
  have done : (Virtio.init flag info ops).done = [] := by rw [State.done,backlog]; rfl
  have pending : (Virtio.init flag info ops).pending = [] := by rw [State.pending,queue,done]; rfl
  constructor
  case shows => exact fun p => .of_headless (by simp [Virtio.init]) rfl (by simp [Virtio.init])
  case different => simp [pending]
  case flight => simp only [pending]; simp [State.Flies,Virtio.init,Pc.flight]
  case status => simp [done]
  case record => rw [backlog]; rfl
  case once => rw [pending]; exact List.nodup_nil
  all_goals simp [Virtio.init,Pc.locked,Intr.locked,Pc.request,Pc.descs,Pc.flight]

theorem run_inv {flag : Nat → Bool} {info : Nat → Info} {ops : Nat → BlkReq} {schedule : List Action}
    (ran : Runs.run step (init flag info ops) schedule = some s) : Inv s :=
  Runs.run_invariant Inv (fun _ _ _ inv stepped => inv.step stepped) (.init flag info ops) ran

/-- The descriptors from `h` on are the header, the data and the status of the request `r`. -/
structure Disk.Describes (disk : Disk) (h : Nat) (r : Request) : Prop where
  head : disk.desc h = r.headDesc (disk.chain h)
  command : disk.ops h = r.header
  data : disk.desc (disk.chain h).data = r.dataDesc (disk.chain h)
  status : disk.desc (disk.chain h).status = r.statusDesc (disk.chain h)

/-- A step lowers no flag, or it deals with the oldest completion that has not been dealt with and
lowers the flag of the buffer which that request was for. -/
def Clears (s t : State) : Prop :=
  t.cleared = s.cleared ∧ (∀ b, s.flag b = true → t.flag b = true) ∨
    ∃ n r, s.posted[n]? = some r ∧ s.completed[s.cleared.length]? = some (n,.data r.buf) ∧
      t.cleared = s.cleared ++ [(n,.data r.buf)] ∧ s.flag r.buf = true ∧ t.flag = update s.flag r.buf false

theorem Inv.handler_clears (inv : Inv s) {cpu : Nat} (stepped : handlerStep s cpu = some t) : Clears s t := by
  cases place : s.handler cpu with
  | idle => simp [handlerStep,place] at stepped
  | acquire =>
    simp only [handlerStep,place] at stepped
    obtain ⟨-,rfl⟩ := Runs.enabled stepped
    exact .inl ⟨rfl,fun _ raised => raised⟩
  | test | release =>
    simp only [handlerStep,place] at stepped
    cases stepped
    exact .inl ⟨rfl,fun _ raised => raised⟩
  | handle =>
    obtain ⟨p,r,c,rest,flight,flag,used,status,info,backlog,-⟩ := inv.next_used (inv.handling cpu place)
    simp only [handlerStep,place,used,status,info,ne_eq,not_true_eq_false,if_false] at stepped
    cases stepped
    refine .inr ⟨s.serial c.head,r,(inv.shows p).serial r c flight,?_,rfl,flag,rfl⟩
    rw [inv.record,backlog]
    simp [State.entry,info]

theorem Inv.clears {a : Action} (inv : Inv s) (stepped : Virtio.step s a = some t) : Clears s t := by
  unfold Virtio.step at stepped
  rw [if_neg (by simp [inv.running])] at stepped
  cases a with
  | caller p =>
    obtain ⟨pc,new,move⟩ := inv.caller_step stepped
    exact .inl ⟨move.records.1,move.raised⟩
  | handler cpu => exact inv.handler_clears stepped
  | publish =>
    cases entering : s.entering with
    | none => simp [entering] at stepped
    | some h =>
      simp only [entering] at stepped
      cases stepped
      exact .inl ⟨rfl,fun _ raised => raised⟩
  | _ =>
    obtain ⟨-,rfl⟩ := Runs.enabled stepped
    exact .inl ⟨rfl,fun _ raised => raised⟩

/-- What the driver keeps straight at every moment. -/
structure Tracked (s : State) : Prop where
  /-- Neither `free_desc` nor the handler has panicked. -/
  running : s.panicked = none
  /-- The descriptors in use are the disjoint union of those of the callers. -/
  apart : (∀ p, (s.caller p).descs.Nodup) ∧ ∀ p q i, i ∈ (s.caller p).descs → i ∈ (s.caller q).descs → p = q
  union : ∀ i, i < num ∧ s.disk.free i = false ↔ ∃ p, i ∈ (s.caller p).descs
  /-- While nobody is in the driver these are whole chains of requests that are in flight, or
  completed and not collected. -/
  quiet : s.lock = none → ∀ p i, i ∈ (s.caller p).descs → ∃ r c, s.caller p = .sleep r c ∧
    s.posted[s.serial c.head]? = some r ∧
    (s.flag r.buf = true ∧ c.head ∈ s.pending ∨ s.flag r.buf = false ∧ s.serial c.head ∈ s.cleared.map Prod.fst)
  /-- A chain that the device takes or works on is one request's. -/
  seen : ∀ h ∈ s.queue ++ s.working,
    ∃ p r c, (s.caller p).flight = some (r,c) ∧ s.disk.chain h = c ∧ s.disk.Describes h r
  /-- Completions are dealt with in the order of the used ring, each once and none left out. -/
  order : s.cleared <+: s.completed
  once : (s.completed.map Prod.fst).Nodup
  all : s.disk.usedIdx = s.disk.doneIdx → s.cleared = s.completed
  clears : ∀ a t, step s a = some t → Clears s t

/-- For every interleaving of callers on different locked buffers, interrupts and the device, however
often the indices wrap around. -/
theorem disk_requests_tracked {flag : Nat → Bool} {info : Nat → Info} {ops : Nat → BlkReq} {schedule : List Action}
    (ran : Runs.run step (init flag info ops) schedule = some s) : Tracked s := by
  have inv := run_inv ran
  refine ⟨inv.running,⟨inv.nodup,inv.apart⟩,?_,?_,?_,?_,?_,?_,fun a t stepped => inv.clears stepped⟩
  · intro i
    constructor
    · rintro ⟨below,taken⟩
      exact inv.covered i below taken
    · rintro ⟨p,own⟩
      exact inv.used p i own
  · intro unlocked p i own
    have free : (s.caller p).locked = false := by
      refine Bool.eq_false_iff.mpr fun locked => ?_
      simp [inv.callers p locked] at unlocked
    obtain ⟨r,c,place⟩ : ∃ r c, s.caller p = .sleep r c := by
      cases place : s.caller p <;> simp_all [Pc.locked,Pc.descs]
    have flight : (s.caller p).flight = some (r,c) := by rw [place]; rfl
    refine ⟨r,c,place,(inv.shows p).serial r c flight,?_⟩
    cases flag : s.flag r.buf with
    | true => exact .inl ⟨rfl,(inv.flight c.head).mpr ⟨p,r,c,flight,rfl,flag⟩⟩
    | false => exact .inr ⟨rfl,inv.returned p r c flight flag⟩
  · intro h member
    have pending : h ∈ s.pending := by
      rw [State.pending,← List.append_assoc]
      exact List.mem_append_left _ member
    obtain ⟨p,r,c,flight,rfl,-,chain,head,data,status,command,-⟩ := inv.chain pending
    refine ⟨p,r,c,flight,chain,?_,command,?_,?_⟩ <;> rw [chain] <;> assumption
  · rw [inv.record]
    exact List.prefix_append _ _
  · refine List.Nodup.sublist ?_ inv.once
    rw [inv.record,List.map_append,List.map_map]
    exact List.Sublist.append_left (backlog_sublist.map s.serial) _
  · intro same
    have empty : s.backlog = [] := Rings.entries_eq_nil_iff.mpr same
    simp [inv.record,empty]

/-- Two requests, of which the second completes first and is collected while a third caller waits for
descriptors. -/
def overtaking : List Action :=
  [Action.call 0 ⟨5,100,true⟩] ++ List.replicate 9 (Action.caller 0) ++
    [Action.call 1 ⟨6,200,false⟩] ++ List.replicate 9 (Action.caller 1) ++
    ([.call 2 ⟨7,300,true⟩,.caller 2,.caller 2,.fetch,.fetch,.answer 3,.answer 0,.enter 3,.publish,
      .interrupt 0] : List Action) ++
    List.replicate 5 (Action.handler 0) ++ List.replicate 7 (Action.caller 1)

theorem disk_requests_tracked_overtaking :
    ∃ s, Runs.run step (init (fun _ => false) (fun _ => ⟨none,0⟩) fun _ => ⟨0,0,0⟩) overtaking = some s ∧
      s.cleared = [(1,.data 6)] ∧ s.answered = [0] ∧ s.caller 2 = .wait ⟨7,300,true⟩ ∧ s.disk.free 4 = true ∧
      s.flag 5 = true ∧ s.flag 6 = false ∧ Tracked s := by
  refine Runs.reaches (fun s => s.cleared = [(1,.data 6)] ∧ s.answered = [0] ∧ s.caller 2 = .wait ⟨7,300,true⟩ ∧
    s.disk.free 4 = true ∧ s.flag 5 = true ∧ s.flag 6 = false) (by decide +kernel) fun s ran facts => ?_
  obtain ⟨cleared,answered,waits,free,up,down⟩ := facts
  exact ⟨cleared,answered,waits,free,up,down,disk_requests_tracked ran⟩

end Xv6.Virtio
