import Xv6.Bcache
import Xv6.LogPinsSafe

/-! What is modelled twice. The buffer cache with its links does what the one with a list does, and the log over the
buffer cache does what the log alone does. -/
namespace Xv6.Bcache

open Function

variable {α : Type} {n dev : Nat} {s t : State n} {c : Bio.Cache α}

/-- The operations of `Bio` for the actions. -/
def perform (c : Bio.Cache α) : Action n → Option (Bio.Cache α)
  | .bread p key => if c.doing p = .nothing then (c.bget p key.blockno).map Prod.fst else none
  | .next p => c.next p
  | .brelse p k => if (c.buf k).holder = some p.val ∧ c.doing p = .nothing then some (c.brelse p k) else none
  | .bpin k => if k < nbuf then some (c.bpin k) else none
  | .bunpin k => if 0 < (c.buf k).pins then some (c.bunpin k) else none

/-- A buffer that `binit` has made is for no block. -/
def Buf.shown (x : Buf n) (data : α) : Bio.Buf α where
  block := if x.key.dev = 0 then none else some x.key.blockno
  valid := x.valid
  refcnt := x.refcnt
  holder := x.holder.map (·.1.val)
  data := data
  pins := x.pins

def Doing.shown : Doing → Bio.Doing
  | .nothing => .nothing
  | .lock k _ => .lock k
  | .read k _ => .read k
  | .release k _ => .release k

/-- A process in `bread` asked for a block of the device. -/
def Doing.Asks (dev : Nat) : Doing → Prop
  | .lock _ key | .read _ key => key.dev = dev
  | _ => True

structure Shows (dev : Nat) (s : State n) (c : Bio.Cache α) : Prop where
  inv : Inv s c.lru
  buf : ∀ k, c.buf k = (s.buf k).shown (c.buf k).data ∧ ((s.buf k).key.dev = 0 ∨ (s.buf k).key.dev = dev)
  doing : ∀ p : Fin n, c.doing p = (s.doing p).shown ∧ (s.doing p).Asks dev

namespace Shows

theorem setBuf (shows : Shows dev s c) {k : Nat} {x : Buf n} {y : Bio.Buf α} (shown : y = x.shown y.data)
    (named : x.key.dev = 0 ∨ x.key.dev = dev) (l : Nat) :
    update c.buf k y l = (update s.buf k x l).shown (update c.buf k y l).data ∧
      ((update s.buf k x l).key.dev = 0 ∨ (update s.buf k x l).key.dev = dev) := by
  obtain rfl | other := eq_or_ne l k
  · simpa using ⟨shown,named⟩
  · simpa [other] using shows.buf l

theorem set (shows : Shows dev s c) {p : Fin n} {k : Nat} {x : Buf n} {y : Bio.Buf α} {d : Doing}
    {refs : Multiset (Nat × Nat)} {links : Linked.Links (Option Nat)} {lru : List Nat}
    (inv : Inv { s.set p k x d with links := links } lru) (shown : y = x.shown y.data)
    (named : x.key.dev = 0 ∨ x.key.dev = dev) (asks : d.Asks dev) :
    Shows dev { s.set p k x d with links := links } { c.set p k y d.shown refs with lru := lru } := by
  refine ⟨inv,shows.setBuf shown named,fun q => ?_⟩
  obtain rfl | another := eq_or_ne q p
  · simpa [State.set] using asks
  · have apart : q.val ≠ p.val := fun same => another (Fin.ext same)
    simpa [State.set,another,apart] using shows.doing q

theorem block_iff (shows : Shows dev s c) {key : Key} (asked : key.dev = dev) (real : dev ≠ 0) (k : Nat) :
    (c.buf k).block = some key.blockno ↔ (s.buf k).key = key := by
  rw [(shows.buf k).1,Buf.shown]
  constructor
  · intro block
    obtain ⟨used,same⟩ := Option.ite_none_left_eq_some.mp block
    exact Key.ext (((shows.buf k).2.resolve_left used).trans asked.symm) (Option.some.inj same)
  · rintro rfl
    rw [if_neg (by rwa [asked])]

theorem step (shows : Shows dev s c) (real : dev ≠ 0) {a : Action n} (one : ∀ p key, a = .bread p key → key.dev = dev)
    (stepped : step s a = some t) : ∃ d, perform c a = some d ∧ Shows dev t d := by
  have inv := shows.inv.step stepped
  have device (k : Nat) : (s.buf k).key.dev = 0 ∨ (s.buf k).key.dev = dev := (shows.buf k).2
  have place (p : Fin n) : c.doing p = (s.doing p).shown := (shows.doing p).1
  have buf (k : Nat) := (shows.buf k).1
  cases a with
  | bread p key =>
    obtain ⟨idle,got⟩ := Option.ite_none_right_eq_some.mp stepped
    have here : c.doing p = .nothing := by rw [place,idle]; rfl
    have asked : key.dev = dev := one p key rfl
    have cached : c.cached key.blockno = c.lru.find? fun k => (s.buf k).key = key :=
      congrArg c.lru.find? (funext fun k => decide_eq_decide.mpr (shows.block_iff asked real k))
    have unused : c.unused = c.lru.reverse.find? fun k => (s.buf k).refcnt = 0 := by
      refine congrArg c.lru.reverse.find? (funext fun k => decide_eq_decide.mpr ?_)
      rw [buf k]
      rfl
    unfold State.bget at got
    rw [shows.inv.cached_eq,shows.inv.unused_eq,← cached,← unused] at got
    simp only [perform,here,if_true,Bio.Cache.bget]
    cases found : c.cached key.blockno with
    | some k =>
      rw [found] at got
      cases got
      exact ⟨_,rfl,shows.set inv (by rw [buf k]; rfl) (device k) asked⟩
    | none =>
      rw [found] at got
      cases free : c.unused with
      | none => simp [free] at got
      | some k =>
        rw [free] at got
        cases got
        exact ⟨_,rfl,shows.set inv (by rw [buf k]; simp [Buf.shown,asked,real]) (.inr asked) asked⟩
  | next p =>
    simp only [Bcache.step,State.next] at stepped
    simp only [perform,Bio.Cache.next,place]
    simp only [State.reorder] at inv
    have asks := (shows.doing p).2
    cases at_ : s.doing p with
    | nothing => simp [at_] at stepped
    | lock k key =>
      rw [at_] at stepped asks inv
      obtain ⟨free,rfl⟩ := Runs.enabled stepped
      have unheld : (c.buf k).holder = none := by rw [buf k,Buf.shown,free]; rfl
      exact ⟨_,if_pos unheld,shows.set inv (by rw [buf k]; rfl) (device k) asks⟩
    | read k key =>
      have named : (s.buf k).key = key := shows.inv.named p k key (.inr (.inr (.inl at_)))
      rw [at_] at stepped asks inv
      cases stepped
      have block := (shows.block_iff asks real k).mpr named
      refine ⟨_,rfl,?_⟩
      unfold Bio.Cache.load
      rw [block]
      cases valid : (c.buf k).valid with
      | false => exact shows.set inv (by rw [buf k]; rfl) (device k) trivial
      | true =>
        have read : (s.buf k).valid = true := by rwa [buf k] at valid
        have same : { s.buf k with valid := true } = s.buf k := by rw [← read]
        exact shows.set inv (by rw [same]; exact buf k) (device k) trivial
    | release k key =>
      rw [at_] at stepped inv
      cases stepped
      have count : (c.buf k).refcnt = (s.buf k).refcnt := by rw [buf k]; rfl
      refine ⟨_,rfl,?_⟩
      dsimp only at inv
      rw [← count] at inv
      exact shows.set inv (by rw [buf k]; rfl) (device k) trivial
  | brelse p k =>
    simp only [Bcache.step] at stepped
    cases holder : (s.buf k).holder with
    | none => simp [holder] at stepped
    | some found =>
      obtain ⟨q,key⟩ := found
      simp only [holder] at stepped
      obtain ⟨⟨rfl,idle⟩,rfl⟩ := Runs.enabled stepped
      refine ⟨_,if_pos ⟨?_,?_⟩,shows.set inv (by rw [buf k]; rfl) (device k) trivial⟩
      · rw [buf k,Buf.shown,holder]; rfl
      · rw [place,idle]; rfl
  | bpin k =>
    obtain ⟨inside,rfl⟩ := Runs.enabled stepped
    exact ⟨_,if_pos inside,inv,shows.setBuf (by rw [buf k]; rfl) (device k),shows.doing⟩
  | bunpin k =>
    obtain ⟨pinned,rfl⟩ := Runs.enabled stepped
    have pinned : 0 < (c.buf k).pins := by rw [buf k]; exact pinned
    exact ⟨_,if_pos pinned,inv,shows.setBuf (by rw [buf k]; rfl) (device k),shows.doing⟩

end Shows

/-- Every run on one device is a run of the operations on the list of buffers. -/
theorem cache_refines (real : dev ≠ 0) {schedule : List (Action n)}
    (one : ∀ a ∈ schedule, ∀ p key, a = .bread p key → key.dev = dev) (ran : Runs.run step (init n) schedule = some s)
    (blank : α) (disk : Nat → α) :
    ∃ acts c, Runs.run (perform (n := n)) (.init blank disk) acts = some c ∧ Shows dev s c := by
  refine Runs.run_simulates (Shows dev) (fun s a t c one shows stepped => ?_) one ?_ ran
  · obtain ⟨d,performed,shows⟩ := shows.step real one stepped
    exact ⟨[a],d,by simp [Runs.run,performed],shows⟩
  · exact ⟨.init n,fun _ => ⟨rfl,.inl rfl⟩,fun _ => ⟨rfl,trivial⟩⟩

end Xv6.Bcache

namespace Xv6.LogPins

open Function

/-- Where a process is in the model without buffers. -/
def phaseOf (ops : Finset Nat) (commit : Option (Nat × Stage)) (p : Nat) : LogGroup.Phase :=
  if p ∈ ops then .inOp
  else match commit with
    | some (q,stage) => if q = p then stage.phase else .idle
    | none => .idle

def State.sys (s : State) (hist : List LogGroup.Event) : LogGroup.Sys := ⟨s.log,phaseOf s.ops s.commit,none,hist⟩

variable {s t : State} {p : Nat} {stage : Stage} {hist : List LogGroup.Event}

theorem phaseOf_awake (ops : Finset Nat) (commit : Option (Nat × Stage)) (p : Nat) : phaseOf ops commit p ≠ .asleep := by
  unfold phaseOf
  split
  · simp
  split
  · split
    · unfold Stage.phase
      split <;> simp
    · simp
  · simp

theorem wakeup_phaseOf (ops : Finset Nat) (commit : Option (Nat × Stage)) :
    LogGroup.wakeup (phaseOf ops commit) = phaseOf ops commit :=
  funext fun q => if_neg (phaseOf_awake ops commit q)

theorem free_idle (outside : p ∉ s.ops) (free : s.free p = true) : phaseOf s.ops s.commit p = .idle := by
  have other : s.commit.map Prod.fst ≠ some p := (of_decide_eq_true free).2
  unfold phaseOf
  rw [if_neg outside]
  cases commit : s.commit with
  | none => rfl
  | some x =>
    rw [commit] at other
    exact if_neg fun same => other (congrArg some same)

theorem step_simulates (inv : Inv s) {a : Action} (stepped : s.step a = some t) :
    ∃ acts hist', Runs.run LogGroup.step (s.sys hist) acts = some (t.sys hist') := by
  have stays (log : t.log = s.log) (ops : t.ops = s.ops) (commit : t.commit = s.commit) :
      ∃ acts hist', Runs.run LogGroup.step (s.sys hist) acts = some (t.sys hist') :=
    ⟨[],hist,by simp [Runs.run,State.sys,log,ops,commit]⟩
  cases a with
  | beginOp p =>
    obtain ⟨⟨free,outside,flag,fits⟩,rfl⟩ := Runs.enabled stepped
    have phase : phaseOf (insert p s.ops) s.commit = update (phaseOf s.ops s.commit) p .inOp :=
      eq_update_iff.mpr ⟨by simp [phaseOf],fun q other => by simp [phaseOf,other]⟩
    refine ⟨[.beginOp p],hist ++ [.begin p],?_⟩
    simp [Runs.run,LogGroup.step,State.sys,LogGroup.beginOp,free_idle outside free,flag,not_lt.mpr fits,phase]
  | bread p b =>
    obtain ⟨_,got⟩ := Option.ite_none_right_eq_some.mp stepped
    obtain ⟨_,_,rfl⟩ := Option.map_eq_some_iff.mp got
    exact stays rfl rfl rfl
  | next p =>
    simp only [State.step] at stepped
    split at stepped
    swap
    · obtain ⟨_,_,rfl⟩ := Option.map_eq_some_iff.mp stepped
      exact stays rfl rfl rfl
    split at stepped
    swap
    · simp at stepped
    rename_i q stage commits
    obtain ⟨rfl,did⟩ := Option.ite_none_right_eq_some.mp stepped
    have quiet : s.ops = ∅ := inv.quiet (by simp [commits])
    have before : phaseOf s.ops s.commit q = stage.phase := by simp [phaseOf,quiet,commits]
    have goes (later : Stage) : phaseOf s.ops (some (q,later)) = update (phaseOf s.ops s.commit) q later.phase :=
      eq_update_iff.mpr ⟨by simp [phaseOf,quiet],fun r other => by simp [phaseOf,quiet,commits,other.symm]⟩
    cases inv.commits did with
    | goto cache later block phase =>
      obtain same | ⟨committing,headed⟩ := phase
      · exact ⟨[],hist,by simp [Runs.run,State.sys,State.goto,goes,same,← before]⟩
      · refine ⟨[.writeHead q],hist ++ [.header q s.log.lh],?_⟩
        simp [Runs.run,LogGroup.step,State.sys,State.goto,LogGroup.writeHead,before,committing,goes,headed]
    | clear =>
      refine ⟨[.clear q],hist,?_⟩
      simp [Runs.run,LogGroup.step,State.sys,State.goto,LogGroup.clear,before,goes,Stage.phase]
    | finish =>
      have idle : phaseOf s.ops none = update (phaseOf s.ops s.commit) q .idle :=
        eq_update_iff.mpr ⟨by simp [phaseOf,quiet],fun r other => by simp [phaseOf,quiet,commits,other.symm]⟩
      refine ⟨[.finish q],hist ++ [.done q],?_⟩
      simp [Runs.run,LogGroup.step,State.sys,LogGroup.finish,before,Stage.phase,← idle,wakeup_phaseOf]
  | modify p k data =>
    simp only [State.step] at stepped
    split at stepped
    · obtain ⟨_,rfl⟩ := Runs.enabled stepped
      exact stays rfl rfl rfl
    · simp at stepped
  | logWrite p k =>
    simp only [State.step] at stepped
    split at stepped
    swap
    · simp at stepped
    rename_i b _
    obtain ⟨⟨_,inside,_⟩,wrote⟩ := Option.ite_none_right_eq_some.mp stepped
    simp only [State.logWrite] at wrote
    obtain ⟨room,wrote⟩ := Option.ite_none_left_eq_some.mp wrote
    obtain ⟨ops,commit,log⟩ : t.ops = s.ops ∧ t.commit = s.commit ∧
        t.log = { s.log with lh := Log.absorb s.log.lh b } := by
      unfold Log.absorb
      split at wrote
      · cases wrote
        simp_all
      · cases wrote
        simp_all
    refine ⟨[.logWrite p b],hist ++ [.write p b],?_⟩
    have inOp : phaseOf s.ops s.commit p = .inOp := if_pos inside
    simp only [not_or] at room
    simp [Runs.run,LogGroup.step,State.sys,LogGroup.logWrite,inOp,ops,commit,log,room]
  | brelse p k =>
    obtain ⟨_,rfl⟩ := Runs.enabled stepped
    exact stays rfl rfl rfl
  | endOp p =>
    obtain ⟨⟨_,inside,_⟩,ended⟩ := Option.ite_none_right_eq_some.mp stepped
    have inOp : phaseOf s.ops s.commit p = .inOp := if_pos inside
    simp only [State.endOp] at ended
    obtain ⟨flag,ended⟩ := Option.ite_none_left_eq_some.mp ended
    have quiet : s.commit = none := by
      have := inv.flag
      simp_all
    split at ended
    · rename_i last
      cases ended
      have phase (stage : Stage) : phaseOf (s.ops.erase p) (some (p,stage)) =
          update (phaseOf s.ops s.commit) p stage.phase :=
        eq_update_iff.mpr ⟨by simp [phaseOf],fun q other => by simp [phaseOf,quiet,other,other.symm]⟩
      have first : (if s.log.lh.length > 0 then Stage.writeLog 0 else .finish).phase =
          if s.log.lh.length > 0 then .committing else .cleared := by split <;> rfl
      refine ⟨[.endOp p,.commit p],hist ++ [.endOp p] ++ [.commit p],?_⟩
      simp only [State.sys,phase,first]
      simp [Runs.run,LogGroup.step,LogGroup.endOp,LogGroup.commit,inOp,flag,last]
    · rename_i more
      cases ended
      have phase : phaseOf (s.ops.erase p) s.commit = update (phaseOf s.ops s.commit) p .idle :=
        eq_update_iff.mpr ⟨by simp [phaseOf,quiet],fun q other => by simp [phaseOf,other]⟩
      refine ⟨[.endOp p],hist ++ [.endOp p],?_⟩
      simp [Runs.run,LogGroup.step,State.sys,LogGroup.endOp,inOp,flag,more,← phase,wakeup_phaseOf]

/-- Every run of the log over the buffer cache is a run of the log alone: the same header and counters, and every
process where it is in `begin_op`, `end_op` and `commit`. -/
theorem log_refines {start size : Nat} {disk : Nat → Block} {schedule : List Action}
    (ran : Runs.run State.step (.init start size disk) schedule = some s) :
    ∃ acts hist, Runs.run LogGroup.step (LogGroup.initial start size) acts = some (s.sys hist) := by
  obtain ⟨acts,_,ran,_,hist,rfl⟩ := Runs.run_simulates (fun s g => Inv s ∧ ∃ hist, g = s.sys hist)
    (fun s a t u _ shows stepped => by
      obtain ⟨inv,hist,rfl⟩ := shows
      obtain ⟨acts,hist',ran⟩ := step_simulates inv stepped
      exact ⟨acts,_,ran,inv.step stepped,hist',rfl⟩)
    (C := fun _ => True) (fun _ _ => trivial) ⟨.init start size disk,[],rfl⟩ ran
  exact ⟨acts,hist,ran⟩

end Xv6.LogPins
