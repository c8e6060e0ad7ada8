import Xv6.LogPins

/-! Pins, the log and the disk agree in every run. -/
namespace Xv6.LogPins

open Bio Function

/-- The first blocks of the header are in the log. -/
def Written (c : Cache Block) (log : Log) (view : Nat → Block) (n : Nat) : Prop :=
  ∀ i < n, ∀ b, log.lh[i]? = some b → c.disk (log.start + i + 1) = view b

/-- What `commit` has done before each statement. -/
def Stage.Ok (c : Cache Block) (log : Log) (view : Nat → Block) (p : Nat) : Stage → Prop
  | writeLog tail => Written c log view tail
  | writeFrom tail dst => Written c log view tail ∧ tail < log.lh.length ∧ c.Gets p dst (log.start + tail + 1)
  | copyLog tail dst src =>
    Written c log view tail ∧ c.Has p dst (log.start + tail + 1) ∧ ∃ b, log.lh[tail]? = some b ∧ c.Gets p src b
  | bwriteLog tail dst src =>
    Written c log view tail ∧ c.Has p dst (log.start + tail + 1) ∧
      ∃ b, log.lh[tail]? = some b ∧ c.Has p src b ∧ (c.buf dst).data = view b
  | relseFrom tail dst src =>
    Written c log view (tail + 1) ∧ c.Has p dst (log.start + tail + 1) ∧ ∃ b, log.lh[tail]? = some b ∧ c.Has p src b
  | relseTo tail dst => Written c log view (tail + 1) ∧ c.Has p dst (log.start + tail + 1)
  | head again => if again then log.lh = [] else Written c log view log.lh.length
  | putHead again buf => (if again then log.lh = [] else Written c log view log.lh.length) ∧ c.Gets p buf log.start
  | bwriteHead again buf | relseHead again buf =>
    (if again then log.lh = [] else Written c log view log.lh.length) ∧ c.Has p buf log.start
  | install _ => Written c log view log.lh.length
  | readHome tail lbuf =>
    Written c log view log.lh.length ∧ tail < log.lh.length ∧ c.Gets p lbuf (log.start + tail + 1)
  | copyHome tail lbuf dbuf =>
    Written c log view log.lh.length ∧ c.Has p lbuf (log.start + tail + 1) ∧
      ∃ b, log.lh[tail]? = some b ∧ c.Gets p dbuf b
  | bwriteHome tail lbuf dbuf | relseLog tail lbuf dbuf =>
    Written c log view log.lh.length ∧ c.Has p lbuf (log.start + tail + 1) ∧
      ∃ b, log.lh[tail]? = some b ∧ c.Has p dbuf b
  | unpin tail lbuf dbuf =>
    Written c log view log.lh.length ∧ c.Has p lbuf (log.start + tail + 1) ∧
      ∃ b, log.lh[tail]? = some b ∧ c.Has p dbuf b ∧ c.disk b = view b
  | relseHome _ dbuf => Written c log view log.lh.length ∧ ∃ b, c.Has p dbuf b
  | clear => True
  | finish => log.lh = []

variable {c d : Cache Block} {freed : Option Nat} {q tail lbuf dbuf : Nat}

theorem Written.of_disk {log : Log} {view : Nat → Block} {n : Nat} (written : Written c log view n)
    (disk : ∀ i < n, i < log.lh.length → d.disk (log.start + i + 1) = c.disk (log.start + i + 1)) :
    Written d log view n := by
  intro i small b listed
  rw [disk i small (List.getElem?_eq_some_iff.mp listed).1]
  exact written i small b listed

theorem Written.moves {log : Log} {view : Nat → Block} {n p : Nat} (written : Written c log view n)
    (moved : Cache.Moves c d p freed) : Written d log view n :=
  written.of_disk fun i _ _ => by rw [moved.disk]

structure Inv (s : State) : Prop where
  ok : s.cache.Ok
  flag : s.log.committing = s.commit.isSome
  outstanding : s.log.outstanding = s.ops.card
  quiet : s.commit.isSome → s.ops = ∅
  nodup : s.log.lh.Nodup
  home : ∀ b ∈ s.log.lh, ¬s.log.Owns b
  room : ∀ i < s.log.lh.length, i + 1 < s.log.size
  pins : ∀ k, (s.cache.buf k).pins = if ∃ b ∈ s.pinned, (s.cache.buf k).block = some b then 1 else 0
  present : ∀ b ∈ s.pinned, ∃ k, (s.cache.buf k).block = some b ∧ (s.cache.buf k).valid = true
  data : ∀ k b, (s.cache.buf k).valid = true → (s.cache.buf k).block = some b → ¬s.log.Owns b →
    (s.cache.buf k).data = s.view b
  disk : ∀ b, ¬s.log.Owns b → s.cache.disk b = s.view b ∨ b ∈ s.pinned ∨ s.dirty b = true
  dirty : ∀ b, s.dirty b = true → ∃ k p, s.cache.Has p k b ∧ p ∈ s.ops
  logged : ∀ k b, (s.cache.buf k).valid = true → (s.cache.buf k).block = some b → s.log.Owns b →
    (s.cache.buf k).data = s.cache.disk b ∨ ∃ p stage, s.commit = some (p,stage) ∧ stage.writing = some k
  stage : ∀ p stage, s.commit = some (p,stage) → stage.Ok s.cache s.log s.view p

theorem Stage.Ok.mono {log : Log} {view : Nat → Block} {p : Nat} {stage : Stage}
    (ok : stage.Ok c log view p) (has : ∀ k b, c.Has p k b → d.Has p k b) (gets : ∀ k b, c.Gets p k b → d.Gets p k b)
    (disk : d.disk = c.disk) (data : ∀ k b, c.Has p k b → (d.buf k).data = (c.buf k).data) :
    stage.Ok d log view p := by
  have written (n : Nat) (done : Written c log view n) : Written d log view n :=
    done.of_disk fun i _ _ => by rw [disk]
  cases stage with
  | writeLog tail | install tail => exact written _ ok
  | writeFrom tail dst | readHome tail lbuf => exact ⟨written _ ok.1,ok.2.1,gets _ _ ok.2.2⟩
  | copyLog tail dst src =>
    obtain ⟨done,hasDst,b,listed,getsSrc⟩ := ok
    exact ⟨written _ done,has _ _ hasDst,b,listed,gets _ _ getsSrc⟩
  | bwriteLog tail dst src =>
    obtain ⟨done,hasDst,b,listed,hasSrc,copied⟩ := ok
    exact ⟨written _ done,has _ _ hasDst,b,listed,has _ _ hasSrc,(data _ _ hasDst).trans copied⟩
  | relseFrom tail dst src =>
    obtain ⟨done,hasDst,b,listed,hasSrc⟩ := ok
    exact ⟨written _ done,has _ _ hasDst,b,listed,has _ _ hasSrc⟩
  | relseTo tail dst => exact ⟨written _ ok.1,has _ _ ok.2⟩
  | head again =>
    cases again with
    | true => exact ok
    | false => exact written _ ok
  | putHead again buf =>
    cases again with
    | true => exact ⟨ok.1,gets _ _ ok.2⟩
    | false => exact ⟨written _ ok.1,gets _ _ ok.2⟩
  | bwriteHead again buf | relseHead again buf =>
    cases again with
    | true => exact ⟨ok.1,has _ _ ok.2⟩
    | false => exact ⟨written _ ok.1,has _ _ ok.2⟩
  | copyHome tail lbuf dbuf =>
    obtain ⟨done,hasLog,b,listed,getsHome⟩ := ok
    exact ⟨written _ done,has _ _ hasLog,b,listed,gets _ _ getsHome⟩
  | bwriteHome tail lbuf dbuf | relseLog tail lbuf dbuf =>
    obtain ⟨done,hasLog,b,listed,hasHome⟩ := ok
    exact ⟨written _ done,has _ _ hasLog,b,listed,has _ _ hasHome⟩
  | unpin tail lbuf dbuf =>
    obtain ⟨done,hasLog,b,listed,hasHome,same⟩ := ok
    exact ⟨written _ done,has _ _ hasLog,b,listed,has _ _ hasHome,by rw [disk]; exact same⟩
  | relseHome tail dbuf =>
    obtain ⟨done,b,hasHome⟩ := ok
    exact ⟨written _ done,b,has _ _ hasHome⟩
  | clear => trivial
  | finish => exact ok

theorem pinned_nil {s : State} (empty : s.log.lh = []) : s.pinned = [] := by
  cases commits : s.commit <;> simp [State.pinned,pinnedOf,commits,empty]

/-- What a statement of `commit` does: buffers in use keep their blocks, and the header is written, cleared or left
as it is. -/
inductive Commits (s : State) (p : Nat) : Stage → State → Prop
  | goto {stage : Stage} (cache : Cache Block) (later : Stage)
    (block : ∀ k, 0 < (s.cache.buf k).refcnt → (cache.buf k).block = (s.cache.buf k).block)
    (phase : later.phase = stage.phase ∨ stage.phase = .committing ∧ later.phase = .headed) :
    Commits s p stage (s.goto p cache later)
  | clear : Commits s p .clear { s.goto p s.cache (.head true) with log := { s.log with lh := [] } }
  | finish : Commits s p .finish { s with log := { s.log with committing := false }, commit := none }

namespace Inv

variable {s t : State} {p k b : Nat}

/-- A thread goes on in `bread` or `brelse`. The commit may go on with it, as long as the pins are the same. -/
theorem moves (inv : Inv s) {cache : Cache Block} (commit : Option (Nat × Stage)) (ok : cache.Ok)
    (moved : Cache.Moves s.cache cache p freed)
    (kept : ∀ k b, s.dirty b = true → s.cache.Has p k b → freed ≠ some k)
    (same : commit.isSome = s.commit.isSome) (pinned : { s with commit := commit }.pinned = s.pinned)
    (writing : ∀ p k stage, s.commit = some (p,stage) → stage.writing = some k →
      ∃ stage, commit = some (p,stage) ∧ stage.writing = some k)
    (stage : ∀ p stage, commit = some (p,stage) → stage.Ok cache s.log s.view p) :
    Inv { s with cache := cache, commit := commit } := by
  have pinned : ({ s with cache := cache, commit := commit } : State).pinned = s.pinned := pinned
  -- a pinned buffer is in use and keeps its block
  have used (k b : Nat) (listed : b ∈ s.pinned) (block : (s.cache.buf k).block = some b) :
    0 < (s.cache.buf k).refcnt := by
    have := inv.pins k
    rw [if_pos ⟨b,listed,block⟩] at this
    rw [inv.ok.count,this]
    omega
  have listed (k b : Nat) (listed : b ∈ s.pinned) : (cache.buf k).block = some b ↔ (s.cache.buf k).block = some b := by
    obtain ⟨l,block,_⟩ := inv.present b listed
    have now := (moved.block l (used l b listed block)).trans block
    constructor
    · intro here
      rwa [ok.unique k l b here now]
    · intro here
      rwa [inv.ok.unique k l b here block]
  refine { inv with
    ok := ok, flag := inv.flag.trans same.symm, quiet := fun some => inv.quiet (same ▸ some), pins := ?pins
    present := ?present, data := ?data, disk := ?disk, dirty := ?dirty, logged := ?logged, stage := stage }
  case pins =>
    intro k
    rw [pinned,moved.pins,inv.pins]
    refine if_congr ?_ rfl rfl
    exact exists_congr fun b => and_congr_right fun there => (listed k b there).symm
  case present =>
    rw [pinned]
    intro b there
    obtain ⟨k,block,valid⟩ := inv.present b there
    exact ⟨k,(listed k b there).mpr block,moved.stays k (used k b there block) valid⟩
  case data =>
    intro k b valid block unlogged
    obtain ⟨before,⟨old,same⟩ | ⟨unread,same⟩⟩ := moved.valid k b valid block
    · exact same.trans (inv.data k b old before unlogged)
    · -- the block was read from the disk, so it was not pinned and nobody had changed it
      obtain clean | there | dirty := inv.disk b unlogged
      · exact same.trans clean
      · obtain ⟨l,here,valid⟩ := inv.present b there
        obtain rfl := inv.ok.unique k l b before here
        simp [unread] at valid
      · obtain ⟨l,q,has,_⟩ := inv.dirty b dirty
        obtain rfl := inv.ok.unique k l b before has.1
        have valid := has.2.1
        simp [unread] at valid
  case disk =>
    rw [pinned,moved.disk]
    exact inv.disk
  case dirty =>
    intro b changed
    obtain ⟨k,q,has,inside⟩ := inv.dirty b changed
    refine ⟨k,q,has.moves inv.ok moved ?_,inside⟩
    obtain rfl | another := eq_or_ne q p
    · exact .inr (kept k b changed has)
    · exact .inl another
  case logged =>
    intro k b valid block owned
    simp only [moved.disk]
    obtain ⟨before,⟨old,same⟩ | ⟨_,same⟩⟩ := moved.valid k b valid block
    · rw [same]
      obtain clean | ⟨q,stage,now,writes⟩ := inv.logged k b old before owned
      · exact .inl clean
      · obtain ⟨stage,now,writes⟩ := writing q k stage now writes
        exact .inr ⟨q,stage,now,writes⟩
    · exact .inl same

/-! Steps of threads that are not in `commit`. -/

theorem data_moved (ok : c.Ok) (moved : Cache.Moves c d p freed)
    (has : c.Has q k b) : (d.buf k).data = (c.buf k).data := by
  obtain ⟨block,valid,holder⟩ := has
  have positive := ok.referenced (ok.held k q holder).1
  obtain ⟨_,⟨_,same⟩ | ⟨unread,_⟩⟩ :=
    moved.valid k b (moved.stays k positive valid) ((moved.block k positive).trans block)
  · exact same
  · simp [valid] at unread

theorem stage_moves (inv : Inv s) {cache : Cache Block} (moved : Cache.Moves s.cache cache p freed) {stage : Stage}
    (commits : s.commit = some (q,stage)) (another : q ≠ p) :
    stage.Ok cache s.log s.view q :=
  (inv.stage q stage commits).mono (fun _ _ has => has.moves inv.ok moved (.inl another))
    (fun _ _ gets => gets.moves inv.ok moved another) moved.disk (fun _ _ => data_moved inv.ok moved)

theorem free_ne (free : s.free p = true) {stage : Stage} (commits : s.commit = some (q,stage)) : q ≠ p := by
  rintro rfl
  simp [State.free,commits] at free

theorem free_idle (free : s.free p = true) : s.cache.doing p = .nothing := by
  simp only [State.free,decide_eq_true_eq] at free
  exact free.1

section

variable (inv : Inv s)
include inv

theorem bread (free : s.free p = true) {cache : Cache Block} (got : s.cache.bget p b = some (cache,k)) :
    Inv { s with cache := cache } := by
  have moved := inv.ok.bget_moves got
  exact inv.moves s.commit (inv.ok.bget (free_idle free) got) moved (by simp) rfl rfl
    (fun _ _ stage commits writes => ⟨stage,commits,writes⟩)
    (fun _ _ commits => inv.stage_moves moved commits (free_ne free commits))

theorem brelse (free : s.free p = true) (holder : (s.cache.buf k).holder = some p)
    (clean : (s.cache.buf k).block.map s.dirty ≠ some true) : Inv { s with cache := s.cache.brelse p k } := by
  have moved := Cache.brelse_moves holder
  refine inv.moves s.commit (inv.ok.brelse (free_idle free) holder) moved ?_ rfl rfl
    (fun _ _ stage commits writes => ⟨stage,commits,writes⟩)
    (fun _ _ commits => inv.stage_moves moved commits (free_ne free commits))
  rintro l b changed has ⟨⟩
  simp [has.1,changed] at clean

theorem next {cache : Cache Block} (got : s.cache.next p = some cache) : Inv { s with cache := cache } := by
  have moved := Cache.next_moves got
  refine inv.moves s.commit (inv.ok.next got) moved (by simp) rfl rfl
    (fun _ _ stage commits writes => ⟨stage,commits,writes⟩) ?_
  intro q stage commits
  obtain rfl | another := eq_or_ne q p
  · exact (inv.stage q stage commits).mono (fun _ _ has => has.moves inv.ok moved (by simp))
      (fun _ _ gets => gets.next inv.ok got) moved.disk (fun _ _ => data_moved inv.ok moved)
  · exact inv.stage_moves moved commits another

theorem beginOp (new : p ∉ s.ops) (idle : s.log.committing = false) :
    Inv { s with log := { s.log with outstanding := s.log.outstanding + 1 }, ops := insert p s.ops } := by
  have none : s.commit.isSome = false := inv.flag ▸ idle
  refine { inv with outstanding := ?_, quiet := ?_, dirty := ?_ }
  · simp [new,inv.outstanding]
  · simp [none]
  · intro b changed
    obtain ⟨k,q,has,inside⟩ := inv.dirty b changed
    exact ⟨k,q,has,Finset.mem_insert_of_mem inside⟩

theorem commit_none (inside : p ∈ s.ops) : s.commit = none := by
  cases commits : s.commit with
  | none => rfl
  | some now =>
    have := inv.quiet (by simp [commits])
    simp [this] at inside

theorem endOp (inside : p ∈ s.ops) (released : ∀ k < nbuf, (s.cache.buf k).holder ≠ some p)
    (ended : s.endOp p = some t) : Inv t := by
  have none := inv.commit_none inside
  have card : s.log.outstanding - 1 = (s.ops.erase p).card := by
    have := Finset.card_pos.mpr ⟨p,inside⟩
    rw [Finset.card_erase_of_mem inside,inv.outstanding]
    omega
  have dirty (b : Nat) (changed : s.dirty b = true) : ∃ k q, s.cache.Has q k b ∧ q ∈ s.ops.erase p := by
    obtain ⟨k,q,has,there⟩ := inv.dirty b changed
    refine ⟨k,q,has,Finset.mem_erase.mpr ⟨?_,there⟩⟩
    rintro rfl
    exact released k (inv.ok.inside k b has.1) has.2.2
  have open' : s.log.committing = false := by simp [inv.flag,none]
  simp only [State.endOp,open',Bool.false_eq_true,if_false] at ended
  split at ended
  · rename_i last
    cases ended
    have empty : s.ops.erase p = ∅ := Finset.card_eq_zero.mp (by exact_mod_cast card.symm.trans last)
    have pinned : pinnedOf s.log.lh (some (p,if s.log.lh.length > 0 then .writeLog 0 else .finish)) = s.pinned := by
      split <;> simp [State.pinned,none,pinnedOf,Stage.unpinned]
    have logged (k b : Nat) (valid : (s.cache.buf k).valid = true) (block : (s.cache.buf k).block = some b)
        (owned : s.log.Owns b) : (s.cache.buf k).data = s.cache.disk b := by
      simpa [none] using inv.logged k b valid block owned
    refine { inv with
      flag := rfl, outstanding := card, quiet := fun _ => empty, dirty := dirty
      pins := ?_, present := ?_, disk := ?_, stage := ?_
      logged := fun k b valid block owned => .inl (logged k b valid block owned) }
    · simp only [State.pinned,pinned]
      exact inv.pins
    · simp only [State.pinned,pinned]
      exact inv.present
    · simp only [State.pinned,pinned]
      exact inv.disk
    · rintro q stage ⟨⟩
      split
      · exact fun i small => absurd small (Nat.not_lt_zero i)
      · rename_i empty
        exact List.length_eq_zero_iff.mp (Nat.eq_zero_of_not_pos empty)
  · cases ended
    exact { inv with flag := open' ▸ inv.flag, outstanding := card, quiet := by simp [none], dirty := dirty }

theorem modify {data : Block} (inside : p ∈ s.ops) (block : (s.cache.buf k).block = some b) (free : s.free p = true)
    (holder : (s.cache.buf k).holder = some p) (unlogged : ¬s.log.Owns b) :
    Inv { s with
      cache := s.cache.write k data
      view := update s.view b data
      dirty := update s.dirty b true } := by
  have none := inv.commit_none inside
  have same := Cache.write_same s.cache k data
  have named : (s.cache.buf k).block ≠ .none := by simp [block]
  have valid : (s.cache.buf k).valid = true := by
    have := (inv.ok.held k p holder).2
    simpa [free_idle free] using this
  refine { inv with
    ok := inv.ok.write data named, pins := ?pins, present := ?present, data := ?data, disk := ?disk, dirty := ?dirty
    logged := ?logged, stage := by simp [none] }
  case pins =>
    intro l
    simpa only [Cache.write_pins,same.block] using inv.pins l
  case present =>
    intro x listed
    simp only [same.block,same.valid]
    exact inv.present x listed
  case data =>
    intro l x
    simp only [same.block,same.valid]
    intro read here home
    obtain rfl | other := eq_or_ne l k
    · obtain rfl : b = x := Option.some.inj (block.symm.trans here)
      simp
    · have apart : x ≠ b := by
        rintro rfl
        exact other (inv.ok.unique l k x here block)
      rw [Cache.write_data_other other,update_of_ne apart]
      exact inv.data l x read here home
  case disk =>
    intro x home
    obtain rfl | other := eq_or_ne x b
    · exact .inr (.inr (by simp))
    · simpa [other] using inv.disk x home
  case dirty =>
    intro x changed
    simp only [same.has]
    obtain rfl | other := eq_or_ne x b
    · exact ⟨k,p,⟨block,valid,holder⟩,inside⟩
    · exact inv.dirty x (by simpa [other] using changed)
  case logged =>
    intro l x
    simp only [same.block,same.valid]
    intro read here owned
    obtain rfl | other := eq_or_ne l k
    · obtain rfl : b = x := Option.some.inj (block.symm.trans here)
      exact absurd owned unlogged
    · rw [Cache.write_data_other other]
      exact inv.logged l x read here owned

theorem absorb (inside : p ∈ s.ops) (listed : b ∈ s.log.lh) : Inv { s with dirty := update s.dirty b false } := by
  have none := inv.commit_none inside
  refine { inv with disk := ?_, dirty := ?_ }
  · intro x home
    obtain rfl | other := eq_or_ne x b
    · exact .inr (.inl (by simpa [State.pinned,none,pinnedOf] using listed))
    · simpa [other] using inv.disk x home
  · intro x changed
    have other : x ≠ b := by
      rintro rfl
      simp at changed
    exact inv.dirty x (by simpa [other] using changed)

theorem pin (inside : p ∈ s.ops) (has : s.cache.Has p k b) (unlogged : ¬s.log.Owns b) (new : b ∉ s.log.lh)
    (room : s.log.lh.length + 1 < s.log.size) :
    Inv { s with
      cache := s.cache.bpin k
      log := { s.log with lh := s.log.lh ++ [b] }
      dirty := update s.dirty b false } := by
  have none := inv.commit_none inside
  have same := Cache.bpin_same s.cache k
  obtain ⟨block,valid,holder⟩ := has
  have listed : s.pinned = s.log.lh := by simp [State.pinned,none,pinnedOf]
  have now : pinnedOf (s.log.lh ++ [b]) s.commit = s.log.lh ++ [b] := by simp [none,pinnedOf]
  have data (l : Nat) : ((s.cache.bpin k).buf l).data = (s.cache.buf l).data := by
    obtain rfl | other := eq_or_ne l k
    · simp [Cache.bpin]
    · simp [Cache.bpin,other]
  refine { inv with
    ok := inv.ok.bpin (by simp [block]), nodup := ?nodup, home := ?home, room := ?room, pins := ?pins
    present := ?present, data := ?data, disk := ?disk, dirty := ?dirty, logged := ?logged, stage := by simp [none] }
  case nodup =>
    exact List.nodup_append.mpr ⟨inv.nodup,List.nodup_singleton b,fun x there y only same =>
      new (List.mem_singleton.mp only ▸ same ▸ there)⟩
  case home =>
    intro x there
    obtain there | there := List.mem_append.mp there
    · exact inv.home x there
    · rw [List.mem_singleton.mp there]
      exact unlogged
  case room =>
    intro i small
    simp only [List.length_append,List.length_singleton] at small ⊢
    omega
  case pins =>
    intro l
    simp only [State.pinned,now,same.block]
    have before := inv.pins l
    rw [listed] at before
    obtain rfl | other := eq_or_ne l k
    · rw [if_neg (by simpa [block] using new)] at before
      simp [Cache.bpin,before,block]
    · simp only [Cache.bpin,update_of_ne other,before]
      refine if_congr ⟨?_,?_⟩ rfl rfl
      · rintro ⟨x,there,here⟩
        exact ⟨x,List.mem_append_left _ there,here⟩
      · rintro ⟨x,there,here⟩
        obtain there | there := List.mem_append.mp there
        · exact ⟨x,there,here⟩
        · rw [List.mem_singleton.mp there] at here
          exact absurd (inv.ok.unique l k b here block) other
  case present =>
    intro x there
    simp only [State.pinned,now] at there
    simp only [same.block,same.valid]
    obtain there | there := List.mem_append.mp there
    · exact inv.present x (listed ▸ there)
    · rw [List.mem_singleton.mp there]
      exact ⟨k,block,valid⟩
  case data =>
    intro l x
    simp only [same.block,same.valid,data]
    exact inv.data l x
  case disk =>
    intro x home
    simp only [State.pinned,now]
    obtain rfl | other := eq_or_ne x b
    · exact .inr (.inl (by simp))
    · have before := inv.disk x home
      rw [listed] at before
      simpa [other,Cache.bpin] using before
  case dirty =>
    intro x changed
    simp only [same.has]
    have other : x ≠ b := by
      rintro rfl
      simp at changed
    exact inv.dirty x (by simpa [other] using changed)
  case logged =>
    intro l x
    simp only [same.block,same.valid,data]
    exact inv.logged l x

theorem logWrite (inside : p ∈ s.ops) (block : (s.cache.buf k).block = some b) (free : s.free p = true)
    (holder : (s.cache.buf k).holder = some p) (unlogged : ¬s.log.Owns b) (wrote : s.logWrite k b = some t) :
    Inv t := by
  have valid : (s.cache.buf k).valid = true := by
    have := (inv.ok.held k p holder).2
    simpa [free_idle free] using this
  unfold State.logWrite at wrote
  split at wrote
  · cases wrote
  · rename_i fits
    split at wrote
    · cases wrote
      exact inv.absorb inside ‹_›
    · cases wrote
      exact inv.pin inside ⟨block,valid,holder⟩ unlogged ‹_› (by omega)

end

/-! Steps of `commit`. -/

section Commit

variable {stage after : Stage} {cache : Cache Block}

theorem clean (inv : Inv s) (commits : s.commit = some (p,stage)) (b : Nat) : s.dirty b = false := by
  by_contra changed
  obtain ⟨_,q,_,inside⟩ := inv.dirty b (by simpa using changed)
  simp [inv.quiet (by simp [commits])] at inside

theorem logged_clean (inv : Inv s) (commits : s.commit = some (p,stage)) (quiet : stage.writing = none)
    (valid : (s.cache.buf k).valid = true) (block : (s.cache.buf k).block = some b) (owned : s.log.Owns b) :
    (s.cache.buf k).data = s.cache.disk b := by
  obtain clean | ⟨q,st,now,writes⟩ := inv.logged k b valid block owned
  · exact clean
  · rw [commits] at now
    cases now
    simp [quiet] at writes

theorem owns_tail (inv : Inv s) (small : tail < s.log.lh.length) : s.log.Owns (s.log.start + tail + 1) :=
  .inr ⟨by omega,by have := inv.room tail small; omega⟩

theorem listed_home (inv : Inv s) (listed : s.log.lh[tail]? = some b) : ¬s.log.Owns b :=
  inv.home b (List.mem_of_getElem? listed)

theorem listed_lt {lh : List Nat} (listed : lh[tail]? = some b) : tail < lh.length :=
  (List.getElem?_eq_some_iff.mp listed).1

section

variable (inv : Inv s) (commits : s.commit = some (p,stage))
include inv commits

theorem commit_moves (ok : cache.Ok) (moved : Cache.Moves s.cache cache p freed)
    (unpinned : s.log.lh.drop (after.unpinned s.log.lh.length) = s.log.lh.drop (stage.unpinned s.log.lh.length))
    (quiet : stage.writing = none) (done : after.Ok cache s.log s.view p) : Inv (s.goto p cache after) := by
  refine inv.moves _ ok moved ?_ (by simp [commits]) ?_ ?_ ?_
  · intro k b changed
    simp [inv.clean commits] at changed
  · simpa [State.pinned,pinnedOf,commits] using unpinned
  · intro q k st now writes
    rw [commits] at now
    cases now
    simp [quiet] at writes
  · rintro q st ⟨⟩
    exact done

theorem fetch (idle : s.cache.doing p = .nothing) {next : Nat → Stage} (fetched : s.fetch p b next = some t)
    (unpinned : ∀ k, (next k).unpinned s.log.lh.length = stage.unpinned s.log.lh.length)
    (quiet : stage.writing = none)
    (done : ∀ k cache, cache.Gets p k b → Cache.Moves s.cache cache p none → (next k).Ok cache s.log s.view p) :
    Inv t := by
  obtain ⟨⟨cache,k⟩,got,rfl⟩ := Option.map_eq_some_iff.mp fetched
  have moved := inv.ok.bget_moves got
  exact inv.commit_moves commits (inv.ok.bget idle got) moved (by rw [unpinned]) quiet
    (done k cache (Cache.bget_gets inv.ok got) moved)

theorem commit_brelse (idle : s.cache.doing p = .nothing) (has : s.cache.Has p k b)
    (unpinned : after.unpinned s.log.lh.length = stage.unpinned s.log.lh.length) (quiet : stage.writing = none)
    (done : Cache.Moves s.cache (s.cache.brelse p k) p (some k) → after.Ok (s.cache.brelse p k) s.log s.view p) :
    Inv (s.goto p (s.cache.brelse p k) after) := by
  have moved := Cache.brelse_moves has.2.2
  exact inv.commit_moves commits (inv.ok.brelse idle has.2.2) moved (by rw [unpinned]) quiet (done moved)

theorem commit_same (ok : cache.Ok) (same : Cache.SameBlocks s.cache cache)
    (pins : ∀ k, (cache.buf k).pins = (s.cache.buf k).pins)
    (unpinned : after.unpinned s.log.lh.length = stage.unpinned s.log.lh.length)
    (data : ∀ k b, (s.cache.buf k).valid = true → (s.cache.buf k).block = some b → ¬s.log.Owns b →
      (cache.buf k).data = s.view b)
    (disk : ∀ b, ¬s.log.Owns b → cache.disk b = s.cache.disk b ∨ cache.disk b = s.view b)
    (logged : ∀ k b, (s.cache.buf k).valid = true → (s.cache.buf k).block = some b → s.log.Owns b →
      (cache.buf k).data = cache.disk b ∨ after.writing = some k)
    (done : after.Ok cache s.log s.view p) : Inv (s.goto p cache after) := by
  have pinned : (s.goto p cache after).pinned = s.pinned := by
    simp [State.goto,State.pinned,pinnedOf,commits,unpinned]
  refine { inv with
    ok := ok, flag := by simpa [State.goto,commits] using inv.flag, quiet := fun _ => inv.quiet (by simp [commits])
    pins := ?pins, present := ?present, data := ?data, disk := ?disk, dirty := ?dirty, logged := ?logged
    stage := ?stage }
  case pins =>
    intro k
    rw [pinned]
    simp only [State.goto,pins,same.block]
    exact inv.pins k
  case present =>
    rw [pinned]
    simp only [State.goto,same.block,same.valid]
    exact inv.present
  case data =>
    intro k b
    simp only [State.goto,same.block,same.valid]
    exact data k b
  case disk =>
    intro b home
    rw [pinned]
    obtain old | new := disk b home
    · simp only [State.goto,old]
      exact inv.disk b home
    · exact .inl new
  case dirty =>
    intro b changed
    simp [State.goto,inv.clean commits] at changed
  case logged =>
    intro k b
    simp only [State.goto,same.block,same.valid]
    exact fun valid block owned => (logged k b valid block owned).imp_right fun writes => ⟨p,after,rfl,writes⟩
  case stage =>
    rintro q st ⟨⟩
    exact done

theorem fill (quiet : stage.writing = none) (has : s.cache.Has p k b) (owned : s.log.Owns b) {data : Block}
    (unpinned : after.unpinned s.log.lh.length = stage.unpinned s.log.lh.length) (writes : after.writing = some k)
    (done : after.Ok (s.cache.write k data) s.log s.view p) : Inv (s.goto p (s.cache.write k data) after) := by
  refine inv.commit_same commits (inv.ok.write data (by simp [has.1])) (Cache.write_same s.cache k data) (by simp)
    unpinned ?_ (fun _ _ => .inl rfl) ?_ done
  · intro l x valid block home
    have other : l ≠ k := by
      rintro rfl
      exact home (Option.some.inj (has.1.symm.trans block) ▸ owned)
    rw [Cache.write_data_other other]
    exact inv.data l x valid block home
  · intro l x valid block own
    obtain rfl | other := eq_or_ne l k
    · exact .inr writes
    · rw [Cache.write_data_other other]
      exact .inl (inv.logged_clean commits quiet valid block own)

theorem flush (writing : stage.writing = some k) (has : s.cache.Has p k b) (owned : s.log.Owns b)
    (unpinned : after.unpinned s.log.lh.length = stage.unpinned s.log.lh.length)
    (done : after.Ok (s.cache.bwrite k) s.log s.view p) : Inv (s.goto p (s.cache.bwrite k) after) := by
  have disk := Cache.bwrite_disk has.1
  refine inv.commit_same commits inv.ok.bwrite (Cache.bwrite_same s.cache k) (by simp) unpinned
    (by simpa using inv.data) ?_ ?_ done
  · intro x home
    have other : x ≠ b := by
      rintro rfl
      exact home owned
    exact .inl (by simp [disk,other])
  · intro l x valid block own
    left
    rw [disk,Cache.bwrite_buf]
    obtain rfl | other := eq_or_ne x b
    · rw [inv.ok.unique l k x block has.1,update_self]
    · rw [update_of_ne other]
      obtain clean | ⟨q,st,now,writes⟩ := inv.logged l x valid block own
      · exact clean
      · rw [commits] at now
        cases now
        rw [writing] at writes
        cases writes
        exact absurd (Option.some.inj (block.symm.trans has.1)) other

end

theorem buffers_ne (has : s.cache.Has p k b) {l x : Nat} (other : s.cache.Has p l x) (owned : s.log.Owns x)
    (home : ¬s.log.Owns b) : l ≠ k := by
  rintro rfl
  exact home (Option.some.inj (has.1.symm.trans other.1) ▸ owned)

/-- A block is copied from the log, where it was written from the same buffer, and written to its place. -/
theorem copyHome (inv : Inv s) (commits : s.commit = some (p,.copyHome tail lbuf dbuf))
    (idle : s.cache.doing p = .nothing) :
    Inv (s.goto p (s.cache.write dbuf (s.cache.buf lbuf).data) (.bwriteHome tail lbuf dbuf)) := by
  obtain ⟨written,hasLog,b,listed,gets⟩ := inv.stage p _ commits
  have has := gets.has idle
  have home := inv.listed_home listed
  have small := listed_lt listed
  have same := Cache.write_same s.cache dbuf (s.cache.buf lbuf).data
  have copy : (s.cache.buf lbuf).data = s.view b := by
    rw [inv.logged_clean commits rfl hasLog.2.1 hasLog.1 (inv.owns_tail small)]
    exact written tail small b listed
  refine inv.commit_same commits (inv.ok.write _ (by simp [has.1])) same (by simp) rfl ?_ (fun _ _ => .inl rfl) ?_
    ⟨written,same.has.mpr hasLog,b,listed,same.has.mpr has⟩
  · intro k x valid block unlogged
    obtain rfl | other := eq_or_ne k dbuf
    · obtain rfl : b = x := Option.some.inj (has.1.symm.trans block)
      simpa using copy
    · rw [Cache.write_data_other other]
      exact inv.data k x valid block unlogged
  · intro k x valid block owned
    have other : k ≠ dbuf := by
      rintro rfl
      exact home (Option.some.inj (has.1.symm.trans block) ▸ owned)
    rw [Cache.write_data_other other]
    exact .inl (inv.logged_clean commits rfl valid block owned)

theorem bwriteHome (inv : Inv s) (commits : s.commit = some (p,.bwriteHome tail lbuf dbuf)) :
    Inv (s.goto p (s.cache.bwrite dbuf) (.unpin tail lbuf dbuf)) := by
  obtain ⟨written,hasLog,b,listed,has⟩ := inv.stage p _ commits
  have home := inv.listed_home listed
  have disk := Cache.bwrite_disk has.1
  have same := Cache.bwrite_same s.cache dbuf
  have copy := inv.data dbuf b has.2.1 has.1 home
  refine inv.commit_same commits inv.ok.bwrite same (by simp) rfl (by simpa using inv.data) ?_ ?_
    ⟨written.of_disk ?_,same.has.mpr hasLog,b,listed,same.has.mpr has,by simp [disk,copy]⟩
  · intro x _
    obtain rfl | other := eq_or_ne x b
    · exact .inr (by simp [disk,copy])
    · exact .inl (by simp [disk,other])
  · intro k x valid block owned
    have other : x ≠ b := by
      rintro rfl
      exact home owned
    rw [disk,update_of_ne other,Cache.bwrite_buf]
    exact .inl (inv.logged_clean commits rfl valid block owned)
  · intro i _ small
    have other : s.log.start + i + 1 ≠ b := by
      rintro same
      exact home (same ▸ inv.owns_tail small)
    simp [disk,other]

theorem unpin (inv : Inv s) (commits : s.commit = some (p,.unpin tail lbuf dbuf)) :
    Inv (s.goto p (s.cache.bunpin dbuf) (.relseLog tail lbuf dbuf)) := by
  obtain ⟨written,hasLog,b,listed,has,copy⟩ := inv.stage p _ commits
  have same := Cache.bunpin_same s.cache dbuf
  obtain ⟨small,here⟩ := List.getElem?_eq_some_iff.mp listed
  have before : s.pinned = b :: s.log.lh.drop (tail + 1) := by
    simp only [State.pinned,pinnedOf,commits,Stage.unpinned]
    rw [List.drop_eq_getElem_cons small,here]
  have after : (s.goto p (s.cache.bunpin dbuf) (.relseLog tail lbuf dbuf)).pinned = s.log.lh.drop (tail + 1) := rfl
  have new : b ∉ s.log.lh.drop (tail + 1) := by
    have nodup := inv.nodup.sublist (List.drop_sublist tail s.log.lh)
    rw [List.drop_eq_getElem_cons small,here] at nodup
    exact (List.nodup_cons.mp nodup).1
  have pinned : (s.cache.buf dbuf).pins = 1 := by
    rw [inv.pins,if_pos ⟨b,by simp [before],has.1⟩]
  have data (l : Nat) : ((s.cache.bunpin dbuf).buf l).data = (s.cache.buf l).data := by
    obtain rfl | other := eq_or_ne l dbuf
    · simp [Cache.bunpin]
    · simp [Cache.bunpin,other]
  refine { inv with
    ok := inv.ok.bunpin (by simp [has.1]) (by omega)
    flag := by simpa [State.goto,commits] using inv.flag, quiet := fun _ => inv.quiet (by simp [commits])
    pins := ?pins, present := ?present, data := ?data, disk := ?disk, dirty := ?dirty, logged := ?logged
    stage := ?stage }
  case pins =>
    intro l
    rw [after]
    simp only [State.goto,same.block]
    obtain rfl | other := eq_or_ne l dbuf
    · rw [if_neg (by simpa [has.1] using new)]
      simp [Cache.bunpin,pinned]
    · simp only [Cache.bunpin,update_of_ne other,inv.pins,before]
      refine if_congr ⟨?_,?_⟩ rfl rfl
      · rintro ⟨x,there,block⟩
        obtain rfl | there := List.mem_cons.mp there
        · exact absurd (inv.ok.unique l dbuf x block has.1) other
        · exact ⟨x,there,block⟩
      · rintro ⟨x,there,block⟩
        exact ⟨x,List.mem_cons_of_mem b there,block⟩
  case present =>
    intro x there
    simp only [State.goto,same.block,same.valid]
    exact inv.present x (before ▸ List.mem_cons_of_mem b (after ▸ there))
  case data =>
    intro l x
    simp only [State.goto,same.block,same.valid,data]
    exact inv.data l x
  case disk =>
    intro x home
    rw [after]
    simp only [State.goto,Cache.bunpin]
    obtain clean | there | changed := inv.disk x home
    · exact .inl clean
    · obtain rfl | there := List.mem_cons.mp (before ▸ there)
      · exact .inl copy
      · exact .inr (.inl there)
    · exact .inr (.inr changed)
  case dirty =>
    intro x changed
    simp [State.goto,inv.clean commits] at changed
  case logged =>
    intro l x
    simp only [State.goto,same.block,same.valid,data]
    exact fun valid block owned => .inl (inv.logged_clean commits rfl valid block owned)
  case stage =>
    rintro q st ⟨⟩
    exact ⟨written,same.has.mpr hasLog,b,listed,same.has.mpr has⟩

theorem clear (inv : Inv s) (commits : s.commit = some (p,.clear)) :
    Inv { s.goto p s.cache (.head true) with log := { s.log with lh := [] } } := by
  have none : s.pinned = [] := by simp [State.pinned,pinnedOf,commits,Stage.unpinned]
  have now : pinnedOf [] (some (p,.head true)) = [] := rfl
  refine { inv with
    flag := by simpa [State.goto,commits] using inv.flag
    quiet := fun _ => inv.quiet (by simp [commits])
    nodup := List.nodup_nil
    home := by simp
    room := by simp
    pins := ?_, present := by simp [State.pinned,State.goto,now], disk := ?_, logged := ?_, stage := ?_ }
  · intro k
    have before := inv.pins k
    simpa [none,State.pinned,State.goto,now] using before
  · intro b home
    have before := inv.disk b home
    rw [none] at before
    simpa [State.pinned,State.goto,now] using before
  · exact fun k b valid block owned => .inl (inv.logged_clean commits rfl valid block owned)
  · rintro q st ⟨⟩
    rfl

theorem finish (inv : Inv s) (commits : s.commit = some (p,.finish)) :
    Inv { s with log := { s.log with committing := false }, commit := none } := by
  have empty : s.log.lh = [] := inv.stage p _ commits
  have same : pinnedOf s.log.lh none = s.pinned := by simp [State.pinned,pinnedOf,commits,empty]
  refine { inv with
    flag := rfl
    quiet := by simp
    pins := by simpa only [State.pinned,same] using inv.pins
    present := by simpa only [State.pinned,same] using inv.present
    disk := ?_
    logged := fun k b valid block owned => .inl (inv.logged_clean commits rfl valid block owned)
    stage := by simp }
  intro b home
  simp only [State.pinned,same]
  exact inv.disk b home

theorem commitNext (inv : Inv s) (commits : s.commit = some (p,stage)) (idle : s.cache.doing p = .nothing)
    (did : s.commitNext p stage = some t) : Inv t := by
  have ok := inv.stage p stage commits
  cases stage with
  | writeLog tail =>
    simp only [State.commitNext] at did
    split at did
    · exact inv.fetch commits idle did (fun _ => rfl) rfl fun k cache gets moved =>
        ⟨Written.moves ok moved,‹_›,gets⟩
    · cases did
      exact inv.commit_moves commits inv.ok (.refl s.cache p) rfl rfl fun i small b listed => ok i (by omega) b listed
  | writeFrom tail dst | readHome tail lbuf =>
    obtain ⟨b,listed,did⟩ := Option.bind_eq_some_iff.mp did
    obtain ⟨written,_,gets⟩ := ok
    exact inv.fetch commits idle did (fun _ => rfl) rfl fun k cache new moved =>
      ⟨written.moves moved,(gets.has idle).moves inv.ok moved (by simp),b,listed,new⟩
  | copyLog tail dst src =>
    cases did
    obtain ⟨written,hasDst,b,listed,gets⟩ := ok
    have hasSrc := gets.has idle
    have same := Cache.write_same s.cache dst (s.cache.buf src).data
    refine inv.fill commits rfl hasDst (inv.owns_tail (listed_lt listed)) rfl rfl
      ⟨written,same.has.mpr hasDst,b,listed,same.has.mpr hasSrc,?_⟩
    rw [Cache.write_data_self]
    exact inv.data src b hasSrc.2.1 hasSrc.1 (inv.listed_home listed)
  | bwriteLog tail dst src =>
    cases did
    obtain ⟨written,hasDst,b,listed,hasSrc,copy⟩ := ok
    have same := Cache.bwrite_same s.cache dst
    refine inv.flush commits rfl hasDst (inv.owns_tail (listed_lt listed)) rfl
      ⟨?_,same.has.mpr hasDst,b,listed,same.has.mpr hasSrc⟩
    intro i small x there
    rw [Cache.bwrite_disk hasDst.1]
    obtain rfl | other := eq_or_ne i tail
    · rw [update_self,copy,Option.some.inj (listed.symm.trans there)]
    · rw [update_of_ne (by omega)]
      exact written i (by omega) x there
  | relseFrom tail dst src =>
    cases did
    obtain ⟨written,hasDst,b,listed,hasSrc⟩ := ok
    have other := buffers_ne hasSrc hasDst (inv.owns_tail (listed_lt listed)) (inv.listed_home listed)
    exact inv.commit_brelse commits idle hasSrc rfl rfl fun moved =>
      ⟨written.moves moved,hasDst.moves inv.ok moved (.inr (by simp [other.symm]))⟩
  | relseTo tail dst =>
    cases did
    exact inv.commit_brelse commits idle ok.2 rfl rfl fun moved => ok.1.moves moved
  | head again =>
    refine inv.fetch commits idle did (fun _ => rfl) rfl fun k cache gets moved => ⟨?_,gets⟩
    cases again with
    | true => exact ok
    | false => exact Written.moves ok moved
  | putHead again buf =>
    cases did
    have has := ok.2.has idle
    have same := Cache.write_same s.cache buf (Log.putHeader (s.cache.buf buf).data s.log.lh)
    exact inv.fill commits rfl has (.inl rfl) rfl rfl ⟨ok.1,same.has.mpr has⟩
  | bwriteHead again buf =>
    cases did
    have same := Cache.bwrite_same s.cache buf
    refine inv.flush commits rfl ok.2 (.inl rfl) rfl ⟨?_,same.has.mpr ok.2⟩
    cases again with
    | true => exact ok.1
    | false =>
      refine Written.of_disk ok.1 fun i _ _ => ?_
      rw [Cache.bwrite_disk ok.2.1,update_of_ne (by omega)]
  | relseHead again buf =>
    cases did
    cases again with
    | true => exact inv.commit_brelse commits idle ok.2 rfl rfl fun _ => ok.1
    | false =>
      exact inv.commit_brelse commits idle ok.2 rfl rfl fun moved => Written.moves ok.1 moved
  | install tail =>
    simp only [State.commitNext] at did
    split at did
    · exact inv.fetch commits idle did (fun _ => rfl) rfl fun k cache gets moved =>
        ⟨Written.moves ok moved,‹_›,gets⟩
    · cases did
      refine inv.commit_moves commits inv.ok (.refl s.cache p) ?_ rfl trivial
      simp only [Stage.unpinned,List.drop_length]
      exact (List.drop_eq_nil_of_le (by omega)).symm
  | copyHome tail lbuf dbuf =>
    cases did
    exact inv.copyHome commits idle
  | bwriteHome tail lbuf dbuf =>
    cases did
    exact inv.bwriteHome commits
  | unpin tail lbuf dbuf =>
    cases did
    exact inv.unpin commits
  | relseLog tail lbuf dbuf =>
    cases did
    obtain ⟨written,hasLog,b,listed,hasHome⟩ := ok
    have other := buffers_ne hasHome hasLog (inv.owns_tail (listed_lt listed)) (inv.listed_home listed)
    exact inv.commit_brelse commits idle hasLog rfl rfl fun moved =>
      ⟨written.moves moved,b,hasHome.moves inv.ok moved (.inr (by simp [other]))⟩
  | relseHome tail dbuf =>
    cases did
    obtain ⟨written,b,hasHome⟩ := ok
    exact inv.commit_brelse commits idle hasHome rfl rfl fun moved => written.moves moved
  | clear =>
    cases did
    exact inv.clear commits
  | finish =>
    cases did
    exact inv.finish commits

end Commit

theorem step (inv : Inv s) {a : Action} (stepped : s.step a = some t) : Inv t := by
  cases a with
  | beginOp p =>
    obtain ⟨⟨_,new,idle,_⟩,rfl⟩ := Runs.enabled stepped
    exact inv.beginOp new idle
  | bread p b =>
    obtain ⟨free,did⟩ := Option.ite_none_right_eq_some.mp stepped
    obtain ⟨⟨cache,k⟩,got,rfl⟩ := Option.map_eq_some_iff.mp did
    exact inv.bread free got
  | next p =>
    simp only [State.step] at stepped
    split at stepped
    · rename_i idle
      cases commits : s.commit with
      | none => simp [commits] at stepped
      | some now =>
        obtain ⟨q,stage⟩ := now
        simp only [commits,Option.ite_none_right_eq_some] at stepped
        obtain ⟨rfl,did⟩ := stepped
        exact inv.commitNext commits idle did
    · obtain ⟨cache,got,rfl⟩ := Option.map_eq_some_iff.mp stepped
      exact inv.next got
  | modify p k data =>
    cases block : (s.cache.buf k).block with
    | none => simp [State.step,block] at stepped
    | some b =>
      simp only [State.step,block] at stepped
      obtain ⟨⟨free,inside,holder,unlogged⟩,rfl⟩ := Runs.enabled stepped
      exact inv.modify inside block free holder unlogged
  | logWrite p k =>
    cases block : (s.cache.buf k).block with
    | none => simp [State.step,block] at stepped
    | some b =>
      simp only [State.step,block,Option.ite_none_right_eq_some] at stepped
      obtain ⟨⟨free,inside,holder,unlogged⟩,did⟩ := stepped
      exact inv.logWrite inside block free holder unlogged did
  | brelse p k =>
    obtain ⟨⟨free,holder,clean⟩,rfl⟩ := Runs.enabled stepped
    exact inv.brelse free holder clean
  | endOp p =>
    obtain ⟨⟨_,inside,released⟩,did⟩ := Option.ite_none_right_eq_some.mp stepped
    exact inv.endOp inside released did

theorem init (start size : Nat) (disk : Nat → Block) : Inv (State.init start size disk) := by
  have ok : (Cache.init (fun _ => 0) disk : Cache Block).Ok := by
    constructor <;> simp [Cache.init]
  constructor
  case ok => exact ok
  all_goals simp [State.init,State.pinned,Cache.init,pinnedOf]

theorem run {start size : Nat} {disk : Nat → Block} {schedule : List Action}
    (ran : Runs.run State.step (State.init start size disk) schedule = some t) : Inv t :=
  Runs.run_invariant Inv (fun _ _ _ inv stepped => inv.step stepped) (.init start size disk) ran

theorem commits {stage : Stage} (inv : Inv s) (did : s.commitNext p stage = some t) : Commits s p stage t := by
  have fetched {b : Nat} {later : Nat → Stage} (fetched : s.fetch p b later = some t)
      (phase : ∀ k, (later k).phase = stage.phase) : Commits s p stage t := by
    obtain ⟨⟨cache,l⟩,got,rfl⟩ := Option.map_eq_some_iff.mp fetched
    exact .goto cache _ (inv.ok.bget_moves got).block (.inl (phase l))
  cases stage with
  | writeLog tail | install tail =>
    simp only [State.commitNext] at did
    split at did
    · exact fetched did fun _ => rfl
    · cases did
      exact .goto _ _ (fun _ _ => rfl) (.inl rfl)
  | writeFrom tail buf | readHome tail buf =>
    obtain ⟨b,_,did⟩ := Option.bind_eq_some_iff.mp did
    exact fetched did fun _ => rfl
  | head again => exact fetched did fun _ => by cases again <;> rfl
  | copyLog tail dst src | copyHome tail lbuf dbuf =>
    cases did
    exact .goto _ _ (fun k _ => (Cache.write_same _ _ _).block k) (.inl rfl)
  | putHead again buf =>
    cases did
    exact .goto _ _ (fun k _ => (Cache.write_same _ _ _).block k) (.inl (by cases again <;> rfl))
  | bwriteLog tail dst src | bwriteHome tail lbuf dbuf =>
    cases did
    exact .goto _ _ (fun k _ => (Cache.bwrite_same _ _).block k) (.inl rfl)
  | bwriteHead again buf =>
    cases did
    refine .goto _ _ (fun k _ => (Cache.bwrite_same _ _).block k) ?_
    cases again with
    | false => exact .inr ⟨rfl,rfl⟩
    | true => exact .inl rfl
  | relseFrom tail dst src | relseTo tail dst | relseLog tail lbuf dbuf | relseHome tail dbuf =>
    cases did
    exact .goto _ _ (fun k _ => Cache.brelse_block _ _ _ k) (.inl rfl)
  | relseHead again buf =>
    cases did
    exact .goto _ _ (fun k _ => Cache.brelse_block _ _ _ k) (.inl (by cases again <;> rfl))
  | unpin tail lbuf dbuf =>
    cases did
    exact .goto _ _ (fun k _ => (Cache.bunpin_same _ _).block k) (.inl rfl)
  | clear =>
    cases did
    exact .clear
  | finish =>
    cases did
    exact .finish

theorem step_block (inv : Inv s) {a : Action} (stepped : s.step a = some t) (used : 0 < (s.cache.buf k).refcnt) :
    (t.cache.buf k).block = (s.cache.buf k).block := by
  cases a with
  | beginOp p =>
    obtain ⟨_,rfl⟩ := Runs.enabled stepped
    rfl
  | bread p b =>
    obtain ⟨⟨cache,l⟩,got,rfl⟩ := Option.map_eq_some_iff.mp (Option.ite_none_right_eq_some.mp stepped).2
    exact (inv.ok.bget_moves got).block k used
  | next p =>
    simp only [State.step] at stepped
    split at stepped
    · cases commits : s.commit with
      | none => simp [commits] at stepped
      | some now =>
        obtain ⟨q,stage⟩ := now
        simp only [commits,Option.ite_none_right_eq_some] at stepped
        cases inv.commits stepped.2 with
        | goto cache later block phase => exact block k used
        | clear | finish => rfl
    · obtain ⟨cache,got,rfl⟩ := Option.map_eq_some_iff.mp stepped
      exact (Cache.next_moves got).block k used
  | modify p l data =>
    cases block : (s.cache.buf l).block with
    | none => simp [State.step,block] at stepped
    | some b =>
      simp only [State.step,block] at stepped
      obtain ⟨_,rfl⟩ := Runs.enabled stepped
      exact (Cache.write_same _ _ _).block k
  | logWrite p l =>
    cases block : (s.cache.buf l).block with
    | none => simp [State.step,block] at stepped
    | some b =>
      simp only [State.step,block,Option.ite_none_right_eq_some] at stepped
      obtain ⟨_,did⟩ := stepped
      unfold State.logWrite at did
      split at did
      · cases did
      · split at did
        · cases did
          rfl
        · cases did
          exact (Cache.bpin_same _ _).block k
  | brelse p l =>
    obtain ⟨_,rfl⟩ := Runs.enabled stepped
    exact Cache.brelse_block _ _ _ k
  | endOp p =>
    obtain ⟨_,did⟩ := Option.ite_none_right_eq_some.mp stepped
    simp only [State.endOp] at did
    split at did
    · cases did
    · split at did <;> cases did <;> rfl

/-- With nothing in the log, a buffer that nobody has locked is as its block on the disk. -/
theorem synced (inv : Inv s) (empty : s.log.lh = []) (valid : (s.cache.buf k).valid = true)
    (unheld : (s.cache.buf k).holder = none) (block : (s.cache.buf k).block = some b) :
    (s.cache.buf k).data = s.cache.disk b := by
  by_cases owned : s.log.Owns b
  · obtain clean | ⟨p,stage,commits,writes⟩ := inv.logged k b valid block owned
    · exact clean
    · have ok := inv.stage p stage commits
      have held : ∃ x, s.cache.Has p k x := by
        cases stage <;> simp only [Stage.writing,Option.some.injEq,reduceCtorEq] at writes
        · subst writes
          exact ⟨_,ok.2.1⟩
        · subst writes
          exact ⟨_,ok.2⟩
      obtain ⟨x,has⟩ := held
      simp [has.2.2] at unheld
  · rw [inv.data k b valid block owned]
    obtain clean | listed | changed := inv.disk b owned
    · exact clean.symm
    · simp [pinned_nil empty] at listed
    · obtain ⟨l,p,has,_⟩ := inv.dirty b changed
      obtain rfl := inv.ok.unique k l b block has.1
      simp [has.2.2] at unheld

end Inv

/-- Whatever the threads do: the header has no block twice; a buffer has, besides those of the threads, one
reference for a block of the header that `install_trans` has not yet unpinned, and that block is in the cache with
what it was last changed to and stays in its buffer; `write_log` ends with that in the log; after the commit the
header is empty, so that no buffer is pinned, and then every buffer that is valid and not locked is as on the disk. -/
theorem log_pins {start size : Nat} {disk : Nat → Block} {schedule : List Action} {s : State}
    (ran : Runs.run State.step (.init start size disk) schedule = some s) :
    s.log.lh.Nodup ∧
    (∀ k, (s.cache.buf k).refcnt = s.cache.refs.countP (·.2 = k) +
      if ∃ b ∈ s.pinned, (s.cache.buf k).block = some b then 1 else 0) ∧
    (∀ b ∈ s.pinned, ∃ k, (s.cache.buf k).block = some b ∧ (s.cache.buf k).valid = true ∧
      (s.cache.buf k).data = s.view b ∧ ∀ a t, s.step a = some t → (t.cache.buf k).block = some b) ∧
    (∀ p, s.commit = some (p,.head false) → ∀ i b, s.log.lh[i]? = some b →
      s.cache.disk (s.log.start + i + 1) = s.view b) ∧
    (∀ p, s.commit = some (p,.finish) → s.log.lh = []) ∧
    (s.log.lh = [] → s.pinned = [] ∧ ∀ k b, (s.cache.buf k).valid = true → (s.cache.buf k).holder = none →
      (s.cache.buf k).block = some b → (s.cache.buf k).data = s.cache.disk b) := by
  have inv := Inv.run ran
  refine ⟨inv.nodup,fun k => ?_,fun b listed => ?_,fun p commits i b listed => ?_,fun p => inv.stage p _,
    fun empty => ⟨pinned_nil empty,fun k b => inv.synced empty⟩⟩
  · rw [inv.ok.count,inv.pins]
  · obtain ⟨k,block,valid⟩ := inv.present b listed
    have home : ¬s.log.Owns b := by
      refine inv.home b ?_
      cases commits : s.commit with
      | none => simpa [State.pinned,pinnedOf,commits] using listed
      | some now => exact List.mem_of_mem_drop (by simpa [State.pinned,pinnedOf,commits] using listed)
    have used : 0 < (s.cache.buf k).refcnt := by
      rw [inv.ok.count,inv.pins,if_pos ⟨b,listed,block⟩]
      omega
    exact ⟨k,block,valid,inv.data k b valid block home,fun a t stepped => (inv.step_block stepped used).trans block⟩
  · exact inv.stage p _ commits i (Inv.listed_lt listed) b listed

/-- One block is changed and committed. -/
def changeBlock : List Action :=
  ([.beginOp 0,.bread 0 40,.next 0,.next 0,.modify 0 0 fun _ => 7,.logWrite 0 0,.brelse 0 0,.next 0,
    .endOp 0] : List Action) ++ List.replicate 43 (Action.next 0)

theorem changeBlock_pins : ∃ s, Runs.run State.step (.init 2 logSize fun _ _ => 0) changeBlock = some s ∧
    ((s.cache.buf 0).block,(s.cache.buf 0).valid,(s.cache.buf 0).refcnt,s.commit.isSome,s.cache.disk 40 0) =
      (some 40,true,0,false,7) ∧ (s.cache.buf 0).data = s.cache.disk 40 := by
  refine Runs.reaches (fun s => ((s.cache.buf 0).block,(s.cache.buf 0).valid,(s.cache.buf 0).refcnt,s.commit.isSome,
    s.cache.disk 40 0) = (some 40,true,0,false,7) ∧ s.log.lh = [] ∧ (s.cache.buf 0).holder = none) (by decide +kernel)
    fun s ran seen => ?_
  obtain ⟨_,_,_,_,_,last⟩ := log_pins ran
  have clean := seen.1
  simp only [Prod.mk.injEq] at clean
  exact ⟨seen.1,(last seen.2.1).2 0 40 clean.2.1 seen.2.2 clean.1⟩

end Xv6.LogPins
