import Xv6.LogCommit

/-! Crash atomicity of the log. `Recoverable home d` says which contents recovery will give
to the blocks outside the log; every single disk write of `commit` and of recovery keeps
it, except the header write that commits. -/
namespace Xv6.Log

open Writes Function

namespace Machine

def emit (m : Machine) (ws : List (Nat × Block)) : Machine :=
  { m with
    disk := replay m.disk ws
    cache := replay m.cache (ws.map (fun w => (w.1, some w.2)))
    trail := m.trail ++ ws }

theorem bwrite_eq_emit (m : Machine) (b : Nat) (data : Block) : m.bwrite b data = m.emit [(b,data)] := rfl

@[simp] theorem emit_nil (m : Machine) : m.emit [] = m := by simp [emit]

theorem emit_emit (m : Machine) (ws vs : List (Nat × Block)) : (m.emit ws).emit vs = m.emit (ws ++ vs) := by
  simp [emit,replay_append]

@[simp] theorem emit_log (m : Machine) (ws : List (Nat × Block)) : (m.emit ws).log = m.log := rfl
@[simp] theorem emit_disk (m : Machine) (ws : List (Nat × Block)) : (m.emit ws).disk = replay m.disk ws := rfl
@[simp] theorem emit_trail (m : Machine) (ws : List (Nat × Block)) : (m.emit ws).trail = m.trail ++ ws := rfl
@[simp] theorem clear_disk (m : Machine) : m.clear.disk = m.disk := rfl
@[simp] theorem clear_trail (m : Machine) : m.clear.trail = m.trail := rfl
@[simp] theorem clear_start (m : Machine) : m.clear.log.start = m.log.start := rfl
@[simp] theorem clear_lh (m : Machine) : m.clear.log.lh = [] := rfl
@[simp] theorem clear_bread (m : Machine) (b : Nat) : m.clear.bread b = m.bread b := rfl

theorem bread_emit (m : Machine) (ws : List (Nat × Block)) (b : Nat) :
    (m.emit ws).bread b = replay m.bread ws b := by
  induction ws generalizing m with
  | nil => simp
  | cons w ws ih =>
    rw [← List.singleton_append,← emit_emit,ih,replay_append]
    congr 1
    funext x
    by_cases same : x = w.1
    · subst same; simp [emit,bread]
    · simp [emit,bread,same]

end Machine

def copies (start tail : Nat) : List Block → List (Nat × Block)
  | [] => []
  | v :: vs => (start + tail + 1, v) :: copies start (tail + 1) vs

theorem copies_mem {start tail : Nat} {vs : List Block} {w : Nat × Block}
    (member : w ∈ copies start tail vs) : start + tail < w.1 ∧ w.1 ≤ start + tail + vs.length := by
  induction vs generalizing tail with
  | nil => simp [copies] at member
  | cons v vs ih =>
    rcases List.mem_cons.mp member with rfl | later
    · simp
    · have := ih later
      simp only [List.length_cons]
      omega

theorem replay_copies {start tail i : Nat} {vs : List Block} (d : Disk) (bound : i < vs.length) :
    replay d (copies start tail vs) (start + tail + 1 + i) = vs[i] := by
  induction vs generalizing d tail i with
  | nil => simp at bound
  | cons v vs ih =>
    rw [copies,replay_cons]
    cases i with
    | zero =>
      rw [replay_untouched]
      · simp
      · intro w member
        have := (copies_mem member).1
        omega
    | succ i =>
      have next : replay (update d (start + tail + 1) v) (copies start (tail + 1) vs)
          (start + (tail + 1) + 1 + i) = vs.get ⟨i,Nat.lt_of_succ_lt_succ bound⟩ := ih _ _
      rw [show start + tail + 1 + (i + 1) = start + (tail + 1) + 1 + i by omega,next]
      rfl

namespace Machine

/-- `write_log` reads only home blocks, which its own writes leave alone. -/
theorem writeLogFrom_eq (m : Machine) (tail : Nat) (bs : List Nat)
    (home : ∀ b ∈ bs, b ≤ m.log.start + tail ∨ m.log.start + tail + bs.length < b) :
    m.writeLogFrom tail bs = m.emit (copies m.log.start tail (bs.map m.bread)) := by
  induction bs generalizing m tail with
  | nil => simp [writeLogFrom,copies]
  | cons b bs ih =>
    have rest : ∀ c ∈ bs, (m.emit [(m.log.start + tail + 1,m.bread b)]).bread c = m.bread c := by
      intro c member
      have := home c (List.mem_cons_of_mem b member)
      rw [List.length_cons] at this
      rw [bread_emit]
      exact update_of_ne (by omega) _ _
    rw [writeLogFrom,bwrite_eq_emit,ih]
    · rw [List.map_congr_left rest,emit_emit]
      rfl
    · intro c member
      have := home c (List.mem_cons_of_mem b member)
      rw [List.length_cons] at this
      simp only [emit_log]
      omega

/-- `install_trans` reads only log blocks, which its own writes leave alone. -/
theorem installFrom_eq (m : Machine) (tail : Nat) (bs : List Nat) (home : ∀ b ∈ bs, ¬m.log.Owns b)
    (inside : tail + bs.length < m.log.size ∨ bs = []) :
    m.installFrom tail bs = m.emit (bs.mapIdx (fun i b => (b,m.bread (m.log.start + tail + 1 + i)))) := by
  induction bs generalizing m tail with
  | nil => simp [installFrom]
  | cons b bs ih =>
    have bound : tail + (b :: bs).length < m.log.size := by simpa using inside
    have unlogged := home b List.mem_cons_self
    rw [List.length_cons] at bound
    have same (i : Nat) (inLog : i < bs.length) :
        (m.emit [(b,m.bread (m.log.start + tail + 1))]).bread (m.log.start + (tail + 1) + 1 + i) =
          m.bread (m.log.start + tail + 1 + (i + 1)) := by
      rw [bread_emit,show m.log.start + (tail + 1) + 1 + i = m.log.start + tail + 1 + (i + 1) by omega]
      apply update_of_ne
      intro equal
      exact unlogged (.inr (by omega))
    rw [installFrom,bwrite_eq_emit,ih]
    · rw [emit_emit,List.mapIdx_cons,List.singleton_append]
      congr 2
      apply List.mapIdx_eq_mapIdx_iff.mpr
      intro i inLog
      rw [emit_log,same i inLog]
    · intro c member
      exact home c (List.mem_cons_of_mem b member)
    · exact .inl (by simp only [emit_log]; omega)

end Machine

theorem load_putBlocks_before {hb : Block} {i j : Nat} {bs : List Nat} (before : j + 4 ≤ 4 + 4 * i) :
    Bytes.load 4 (putBlocks hb i bs) j = Bytes.load 4 hb j := by
  induction bs generalizing hb i with
  | nil => rfl
  | cons b bs ih =>
    rw [putBlocks,ih (by omega)]
    exact Bytes.load_store_other (by omega)

theorem headerBlocksFrom_putBlocks (hb : Block) (i : Nat) (bs : List Nat) (uint : ∀ b ∈ bs, b < 2 ^ 32) :
    headerBlocksFrom (putBlocks hb i bs) i bs.length = bs := by
  induction bs generalizing hb i with
  | nil => rfl
  | cons b bs ih =>
    rw [List.length_cons,putBlocks,headerBlocksFrom,load_putBlocks_before (by omega),
      Bytes.load_store_value _ _ (uint b List.mem_cons_self),
      ih _ _ (fun c member => uint c (List.mem_cons_of_mem b member))]

theorem headerCount_putHeader (hb : Block) (lh : List Nat) (bound : lh.length < 2 ^ 31) :
    headerCount (putHeader hb lh) = lh.length := by
  have count : Bytes.load 4 (putHeader hb lh) 0 = lh.length := by
    rw [putHeader,load_putBlocks_before (by omega),Bytes.load_store_value]
    omega
  simp only [headerCount,count,if_pos bound]

theorem headerBlocks_putHeader (hb : Block) (lh : List Nat) (bound : lh.length < 2 ^ 31)
    (uint : ∀ b ∈ lh, b < 2 ^ 32) : headerBlocks (putHeader hb lh) = lh := by
  rw [headerBlocks,headerCount_putHeader hb lh bound,putHeader,headerBlocksFrom_putBlocks _ _ _ uint]

@[simp] theorem headerCount_cleared (hb : Block) : headerCount (putHeader hb []) = 0 :=
  headerCount_putHeader hb [] (by simp)

theorem headerBlocks_empty {hb : Block} (empty : headerCount hb = 0) : headerBlocks hb = [] := by
  rw [headerBlocks,empty,headerBlocksFrom]

/-- Recovery will give the blocks outside the log the contents of `home`: those named in
the header have their contents in the log, the others have them already. -/
structure Recoverable (log : Log) (home d : Disk) : Prop where
  named : ∀ b ∈ headerBlocks (d log.start), ¬log.Owns b
  inside : (headerBlocks (d log.start)).length < log.size ∨ headerBlocks (d log.start) = []
  copied : ∀ i (bound : i < (headerBlocks (d log.start)).length),
    d (log.start + 1 + i) = home (headerBlocks (d log.start))[i]
  rest : ∀ b, ¬log.Owns b → b ∉ headerBlocks (d log.start) → d b = home b

/-- With an empty header the home blocks are in place, whatever the log blocks hold. -/
theorem recoverable_of_empty {log : Log} {home d : Disk} (empty : headerCount (d log.start) = 0)
    (installed : ∀ b, ¬log.Owns b → d b = home b) : Recoverable log home d := by
  have none := headerBlocks_empty empty
  refine ⟨?_,.inr none,?_,fun b unlogged _ => installed b unlogged⟩
  · simp [none]
  · simp [none]

theorem Recoverable.installed {log : Log} {home d : Disk} (r : Recoverable log home d)
    (empty : headerCount (d log.start) = 0) {b : Nat} (unlogged : ¬log.Owns b) : d b = home b :=
  r.rest b unlogged (by simp [headerBlocks_empty empty])

theorem start_ne {log : Log} {b : Nat} (unlogged : ¬log.Owns b) : log.start ≠ b :=
  fun same => unlogged (.inl same.symm)

theorem Recoverable.install {log : Log} {home d : Disk} (r : Recoverable log home d) {b : Nat}
    (member : b ∈ headerBlocks (d log.start)) :
    Recoverable log home (update d b (home b)) := by
  have unlogged := r.named b member
  have header : update d b (home b) log.start = d log.start := update_of_ne (start_ne unlogged) _ _
  refine ⟨?_,?_,?_,?_⟩ <;> simp only [header]
  · exact r.named
  · exact r.inside
  · intro i bound
    rw [update_of_ne,r.copied i bound]
    intro same
    have := r.inside
    refine unlogged (.inr ?_)
    rcases this with short | none
    · omega
    · simp [none] at bound
  · intro c outside absent
    by_cases same : c = b
    · subst same; simp
    · rw [update_of_ne same,r.rest c outside absent]

theorem Recoverable.logged {log : Log} {home d : Disk} (r : Recoverable log home d)
    (empty : headerCount (d log.start) = 0) {b : Nat} (after : log.start < b)
    (inLog : b < log.start + log.size) (data : Block) :
    Recoverable log home (update d b data) := by
  apply recoverable_of_empty
  · rwa [update_of_ne (by omega)]
  · intro c outside
    rw [update_of_ne,r.installed empty outside]
    intro same
    exact outside (.inr (by omega))

def recoveryWrites (log : Log) (d : Disk) : List (Nat × Block) :=
  (headerBlocks (d log.start)).mapIdx (fun i b => (b,d (log.start + 1 + i))) ++
    [(log.start,putHeader (d log.start) [])]

theorem recovery_installs {log : Log} {home d : Disk} (r : Recoverable log home d) {w : Nat × Block}
    (member : w ∈ (headerBlocks (d log.start)).mapIdx (fun i b => (b,d (log.start + 1 + i)))) :
    w.1 ∈ headerBlocks (d log.start) ∧ w.2 = home w.1 := by
  obtain ⟨i,bound,rfl⟩ := List.mem_mapIdx.mp member
  exact ⟨List.getElem_mem bound,r.copied i bound⟩

theorem recoverFromLog_eq {log : Log} {home d : Disk} (r : Recoverable log home d) :
    (boot log d).recoverFromLog.disk = replay d (recoveryWrites log d) ∧
    (boot log d).recoverFromLog.trail = recoveryWrites log d := by
  have bread (b : Nat) : (boot log d).readHead.bread b = d b := rfl
  have install : (boot log d).readHead.installTrans = (boot log d).readHead.emit
      ((headerBlocks (d log.start)).mapIdx (fun i b => (b,d (log.start + 1 + i)))) := by
    rw [Machine.installTrans,Machine.installFrom_eq]
    · rfl
    · exact r.named
    · simpa [Machine.readHead,boot,Machine.bread] using r.inside
  have header : replay d ((headerBlocks (d log.start)).mapIdx
      (fun i b => (b,d (log.start + 1 + i)))) log.start = d log.start := by
    apply replay_untouched
    intro w member
    exact (start_ne (r.named _ (recovery_installs r member).1)).symm
  have start : (boot log d).readHead.log.start = log.start := rfl
  rw [Machine.recoverFromLog,install,Machine.writeHead,Machine.bwrite_eq_emit]
  simp only [Machine.clear_start,Machine.emit_log,start,Machine.clear_bread,Machine.bread_emit, Machine.clear_lh]
  rw [show replay (boot log d).readHead.bread _ log.start = d log.start from header]
  constructor
  · simp [recoveryWrites,replay_append,Machine.readHead,boot]
  · simp [recoveryWrites,Machine.readHead,boot]

/-- Every write of a recovery keeps what recovery will give: replay is idempotent. -/
theorem recovery_prefix {log : Log} {home d : Disk} (r : Recoverable log home d) (k : Nat) :
    Recoverable log home (replay d ((recoveryWrites log d).take k)) := by
  let installs := (headerBlocks (d log.start)).mapIdx (fun i b => (b,d (log.start + 1 + i)))
  -- The header stays as it is while blocks are copied home.
  have copying (ws : List (Nat × Block)) (sub : ∀ w ∈ ws, w ∈ installs) :
      Recoverable log home (replay d ws) ∧ (replay d ws) log.start = d log.start := by
    apply replay_invariant (fun e => Recoverable log home e ∧ e log.start = d log.start) ⟨r,rfl⟩
    intro e holds w member
    obtain ⟨inHeader,value⟩ := recovery_installs r (sub w member)
    rw [value]
    refine ⟨holds.1.install (holds.2 ▸ inHeader),?_⟩
    rw [update_of_ne (start_ne (r.named _ inHeader)),holds.2]
  by_cases short : k ≤ installs.length
  · rw [recoveryWrites,List.take_append_of_le_length short]
    exact (copying _ (fun w => List.mem_of_mem_take)).1
  · rw [recoveryWrites,List.take_of_length_le (by
      rw [List.length_append,List.length_singleton]; exact Nat.lt_of_not_le short),replay_append]
    apply recoverable_of_empty
    · simp
    · intro b unlogged
      rw [replay_cons,replay_nil,update_of_ne (start_ne unlogged).symm]
      by_cases member : b ∈ headerBlocks (d log.start)
      · -- The block was copied, by this write or a later one to the same block.
        obtain ⟨i,bound,rfl⟩ := List.mem_iff_getElem.mp member
        have value : replay d installs (headerBlocks (d log.start))[i] =
            replay home installs (headerBlocks (d log.start))[i] := by
          apply replay_congr
          refine .inl ⟨_,List.mem_mapIdx.mpr ⟨i,bound,rfl⟩,rfl⟩
        have fixed : replay home installs = home := by
          apply replay_invariant (fun e => e = home) rfl
          rintro e rfl w inside
          rw [(recovery_installs r inside).2]
          exact update_eq_self _ _
        rw [value,fixed]
      · have last := (copying installs (fun w inside => inside))
        exact last.1.rest b unlogged (by rw [last.2]; exact member)

namespace Machine

/-- Nothing logged, and the cache shows what is on disk: the state between transactions. -/
structure Idle (log : Log) (m : Machine) : Prop where
  start : m.log.start = log.start
  size : m.log.size = log.size
  lh : m.log.lh = []
  coherent : ∀ b, m.bread b = m.disk b

theorem boot_idle (log : Log) (d : Disk) : Idle log (boot log d) := ⟨rfl,rfl,rfl,fun _ => rfl⟩

@[simp] theorem stage_disk (m : Machine) (ws : List (Nat × Block)) : (m.stage ws).disk = m.disk := by
  induction ws generalizing m with
  | nil => rfl
  | cons w ws ih => exact ih _

@[simp] theorem stage_trail (m : Machine) (ws : List (Nat × Block)) : (m.stage ws).trail = m.trail := by
  induction ws generalizing m with
  | nil => rfl
  | cons w ws ih => exact ih _

@[simp] theorem stage_start (m : Machine) (ws : List (Nat × Block)) : (m.stage ws).log.start = m.log.start := by
  induction ws generalizing m with
  | nil => rfl
  | cons w ws ih => exact ih _

@[simp] theorem stage_size (m : Machine) (ws : List (Nat × Block)) : (m.stage ws).log.size = m.log.size := by
  induction ws generalizing m with
  | nil => rfl
  | cons w ws ih => exact ih _

theorem stage_lh (m : Machine) (ws : List (Nat × Block)) (distinct : (ws.map Prod.fst).Nodup)
    (fresh : ∀ w ∈ ws, w.1 ∉ m.log.lh) : (m.stage ws).log.lh = m.log.lh ++ ws.map Prod.fst := by
  induction ws generalizing m with
  | nil => simp [stage]
  | cons w ws ih =>
    rw [List.map_cons,List.nodup_cons] at distinct
    have new : absorb m.log.lh w.1 = m.log.lh ++ [w.1] := if_neg (fresh w List.mem_cons_self)
    have next := ih (m.logWrite w.1 w.2) distinct.2 (by
      intro v member
      simp only [logWrite,new,List.mem_append,List.mem_singleton,not_or]
      refine ⟨fresh v (List.mem_cons_of_mem w member),fun same => ?_⟩
      exact distinct.1 (List.mem_map.mpr ⟨v,member,same⟩))
    rw [show m.stage (w :: ws) = (m.logWrite w.1 w.2).stage ws from rfl,next]
    simp [logWrite,new]

theorem stage_bread (m : Machine) (ws : List (Nat × Block)) (b : Nat) :
    (m.stage ws).bread b = replay m.bread ws b := by
  induction ws generalizing m with
  | nil => rfl
  | cons w ws ih =>
    rw [show m.stage (w :: ws) = (m.logWrite w.1 w.2).stage ws from rfl,ih,replay_cons]
    congr 1
    funext x
    by_cases same : x = w.1
    · subst same; simp [logWrite,bread]
    · simp [logWrite,bread,same]

end Machine

/-- The writes of one commit: copies to the log, the header, the home blocks, and the
header again with a zero count. -/
def commitWrites (log : Log) (hb : Block) (ws : List (Nat × Block)) : List (Nat × Block) :=
  copies log.start 0 (ws.map Prod.snd) ++ (log.start,putHeader hb (ws.map Prod.fst)) ::
      (ws ++ [(log.start,putHeader (putHeader hb (ws.map Prod.fst)) [])])

theorem zip_keys_values (ws : List (Nat × Block)) (f : Nat → Block)
    (values : ∀ i (bound : i < ws.length), f i = ws[i].2) :
    (ws.map Prod.fst).mapIdx (fun i b => (b,f i)) = ws := by
  apply List.ext_getElem
  · simp
  · intro i bound bound'
    simp [values i bound']

namespace Machine

variable {log : Log} {m : Machine}

theorem transact_empty (idle : Idle log m) (tx : Tx log) (empty : tx.writes = []) : m.transact tx = m := by
  simp [transact,stage,empty,commit,idle.lh]

theorem Tx.apart (tx : Tx log) {w : Nat × Block} (member : w ∈ tx.writes) :
    w.1 < log.start ∨ log.start + tx.writes.length < w.1 := by
  have outside := tx.home w member
  have fits := tx.fits
  have some := List.length_pos_of_mem member
  simp only [Log.Owns,not_or,not_and] at outside
  omega

theorem transact_eq (idle : Idle log m) (tx : Tx log) (some : tx.writes ≠ []) :
    (m.transact tx).disk = replay m.disk (commitWrites log (m.disk log.start) tx.writes) ∧
    (m.transact tx).trail = m.trail ++ commitWrites log (m.disk log.start) tx.writes ∧
    Idle log (m.transact tx) := by
  let s := m.stage tx.writes
  let ks := tx.writes.map Prod.fst
  let vs := tx.writes.map Prod.snd
  have start : s.log.start = log.start := (stage_start m _).trans idle.start
  have size : s.log.size = log.size := (stage_size m _).trans idle.size
  have lh : s.log.lh = ks := by
    have := stage_lh m tx.writes tx.distinct (by simp [idle.lh])
    simpa [idle.lh] using this
  have count : 0 < ks.length := by
    rw [List.length_map]; exact List.length_pos_iff.mpr some
  have values : ks.map s.bread = vs := by
    rw [List.map_map]
    apply List.map_congr_left
    intro w member
    exact (stage_bread m _ _).trans (replay_member tx.distinct member)
  have header : s.bread log.start = m.disk log.start := by
    rw [stage_bread,replay_untouched,idle.coherent]
    intro w member
    exact (start_ne (tx.home w member)).symm
  have logPart : s.writeLog = s.emit (copies log.start 0 vs) := by
    rw [writeLog,lh,writeLogFrom_eq,values,start]
    intro b member
    obtain ⟨w,inside,rfl⟩ := List.mem_map.mp member
    have := Tx.apart tx inside
    rw [start,List.length_map]
    omega
  have headPart : s.writeLog.writeHead =
      s.emit (copies log.start 0 vs ++ [(log.start,putHeader (m.disk log.start) ks)]) := by
    rw [logPart,writeHead,bwrite_eq_emit,emit_emit,emit_log,start,lh,bread_emit,replay_untouched,header]
    intro w member
    have := (copies_mem member).1
    omega
  have installPart : s.writeLog.writeHead.installTrans = s.emit (copies log.start 0 vs ++
      [(log.start,putHeader (m.disk log.start) ks)] ++ tx.writes) := by
    rw [headPart,installTrans,installFrom_eq,emit_emit,emit_log,lh,zip_keys_values]
    · intro i bound
      rw [start,bread_emit,replay_append,replay_cons,replay_nil,update_of_ne (by omega),
        replay_copies s.bread (by simpa [vs] using bound)]
      simp [vs]
    · intro b member
      rw [emit_log,lh] at member
      obtain ⟨w,inside,rfl⟩ := List.mem_map.mp member
      have := tx.home w inside
      simpa [Log.Owns,emit_log,start,size] using this
    · have := tx.fits
      rw [emit_log,lh,size,List.length_map]
      exact .inl (by rw [List.length_map] at count; omega)
  have full : m.transact tx = (s.clear).emit (commitWrites log (m.disk log.start) tx.writes) := by
    have last : replay s.bread (copies log.start 0 vs ++
        [(log.start,putHeader (m.disk log.start) ks)] ++ tx.writes) log.start =
        putHeader (m.disk log.start) ks := by
      rw [replay_append,replay_untouched,replay_append]
      · simp
      · intro w member
        exact (start_ne (tx.home w member)).symm
    rw [transact,commit,if_pos (lh ▸ count),installPart,writeHead,bwrite_eq_emit,clear_bread,bread_emit]
    simp only [clear_start,emit_log,start,clear_lh,last]
    simp [emit,clear,commitWrites,replay_append,ks,vs]
  refine ⟨?_,?_,?_⟩
  · rw [full,emit_disk,clear_disk]; simp [s]
  · rw [full,emit_trail,clear_trail]; simp [s]
  · rw [full]
    refine ⟨start,size,rfl,fun b => ?_⟩
    rw [bread_emit,emit_disk]
    apply replay_congr
    by_cases written : ∃ w ∈ tx.writes, w.1 = b
    · obtain ⟨w,member,same⟩ := written
      exact .inl ⟨w,by simp [commitWrites,member],same⟩
    · refine .inr ?_
      rw [clear_bread,stage_bread,replay_untouched,idle.coherent]
      · simp [s]
      · intro w member same
        exact written ⟨w,member,same⟩

end Machine

theorem committed_append (log : Log) (ws vs : List (Nat × Block)) :
    committed log (ws ++ vs) = committed log ws + committed log vs := List.countP_append

theorem committed_apart {log : Log} {ws : List (Nat × Block)} (apart : ∀ w ∈ ws, w.1 ≠ log.start) :
    committed log ws = 0 := by
  apply List.countP_eq_zero.mpr
  intro w member
  simp [apart w member]

theorem committed_header {log : Log} {hb : Block} (ws : List (Nat × Block)) (some : headerCount hb ≠ 0) :
    committed log ((log.start,hb) :: ws) = committed log ws + 1 := by
  rw [committed,List.countP_cons]
  simp [committed,some]

theorem Tx.count_lt {log : Log} (tx : Tx log) : (tx.writes.map Prod.fst).length < 2 ^ 31 := by
  have := tx.named
  simp only [logSize,maxOpBlocks] at this
  rw [List.length_map]
  omega

theorem Tx.header_count {log : Log} (tx : Tx log) (some : tx.writes ≠ []) (hb : Block) :
    headerCount (putHeader hb (tx.writes.map Prod.fst)) ≠ 0 := by
  rw [headerCount_putHeader _ _ tx.count_lt,List.length_map]
  exact Nat.ne_of_gt (List.length_pos_iff.mpr some)

theorem committed_copies {log : Log} (vs : List Block) (k : Nat) :
    committed log ((copies log.start 0 vs).take k) = 0 := by
  apply committed_apart
  intro w member
  have := (copies_mem (List.mem_of_mem_take member)).1
  omega

theorem Tx.committed_installs {log : Log} (tx : Tx log) (k : Nat) : committed log (tx.writes.take k) = 0 := by
  apply committed_apart
  intro w member
  exact (start_ne (tx.home w (List.mem_of_mem_take member))).symm

/-- Of all the writes of a commit exactly one is a non-empty header. -/
theorem committed_commit {log : Log} (tx : Tx log) (some : tx.writes ≠ []) (hb : Block) :
    committed log (commitWrites log hb tx.writes) = 1 := by
  have front := @committed_copies log (tx.writes.map Prod.snd) (copies log.start 0 (tx.writes.map Prod.snd)).length
  have installs := tx.committed_installs tx.writes.length
  rw [List.take_length] at front installs
  rw [commitWrites,committed_append,front,committed_header _ (tx.header_count some hb), committed_append,installs]
  simp [committed]

/-- The commit point: with the copies in the log, the header write makes recovery give the
new contents of every block of the transaction. -/
theorem header_commits {log : Log} {home d : Disk} (tx : Tx log) (hb : Block)
    (rest : ∀ b, ¬log.Owns b → d b = home b)
    (copied : ∀ i (bound : i < tx.writes.length), d (log.start + 1 + i) = tx.writes[i].2) :
    Recoverable log (replay home tx.writes) (update d log.start (putHeader hb (tx.writes.map Prod.fst))) := by
  have blocks : headerBlocks (update d log.start (putHeader hb (tx.writes.map Prod.fst)) log.start) =
      tx.writes.map Prod.fst := by
    rw [update_self,headerBlocks_putHeader _ _ tx.count_lt]
    intro b member
    obtain ⟨w,inside,rfl⟩ := List.mem_map.mp member
    exact tx.uint w inside
  refine ⟨?_,?_,?_,?_⟩ <;> simp only [blocks]
  · intro b member
    obtain ⟨w,inside,rfl⟩ := List.mem_map.mp member
    exact tx.home w inside
  · have := tx.fits
    rcases Nat.eq_zero_or_pos tx.writes.length with zero | pos
    · exact .inr (by simpa using zero)
    · exact .inl (by rw [List.length_map]; omega)
  · intro i bound
    rw [List.length_map] at bound
    rw [update_of_ne (by omega),copied i bound,List.getElem_map,
      replay_member tx.distinct (List.getElem_mem bound)]
  · intro b unlogged absent
    rw [update_of_ne (start_ne unlogged).symm,rest b unlogged,replay_untouched]
    intro w member same
    exact absent (List.mem_map.mpr ⟨w,member,same⟩)

section Commit

variable {log : Log} {home d : Disk} (tx : Tx log) (r : Recoverable log home d)
  (empty : headerCount (d log.start) = 0)

include r empty

/-- While the copies are made nothing is committed and nothing visible changes. -/
theorem copying_recoverable (k : Nat) :
    Recoverable log home (replay d ((copies log.start 0 (tx.writes.map Prod.snd)).take k)) ∧
    replay d ((copies log.start 0 (tx.writes.map Prod.snd)).take k) log.start = d log.start := by
  apply replay_take_invariant (fun e => Recoverable log home e ∧ e log.start = d log.start) ⟨r,rfl⟩
  intro e holds w member
  have bound := copies_mem member
  rw [List.length_map] at bound
  have fits := tx.fits
  refine ⟨holds.1.logged (by rw [holds.2]; exact empty) (by omega) (by omega) _,?_⟩
  rw [update_of_ne (by omega),holds.2]

/-- From the header write on recovery gives the new contents, however many of the home
blocks have been written. -/
theorem installing_recoverable (k : Nat) :
    let committing := replay d (copies log.start 0 (tx.writes.map Prod.snd) ++
      [(log.start,putHeader (d log.start) (tx.writes.map Prod.fst))])
    Recoverable log (replay home tx.writes) (replay committing (tx.writes.take k)) ∧
    replay committing (tx.writes.take k) log.start = putHeader (d log.start) (tx.writes.map Prod.fst) := by
  intro committing
  have whole := copying_recoverable tx r empty (copies log.start 0 (tx.writes.map Prod.snd)).length
  rw [List.take_length] at whole
  have first : Recoverable log (replay home tx.writes) committing := by
    simp only [committing,replay_append,replay_cons,replay_nil]
    apply header_commits
    · intro b unlogged
      exact whole.1.installed (by rw [whole.2]; exact empty) unlogged
    · intro i bound
      have := @replay_copies log.start 0 i (tx.writes.map Prod.snd) d (by simpa using bound)
      simpa using this
  have header : committing log.start = putHeader (d log.start) (tx.writes.map Prod.fst) := by
    simp [committing,replay_append]
  apply replay_take_invariant (fun e => Recoverable log (replay home tx.writes) e ∧
    e log.start = putHeader (d log.start) (tx.writes.map Prod.fst)) ⟨first,header⟩
  intro e holds w member
  have named : w.1 ∈ headerBlocks (e log.start) := by
    rw [holds.2,headerBlocks_putHeader _ _ tx.count_lt]
    · exact List.mem_map_of_mem member
    · intro b inside
      obtain ⟨v,written,rfl⟩ := List.mem_map.mp inside
      exact tx.uint v written
  have step := holds.1.install named
  rw [replay_member tx.distinct member] at step
  refine ⟨step,?_⟩
  rw [update_of_ne (start_ne (tx.home w member)),holds.2]

theorem commit_finished : headerCount (replay d (commitWrites log (d log.start) tx.writes) log.start) = 0 ∧
    Recoverable log (replay home tx.writes) (replay d (commitWrites log (d log.start) tx.writes)) := by
  have cleared : headerCount (replay d (commitWrites log (d log.start) tx.writes) log.start) = 0 := by
    simp [commitWrites,replay_append]
  refine ⟨cleared,recoverable_of_empty cleared fun b unlogged => ?_⟩
  have installing := (installing_recoverable tx r empty tx.writes.length).1
  rw [List.take_length] at installing
  by_cases written : ∃ w ∈ tx.writes, w.1 = b
  · obtain ⟨w,member,rfl⟩ := written
    simp only [commitWrites,replay_append,replay_cons,replay_nil]
    rw [update_of_ne (start_ne unlogged).symm,replay_member tx.distinct member, replay_member tx.distinct member]
  · have absent : ∀ w ∈ tx.writes, w.1 ≠ b := fun w member same => written ⟨w,member,same⟩
    rw [replay_untouched absent,replay_untouched]
    · exact r.installed empty unlogged
    · intro w member
      simp only [commitWrites,List.mem_append,List.mem_cons,List.not_mem_nil,or_false] at member
      rcases member with copy | rfl | update | rfl
      · have bound := copies_mem copy
        rw [List.length_map] at bound
        have fits := tx.fits
        intro same
        exact unlogged (.inr (by omega))
      · exact start_ne unlogged
      · exact absent w update
      · exact start_ne unlogged

/-- Wherever a commit is cut, it has committed nothing and left the old contents, or it has
committed this transaction and left the new ones. -/
theorem commit_prefix (some : tx.writes ≠ []) (k : Nat) :
    (committed log ((commitWrites log (d log.start) tx.writes).take k) = 0 ∧
      Recoverable log home (replay d ((commitWrites log (d log.start) tx.writes).take k))) ∨
    (committed log ((commitWrites log (d log.start) tx.writes).take k) = 1 ∧
      Recoverable log (replay home tx.writes) (replay d ((commitWrites log (d log.start) tx.writes).take k))) := by
  obtain ⟨front,isFront⟩ : ∃ front, front = copies log.start 0 (tx.writes.map Prod.snd) := ⟨_,rfl⟩
  have shape : commitWrites log (d log.start) tx.writes =
      front ++ (log.start,putHeader (d log.start) (tx.writes.map Prod.fst)) ::
        (tx.writes ++ [(log.start,putHeader (putHeader (d log.start) (tx.writes.map Prod.fst)) [])]) := by
    rw [isFront]; rfl
  by_cases early : k ≤ front.length
  · refine .inl ?_
    rw [shape,List.take_append_of_le_length early,isFront]
    exact ⟨committed_copies _ k,(copying_recoverable tx r empty k).1⟩
  · obtain ⟨j,rfl⟩ : ∃ j, k = front.length + (j + 1) := ⟨k - front.length - 1,by omega⟩
    refine .inr ?_
    by_cases middle : j ≤ tx.writes.length
    · rw [shape,List.take_append,List.take_of_length_le (by omega),Nat.add_sub_cancel_left,
        List.take_succ_cons,List.take_append_of_le_length middle]
      constructor
      · have none := @committed_copies log (tx.writes.map Prod.snd) front.length
        rw [← isFront,List.take_length] at none
        rw [committed_append,none,committed_header _ (tx.header_count some _),tx.committed_installs j]
      · have := (installing_recoverable tx r empty j).1
        rwa [← replay_append,List.append_assoc,← isFront] at this
    · rw [List.take_of_length_le (by
        rw [shape,List.length_append,List.length_cons,List.length_append,List.length_singleton]; omega)]
      exact ⟨committed_commit tx some _,(commit_finished tx r empty).2⟩

end Commit

/-- The contents outside the log after the first `k` transactions that write anything. An
empty transaction makes no disk write, so it is not among those counted. -/
def afterFirst {log : Log} (home : Disk) (txs : List (Tx log)) (k : Nat) : Disk :=
  replay home (((txs.filter (fun tx => !tx.writes.isEmpty)).take k).flatMap Tx.writes)

/-- A run of transactions cut anywhere is recoverable to the state after those that
committed. -/
theorem runAll_prefix {log : Log} (txs : List (Tx log)) {home : Disk} {m : Machine}
    (idle : Machine.Idle log m) (r : Recoverable log home m.disk)
    (empty : headerCount (m.disk log.start) = 0) :
    ∃ ws, (m.runAll txs).trail = m.trail ++ ws ∧ ∀ k,
      Recoverable log (afterFirst home txs (committed log (ws.take k))) (replay m.disk (ws.take k)) := by
  induction txs generalizing m home with
  | nil =>
    refine ⟨[],by simp [Machine.runAll],fun k => ?_⟩
    simpa [afterFirst] using r
  | cons tx txs ih =>
    by_cases none : tx.writes = []
    · obtain ⟨ws,trail,cut⟩ := ih idle r empty
      refine ⟨ws,?_,fun k => ?_⟩
      · rw [← trail,Machine.runAll,List.foldl_cons,Machine.transact_empty idle tx none]
        rfl
      · simpa [afterFirst,none] using cut k
    · obtain ⟨disk,trail,next⟩ := Machine.transact_eq idle tx none
      obtain ⟨cleared,installed⟩ := commit_finished tx r empty
      rw [← disk] at cleared installed
      obtain ⟨ws,rest,cut⟩ := ih next installed cleared
      have filtered : (tx :: txs).filter (fun tx => !tx.writes.isEmpty) =
          tx :: txs.filter (fun tx => !tx.writes.isEmpty) := by
        simp [none]
      refine ⟨commitWrites log (m.disk log.start) tx.writes ++ ws,?_,fun k => ?_⟩
      · rw [Machine.runAll,List.foldl_cons]
        change ((m.transact tx).runAll txs).trail = _
        rw [rest,trail,List.append_assoc]
      · obtain ⟨front,isFront⟩ : ∃ front, front = commitWrites log (m.disk log.start) tx.writes := ⟨_,rfl⟩
        rw [← isFront]
        by_cases within : k ≤ front.length
        · rw [List.take_append_of_le_length within]
          have cuts := commit_prefix tx r empty none k
          rw [← isFront] at cuts
          rcases cuts with ⟨count,cut⟩ | ⟨count,cut⟩
          · simpa [count,afterFirst] using cut
          · simpa [count,afterFirst,filtered] using cut
        · obtain ⟨j,rfl⟩ : ∃ j, k = front.length + j := ⟨k - front.length,by omega⟩
          have whole : committed log front = 1 := isFront ▸ committed_commit tx none _
          have later := cut j
          rw [disk,← isFront] at later
          rw [List.take_append,List.take_of_length_le (by omega),Nat.add_sub_cancel_left,
            committed_append,replay_append,whole]
          simpa [afterFirst,filtered,Nat.add_comm 1,replay_append] using later

theorem crashes_recoverable {log : Log} {home d : Disk} (r : Recoverable log home d) (crashes : List Nat) :
    Recoverable log home (crashes.foldl (crashedRecovery log) d) := by
  induction crashes generalizing d with
  | nil => exact r
  | cons k crashes ih =>
    apply ih
    rw [crashedRecovery,(recoverFromLog_eq r).2]
    exact recovery_prefix r k

theorem recovered {log : Log} {home d : Disk} (r : Recoverable log home d) :
    headerCount ((boot log d).recoverFromLog.disk log.start) = 0 ∧
    ∀ b, ¬log.Owns b → (boot log d).recoverFromLog.disk b = home b := by
  have last := recovery_prefix r (recoveryWrites log d).length
  rw [List.take_length,← (recoverFromLog_eq r).1] at last
  have cleared : headerCount ((boot log d).recoverFromLog.disk log.start) = 0 := by
    rw [(recoverFromLog_eq r).1,recoveryWrites,replay_append]
    simp
  exact ⟨cleared,fun b unlogged => last.installed cleared unlogged⟩

/-- Crash atomicity. Transactions run on a disk with an empty header; the power fails after
any number `cut` of single-block writes and again during any number of recoveries. When
recovery at last runs to its end, every block outside the log has its value after exactly
the transactions whose header reached the disk, and the header is empty again. -/
theorem crash_atomic (log : Log) (disk : Disk) (empty : headerCount (disk log.start) = 0)
    (txs : List (Tx log)) (cut : Nat) (crashes : List Nat) :
    let survived := ((boot log disk).runAll txs).trail.take cut
    let rebooted := boot log (crashes.foldl (crashedRecovery log) (replay disk survived))
    (∀ b, ¬log.Owns b → rebooted.recoverFromLog.disk b = afterFirst disk txs (committed log survived) b) ∧
    headerCount (rebooted.recoverFromLog.disk log.start) = 0 := by
  intro survived rebooted
  have r : Recoverable log disk (boot log disk).disk := recoverable_of_empty empty (fun _ _ => rfl)
  obtain ⟨ws,trail,cuts⟩ := runAll_prefix txs (Machine.boot_idle log disk) r empty
  have same : survived = ws.take cut := by
    simp only [survived,trail]
    rfl
  have atCrash := cuts cut
  rw [← same] at atCrash
  have last := recovered (crashes_recoverable atCrash crashes)
  exact ⟨last.2,last.1⟩

def sevens : Tx ⟨2,logSize,0,false,[]⟩ where
  writes := [(40,fun _ => 7)]
  distinct := by decide
  home := by simp [Owns,logSize,maxOpBlocks]
  fits := by decide
  named := by decide
  uint := by simp

/-- The power fails between the header write and the installation, and once more before
recovery has written anything. -/
theorem sevens_survive : let survived := ((boot ⟨2,logSize,0,false,[]⟩ fun _ _ => 0).runAll [sevens]).trail.take 2
    committed ⟨2,logSize,0,false,[]⟩ survived = 1 ∧
    (boot ⟨2,logSize,0,false,[]⟩ (crashedRecovery ⟨2,logSize,0,false,[]⟩
      (replay (fun _ _ => 0) survived) 0)).recoverFromLog.disk 40 = fun _ => 7 :=
  ⟨by decide +kernel, (crash_atomic ⟨2,logSize,0,false,[]⟩ (fun _ _ => 0) rfl [sevens] 2 [0]).1 40 (by decide)⟩

end Xv6.Log
