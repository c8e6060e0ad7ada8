import Xv6.Fs.Calls
import Mathlib.Algebra.BigOperators.Group.Finset.Basic
import Mathlib.Algebra.Order.Group.Multiset

/-! The references between calls: each is the current directory of a process or belongs to an
open file. -/
namespace Xv6.Fs

open Prog Function

def cwdRef : Option Proc → Multiset Nat
  | some pr => {pr.cwd}
  | none => 0

def fileRef (file : File) : Multiset Nat := if file.type = .none then 0 else {file.ip}

namespace Tables

/-- The slots of the inode table that processes and open files refer to. -/
def handles (T : Tables) : Multiset Nat :=
  (∑ p ∈ Finset.range nproc, cwdRef (T.proc p)) + ∑ f ∈ Finset.range nfile, fileRef (T.file f)

def setFile (T : Tables) (f : Nat) (file : File) : Tables := { T with file := update T.file f file }
def setProc (T : Tables) (p : Nat) (pr : Option Proc) : Tables := { T with proc := update T.proc p pr }

@[simp] theorem setFile_file (T : Tables) (f : Nat) (file : File) :
    (T.setFile f file).file = update T.file f file := rfl
@[simp] theorem setFile_proc (T : Tables) (f : Nat) (file : File) : (T.setFile f file).proc = T.proc := rfl
@[simp] theorem setProc_file (T : Tables) (p : Nat) (pr : Option Proc) : (T.setProc p pr).file = T.file := rfl
@[simp] theorem setProc_proc (T : Tables) (p : Nat) (pr : Option Proc) :
    (T.setProc p pr).proc = update T.proc p pr := rfl

end Tables

theorem sum_update {α : Type} (g : α → Multiset Nat) (F : Nat → α) {n j : Nat} (hj : j < n) (v : α) :
    (∑ x ∈ Finset.range n, g (update F j v x)) + g (F j) = (∑ x ∈ Finset.range n, g (F x)) + g v := by
  have member := Finset.mem_range.mpr hj
  have rest : ∑ x ∈ (Finset.range n).erase j, g (update F j v x) = ∑ x ∈ (Finset.range n).erase j, g (F x) :=
    Finset.sum_congr rfl fun x inside => by rw [update_of_ne (Finset.ne_of_mem_erase inside)]
  rw [← Finset.add_sum_erase _ _ member,rest,← Finset.add_sum_erase _ (fun x => g (F x)) member, update_self]
  ac_rfl

namespace Tables

variable {T : Tables}

theorem handles_setProc {p : Nat} (hp : p < nproc) (pr : Option Proc) :
    (T.setProc p pr).handles + cwdRef (T.proc p) = T.handles + cwdRef pr := by
  have := sum_update cwdRef T.proc hp pr
  simp only [handles,setProc_proc,setProc_file]
  rw [add_right_comm,this]
  ac_rfl

theorem handles_setFile {f : Nat} (hf : f < nfile) (file : File) :
    (T.setFile f file).handles + fileRef (T.file f) = T.handles + fileRef file := by
  have := sum_update fileRef T.file hf file
  simp only [handles,setFile_proc,setFile_file]
  rw [add_assoc,this,add_assoc]

end Tables

/-- The references `R` are those of the tables: to allocated inodes, to the root or directories for
processes, and not to directories for files that can be written. -/
structure Handles (T : Tables) (N : Names) (R : Multiset (Nat × Nat)) : Prop where
  refs : R.map Prod.fst = T.handles
  typed : ∀ x ∈ R, N.typ x.2 ≠ 0
  idle : ∀ f, (T.file f).ref = 0 → (T.file f).type = .none
  files : ∀ f, nfile ≤ f → (T.file f).ref = 0
  procs : ∀ p, nproc ≤ p → T.proc p = none
  dirs : ∀ p pr i, T.proc p = some pr → (pr.cwd,i) ∈ R → N.typ i = tDir ∨ i = rootino
  writable : ∀ f i, (T.file f).type = .inode → (T.file f).writable = true → ((T.file f).ip,i) ∈ R → N.typ i ≠ tDir

namespace Handles

variable {T T' : Tables} {N N' : Names} {R : Multiset (Nat × Nat)}

section

variable (handles : Handles T N R)
include handles

theorem mem_of_slot {k : Nat} (inside : k ∈ T.handles) : ∃ i, (k,i) ∈ R := by
  rw [← handles.refs,Multiset.mem_map] at inside
  obtain ⟨⟨l,i⟩,member,rfl⟩ := inside
  exact ⟨i,member⟩

theorem proc_lt {p : Nat} {pr : Proc} (here : T.proc p = some pr) : p < nproc := by
  by_contra far
  rw [handles.procs p (Nat.le_of_not_lt far)] at here
  exact absurd here (by simp)

theorem file_lt {f : Nat} (some : (T.file f).ref ≠ 0) : f < nfile := by
  by_contra far
  exact some (handles.files f (Nat.le_of_not_lt far))

theorem cwd {p : Nat} {pr : Proc} (here : T.proc p = some pr) : ∃ c, (pr.cwd,c) ∈ R := by
  apply handles.mem_of_slot
  rw [Tables.handles,Multiset.mem_add]
  refine .inl (Multiset.mem_sum.mpr ⟨p,Finset.mem_range.mpr (handles.proc_lt here),?_⟩)
  simp [here,cwdRef]

theorem file {f : Nat} (isOpen : (T.file f).type ≠ .none) : ∃ i, ((T.file f).ip,i) ∈ R := by
  apply handles.mem_of_slot
  rw [Tables.handles,Multiset.mem_add]
  refine .inr (Multiset.mem_sum.mpr ⟨f,Finset.mem_range.mpr (handles.file_lt fun zero =>
    isOpen (handles.idle f zero)),?_⟩)
  simp [fileRef,isOpen]

theorem effect (effect : N.Effect (heldOf R) N') : Handles T N' R := by
  have same (k i : Nat) (member : (k,i) ∈ R) : N'.typ i = N.typ i :=
    effect.typ (mem_heldOf member) (handles.typed _ member)
  refine ⟨handles.refs,fun x member => ?_,handles.idle,handles.files,handles.procs,fun p pr i here member => ?_,
    fun f i type writable member => ?_⟩
  · rw [same x.1 x.2 member]
    exact handles.typed x member
  · rw [same _ i member]
    exact handles.dirs p pr i here member
  · rw [same _ i member]
    exact handles.writable f i type writable member

theorem setFile {f : Nat} {file : File} (hf : f < nfile) (idle : file.ref = 0 → file.type = .none)
    (type : file.type = (T.file f).type) (ip : file.ip = (T.file f).ip)
    (writable : file.writable = (T.file f).writable) :
    Handles (T.setFile f file) N R := by
  have same : fileRef file = fileRef (T.file f) := by simp [fileRef,type,ip]
  have total := T.handles_setFile hf file
  rw [same] at total
  refine ⟨handles.refs.trans (add_right_cancel total).symm,handles.typed,fun g zero => ?_,fun g far => ?_,handles.procs,
    handles.dirs,fun g i => ?_⟩
  · obtain rfl | here := eq_or_ne g f
    · simpa using idle (by simpa using zero)
    · simpa [here] using handles.idle g (by simpa [here] using zero)
  · have ne : g ≠ f := by omega
    simpa [ne] using handles.files g far
  · obtain rfl | here := eq_or_ne g f
    · simpa [type,ip,writable] using handles.writable g i
    · simpa [here] using handles.writable g i

theorem openFile {f i : Nat} {file : File} (hf : f < nfile) (ref : file.ref ≠ 0) (closed : (T.file f).type = .none)
    (isOpen : file.type ≠ .none) (typed : N.typ i ≠ 0) (unique : ∀ j, (file.ip,j) ∈ R → i = j)
    (writable : file.type = .inode → file.writable = true → N.typ i ≠ tDir) :
    Handles (T.setFile f file) N ((file.ip,i) ::ₘ R) := by
  have total := T.handles_setFile hf file
  simp only [fileRef,closed,isOpen,if_true,if_false,add_zero] at total
  have mem {k j : Nat} (inside : (k,j) ∈ (file.ip,i) ::ₘ R) (old : ∃ l, (k,l) ∈ R) : (k,j) ∈ R := by
    rcases Multiset.mem_cons.mp inside with same | member
    · cases same
      obtain ⟨l,member⟩ := old
      rwa [unique l member]
    · exact member
  refine ⟨?_,fun x inside => ?_,fun g zero => ?_,fun g far => ?_,handles.procs,fun p pr j here inside => ?_,
    fun g j type can inside => ?_⟩
  · rw [total,Multiset.map_cons,handles.refs,← Multiset.singleton_add,add_comm]
  · rcases Multiset.mem_cons.mp inside with rfl | old
    · exact typed
    · exact handles.typed x old
  · obtain rfl | here := eq_or_ne g f
    · exact absurd (by simpa using zero) ref
    · simpa [here] using handles.idle g (by simpa [here] using zero)
  · have ne : g ≠ f := by omega
    simpa [ne] using handles.files g far
  · exact handles.dirs p pr j here (mem inside (handles.cwd here))
  · obtain rfl | here := eq_or_ne g f
    · simp only [Tables.setFile_file,update_self] at type can inside
      rcases Multiset.mem_cons.mp inside with same | old
      · obtain ⟨_,rfl⟩ := Prod.mk.inj same
        exact writable type can
      · rw [← unique j old]
        exact writable type can
    · simp only [Tables.setFile_file,update_of_ne here] at type can inside
      exact handles.writable g j type can (mem inside (handles.file (by simp [type])))

end

theorem closeFile {i : Nat} {f : Nat} {file : File} (handles : Handles T N (((T.file f).ip,i) ::ₘ R))
    (isOpen : (T.file f).type ≠ .none) (closed : file.type = .none) :
    Handles (T.setFile f file) N R := by
  have hf := handles.file_lt fun zero => isOpen (handles.idle f zero)
  have total := T.handles_setFile hf file
  simp only [fileRef,closed,isOpen,if_true,if_false,add_zero] at total
  have refs := handles.refs
  rw [Multiset.map_cons,← total,← Multiset.singleton_add,add_comm] at refs
  refine ⟨add_right_cancel refs,fun x old => handles.typed x (Multiset.mem_cons_of_mem old),fun g zero => ?_,
    fun g far => ?_,handles.procs,fun p pr j here old => handles.dirs p pr j here (Multiset.mem_cons_of_mem old),
    fun g j type can old => ?_⟩
  · by_cases here : g = f
    · simpa [here] using closed
    · simpa [here] using handles.idle g (by simpa [here] using zero)
  · have ne : g ≠ f := by omega
    simpa [ne] using handles.files g far
  · obtain rfl | here := eq_or_ne g f
    · simp [closed] at type
    · simp only [Tables.setFile_file,update_of_ne here] at type can old
      exact handles.writable g j type can (Multiset.mem_cons_of_mem old)

theorem setProc (handles : Handles T N R) {p : Nat} {pr pr' : Proc} (here : T.proc p = some pr)
    (cwd : pr'.cwd = pr.cwd) : Handles (T.setProc p (some pr')) N R := by
  have hp := handles.proc_lt here
  have total := T.handles_setProc hp (some pr')
  simp only [here,cwdRef,cwd] at total
  refine ⟨handles.refs.trans (add_right_cancel total).symm,handles.typed,handles.idle,handles.files,fun q far => ?_,
    fun q pr'' i at_ => ?_,handles.writable⟩
  · have ne : q ≠ p := by omega
    simpa [ne] using handles.procs q far
  · obtain rfl | same := eq_or_ne q p
    · simp only [Tables.setProc_proc,update_self,Option.some.injEq] at at_
      rw [← at_,cwd]
      exact handles.dirs q pr i here
    · simp only [Tables.setProc_proc,update_of_ne same] at at_
      exact handles.dirs q pr'' i at_

theorem enter (handles : Handles T N R) {p i : Nat} {pr : Proc} (hp : p < nproc) (none : T.proc p = .none)
    (typed : N.typ i ≠ 0) (dir : N.typ i = tDir ∨ i = rootino) (unique : ∀ j, (pr.cwd,j) ∈ R → i = j) :
    Handles (T.setProc p (some pr)) N ((pr.cwd,i) ::ₘ R) := by
  have total := T.handles_setProc hp (some pr)
  simp only [none,cwdRef,add_zero] at total
  have mem {k j : Nat} (inside : (k,j) ∈ (pr.cwd,i) ::ₘ R) (old : ∃ l, (k,l) ∈ R) : (k,j) ∈ R := by
    rcases Multiset.mem_cons.mp inside with same | member
    · cases same
      obtain ⟨l,member⟩ := old
      rwa [unique l member]
    · exact member
  refine ⟨?_,fun x inside => ?_,handles.idle,handles.files,fun q far => ?_,fun q pr' j at_ inside => ?_,
    fun g j type can inside => ?_⟩
  · rw [total,Multiset.map_cons,handles.refs,← Multiset.singleton_add,add_comm]
  · rcases Multiset.mem_cons.mp inside with rfl | old
    · exact typed
    · exact handles.typed x old
  · have ne : q ≠ p := by omega
    simpa [ne] using handles.procs q far
  · obtain rfl | same := eq_or_ne q p
    · simp only [Tables.setProc_proc,update_self] at at_
      cases at_
      rcases Multiset.mem_cons.mp inside with here | old
      · rwa [(Prod.mk.inj here).2]
      · rwa [← unique j old]
    · simp only [Tables.setProc_proc,update_of_ne same] at at_
      exact handles.dirs q pr' j at_ (mem inside (handles.cwd at_))
  · simp only [Tables.setProc_file] at type can inside
    exact handles.writable g j type can (mem inside (handles.file (by simp [type])))

theorem leave {p i : Nat} {pr : Proc} (handles : Handles T N ((pr.cwd,i) ::ₘ R)) (here : T.proc p = some pr) :
    Handles (T.setProc p none) N R := by
  have hp := handles.proc_lt here
  have total := T.handles_setProc hp none
  simp only [here,cwdRef,add_zero] at total
  have refs := handles.refs
  rw [Multiset.map_cons,← total,← Multiset.singleton_add,add_comm] at refs
  refine ⟨add_right_cancel refs,fun x old => handles.typed x (Multiset.mem_cons_of_mem old),handles.idle,handles.files,
    fun q far => ?_,fun q pr' j at_ old => ?_,
    fun g j type can old => handles.writable g j type can (Multiset.mem_cons_of_mem old)⟩
  · have ne : q ≠ p := by omega
    simpa [ne] using handles.procs q far
  · obtain rfl | same := eq_or_ne q p
    · simp at at_
    · simp only [Tables.setProc_proc,update_of_ne same] at at_
      exact handles.dirs q pr' j at_ (Multiset.mem_cons_of_mem old)

end Handles

end Xv6.Fs
