import Xv6.Param
import Xv6.Programs.Compare

/-! `find` walks through a directory tree. It opens every subdirectory and closes none. -/
namespace Xv6.Programs

abbrev slash : UInt8 := 47

/-- The name of a directory entry other than `.` and `..`. -/
structure Name where
  bytes : List UInt8
  some : bytes ≠ []
  bound : bytes.length ≤ dirsiz
  clean : 0 ∉ bytes
  flat : slash ∉ bytes
  other : bytes ≠ [dot] ∧ bytes ≠ [dot,dot]

inductive Kind
  | file
  | device
  deriving DecidableEq

/-- The entries of a directory that are still to be read, with what is in its subdirectories. An entry that is `free` has
no inode. -/
inductive Dir
  | done
  | dot (rest : Dir)
  | dotdot (rest : Dir)
  | free (rest : Dir)
  | entry (name : Name) (kind : Kind) (rest : Dir)
  | sub (name : Name) (contents rest : Dir)

section Model

def bytes (s : String) : List UInt8 := s.toList.map fun c => UInt8.ofNat c.toNat

def noStat : List UInt8 := bytes "Cannot find required data.. try again"
def noOpen : List UInt8 := bytes "cannot open required directory.. try again"

/-- `flag.name` as a string: a name of `DIRSIZ` bytes has no terminator, and `strlen` reads what lies behind it. -/
def string (name : Name) : Option (List UInt8) := if name.bytes.length < dirsiz then some name.bytes else none

/-- `buff2` after the copies, if it has room for the path and its terminator. -/
def join (first name : List UInt8) : Option (List UInt8) :=
  if first.length + 1 + name.length + 1 ≤ 512 then some (first ++ slash :: name) else none

/-- `open` of an existing file, with so many free descriptors: what is left of them. -/
def open_ (fds : Nat) : Option Nat := if fds = 0 then none else some (fds - 1)

/-- `stat` gives its descriptor back. -/
def stat (fds : Nat) : Bool := (open_ fds).isSome

/-- What is printed for a file or a device. -/
def report (pattern : List UInt8) (kind : Kind) (fds : Nat) (name buff2 : List UInt8) : Option (List (List UInt8)) :=
  if !stat fds then some [noStat]
  else if kind = .file then
    (compare (terminated name) (terminated pattern)).map fun found => if found then [buff2] else []
  else some []

/-- The lines that `find` prints, and how many of the `fds` free descriptors are left. The stack is one page and every
activation has a `buff2` of 512 bytes on it: `calls` more activations fit, and one too many is a page fault. -/
def find (pattern : List UInt8) : Dir → Nat → Nat → List UInt8 → Option (List (List UInt8) × Nat)
  | .done, _, fds, _ => some ([],fds)
  | .dot rest, calls, fds, first => find pattern rest calls fds first
  | .dotdot rest, calls, fds, first => find pattern rest calls fds first
  | .free rest, calls, fds, first => do
    let _ ← join first []
    find pattern rest calls fds first
  | .entry name kind rest, calls, fds, first => do
    let str ← string name
    let buff2 ← join first str
    let line ← report pattern kind fds str buff2
    let (out,fds') ← find pattern rest calls fds first
    return (line ++ out,fds')
  | .sub name contents rest, calls, fds, first => do
    let str ← string name
    let buff2 ← join first str
    let (lines,fds') ← (if !stat fds then some ([noStat],fds) else
        match open_ fds with
        | none => some ([noOpen],fds)
        | some fds' => if calls = 0 then none else find pattern contents (calls - 1) fds' buff2 :
      Option (List (List UInt8) × Nat))
    let (out,fds'') ← find pattern rest calls fds' first
    return (lines ++ out,fds'')

end Model

/-! What should be printed. -/

def matching (pattern : List UInt8) : Dir → List UInt8 → List (List UInt8)
  | .done, _ => []
  | .dot rest, first => matching pattern rest first
  | .dotdot rest, first => matching pattern rest first
  | .free rest, first => matching pattern rest first
  | .entry name kind rest, first =>
    (if kind = .file ∧ compare (terminated name.bytes) (terminated pattern) = some true then
      [first ++ slash :: name.bytes]
      else []) ++ matching pattern rest first
  | .sub name contents rest, first =>
    matching pattern contents (first ++ slash :: name.bytes) ++ matching pattern rest first

/-- The paths fit into `buff2`. -/
def Fits : Dir → List UInt8 → Prop
  | .done, _ => True
  | .dot rest, first => Fits rest first
  | .dotdot rest, first => Fits rest first
  | .free rest, first => (join first []).isSome = true ∧ Fits rest first
  | .entry name _ rest, first => (join first name.bytes).isSome = true ∧ Fits rest first
  | .sub name contents rest, first =>
    (join first name.bytes).isSome = true ∧ Fits contents (first ++ slash :: name.bytes) ∧ Fits rest first

/-- All names have a terminator. -/
def Shorter : Dir → Prop
  | .done => True
  | .dot rest => Shorter rest
  | .dotdot rest => Shorter rest
  | .free rest => Shorter rest
  | .entry name _ rest => name.bytes.length < dirsiz ∧ Shorter rest
  | .sub name contents rest => name.bytes.length < dirsiz ∧ Shorter contents ∧ Shorter rest

def subdirs : Dir → Nat
  | .done => 0
  | .dot rest => subdirs rest
  | .dotdot rest => subdirs rest
  | .free rest => subdirs rest
  | .entry _ _ rest => subdirs rest
  | .sub _ contents rest => 1 + subdirs contents + subdirs rest

/-- The descriptors that the walk uses: one for each subdirectory that it has come to, and one for the `stat` of the last
entry. -/
def descriptors : Dir → Nat
  | .done => 0
  | .dot rest => descriptors rest
  | .dotdot rest => descriptors rest
  | .free rest => descriptors rest
  | .entry _ _ rest => max 1 (descriptors rest)
  | .sub _ contents rest => 1 + max (descriptors contents) (subdirs contents + descriptors rest)

/-- How deep directories are nested. -/
def depth : Dir → Nat
  | .done => 0
  | .dot rest => depth rest
  | .dotdot rest => depth rest
  | .free rest => depth rest
  | .entry _ _ rest => depth rest
  | .sub _ contents rest => max (1 + depth contents) (depth rest)

/-- What `find` needs: terminated names, descriptors and a stack for the activations. -/
structure Suffices (dir : Dir) (calls fds : Nat) : Prop where
  names : Shorter dir
  descriptors : descriptors dir ≤ fds
  stack : depth dir ≤ calls

theorem subdirs_le (dir : Dir) : subdirs dir ≤ descriptors dir := by
  induction dir with
  | done => exact Nat.le_refl 0
  | dot _ ih | dotdot _ ih | free _ ih => exact ih
  | entry _ _ _ ih | sub _ _ _ _ ih =>
    simp only [subdirs,descriptors]
    omega

/-- The messages can be told from paths. -/
theorem slash_noStat : slash ∉ noStat := by decide

theorem slash_mem_matching {pattern first line : List UInt8} {dir : Dir} (member : line ∈ matching pattern dir first) :
    slash ∈ line := by
  induction dir generalizing first with
  | done => simp [matching] at member
  | dot _ ih | dotdot _ ih | free _ ih => exact ih member
  | entry name kind rest ih =>
    rw [matching,List.mem_append] at member
    rcases member with here | later
    · split at here
      · rw [List.mem_singleton.mp here]
        simp
      · simp at here
    · exact ih later
  | sub name contents rest inner ih =>
    rw [matching,List.mem_append] at member
    exact member.elim inner ih

theorem join_some {first name : List UInt8} (room : (join first name).isSome = true) :
    join first name = some (first ++ slash :: name) := by
  rw [join] at room ⊢
  split at room
  · rename_i small
    rw [if_pos small]
  · simp at room

theorem string_some {name : Name} (short : name.bytes.length < dirsiz) : string name = some name.bytes := if_pos short

theorem open_some {fds : Nat} (some : 0 < fds) : open_ fds = Option.some (fds - 1) := if_neg (by omega)

theorem stat_iff (fds : Nat) : stat fds = true ↔ 0 < fds := by
  rw [stat,open_]
  split
  · simp
    omega
  · simp
    omega

theorem report_some {pattern : List UInt8} (clean : 0 ∉ pattern) (name : Name) (kind : Kind) (path : List UInt8)
    {fds : Nat}
    (some : 0 < fds) : report pattern kind fds name.bytes path = Option.some
      (if kind = .file ∧ compare (terminated name.bytes) (terminated pattern) = Option.some true then
        [path] else []) := by
  obtain ⟨found,value⟩ := compare_some name.clean clean
  rw [report,(stat_iff fds).mpr some,value]
  cases kind <;> cases found <;> rfl

theorem find_all {pattern : List UInt8} (clean : 0 ∉ pattern) (dir : Dir) {first : List UInt8} (calls fds : Nat)
    (fits : Fits dir first) (enough : Suffices dir calls fds) :
    find pattern dir calls fds first = some (matching pattern dir first,fds - subdirs dir) := by
  obtain ⟨shorter,enough,stack⟩ := enough
  induction dir generalizing first calls fds with
  | done => rfl
  | dot rest ih | dotdot rest ih => exact ih calls fds fits shorter enough stack
  | free rest ih =>
    have later := ih calls fds fits.2 shorter enough stack
    simpa [find,join_some fits.1,matching,subdirs] using later
  | entry name kind rest ih =>
    rw [descriptors] at enough
    have later := ih calls fds fits.2 shorter.2 (by omega) stack
    have line := report_some clean name kind (first ++ slash :: name.bytes) (show 0 < fds by omega)
    rw [find,string_some shorter.1]
    simp only [Option.bind_eq_bind,Option.bind_some,join_some fits.1,line,later,matching,subdirs]
    rfl
  | sub name contents rest inner ih =>
    rw [descriptors] at enough
    rw [depth] at stack
    have few := subdirs_le contents
    have within := inner (calls - 1) (fds - 1) fits.2.1 shorter.2.1 (by omega) (by omega)
    have later := ih calls (fds - 1 - subdirs contents) fits.2.2 shorter.2.2 (by omega) (by omega)
    have there : stat fds = true := (stat_iff fds).mpr (by omega)
    have room : calls ≠ 0 := by omega
    have count : fds - 1 - subdirs contents - subdirs rest = fds - (1 + subdirs contents + subdirs rest) := by omega
    rw [find,string_some shorter.1]
    simp only [Option.bind_eq_bind,Option.bind_some,join_some fits.1,there,open_some (show 0 < fds by omega),room,within,
      later,matching,subdirs,count,Bool.not_true,Bool.false_eq_true,if_false]
    rfl

/-- Otherwise a message is printed, unless something behind a name is read or the stack is too small. -/
theorem find_message {pattern : List UInt8} (clean : 0 ∉ pattern) (dir : Dir) {first : List UInt8} {calls fds fds' : Nat}
    {out : List (List UInt8)} (fits : Fits dir first) (bad : ¬Suffices dir calls fds)
    (printed : find pattern dir calls fds first = some (out,fds')) : noStat ∈ out := by
  induction dir generalizing first calls fds fds' out with
  | done => exact absurd ⟨trivial,Nat.zero_le fds,Nat.zero_le calls⟩ bad
  | dot rest ih | dotdot rest ih => exact ih fits (fun good => bad ⟨good.1,good.2,good.3⟩) printed
  | free rest ih =>
    rw [find,join_some fits.1] at printed
    exact ih fits.2 (fun good => bad ⟨good.1,good.2,good.3⟩) printed
  | entry name kind rest ih =>
    rw [find] at printed
    obtain ⟨str,isStr,printed⟩ := Option.bind_eq_some_iff.mp printed
    obtain ⟨path,_,printed⟩ := Option.bind_eq_some_iff.mp printed
    obtain ⟨line,isLine,printed⟩ := Option.bind_eq_some_iff.mp printed
    obtain ⟨⟨later,fds''⟩,ran,result⟩ := Option.bind_eq_some_iff.mp printed
    have short : name.bytes.length < dirsiz := by
      by_contra long
      simp [string,long] at isStr
    cases result
    rw [List.mem_append]
    by_cases there : stat fds = true
    · have some := (stat_iff fds).mp there
      refine .inr (ih fits.2 (fun good => bad ⟨⟨short,good.names⟩,?_,good.stack⟩) ran)
      have := good.descriptors
      rw [descriptors]
      omega
    · rw [report,if_pos (by simpa using there)] at isLine
      cases isLine
      exact .inl (List.mem_singleton_self _)
  | sub name contents rest inner ih =>
    rw [find] at printed
    obtain ⟨str,isStr,printed⟩ := Option.bind_eq_some_iff.mp printed
    obtain ⟨path,isPath,printed⟩ := Option.bind_eq_some_iff.mp printed
    obtain ⟨⟨line,fds₁⟩,isLine,printed⟩ := Option.bind_eq_some_iff.mp printed
    obtain ⟨⟨later,fds''⟩,ran,result⟩ := Option.bind_eq_some_iff.mp printed
    have short : name.bytes.length < dirsiz := by
      by_contra long
      simp [string,long] at isStr
    rw [string_some short] at isStr
    cases isStr
    rw [join_some fits.1] at isPath
    cases isPath
    cases result
    rw [List.mem_append]
    by_cases there : stat fds = true
    · have some := (stat_iff fds).mp there
      have room : calls ≠ 0 := by
        rintro rfl
        simp [there,open_some some] at isLine
      rw [if_neg (by simp [there]),open_some some] at isLine
      simp only [room,if_false] at isLine
      by_cases good : Suffices contents (calls - 1) (fds - 1)
      · -- everything in the subdirectory was found, so the message comes later
        have whole := find_all clean contents _ _ fits.2.1 good
        obtain ⟨rfl,rfl⟩ : line = matching pattern contents (first ++ slash :: name.bytes) ∧
            fds₁ = fds - 1 - subdirs contents := by
          simpa using isLine.symm.trans whole
        have few := subdirs_le contents
        have inside := good.descriptors
        have nested := good.stack
        refine .inr (ih fits.2.2 (fun rest => bad ⟨⟨short,good.names,rest.names⟩,?_,?_⟩) ran)
        · have := rest.descriptors
          rw [descriptors]
          omega
        · have := rest.stack
          rw [depth]
          omega
      · exact .inl (inner fits.2.1 good isLine)
    · rw [if_pos (by simpa using there)] at isLine
      cases isLine
      exact .inl (List.mem_singleton_self _)

/-- `find` prints the path of every matching file and nothing else if every name is shorter than `DIRSIZ`, there is a
descriptor for each subdirectory and the stack has room for an activation at each level, and only then. -/
theorem find_complete_iff {pattern : List UInt8} (clean : 0 ∉ pattern) {dir : Dir} {first : List UInt8}
    (fits : Fits dir first) (calls fds : Nat) :
    (∃ fds', find pattern dir calls fds first = some (matching pattern dir first,fds')) ↔
      Shorter dir ∧ descriptors dir ≤ fds ∧ depth dir ≤ calls := by
  constructor
  · rintro ⟨fds',printed⟩
    by_contra bad
    refine slash_noStat (slash_mem_matching (find_message clean dir fits (fun good => bad ?_) printed))
    exact ⟨good.names,good.descriptors,good.stack⟩
  · rintro ⟨names,descriptors,stack⟩
    exact ⟨_,find_all clean dir _ _ fits ⟨names,descriptors,stack⟩⟩

def fileA : Dir := .entry ⟨[97],by decide,by decide,by decide,by decide,by decide⟩ .file .done

/-- A directory `d` with a file `a`. -/
def nestedA : Dir := .sub ⟨[100],by decide,by decide,by decide,by decide,by decide⟩ fileA .done

/-- 12 of the `NOFILE` descriptors are free, and the stack has room for another activation. -/
theorem find_complete_nested : ∃ fds', find [97] nestedA 1 12 [46] = some (matching [97] nestedA [46],fds') :=
  (find_complete_iff (by decide) (by simp [nestedA,fileA,Fits,join]) 1 12).mpr
    ⟨by simp [nestedA,fileA,Shorter,dirsiz],by decide,by decide⟩

/-- Empty directories `b` to `m`, and then a file `a`. -/
def crowded : Dir :=
  (List.finRange 12).foldr (fun (i : Fin 12) rest => .sub
    ⟨[98 + UInt8.ofNat i.val],by simp,by simp [dirsiz],by revert i; decide,by revert i; decide,by revert i; decide⟩
    (.dot (.dotdot .done)) rest) fileA

/-- The last descriptor has been used for the directory before the file. -/
theorem find_crowded : find [97] crowded 1 12 [46] = some ([noStat],0) ∧
    matching [97] crowded [46] = [[46,slash,97]] := by
  have same : compare (terminated [97]) (terminated [97]) = some true := by
    rw [terminated,List.singleton_append,compare_plain (by decide) (by decide),if_pos (by decide)]
    simp [compare]
  refine ⟨rfl,?_⟩
  show matching [97] fileA [46] = _
  simp [matching,fileA,same]

end Xv6.Programs
