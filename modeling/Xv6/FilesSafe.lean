import Xv6.FilesCalls
import Mathlib.Tactic.FinCases

/-! Along every run the file table counts descriptors, and what a file has is given back once. -/
namespace Xv6.Files

open Finset Function

variable {n : Nat} {s t : State n} {p q : Fin n} {f g fd i : Nat} {ok : Bool}

structure Pair (s t : State n) (p c : Fin n) (old new oldChild newChild : Pc n) : Prop where
  place : t.pc p = new
  childPlace : t.pc c = newChild
  distinct : c ≠ p
  uses : ∀ g, t.uses p g + t.uses c g = s.uses p g + s.uses c g
  child : ∀ d i, new.child = some (d,i) → d = c ∧ newChild = .embryo ∧ ∀ fd < nofile, i ≤ fd → t.ofile c fd = none
  unrelated : ∀ q ≠ p, ∀ d i, (s.pc q).child = some (d,i) → d ≠ p ∧ d ≠ c
  ofile : ∀ q ≠ p, q ≠ c → t.ofile q = s.ofile q
  pc : ∀ q ≠ p, q ≠ c → t.pc q = s.pc q
  only : t = { s with ofile := t.ofile, pc := t.pc }
  fits : new.Fits (t.ofile p)
  childFits : newChild.Fits (t.ofile c)
  fresh : new.fresh = []
  childFresh : newChild.fresh = []
  resources : new.resources = old.resources
  childResources : newChild.resources = oldChild.resources
  childless : newChild.child = none

theorem Inv.pair {c : Fin n} {old new oldChild newChild : Pc n} (inv : Inv s) (before : s.pc p = old)
    (childBefore : s.pc c = oldChild) (pair : Pair s t p c old new oldChild newChild) : Inv t := by
  obtain ⟨rfl,rfl⟩ := And.intro before childBefore
  obtain ⟨rfl,rfl⟩ := And.intro pair.place pair.childPlace
  have file : t.file = s.file := by rw [pair.only]
  have released : t.released = s.released := by rw [pair.only]
  have taken : t.taken = s.taken := by rw [pair.only]; rfl
  have pipes : t.pipes = s.pipes := by rw [pair.only]
  have isOpen : t.isOpen = s.isOpen := by rw [pair.only]
  have freed : t.freed = s.freed := by rw [pair.only]
  have other {q : Fin n} (notP : q ≠ p) (notC : q ≠ c) (g : Nat) : t.uses q g = s.uses q g := by
    rw [State.uses,pair.ofile q notP notC,pair.pc q notP notC,State.uses]
  have parent {q d : Fin n} {i : Nat} (notP : q ≠ p) (child : (t.pc q).child = some (d,i)) :
      (s.pc q).child = some (d,i) := by
    have notC : q ≠ c := by
      rintro rfl
      simp [pair.childless] at child
    exact pair.pc q notP notC ▸ child
  refine ⟨?_,?_,?_,?_,?_,?_,?_,?_,?_,?_,?_⟩
  · rw [pair.only]
    exact inv.running
  · intro g
    -- First the child changes, then the parent.
    have first := sum_change (a := update (fun q => s.uses q g) c (t.uses c g)) (b := fun q => s.uses q g)
      (mem_univ c) fun q _ notC => update_of_ne notC ..
    have second := sum_change (a := fun q => t.uses q g) (b := update (fun q => s.uses q g) c (t.uses c g))
      (mem_univ p) fun q _ notP => by
        by_cases isC : q = c
        · simp [isC]
        · simpa [isC] using other notP isC g
    rw [update_self] at first
    rw [update_of_ne pair.distinct.symm] at second
    have total := pair.uses g
    have counted := inv.counted g
    rw [file]
    omega
  · rw [file]
    exact inv.inside
  · rw [file]
    exact inv.blank
  · intro q g member
    by_cases isP : q = p
    · simp [isP,pair.fresh] at member
    by_cases isC : q = c
    · simp [isC,pair.childFresh] at member
    rw [file,other isP isC]
    exact inv.fresh q g (pair.pc q isP isC ▸ member)
  · intro q
    by_cases isP : q = p
    · exact isP ▸ pair.fits
    by_cases isC : q = c
    · exact isC ▸ pair.childFits
    rw [pair.pc q isP isC,pair.ofile q isP isC]
    exact inv.fits q
  · intro q d i child
    by_cases isP : q = p
    · obtain ⟨rfl,facts⟩ := pair.child d i (isP ▸ child)
      exact facts
    obtain ⟨notP,notC⟩ := pair.unrelated q isP d i (parent isP child)
    rw [pair.pc d notP notC,pair.ofile d notP notC]
    exact inv.kin q d i (parent isP child)
  · intro q r d i j one two
    by_cases isP : q = p <;> by_cases isP' : r = p
    · exact isP.trans isP'.symm
    · obtain ⟨rfl,-⟩ := pair.child d i (isP ▸ one)
      exact ((pair.unrelated r isP' d j (parent isP' two)).2 rfl).elim
    · obtain ⟨rfl,-⟩ := pair.child d j (isP' ▸ two)
      exact ((pair.unrelated q isP d i (parent isP one)).2 rfl).elim
    · exact inv.siblings q r d i j (parent isP one) (parent isP' two)
  · have carried : t.carried = s.carried := by
      refine sum_congr rfl fun q _ => ?_
      by_cases isP : q = p
      · rw [isP,pair.resources]
      by_cases isC : q = c
      · rw [isC,pair.childResources]
      rw [pair.pc q isP isC]
    rw [State.held,file,carried,released,taken]
    exact inv.ledger
  · rw [isOpen,pipes,released]
    exact inv.opened
  · rw [freed,released]
    exact inv.freed

theorem Inv.fork_call {np : Fin n} (inv : Inv s) (place : s.pc p = .idle) (absent : s.pc np = .absent) :
    Inv ((s.goto np .embryo).goto p (.fork np 0)) := by
  have distinct : np ≠ p := by
    rintro rfl
    simp [place] at absent
  have empty : ∀ fd < nofile, s.ofile np fd = none := inv.fits_at absent
  have childPlace : ((s.goto np .embryo).goto p (.fork np 0)).pc np = .embryo := by simp [State.goto,distinct]
  refine inv.pair place absent
    { place := goto_pc .., childPlace, distinct, uses := fun g => ?_, child := ?_, unrelated := ?_, ofile := by simp,
      pc := by intro q notP notC; simp [State.goto,notP,notC], only := rfl, fits := trivial,
      childFits := trivial, fresh := rfl,
      childFresh := rfl, resources := rfl, childResources := rfl, childless := rfl }
  · simp [State.uses,childPlace,place,absent,Pc.hidden,Pc.files]
  · intro d i known
    obtain ⟨rfl,rfl⟩ : np = d ∧ 0 = i := by simpa [Pc.child] using known
    exact ⟨rfl,rfl,fun fd inside _ => empty fd inside⟩
  · intro q _ d i known
    have embryo := (inv.kin q d i known).1
    constructor
    · rintro rfl
      simp [place] at embryo
    · rintro rfl
      simp [absent] at embryo

theorem Inv.unrelated {np : Fin n} (inv : Inv s) (active : s.pc p ≠ .embryo) (child : (s.pc p).child = some (np,i)) :
    ∀ q ≠ p, ∀ d j, (s.pc q).child = some (d,j) → d ≠ p ∧ d ≠ np := by
  intro q other d j known
  constructor
  · rintro rfl
    exact active (inv.kin q d j known).1
  · rintro rfl
    exact other (inv.siblings q p d j i known child)

theorem Inv.forkSet_step {np : Fin n} (inv : Inv s) (place : s.pc p = .forkSet np i f)
    (stepped : s.next p ok = some t) : Inv t := by
  rw [State.next,place,Option.some.injEq] at stepped
  have known : (s.pc p).child = some (np,i) := by simp [place,Pc.child]
  obtain ⟨embryo,empty⟩ := inv.kin p np i known
  have inside : i < nofile := inv.fits_at place
  have distinct : np ≠ p := by
    rintro rfl
    simp [place] at embryo
  have childPlace : t.pc np = .embryo := by simpa [← stepped,State.goto,distinct] using embryo
  have ofile : t.ofile p = s.ofile p := by simp [← stepped,distinct.symm]
  have childOfile : t.ofile np = update (s.ofile np) i (some f) := by simp [← stepped]
  have own : t.pc p = .fork np (i + 1) := by simp [← stepped]
  refine inv.pair place embryo
    { place := own, childPlace, distinct, uses := fun g => ?_, child := ?_,
      unrelated := inv.unrelated (by simp [place]) known, ofile := ?_, pc := ?_, only := by rw [← stepped]; rfl,
      fits := trivial, childFits := trivial, fresh := rfl,
      childFresh := rfl, resources := rfl, childResources := rfl, childless := rfl }
  · simp [State.uses,own,childPlace,place,embryo,Pc.hidden,Pc.files,ofile,childOfile,
      slots_install inside (empty i inside le_rfl),List.count_cons]
    omega
  · intro d j same
    obtain ⟨rfl,rfl⟩ : np = d ∧ i + 1 = j := by simpa [Pc.child] using same
    refine ⟨rfl,rfl,fun fd within beyond => ?_⟩
    rw [childOfile,update_of_ne (by omega)]
    exact empty fd within (by omega)
  · intro q notP notC
    simp [← stepped,notC]
  · intro q notP notC
    simp [← stepped,State.goto,notP]

theorem Inv.fork_end {np : Fin n} (inv : Inv s) (place : s.pc p = .fork np i) :
    Inv ((s.goto np .idle).goto p .idle) := by
  have known : (s.pc p).child = some (np,i) := by simp [place,Pc.child]
  have embryo := (inv.kin p np i known).1
  have distinct : np ≠ p := by
    rintro rfl
    simp [place] at embryo
  have childPlace : ((s.goto np .idle).goto p .idle).pc np = .idle := by simp [State.goto,distinct]
  refine inv.pair place embryo
    { place := goto_pc .., childPlace, distinct, uses := fun g => ?_, child := by simp [Pc.child],
      unrelated := inv.unrelated (by simp [place]) known, ofile := by simp,
      pc := by intro q notP notC; simp [State.goto,notP,notC], only := rfl, fits := trivial,
      childFits := trivial, fresh := rfl,
      childFresh := rfl, resources := rfl, childResources := rfl, childless := rfl }
  simp [State.uses,childPlace,place,embryo,Pc.hidden,Pc.files]

theorem Inv.next_step (inv : Inv s) (stepped : s.next p ok = some t) : Inv t := by
  cases place : s.pc p with
  | idle | absent | embryo => simp [State.next,place] at stepped
  | openAlloc => exact inv.openAlloc_step stepped place
  | openFd => exact inv.openFd_step stepped place
  | openSet => exact inv.openSet_step stepped place
  | put => exact inv.put_step place stepped
  | dupFd => exact inv.dupFd_step stepped place
  | dup => exact inv.dup_step stepped place
  | close => exact inv.close_step stepped place
  | drop => exact inv.drop_step place stepped
  | pipeAlloc0 => exact inv.pipeAlloc0_step stepped place
  | pipeAlloc1 => exact inv.pipeAlloc1_step stepped place
  | pipePage => exact inv.pipePage_step place stepped
  | pipeSet0 => exact inv.pipeSet0_step stepped place
  | pipeSet1 => exact inv.pipeSet1_step stepped place
  | pipeFd0 => exact inv.pipeFd0_step stepped place
  | pipeFd1 => exact inv.pipeFd1_step stepped place
  | pipeOut => exact inv.pipeOut_step stepped place
  | fork np i =>
    by_cases inside : i < nofile
    · exact inv.fork_step stepped place inside
    · rw [State.next,place] at stepped
      simp only [inside,if_false] at stepped
      cases stepped
      exact inv.fork_end place
  | forkSet => exact inv.forkSet_step place stepped
  | exit => exact inv.exit_step stepped place
  | clear => exact inv.clear_step stepped place

theorem argfd_eq_some (found : s.argfd p fd = some f) : fd < nofile ∧ s.ofile p fd = some f := by
  simpa [State.argfd,Option.ite_none_right_eq_some] using found

theorem Shift.begin {ofile ofile' : Nat → Option Nat} {pc : Pc n}
    (uses : ∀ g, slots ofile' pc.hidden g + pc.files.count g =
      slots ofile (.idle : Pc n).hidden g + (.idle : Pc n).files.count g)
    (fits : pc.Fits ofile') (resources : pc.resources = (.idle : Pc n).resources) (fresh : pc.fresh = [])
      (child : pc.child = none) : Shift ofile .idle ofile' pc :=
  ⟨uses,fits,resources,by simp [fresh],by simp [child],nofun⟩

theorem Inv.call_step {a : Action n} (inv : Inv s) (idle : s.pc a.proc = .idle) (called : s.call a = some t) : Inv t := by
  cases a with
  | «open» p device writable => exact Option.some.inj called ▸ inv.open_call idle
  | dup p fd =>
    obtain ⟨f,found,rfl⟩ := Option.map_eq_some_iff.mp called
    exact inv.goto idle (.begin (fun _ => rfl) ⟨fd,argfd_eq_some found⟩ rfl rfl rfl)
  | close p fd =>
    obtain ⟨f,found,rfl⟩ := Option.map_eq_some_iff.mp called
    obtain ⟨inside,installed⟩ := argfd_eq_some found
    refine inv.setSlot idle (.begin (fun g => ?_) trivial rfl rfl rfl)
    have shown := slots_hide (s.ofile p) inside g
    simp only [installed,Option.some.injEq] at shown
    simp [Pc.hidden,Pc.files,After.hidden,After.files,slots_clear,shown,List.count_cons]
  | pipe p =>
    exact Option.some.inj called ▸ inv.goto idle (.begin (fun _ => rfl) trivial rfl rfl rfl)
  | fork p np =>
    simp only [State.call] at called
    obtain ⟨absent,rfl⟩ := Runs.enabled called
    exact inv.fork_call idle absent
  | exit p =>
    exact Option.some.inj called ▸ inv.goto idle
      (.begin (fun _ => rfl) (fun i before => absurd before (by omega)) rfl rfl rfl)
  | next p ok => simp [State.call] at called

theorem Inv.step {a : Action n} (inv : Inv s) (stepped : Files.step s a = some t) : Inv t := by
  unfold Files.step at stepped
  rw [if_neg (by simp [inv.running])] at stepped
  cases a with
  | next p ok => exact inv.next_step stepped
  | «open» | dup | close | pipe | fork | exit =>
    simp only [Option.ite_none_right_eq_some] at stepped
    exact inv.call_step stepped.1 stepped.2

theorem Inv.init (n : Nat) : Inv (Files.init n) := by
  have outside (p : Fin n) : ((Files.init n).pc p).outside := by
    by_cases first : p.val = 0 <;> simp [Files.init,Pc.outside,first]
  refine ⟨rfl,fun f => ?_,fun f used => (used rfl).elim,fun f _ => rfl,fun p f member => ?_,fun p => ?_,
    fun p c i child => ?_,fun p q c i j child => ?_,?_,?_,?_⟩
  · refine (sum_eq_zero fun p _ => ?_).symm
    obtain ⟨-,files,-⟩ := Pc.of_outside (outside p)
    rw [State.uses,files,List.count_nil,add_zero]
    exact slots_none (fun _ _ => rfl) f
  · simp [(Pc.of_outside (outside p)).2.2.2.1] at member
  · by_cases first : p.val = 0 <;> simp [Files.init,Pc.Fits,first]
  · simp [(Pc.of_outside (outside p)).2.2.2.2] at child
  · simp [(Pc.of_outside (outside p)).2.2.2.2] at child
  · have carried : (Files.init n).carried = 0 := sum_eq_zero fun p _ => by simp [(Pc.of_outside (outside p)).2.2.1]
    have held : (Files.init n).held = 0 := sum_eq_zero fun _ _ => rfl
    rw [carried,held]
    simp [Files.init,State.taken]
  · simp [Files.init]
  · simp [Files.init]

theorem run_inv {schedule : List (Action n)} (ran : Runs.run Files.step (Files.init n) schedule = some s) : Inv s :=
  Runs.run_invariant Inv (fun _ _ _ inv stepped => inv.step stepped) (.init n) ran

/-- The last reference to `f` goes, and what the file has is left to `p`. -/
def LastGoes (s t : State n) (p : Fin n) (f : Nat) : Prop :=
  (s.file f).ref = 1 ∧ (t.file f).ref = 0 ∧ (s.file f).resources ⊆ (t.pc p).resources

theorem filedup_resources (s : State n) (p : Fin n) (g : Nat) (pc : Pc n) (f : Nat) :
    ((s.filedup p g pc).file f).resources = (s.file f).resources := by
  rw [State.filedup]
  split
  · rfl
  · by_cases self : f = g
    · subst f
      simp [File.resources]
    · simp [self]

theorem setFile_resources (s : State n) {x : File} (same : x.resources = (s.file g).resources) (f : Nat) :
    ((s.setFile g x).file f).resources = (s.file f).resources := by
  by_cases self : f = g
  · subst f
    simpa using same
  · simp [self]

theorem Inv.setFile_fresh (inv : Inv s) (x : File) (member : g ∈ (s.pc p).fresh) (f : Nat) :
    ((s.setFile g x).file f).resources = (s.file f).resources ∨ (s.file f).resources = [] := by
  by_cases self : f = g
  · subst f
    simp [File.resources,(inv.fresh p g member).1]
  · simp [self]

theorem filealloc_resources (s : State n) {u : State n} (got : s.filealloc = some (g,u)) (f : Nat) :
    (u.file f).resources = (s.file f).resources := by
  obtain full | ⟨h,-,-,found⟩ := filealloc_cases s
  · simp [full] at got
  · obtain ⟨rfl,rfl⟩ : h = g ∧ _ = u := by simpa [found] using got
    exact setFile_resources s (by rfl) f

theorem fdalloc_file (s : State n) {u : State n} (got : s.fdalloc p g = some (fd,u)) : u.file = s.file := by
  obtain full | ⟨fd',-,-,found⟩ := fdalloc_cases s p g
  · simp [full] at got
  · obtain ⟨-,rfl⟩ : fd' = fd ∧ _ = u := by simpa [found] using got
    rfl

theorem fileclose_resources (s : State n) (p : Fin n) (g : Nat) (after : After) (f : Nat) :
    ((s.fileclose p g after).file f).resources = (s.file f).resources ∨ LastGoes s (s.fileclose p g after) p f := by
  by_cases self : f = g
  · subst f
    rw [State.fileclose]
    split
    · exact .inl rfl
    split
    · exact .inl (setFile_resources s (by rfl) g)
    · refine .inr ⟨by omega,by simp,?_⟩
      rw [goto_pc]
      exact List.subset_append_left ..
  · rw [State.fileclose]
    split
    · exact .inl rfl
    split <;> exact .inl (by simp [self])

/-- A file loses what it has only with its last reference. -/
theorem Inv.next_file (inv : Inv s) (stepped : s.next p ok = some t) (f : Nat) :
    (t.file f).resources = (s.file f).resources ∨ (s.file f).resources = [] ∨ LastGoes s t p f := by
  have kept (same : t.file = s.file) :
      (t.file f).resources = (s.file f).resources ∨ (s.file f).resources = [] ∨ LastGoes s t p f := .inl (by rw [same])
  cases place : s.pc p with
  | idle | absent | embryo => simp [State.next,place] at stepped
  | openAlloc ip device writable =>
    simp only [State.next,place] at stepped
    split at stepped
    · split at stepped
      · exact kept (Option.some.inj stepped ▸ rfl)
      · rename_i got
        exact .inl (Option.some.inj stepped ▸ filealloc_resources s got f)
    · exact kept (Option.some.inj stepped ▸ rfl)
  | pipeAlloc0 | pipeAlloc1 =>
    simp only [State.next,place] at stepped
    split at stepped
    · exact kept (Option.some.inj stepped ▸ rfl)
    · rename_i got
      exact .inl (Option.some.inj stepped ▸ filealloc_resources s got f)
  | openFd | dupFd | pipeFd0 | pipeFd1 =>
    simp only [State.next,place] at stepped
    split at stepped
    · exact kept (Option.some.inj stepped ▸ rfl)
    · rename_i got
      rw [← Option.some.inj stepped] at kept ⊢
      exact kept (by rw [goto_file,fdalloc_file s got])
  | openSet ip device writable g | pipeSet0 rf wf pi | pipeSet1 rf wf pi =>
    simp only [State.next,place] at stepped
    cases stepped
    exact (inv.setFile_fresh (p := p) _ (by simp [place,Pc.fresh]) f).imp_right .inl
  | put | clear | forkSet =>
    simp only [State.next,place,Option.some.injEq] at stepped
    exact kept (stepped ▸ rfl)
  | drop ff after =>
    simp only [State.next,place,Option.some.injEq,State.dropFile] at stepped
    refine kept (stepped ▸ ?_)
    cases ff.type <;> rfl
  | dup g fd =>
    simp only [State.next,place,Option.some.injEq] at stepped
    exact .inl (stepped ▸ filedup_resources s p g .idle f)
  | close g after =>
    simp only [State.next,place] at stepped
    cases stepped
    exact (fileclose_resources s p g after f).imp_right .inr
  | pipePage | pipeOut =>
    simp only [State.next,place] at stepped
    split at stepped <;> exact kept (Option.some.inj stepped ▸ rfl)
  | fork np i =>
    simp only [State.next,place] at stepped
    split at stepped
    · split at stepped
      · exact kept (Option.some.inj stepped ▸ rfl)
      · exact .inl (Option.some.inj stepped ▸ filedup_resources s p _ _ f)
    · exact kept (Option.some.inj stepped ▸ rfl)
  | exit fd =>
    simp only [State.next,place] at stepped
    split at stepped
    · split at stepped <;> exact kept (Option.some.inj stepped ▸ rfl)
    · exact kept (Option.some.inj stepped ▸ rfl)

theorem Inv.step_file {a : Action n} (inv : Inv s) (stepped : Files.step s a = some t) (f : Nat) :
    (t.file f).resources = (s.file f).resources ∨ (s.file f).resources = [] ∨ LastGoes s t a.proc f := by
  unfold Files.step at stepped
  rw [if_neg (by simp [inv.running])] at stepped
  cases a with
  | next p ok => exact inv.next_file stepped f
  | «open» | pipe | exit =>
    simp only [Option.ite_none_right_eq_some,State.call,Option.some.injEq] at stepped
    exact .inl (stepped.2 ▸ rfl)
  | dup | close =>
    simp only [Option.ite_none_right_eq_some,State.call,Option.map_eq_some_iff] at stepped
    obtain ⟨-,g,-,rfl⟩ := stepped
    exact .inl rfl
  | fork p np =>
    simp only [Option.ite_none_right_eq_some,State.call,Option.some.injEq] at stepped
    exact .inl (stepped.2.2 ▸ rfl)

namespace State

variable (s : State n)

/-- No process is in a call. -/
def Quiet : Prop := ∀ p, (s.pc p).outside

def descriptors (f : Nat) : Nat := ∑ p, ((range nofile).filter fun fd => s.ofile p fd = some f).card

def Reaches (r : Resource) : Prop := ∃ p, ∃ fd < nofile, ∃ f, s.ofile p fd = some f ∧ r ∈ (s.file f).resources

end State

theorem uses_of_outside (outside : (s.pc p).outside) (f : Nat) :
    s.uses p f = ((range nofile).filter fun fd => s.ofile p fd = some f).card := by
  obtain ⟨hidden,files,-⟩ := Pc.of_outside outside
  rw [State.uses,hidden,files,List.count_nil,add_zero,slots,card_filter]
  exact sum_congr rfl fun fd _ => by simp

theorem Inv.descriptors (inv : Inv s) (quiet : s.Quiet) (f : Nat) : (s.file f).ref = s.descriptors f := by
  rw [inv.counted]
  exact sum_congr rfl fun p _ => uses_of_outside (quiet p) f

theorem Inv.used {r : Resource} (inv : Inv s) (has : r ∈ (s.file f).resources) : 0 < (s.file f).ref ∧ f < nfile := by
  have used : (s.file f).ref ≠ 0 := by
    intro free
    simp [File.resources,inv.blank f free] at has
  exact ⟨Nat.pos_of_ne_zero used,inv.inside f used⟩

theorem Inv.held_pos (inv : Inv s) (r : Resource) : 0 < s.held.count r ↔ ∃ f, r ∈ (s.file f).resources := by
  rw [State.held,Multiset.count_sum',sum_pos_iff]
  constructor
  · rintro ⟨f,-,has⟩
    exact ⟨f,Multiset.count_pos.mp has⟩
  · rintro ⟨f,has⟩
    exact ⟨f,mem_range.mpr (inv.used has).2,Multiset.count_pos.mpr has⟩

theorem Inv.gone {r : Resource} (inv : Inv s) (released : r ∈ s.released) : ∀ f, r ∉ (s.file f).resources := by
  intro f has
  have held := (inv.held_pos r).mpr ⟨f,has⟩
  have back := List.count_pos_iff.mpr released
  have balance := inv.count r
  have once := count_taken_le s r
  omega

theorem Inv.given (inv : Inv s) (quiet : s.Quiet) {r : Resource} (taken : r ∈ s.taken) :
    r ∈ s.released ↔ ¬s.Reaches r := by
  constructor
  · rintro released ⟨p,fd,-,f,-,has⟩
    exact inv.gone released f has
  · intro unreached
    have carried : s.carried.count r = 0 := by
      rw [State.carried,sum_eq_zero fun p _ => by simp [(Pc.of_outside (quiet p)).2.2.1]]
      rfl
    have held : ¬0 < s.held.count r := by
      intro held
      obtain ⟨f,has⟩ := (inv.held_pos r).mp held
      have used := (inv.used has).1
      rw [inv.descriptors quiet,State.descriptors,sum_pos_iff] at used
      obtain ⟨p,-,more⟩ := used
      obtain ⟨fd,member⟩ := card_pos.mp more
      obtain ⟨inside,slot⟩ := mem_filter.mp member
      exact unreached ⟨p,fd,mem_range.mp inside,f,slot,has⟩
    have balance := inv.count r
    have taken := Multiset.count_pos.mpr taken
    exact List.count_pos_iff.mp (by omega)

/-- What holds of the file table at every moment. -/
structure Accounted (s : State n) : Prop where
  running : s.panic = none
  /-- Between calls, a count is the number of descriptors. -/
  counted : s.Quiet → ∀ f, (s.file f).ref = s.descriptors f
  free : ∀ f, (s.file f).ref = 0 → (s.file f).type = .none
  once : s.released.Nodup
  gone : ∀ r ∈ s.released, ∀ f, r ∉ (s.file f).resources
  /-- Between calls, what no descriptor reaches has been given back. -/
  given : s.Quiet → ∀ r ∈ s.taken, r ∈ s.released ↔ ¬s.Reaches r
  /-- Only the process that drops the last reference to a file takes from it what it has. -/
  last : ∀ a t, step s a = some t → ∀ f r, r ∈ (s.file f).resources → r ∉ (t.file f).resources → LastGoes s t a.proc f
  page : s.freed.Nodup
  ends : ∀ pi, pi ∈ s.freed ↔ .pipeEnd pi false ∈ s.released ∧ .pipeEnd pi true ∈ s.released

/-- For every interleaving of the calls of any number of processes. -/
theorem files_accounted {schedule : List (Action n)} (ran : Runs.run step (init n) schedule = some s) : Accounted s := by
  have inv := run_inv ran
  refine ⟨inv.running,inv.descriptors,inv.blank,?_,fun r => inv.gone,fun quiet r => inv.given quiet,?_,?_,?_⟩
  · refine List.nodup_iff_count_le_one.mpr fun r => ?_
    have balance := inv.count r
    have once := count_taken_le s r
    omega
  · intro a t stepped f r before after
    obtain same | none | last := inv.step_file stepped f
    · exact (after (same ▸ before)).elim
    · simp [none] at before
    · exact last
  · refine List.nodup_iff_count_le_one.mpr fun pi => ?_
    rw [inv.freed]
    split <;> simp
  · intro pi
    rw [← List.count_pos_iff,inv.freed]
    split <;> simp_all

/-- Process 0 opens a file, duplicates the descriptor, makes a pipe and forks. It closes the read end while its child
exits; then it closes the write end and one of the descriptors of the file. -/
def sharing : List (Action 2) :=
  let p : Fin 2 := ⟨0,Nat.two_pos⟩
  let c : Fin 2 := ⟨1,Nat.one_lt_two⟩
  let go (p : Fin 2) (count : Nat) : List (Action 2) := List.replicate count (.next p true)
  .open p false true :: go p 3 ++ .dup p 0 :: go p 2 ++ .pipe p :: go p 8 ++ .fork p c :: go p 21 ++
    .close p 2 :: .exit c :: go c 7 ++ go p 1 ++ go c 19 ++ .close p 3 :: go p 2 ++ .close p 1 :: go p 1

theorem files_accounted_sharing : ∃ s, Runs.run step (init 2) sharing = some s ∧ s.Quiet ∧ (s.file 0).ref = 1 ∧
      s.released = [.pipeEnd 0 false,.pipeEnd 0 true] ∧ s.freed = [0] ∧ Accounted s := by
  exact Runs.reaches (fun s => (∀ p, (s.pc p).outside = true) ∧ (s.file 0).ref = 1 ∧
    s.released = [.pipeEnd 0 false,.pipeEnd 0 true] ∧ s.freed = [0]) (by decide +kernel)
    fun s ran ⟨quiet,ref,released,freed⟩ => ⟨quiet,ref,released,freed,files_accounted ran⟩

end Xv6.Files
