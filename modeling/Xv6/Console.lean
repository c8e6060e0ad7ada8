import Xv6.History
import Xv6.Outline
import Xv6.Loops
import Xv6.Rings
import Mathlib.Data.List.Induction

/-! The console is a line editor: in every run the readers get the lines that the characters typed so far make up. -/
namespace Xv6.Loops

open Sched Function

/-! The line editor. -/

/-- All that was committed, how much of it has been taken out, and the line that is being edited. -/
structure Editor where
  committed : List UInt8
  taken : Nat
  line : List UInt8

namespace Editor

def unread (s : Editor) : List UInt8 := s.committed.drop s.taken

def typed (s : Editor) (c : UInt8) : Editor :=
  if c = 16 then s
  else if c = 21 then { s with line := [] }
  else if c = 8 ∨ c = 127 then { s with line := s.line.dropLast }
  else if c ≠ 0 ∧ (s.unread ++ s.line).length < inputBufSize then
    let c := if c = 13 then 10 else c
    let line := s.line ++ [c]
    if c = 10 ∨ c = 4 ∨ (s.unread ++ line).length = inputBufSize then
      { s with committed := s.committed ++ line, line := [] }
    else { s with line }
  else s

/-- A reader with `done` bytes comes to the character `c`: an end of file is left in place unless it is the first. -/
def looked (s : Editor) (done : Nat) (c : UInt8) : Editor :=
  if c = 4 ∧ 0 < done then s else { s with taken := s.taken + 1 }

end Editor

theorem Editor.typed_committed (s : Editor) (c : UInt8) :
    (s.typed c).taken = s.taken ∧ ∃ more, (s.typed c).committed = s.committed ++ more := by
  unfold Editor.typed
  dsimp only
  split_ifs
  all_goals first | exact ⟨rfl,[],(List.append_nil _).symm⟩ | exact ⟨rfl,_,rfl⟩

/-! The ring is the editor. -/

namespace Cons

def cell (cons : Cons) (i : Nat) : UInt8 := cons.buf ⟨i % inputBufSize,Nat.mod_lt _ (by decide)⟩

def entries (cons : Cons) : List UInt8 := Rings.entries inputBufSize cons.cell cons.r cons.e

theorem cell_slot (cons : Cons) (n : BitVec 32) : cons.cell (n.toNat % inputBufSize) = cons.buf (slot n) :=
  congrArg cons.buf (Fin.ext (Nat.mod_mod ..))

structure Shows (cons : Cons) (s : Editor) : Prop where
  cells : cons.entries = s.unread ++ s.line
  count : (cons.w - cons.r).toNat = s.unread.length
  taken : s.taken ≤ s.committed.length
  room : (s.unread ++ s.line).length ≤ inputBufSize
  full : (s.unread ++ s.line).length = inputBufSize → s.line = []
  plain : ∀ c ∈ s.line, c ≠ 10

variable {cons : Cons} {s : Editor}

namespace Shows

section

variable (shows : Shows cons s)
include shows

theorem size : (cons.e - cons.r).toNat = (s.unread ++ s.line).length := by
  rw [← shows.cells,entries,Rings.length_entries]

theorem length_line : (cons.e - cons.w).toNat = s.line.length := by
  have size := shows.size
  rw [List.length_append,← shows.count] at size
  bv_omega

theorem line_nil_iff : s.line = [] ↔ cons.e = cons.w := by
  rw [← List.length_eq_zero_iff,← shows.length_line]
  bv_omega

theorem unread_nil_iff : s.unread = [] ↔ cons.r = cons.w := by
  rw [← List.length_eq_zero_iff,← shows.count,← @Rings.length_entries _ inputBufSize _ cons.cell,
    List.length_eq_zero_iff,Rings.entries_eq_nil_iff]

theorem backspace (some : cons.e ≠ cons.w) :
    Shows { cons with e := cons.e - 1 } { s with line := s.line.dropLast } ∧
      s.line.getLast? = Option.some (cons.buf (slot (cons.e - 1))) := by
  have nonempty : s.line ≠ [] := mt shows.line_nil_iff.mp some
  have ne : cons.r ≠ cons.e := fun same => by
    have : s.unread ++ s.line = [] := by rw [← shows.cells,entries,Rings.entries_eq_nil_iff.mpr same]
    exact nonempty (List.append_eq_nil_iff.mp this).2
  have split := @Rings.entries_concat _ inputBufSize _ cons.cell _ _ (by decide) ne
  have whole : cons.entries = s.unread ++ s.line := shows.cells
  rw [entries,split,← List.dropLast_concat_getLast nonempty,← List.append_assoc,cell_slot] at whole
  obtain ⟨front,last⟩ := List.append_inj' whole rfl
  refine ⟨⟨front,shows.count,shows.taken,?_,fun full => ?_,fun c member => ?_⟩,?_⟩
  · have := shows.room
    simp only [List.length_append,List.length_dropLast,Editor.unread] at this ⊢
    omega
  · have room := shows.room
    have positive := List.length_pos_iff.mpr nonempty
    simp only [List.length_append,List.length_dropLast,Editor.unread] at room full
    omega
  · exact shows.plain c (List.dropLast_subset _ member)
  · rw [List.getLast?_eq_some_getLast nonempty]
    exact congrArg Option.some (List.singleton_inj.mp last).symm

theorem killLine {n : Nat} (length : s.line.length = n) : Shows (Cons.killLine n cons) { s with line := [] } := by
  induction n generalizing cons s with
  | zero =>
    have none : s.line = [] := List.length_eq_zero_iff.mp length
    rw [Cons.killLine,← none]
    exact shows
  | succ n ih =>
    have some : cons.e ≠ cons.w := mt shows.line_nil_iff.mpr fun none => by simp [none] at length
    obtain ⟨shorter,last⟩ := shows.backspace some
    have other : cons.buf (slot (cons.e - 1)) ≠ 10 := shows.plain _ (List.mem_of_getLast? last)
    rw [Cons.killLine,if_pos ⟨some,other⟩]
    have rest := ih shorter (by simp [length])
    exact rest

theorem stored (room : (s.unread ++ s.line).length < inputBufSize) (c : UInt8) :
    ({ cons with buf := update cons.buf (slot cons.e) c, e := cons.e + 1 } : Cons).entries =
      s.unread ++ (s.line ++ [c]) := by
  have length : (Rings.entries inputBufSize cons.cell cons.r cons.e).length < inputBufSize := by
    rw [← entries,shows.cells]
    exact room
  have cells : ∀ i < inputBufSize, cell { cons with buf := update cons.buf (slot cons.e) c, e := cons.e + 1 } i =
      update cons.cell (cons.e.toNat % inputBufSize) c i := by
    intro i below
    have mod := Nat.mod_eq_of_lt below
    by_cases here : i = cons.e.toNat % inputBufSize
    · have same : (⟨i % inputBufSize,Nat.mod_lt _ (by decide)⟩ : Fin inputBufSize) = slot cons.e :=
        Fin.ext (mod.trans here)
      rw [here,update_self,← here,cell,same]
      exact update_self ..
    · have other : (⟨i % inputBufSize,Nat.mod_lt _ (by decide)⟩ : Fin inputBufSize) ≠ slot cons.e := fun same =>
        here (mod.symm.trans (congrArg Fin.val same))
      simp [cell,update,here,other]
  rw [entries,Rings.entries_congr (by decide) cells]
  have written := Rings.entries_write (w := 32) (by decide) length c
  rw [Rings.entries_advance (by decide) (by decide) (by rw [written]; exact length),written,← entries,shows.cells,
    update_self,List.append_assoc]

theorem typed (c : UInt8) : Shows (cons.edit c).1 (s.typed c) := by
  have size := shows.size
  unfold Cons.edit Editor.typed
  by_cases print : c = 16
  · rwa [if_pos print,if_pos print]
  rw [if_neg print,if_neg print]
  by_cases kill : c = 21
  · rw [if_pos kill,if_pos kill]
    exact shows.killLine shows.length_line.symm
  rw [if_neg kill,if_neg kill]
  by_cases erase : c = 8 ∨ c = 127
  · rw [if_pos erase,if_pos erase]
    by_cases some : cons.e ≠ cons.w
    · rw [if_pos some]
      exact (shows.backspace some).1
    · rw [if_neg some,shows.line_nil_iff.mpr (not_not.mp some)]
      have none := shows.line_nil_iff.mpr (not_not.mp some)
      rw [List.dropLast_nil,← none]
      exact shows
  rw [if_neg erase,if_neg erase,size]
  by_cases room : c ≠ 0 ∧ (s.unread ++ s.line).length < inputBufSize
  swap
  · rwa [if_neg room,if_neg room]
  rw [if_pos room,if_pos room]
  dsimp only
  generalize (if c = 13 then 10 else c) = c
  have cells := shows.stored room.2 c
  have length := congrArg List.length cells
  rw [entries,Rings.length_entries] at length
  rw [length]
  have bound : (s.unread ++ (s.line ++ [c])).length ≤ inputBufSize := by
    rw [← List.append_assoc,List.length_append]
    exact room.2
  by_cases commit : c = 10 ∨ c = 4 ∨ (s.unread ++ (s.line ++ [c])).length = inputBufSize
  · rw [if_pos commit,if_pos commit]
    have unread : (s.committed ++ (s.line ++ [c])).drop s.taken = s.unread ++ (s.line ++ [c]) :=
      List.drop_append_of_le_length shows.taken
    refine ⟨?_,?_,?_,?_,fun _ => rfl,nofun⟩
    · rw [Editor.unread,unread,List.append_nil]
      exact cells
    · rw [Editor.unread,unread]
      exact length
    · exact Nat.le_trans shows.taken (by simp)
    · rwa [Editor.unread,unread,List.append_nil]
  · rw [if_neg commit,if_neg commit]
    obtain ⟨newline,-,full⟩ := not_or.mp commit |>.imp id not_or.mp
    refine ⟨cells,shows.count,shows.taken,bound,fun at_ => absurd at_ full,fun d member => ?_⟩
    rcases List.mem_append.mp member with old | new
    · exact shows.plain d old
    · rwa [List.mem_singleton.mp new]

theorem head (some : cons.r ≠ cons.w) :
    s.unread = cons.buf (slot cons.r) :: { s with taken := s.taken + 1 }.unread ∧
      Shows { cons with r := cons.r + 1 } { s with taken := s.taken + 1 } := by
  have nonempty : s.unread ≠ [] := mt shows.unread_nil_iff.mp some
  have ne : cons.r ≠ cons.e := fun same => by
    have : s.unread ++ s.line = [] := by rw [← shows.cells,entries,Rings.entries_eq_nil_iff.mpr same]
    exact nonempty (List.append_eq_nil_iff.mp this).1
  have split := @Rings.entries_cons _ inputBufSize _ cons.cell _ _ (by decide) ne
  obtain ⟨c,rest,isUnread⟩ := List.exists_cons_of_ne_nil nonempty
  have whole : cons.entries = s.unread ++ s.line := shows.cells
  rw [entries,split,isUnread,List.cons_append,cell_slot] at whole
  obtain ⟨rfl,behind⟩ := List.cons.inj whole
  have next : ({ s with taken := s.taken + 1 } : Editor).unread = rest := by
    rw [Editor.unread,← List.drop_drop,← Editor.unread,isUnread]
    rfl
  have size := shows.room
  rw [isUnread] at size
  have taken : s.taken < s.committed.length := by
    by_contra beyond
    exact nonempty (List.drop_eq_nil_of_le (by omega))
  refine ⟨by rw [isUnread,next],by rw [next]; exact behind,?_,taken,?_,fun full => ?_,shows.plain⟩
  · rw [next]
    have := shows.count
    rw [isUnread,List.length_cons] at this
    show (cons.w - (cons.r + 1)).toNat = rest.length
    bv_omega
  · rw [next]
    simp only [List.cons_append,List.length_cons,List.length_append] at size ⊢
    omega
  · rw [next] at full
    simp only [List.cons_append,List.length_cons,List.length_append] at size full
    omega

end

end Shows

end Cons

/-! Histories. -/

/-- A character is typed, a reader begins, or a reader that has `done` bytes comes to a character; `ok` tells that no
`either_copyout` of it fails. -/
inductive Event
  | typed (c : UInt8)
  | began (p : Nat)
  | looked (p done : Nat) (c : UInt8) (ok : Bool)
  deriving DecidableEq

def event (p : Nat) (k : Code) (d : Shared) : List Event :=
  match k with
  | .consoleintr c .edit => [.typed c]
  | .console f .outer => if f.done = 0 then [.began p] else []
  | .console f .take =>
    let c := d.cons.buf (Cons.slot d.cons.r)
    [.looked p f.done c (c = 4 || f.dst f.done)]
  | _ => []

def Editor.after (s : Editor) : Event → Editor
  | .typed c => s.typed c
  | .began _ => s
  | .looked _ done c _ => s.looked done c

def replay (history : List Event) : Editor := history.foldl Editor.after ⟨[],0,[]⟩

@[simp] theorem replay_concat (history : List Event) (e : Event) :
    replay (history ++ [e]) = (replay history).after e := by
  simp [replay]

/-- Every character that a reader came to was the first that was unread. -/
def Seen (history : List Event) : Prop :=
  ∀ before p done c ok after, history = before ++ .looked p done c ok :: after → (replay before).unread.head? = some c

variable {history : List Event} {c : UInt8} {p : Nat} {k : Code}

theorem Seen.concat (seen : Seen history) {e : Event}
    (last : ∀ p done c ok, e = .looked p done c ok → (replay history).unread.head? = some c) : Seen (history ++ [e]) := by
  intro before p done c ok after split
  rcases List.eq_nil_or_concat after with rfl | ⟨after,d,rfl⟩
  · obtain ⟨rfl,same⟩ := List.append_inj' split rfl
    exact last p done c ok (List.singleton_inj.mp same)
  · rw [List.concat_eq_append,← List.cons_append,← List.append_assoc] at split
    exact seen before p done c ok after (List.append_inj' split rfl).1

/-- The characters that readers have taken out, and those of them that were returned. -/
def consumed (history : List Event) : List UInt8 := history.filterMap fun
  | .looked _ done c _ => if c = 4 ∧ 0 < done then none else some c
  | _ => none

def returned (history : List Event) : List UInt8 := history.filterMap fun
  | .looked _ _ c ok => if c ≠ 4 ∧ ok = true then some c else none
  | _ => none

theorem Seen.front {e : Event} (seen : Seen (history ++ [e])) : Seen history :=
  fun before p done c ok after split => seen before p done c ok (after ++ [e]) (by simp [split])

theorem unread_head {s : Editor} (head : s.unread.head? = some c) :
    s.taken < s.committed.length ∧ s.committed[s.taken]? = some c := by
  rw [Editor.unread,List.head?_drop] at head
  exact ⟨(List.getElem?_eq_some_iff.mp head).1,head⟩

theorem Seen.taken_le (seen : Seen history) : (replay history).taken ≤ (replay history).committed.length := by
  induction history using List.reverseRecOn with
  | nil => exact Nat.le_refl 0
  | append_singleton history e ih =>
    have before := ih seen.front
    rw [replay_concat]
    cases e with
    | typed c =>
      obtain ⟨taken,more,committed⟩ := (replay history).typed_committed c
      rw [Editor.after,taken,committed,List.length_append]
      omega
    | began p => exact before
    | looked p done c ok =>
      have below := (unread_head (seen history p done c ok [] rfl)).1
      simp only [Editor.after,Editor.looked]
      split
      · exact before
      · exact below

theorem Seen.consumed (seen : Seen history) :
    Loops.consumed history = (replay history).committed.take (replay history).taken := by
  induction history using List.reverseRecOn with
  | nil => rfl
  | append_singleton history e ih =>
    have before := ih seen.front
    rw [replay_concat]
    cases e with
    | typed c =>
      obtain ⟨taken,more,committed⟩ := (replay history).typed_committed c
      rw [Editor.after,taken,committed,List.take_append_of_le_length seen.front.taken_le,← before]
      simp [Loops.consumed]
    | began p => simpa [Loops.consumed,Editor.after] using before
    | looked p done c ok =>
      have head := (unread_head (seen history p done c ok [] rfl)).2
      simp only [Editor.after,Editor.looked]
      rw [Loops.consumed,List.filterMap_append,← Loops.consumed,before]
      split
      · rename_i left
        simp [left]
      · rename_i taken
        rw [List.take_add_one,head]
        simp [taken]

def Event.quiet : Event → Bool
  | .looked .. => false
  | _ => true

theorem head_kept {s : Editor} {events : List Event} (head : s.unread.head? = some c)
    (quiet : ∀ e ∈ events, e.quiet = true) : (events.foldl Editor.after s).unread.head? = some c := by
  induction events generalizing s with
  | nil => exact head
  | cons e rest ih =>
    refine ih ?_ fun e member => quiet e (List.mem_cons_of_mem _ member)
    cases e with
    | typed d =>
      obtain ⟨taken,more,committed⟩ := s.typed_committed d
      obtain ⟨below,at_⟩ := unread_head head
      rw [Editor.after,Editor.unread,taken,committed,List.head?_drop,List.getElem?_append_left below,at_]
    | began p => exact head
    | looked p done d ok => cases quiet _ List.mem_cons_self

/-- An end of file that was left in place is what the next reader comes to. -/
theorem Seen.kept {before middle after : List Event} {q done done' : Nat} {ok ok' : Bool}
    (seen : Seen (before ++ .looked p done 4 ok :: (middle ++ .looked q done' c ok' :: after))) (some : 0 < done)
    (quiet : ∀ e ∈ middle, e.quiet = true) : c = 4 := by
  have first := seen before p done 4 ok _ rfl
  have second := seen (before ++ .looked p done 4 ok :: middle) q done' c ok' after (by simp)
  have same : replay (before ++ .looked p done 4 ok :: middle) = middle.foldl Editor.after (replay before) := by
    simp [replay,Editor.after,Editor.looked,some]
  rw [same,head_kept first quiet] at second
  exact (Option.some.inj second).symm

/-! The lock of the console. -/

/-- The characters that process `p` has come to since it called `consoleread`. -/
def own (p : Nat) (history : List Event) : List (UInt8 × Bool) :=
  history.foldl (fun chars e => match e with
    | .typed _ => chars
    | .began q => if q = p then [] else chars
    | .looked q _ c ok => if q = p then chars ++ [(c,ok)] else chars) []

theorem own_event {q : Nat} (other : q ≠ p) (k : Code) (d : Shared) (history : List Event) :
    own q (history ++ event p k d) = own q history := by
  unfold event
  split
  · simp [own]
  · split <;> simp [own,Ne.symm other]
  · simp [own,Ne.symm other]
  · simp

theorem own_take (p : Nat) (f : ConsoleFrame) (d : Shared) (history : List Event) :
    own p (history ++ event p (.console f .take) d) = own p history ++
      [(d.cons.buf (Cons.slot d.cons.r),d.cons.buf (Cons.slot d.cons.r) = 4 || f.dst f.done)] := by
  simp [own,event]

theorem mem_own {ok : Bool} (member : (c,ok) ∈ own p history) : ∃ done, .looked p done c ok ∈ history := by
  induction history using List.reverseRecOn with
  | nil => cases member
  | append_singleton history e ih =>
    have older (old : (c,ok) ∈ own p history) : ∃ done, .looked p done c ok ∈ history ++ [e] := by
      obtain ⟨done,at_⟩ := ih old
      exact ⟨done,List.mem_append_left _ at_⟩
    cases e with
    | typed d => exact older (by simpa [own] using member)
    | began q =>
      by_cases here : q = p
      · simp [own,here] at member
      · exact older (by simpa [own,here] using member)
    | looked q done d ok' =>
      by_cases here : q = p
      · rcases List.mem_append.mp (show (c,ok) ∈ own p history ++ [(d,ok')] by simpa [own,here] using member) with
          old | new
        · exact older old
        · obtain ⟨rfl,rfl⟩ := Prod.mk.inj (List.mem_singleton.mp new)
          exact ⟨done,by simp [here]⟩
      · exact older (by simpa [own,here] using member)

def Going (chars : List (UInt8 × Bool)) (done : Nat) : Prop :=
  chars.length = done ∧ ∀ x ∈ chars, x.1 ≠ 10 ∧ x.1 ≠ 4 ∧ x.2 = true

/-- A call ends at its last byte, or at a newline or an end of file. -/
def Ends (target : Int) (chars : List (UInt8 × Bool)) (done : Nat) : Prop :=
  Going chars done ∧ (done : Int) = max target 0 ∨
  ∃ front c, chars = front ++ [(c,true)] ∧ Going front front.length ∧ (front.length : Int) < target ∧
    (c = 10 ∧ done = front.length + 1 ∨ c = 4 ∧ done = front.length)

def Code.consInside : Code → Bool
  | .console _ .acquire | .consoleintr _ .acquire => false
  | .console .. | .consoleintr .. => true
  | _ => false

def Code.takes : Code → Bool
  | .console _ .take => true
  | _ => false

/-- The ring shows what the history makes of the input. -/
def Shown (v : Cons × List Event) : Prop := v.1.Shows (replay v.2) ∧ Seen v.2

def consMonitor : Monitor Code (Shared × List Event) (Cons × List Event) where
  lock := consLock
  chans chan := chan == consChan
  inside := Code.consInside
  view d := (d.1.cons,d.2)
  inv := Shown
  asleep _ := Shown
  holds k v := Shown v ∧ (k.takes = true → v.1.r ≠ v.1.w)

def Code.off : Code → Bool
  | .console .. | .consoleintr .. => false
  | _ => true

theorem Code.cons_away (off : k.off = true) : consMonitor.Away k := by
  cases k with
  | console | consoleintr => cases off
  | _ => exact ⟨rfl,fun _ => and_iff_left nofun⟩

def Off : Instr Input Code Shared → Prop
  | .acquire l next | .release l next => l ≠ consLock ∧ next.off = true
  | .sleep chan lk next => lk ≠ consLock ∧ next.off = true ∧ chan ≠ consChan
  | .wakeup _ next => next.off = true
  | .killed next | .kill _ next => ∀ b, (next b).off = true
  | .update f => ∀ d, (f d).2.off = true ∧ (f d).1.cons = d.cons
  | .choose f => ∀ input, (f input).off = true

theorem instr_off (p : Nat) (off : k.off = true) (called : k ≠ .user) : Off (instr p k) := by
  cases k with
  | console | consoleintr => cases off
  | user => exact absurd rfl called
  | write f place =>
    cases place
    case copyin =>
      intro d
      dsimp only
      split <;> exact ⟨rfl,rfl⟩
    case loop => exact fun d => ⟨by dsimp only; (repeat' split) <;> rfl,rfl⟩
    case full => exact fun d => ⟨rfl,rfl⟩
    case acquire | finish | fail => exact ⟨by decide,rfl⟩
    case killed => exact fun b => rfl
    case wakeFull | wakeEnd => rfl
    case sleepFull => exact ⟨by decide,rfl,by decide⟩
  | read f place =>
    cases place
    case loop | copy => exact fun d => ⟨rfl,rfl⟩
    case take => exact fun d => ⟨by dsimp only; split <;> rfl,rfl⟩
    case acquire | finish | fail => exact ⟨by decide,rfl⟩
    case killed => exact fun b => rfl
    case wakeEnd => rfl
    case sleepEmpty => exact ⟨by decide,rfl,by decide⟩
  | close writable place =>
    cases place
    case acquire | finish => exact ⟨by decide,rfl⟩
    case flag => exact fun d => ⟨rfl,rfl⟩
    case wake => rfl
  | kill pid => exact fun _ => rfl
  | killReturn found => exact fun _ => ⟨rfl,rfl⟩
  | sleep n ticks0 place =>
    cases place
    case acquire | finish | fail => exact ⟨by decide,rfl⟩
    case sleepTicks => exact ⟨by decide,rfl,by decide⟩
    case killed => exact fun _ => rfl
    all_goals exact fun d => ⟨rfl,rfl⟩
  | clock place =>
    cases place
    case acquire | finish => exact ⟨by decide,rfl⟩
    case tick => exact fun d => ⟨rfl,rfl⟩
    case wake => rfl
  | wait place =>
    cases place
    case acquire | finish | fail => exact ⟨by decide,rfl⟩
    case sleepChild => exact ⟨by decide,rfl,by simp only [procChan,consChan]; omega⟩
    case killed => exact fun _ => rfl
    case scan =>
      intro input
      cases input with
      | kids found => cases found <;> rfl
      | _ => rfl

theorem event_off (p : Nat) (off : k.off = true) (d : Shared) : event p k d = [] := by
  cases k with
  | console | consoleintr => cases off
  | _ => rfl

theorem Off.apart (off : k.off = true) {i : Instr Input Code Shared} (apart : Off i) :
    consMonitor.Apart (i.record (event p k)) := by
  cases i with
  | acquire l next | release l next => exact ⟨apart.1,Code.cons_away apart.2⟩
  | sleep chan lk next => exact ⟨apart.1,Code.cons_away apart.2.1,by simpa [consMonitor] using apart.2.2⟩
  | wakeup chan next => exact Code.cons_away apart
  | killed next | kill pid next => exact fun b => Code.cons_away (apart b)
  | update f =>
    intro d
    refine ⟨Code.cons_away (apart d.1).1,?_⟩
    simp only [consMonitor,event_off p off,List.append_nil,(apart d.1).2]
  | choose f => exact fun input => Code.cons_away (apart input)

theorem Shown.quiet {cons : Cons} (shown : Shown (cons,history)) (p : Nat) :
    Shown (cons,history ++ [.began p]) := by
  refine ⟨?_,shown.2.concat nofun⟩
  rw [replay_concat]
  exact shown.1

theorem Shown.edit {cons : Cons} (shown : Shown (cons,history)) (c : UInt8) :
    Shown ((cons.edit c).1,history ++ [.typed c]) := by
  refine ⟨?_,shown.2.concat nofun⟩
  rw [replay_concat]
  exact shown.1.typed c

theorem Shown.readChar {cons : Cons} (shown : Shown (cons,history)) (some : cons.r ≠ cons.w)
    (f : ConsoleFrame) (p : Nat) (ok : Bool) :
    Shown ((Loops.readChar f cons).1,history ++ [.looked p f.done (cons.buf (Cons.slot cons.r)) ok]) := by
  obtain ⟨head,next⟩ := shown.1.head some
  refine ⟨?_,shown.2.concat ?_⟩
  · rw [replay_concat]
    simp only [Loops.readChar,Editor.after,Editor.looked]
    by_cases eof : cons.buf (Cons.slot cons.r) = 4
    · by_cases first : 0 < f.done
      · simpa [eof,first] using shown.1
      · simpa [eof,first] using next
    · simp only [eof,if_false,false_and]
      split <;> exact next
  · rintro p' done c ok' same
    obtain ⟨-,-,rfl,-⟩ := Event.looked.inj same
    rw [head]
    rfl

theorem cons_kept (nproc : Nat) (pid : Nat → Nat) : consMonitor.Kept ((machine nproc pid).record event) := by
  refine ⟨fun p k => ?_,fun _ _ => id⟩
  show consMonitor.Keeps k ((instr p k).record (event p k))
  cases k with
  | user =>
    intro input
    cases input <;> exact ⟨rfl,fun _ shown => ⟨shown.1,nofun⟩⟩
  | console f place =>
    cases place
    case acquire => exact ⟨rfl,rfl,fun _ shown => ⟨shown,nofun⟩⟩
    case outer =>
      intro d
      dsimp only [event]
      by_cases first : f.done = 0
      · rw [if_pos first]
        exact ⟨by split <;> rfl,fun shown => ⟨shown.1.quiet p,by split <;> nofun⟩⟩
      · rw [if_neg first,List.append_nil]
        exact ⟨by split <;> rfl,fun shown => ⟨shown.1,by split <;> nofun⟩⟩
    case inner =>
      intro d
      dsimp only [event]
      rw [List.append_nil]
      refine ⟨by split <;> rfl,fun shown => ⟨shown.1,fun takes empty => ?_⟩⟩
      rw [if_pos (by exact empty)] at takes
      cases takes
    case killed =>
      intro killed
      cases killed <;> exact ⟨rfl,fun _ shown => ⟨shown.1,nofun⟩⟩
    case sleepEmpty => exact ⟨rfl,rfl,fun _ shown => shown.1,fun _ shown => ⟨shown,nofun⟩⟩
    case take =>
      intro d
      refine ⟨?_,fun shown => ⟨shown.1.readChar (shown.2 rfl) f p _,?_⟩⟩
      all_goals
        simp only [readChar]
        (repeat' split) <;> first | rfl | nofun
    case finish | fail => exact ⟨rfl,rfl,fun _ shown => shown.1⟩
  | consoleintr c place =>
    cases place
    case acquire => exact ⟨rfl,rfl,fun _ shown => ⟨shown,nofun⟩⟩
    case edit =>
      intro d
      exact ⟨by dsimp only; split <;> rfl,fun shown => ⟨shown.1.edit c,by dsimp only; split <;> nofun⟩⟩
    case wake => exact ⟨rfl,fun _ shown => ⟨shown.1,nofun⟩⟩
    case finish => exact ⟨rfl,rfl,fun _ shown => shown.1⟩
  | _ => exact Monitor.Apart.keeps (Code.cons_away rfl) (Off.apart rfl (instr_off p rfl (by simp)))

/-! The calls of `consoleread`. -/

/-- What a call has come to since it began, by place. -/
def Code.tells (chars : List (UInt8 × Bool)) : Code → Prop
  | .console f .acquire => f.done = 0
  | .console f .outer => f.done = 0 ∨ Going chars f.done ∧ (f.done : Int) ≤ f.target
  | .console f .inner | .console f .killed | .console f .sleepEmpty | .console f .take =>
    Going chars f.done ∧ (f.done : Int) < f.target
  | .console f .finish => Ends f.target chars f.done ∨ ∃ c, (c,false) ∈ chars
  | _ => True

def consOutline : Outline Code (Shared × List Event) := ⟨fun p k d => k.tells (own p d.2)⟩

theorem Code.tells_off (off : k.off = true) (chars : List (UInt8 × Bool)) : k.tells chars := by
  cases k with
  | console | consoleintr => cases off
  | _ => trivial

theorem Off.keeps (off : k.off = true) {i : Instr Input Code Shared} (apart : Off i) :
    consOutline.Keeps consMonitor p k (i.record (event p k)) := by
  cases i with
  | acquire l next | release l next => exact fun _ _ => Code.tells_off apart.2 _
  | sleep chan lk next => exact fun _ _ => Code.tells_off apart.2.1 _
  | wakeup chan next => exact fun _ _ => Code.tells_off apart _
  | killed next | kill pid next => exact fun b _ _ => Code.tells_off (apart b) _
  | update f =>
    refine fun d _ _ => ⟨Code.tells_off (apart d.1).1 _,fun q _ k' tells => ?_⟩
    simpa [consOutline,event_off p off] using tells
  | choose f => exact fun input _ _ => Code.tells_off (apart input) _

theorem Going.concat {chars : List (UInt8 × Bool)} {done : Nat} (going : Going chars done) (line : c ≠ 10)
    (file : c ≠ 4) : Going (chars ++ [(c,true)]) (done + 1) := by
  refine ⟨by simp [going.1],fun x member => ?_⟩
  rcases List.mem_append.mp member with old | new
  · exact going.2 x old
  · rw [List.mem_singleton.mp new]
    exact ⟨line,file,rfl⟩

theorem readChar_tells {f : ConsoleFrame} {cons : Cons} {chars : List (UInt8 × Bool)} (going : Going chars f.done)
    (more : (f.done : Int) < f.target) (isC : cons.buf (Cons.slot cons.r) = c) :
    (readChar f cons).2.tells (chars ++ [(c,c = 4 || f.dst f.done)]) := by
  have length := going.1
  have front : Going chars chars.length := ⟨rfl,going.2⟩
  have below : (chars.length : Int) < f.target := by omega
  simp only [readChar,isC]
  by_cases eof : c = 4
  · rw [if_pos eof]
    exact .inl (.inr ⟨chars,c,by simp [eof],front,below,.inr ⟨eof,length.symm⟩⟩)
  rw [if_neg eof,decide_eq_false eof,Bool.false_or]
  cases copied : f.dst f.done with
  | false => exact .inr ⟨c,by simp⟩
  | true =>
    rw [if_pos rfl]
    by_cases newline : c = 10
    · rw [if_pos newline]
      exact .inl (.inr ⟨chars,c,rfl,front,below,.inl ⟨newline,by simp [length]⟩⟩)
    · rw [if_neg newline]
      refine .inr ⟨going.concat newline eof,?_⟩
      show ((f.done + 1 : Nat) : Int) ≤ f.target
      omega

theorem cons_keeps (p : Nat) (k : Code) : consOutline.Keeps consMonitor p k ((instr p k).record (event p k)) := by
  have others (d : Shared × List Event) (cons : Shared) (q : Nat) (other : q ≠ p) (k' : Code)
      (tells : consOutline.asserts q k' d) : consOutline.asserts q k' (cons,d.2 ++ event p k d.1) := by
    simpa only [consOutline,own_event other] using tells
  cases k with
  | user =>
    intro input d _
    cases input with
    | consoleread dst n => exact rfl
    | _ => trivial
  | console f place =>
    cases place
    case acquire => exact fun d first => .inl first
    case outer =>
      refine fun d _ tells => ⟨?_,others d _⟩
      have started : Going (own p (d.2 ++ event p (.console f .outer) d.1)) f.done ∧
          (f.done = 0 ∨ (f.done : Int) ≤ f.target) := by
        by_cases first : f.done = 0
        · exact ⟨⟨by simp [own,event,first],by simp [own,event,first]⟩,.inl first⟩
        · obtain ⟨going,bound⟩ := tells.resolve_left first
          exact ⟨by simpa [event,first] using going,.inr bound⟩
      show Code.tells _ (.console f (if (f.done : Int) < f.target then .inner else .finish))
      split
      · exact ⟨started.1,by assumption⟩
      · exact .inl (.inl ⟨started.1,by omega⟩)
    case inner =>
      refine fun d _ tells => ⟨?_,others d _⟩
      dsimp only [event]
      rw [List.append_nil]
      split <;> exact tells
    case killed =>
      intro killed d tells
      cases killed
      · exact tells
      · trivial
    case sleepEmpty => exact fun d tells => tells
    case take =>
      refine fun d _ tells => ⟨?_,others d _⟩
      have chars := own_take p f d.1 d.2
      simp only [consOutline,chars]
      exact readChar_tells tells.1 tells.2 rfl
    case finish | fail => exact fun d _ => trivial
  | consoleintr c place =>
    cases place
    case acquire | finish | wake => exact fun d _ => trivial
    case edit =>
      refine fun d _ _ => ⟨?_,others d _⟩
      dsimp only
      split <;> trivial
  | _ => exact Off.keeps rfl (instr_off p rfl (by simp))

/-! Runs. -/

/-- The console keeps the line discipline: the indices are in order, the readers get the committed characters one after
the other, and each call ends where it should. -/
structure Disciplined (s : State Code (Shared × List Event)) : Prop where
  bounds : (s.data.1.cons.w - s.data.1.cons.r).toNat ≤ (s.data.1.cons.e - s.data.1.cons.r).toNat ∧
    (s.data.1.cons.e - s.data.1.cons.r).toNat ≤ inputBufSize
  full : (s.data.1.cons.e - s.data.1.cons.r).toNat = inputBufSize → s.data.1.cons.w = s.data.1.cons.e
  returned : returned s.data.2 = ((replay s.data.2).committed.take (replay s.data.2).taken).filter (· ≠ 4)
  consumed : consumed s.data.2 = (replay s.data.2).committed.take (replay s.data.2).taken
  unread : Rings.entries inputBufSize s.data.1.cons.cell s.data.1.cons.r s.data.1.cons.w = (replay s.data.2).unread
  kept : ∀ before p done ok middle q done' c ok' after, 0 < done → (∀ e ∈ middle, e.quiet = true) →
    s.data.2 = before ++ .looked p done 4 ok :: (middle ++ .looked q done' c ok' :: after) → c = 4
  calls : ∀ p f, (s.proc p).pc = .code (.console f .finish) → Ends f.target (own p s.data.2) f.done

/-- The machine of all calls, with the history of the console. -/
def recorded (nproc : Nat) (pid : Nat → Nat) : Machine Input Code (Shared × List Event) :=
  (machine nproc pid).record event

theorem returned_eq (copied : ∀ p done c, .looked p done c false ∉ history) :
    returned history = (consumed history).filter (· ≠ 4) := by
  induction history with
  | nil => rfl
  | cons e rest ih =>
    have ih := ih fun p done c member => copied p done c (List.mem_cons_of_mem _ member)
    cases e with
    | typed c => exact ih
    | began p => exact ih
    | looked p done c ok =>
      have ok : ok = true := by
        by_contra failed
        exact copied p done c (by simp [Bool.eq_false_iff.mpr failed])
      simp only [returned,consumed,List.filterMap_cons] at ih ⊢
      by_cases eof : c = 4
      · by_cases first : 0 < done
        · simpa [eof,first] using ih
        · simpa [eof,first] using ih
      · simpa [eof,ok] using ih

theorem console_disciplined {nproc : Nat} {pid : Nat → Nat} {page : Fin pipesize → UInt8} {cons : Cons}
    {ticks : BitVec 32} (empty : cons.w = cons.r ∧ cons.e = cons.r) {acts : List (Action Input)}
    {s : State Code (Shared × List Event)}
    (ran : Runs.run (step (recorded nproc pid)) (init (recorded nproc pid) start (⟨.alloc page,cons,ticks⟩,[]))
      acts = some s)
    (copied : ∀ p done c, .looked p done c false ∉ s.data.2) : Disciplined s := by
  have fresh : Shown (cons,[]) := by
    refine ⟨⟨?_,?_,Nat.le_refl 0,Nat.zero_le _,fun _ => rfl,nofun⟩,fun before p done c ok after split => ?_⟩
    · exact Rings.entries_eq_nil_iff.mpr empty.2.symm
    · rw [empty.1]
      simp [replay,Editor.unread]
    · simp at split
  obtain ⟨-,guarded,outlined⟩ := Outlined.run (cons_kept nproc pid) (fun p _ k => cons_keeps p k) (fun _ => rfl)
    (by exact fresh) (fun _ => by exact trivial) ran
  obtain ⟨shows,seen⟩ : s.data.1.cons.Shows (replay s.data.2) ∧ Seen s.data.2 :=
    guarded.always (fun _ _ holds => holds.1) (cons_kept nproc pid)
  have size := shows.size
  have count := shows.count
  rw [List.length_append] at size
  refine ⟨⟨by omega,?_⟩,fun full => ?_,?_,seen.consumed,?_,?_,fun p f place => ?_⟩
  · rw [shows.size]
    exact shows.room
  · exact (shows.line_nil_iff.mp (shows.full (by rwa [← shows.size]))).symm
  · rw [returned_eq copied,seen.consumed]
  · have whole : Rings.entries inputBufSize s.data.1.cons.cell s.data.1.cons.r s.data.1.cons.e = _ := shows.cells
    rw [Rings.entries_take (show _ ≤ (s.data.1.cons.e - s.data.1.cons.r).toNat by omega),whole,count,List.take_left]
  · rintro before p done ok middle q done' c ok' after some quiet split
    rw [split] at seen
    exact seen.kept some quiet
  · have tells := outlined p
    rw [place] at tells
    exact tells.resolve_right fun ⟨c,member⟩ => (mem_own member).elim fun done at_ => copied p done c at_

/-- A character and an end of file are typed where the indices wrap around, and two reads get one byte and none. -/
def endOfFile : List (Action Input) :=
  turns 0 7 (.consoleintr 97) ++ turns 0 6 (.consoleintr 4) ++ turns 0 15 (.consoleread (fun _ => true) 5)

theorem endOfFile_disciplined : ∃ s, Runs.run (step (recorded 1 (· + 1)))
    (init (recorded 1 (· + 1)) start (⟨.alloc fun _ => 0,⟨fun _ => 0,-1,-1,-1⟩,0⟩,[])) endOfFile = some s ∧
    s.data.2 = [.typed 97,.typed 4,.began 0,.looked 0 0 97 true,.looked 0 1 4 true,.began 0,.looked 0 0 4 true] ∧
    Disciplined s := by
  exact Runs.reaches (fun s => s.data.2 = [.typed 97,.typed 4,.began 0,.looked 0 0 97 true,.looked 0 1 4 true,.began 0,
    .looked 0 0 4 true]) (by decide +kernel) fun s ran history =>
    ⟨history,console_disciplined ⟨rfl,rfl⟩ ran (by simp [history])⟩

end Xv6.Loops
