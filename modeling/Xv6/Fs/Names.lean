import Xv6.Fs.Syscall
import Mathlib.Data.Set.Basic
import Mathlib.Logic.Relation

/-! The name space: the types and link counts of the inodes and the entries of the directories,
without blocks, bytes and locks, and what a system call may do to it. -/
namespace Xv6.Fs

open Function

/-- A name as directories compare it: its first `DIRSIZ` bytes, up to a null byte. -/
def chop (name : List UInt8) : List UInt8 := (name.take dirsiz).takeWhile (· ≠ 0)

/-- Link counts are 0 for free inodes; an inode that is not a directory has no entries. -/
@[ext] structure Names where
  typ : Nat → Nat
  nlink : Nat → Nat
  ents : Nat → List Dirent

/-- Slot `k` of a directory takes an entry; the slot after the last one is new. -/
def put (l : List Dirent) (k : Nat) (e : Dirent) : List Dirent := if k < l.length then l.set k e else l ++ [e]

/-- The inodes that the entries after the first two name. -/
def childrenOf (l : List Dirent) : List Nat := ((l.drop 2).map Dirent.inum).filter (· ≠ 0)

namespace Names

def kids (N : Names) (d : Nat) : List Nat := childrenOf (N.ents d)

def free (N : Names) (i : Nat) : Names :=
  ⟨update N.typ i 0,update N.nlink i 0,update N.ents i []⟩

def setNlink (N : Names) (i n : Nat) : Names := { N with nlink := update N.nlink i n }

def setEnts (N : Names) (d : Nat) (l : List Dirent) : Names := { N with ents := update N.ents d l }

/-- A free inode gets a type and its first link. -/
@[simp] def alloc (N : Names) (i type : Nat) : Names :=
  ⟨update N.typ i type,update N.nlink i 1,update N.ents i []⟩

/-- The entry for an inode; the field on the disk has 16 bits. -/
def entry (i : Nat) (name : List UInt8) : Dirent := ⟨i % 2 ^ 16,name⟩

/-- The 16-bit link count after `nlink++` and `nlink--`. -/
def inc (n : Nat) : Nat := (n + 1) % 2 ^ 16
def dec (n : Nat) : Nat := (n + (2 ^ 16 - 1)) % 2 ^ 16

/-- `create` of inode `i` in slot `k` of `d`; `own` are the entries that a new directory starts
with. The `..` of the child is a link to `d`. -/
@[simp] def make (N : Names) (d k i type : Nat) (name : List UInt8) (own : List Dirent) : Names where
  typ := update N.typ i type
  nlink := update (update N.nlink i 1) d (if type = tDir then inc (N.nlink d) else N.nlink d)
  ents := update (update N.ents i own) d (put (N.ents d) k (entry i name))

def link (N : Names) (d k i : Nat) (name : List UInt8) : Names :=
  (N.setNlink i (inc (N.nlink i))).setEnts d (put (N.ents d) k (entry i name))

/-- `unlink` of inode `i`, which slot `k` of `d` names. -/
def unlink (N : Names) (d k i : Nat) : Names where
  typ := N.typ
  nlink := update (update N.nlink d (if N.typ i = tDir then dec (N.nlink d) else N.nlink d)) i (dec (N.nlink i))
  ents := update N.ents d ((N.ents d).set k ⟨0,[]⟩)

/-- A slot that `dirlink` may use for a new entry of this name. -/
structure Vacant (N : Names) (d k : Nat) (name : List UInt8) : Prop where
  dir : N.typ d = tDir
  bound : k ≤ (N.ents d).length
  empty : ∀ e, (N.ents d)[k]? = some e → e.inum = 0
  fresh : ∀ e ∈ N.ents d, e.inum ≠ 0 → e.name ≠ name
  nonempty : name ≠ []

/-- A change to the name space that a call makes. -/
inductive Op (N : Names) : Names → Prop
  | make {d k i type : Nat} {name : List UInt8} (vacant : N.Vacant d k name) (free : N.typ i = 0) (pos : 0 < i)
      (typed : type ≠ 0) {own : List Dirent} (plain : type ≠ tDir → own = [])
      (dots : type = tDir → i % 2 ^ 16 ≠ 0 → own = [entry i dot,entry d dotdot]) :
      Op N (N.make d k i type name own)
  | link {d k i : Nat} {name : List UInt8} (vacant : N.Vacant d k name) (typed : N.typ i ≠ 0)
      (file : N.typ i ≠ tDir) : Op N (N.link d k i name)
  | unlink {d k : Nat} {e : Dirent} (dir : N.typ d = tDir) (at_ : (N.ents d)[k]? = some e) (some : e.inum ≠ 0)
      (other : e.name ≠ dot ∧ e.name ≠ dotdot) (typed : N.typ e.inum ≠ 0) (apart : d ≠ e.inum)
      (linked : 0 < N.nlink e.inum) (small : N.nlink e.inum < 2 ^ 15) (empty : N.typ e.inum = tDir → N.kids e.inum = []) :
      Op N (N.unlink d k e.inum)

/-- An inode without links that is not held is freed. -/
inductive Free (held : Set Nat) (N : Names) : Names → Prop
  | free {i : Nat} (typed : N.typ i ≠ 0) (unlinked : N.nlink i = 0) (loose : i ∉ held) : Free held N (N.free i)

def Frees (N : Names) (held : Set Nat) (N' : Names) : Prop := Relation.ReflTransGen (Free held) N N'

/-- What a system call does to the name space. -/
def Effect (N : Names) (held : Set Nat) (N' : Names) : Prop :=
  ∃ N₁ N₂, N.Frees held N₁ ∧ (N₂ = N₁ ∨ Op N₁ N₂) ∧ N₂.Frees held N'

/-- All entries name inodes below `n`, and so do those that are allocated. -/
structure Range (n : Nat) (N : Names) : Prop where
  typed : ∀ i, N.typ i ≠ 0 → i < n
  entry : ∀ d, ∀ e ∈ N.ents d, e.inum < n

/-- An inode that has no links but is not free is one of `O` or one that is held in the table. -/
def Kept (O : Set Nat) (N : Names) (L : Set (Nat × Nat)) : Prop :=
  ∀ i, N.typ i ≠ 0 → N.nlink i = 0 → i ∈ O ∨ ∃ k, (k,i) ∈ L

/-- A set of allocated and linked inodes that paths do not leave. -/
structure Closed (W : Set Nat) (N : Names) : Prop where
  typed : ∀ i ∈ W, N.typ i ≠ 0
  linked : ∀ i ∈ W, N.nlink i ≠ 0
  inside : ∀ d ∈ W, ∀ e ∈ N.ents d, e.inum ≠ 0 → e.inum ∈ W

section Free

variable {N N' : Names} {held held' : Set Nat} {i : Nat}

@[simp] theorem setNlink_typ (N : Names) (i n : Nat) : (N.setNlink i n).typ = N.typ := rfl
@[simp] theorem setNlink_nlink (N : Names) (i n : Nat) : (N.setNlink i n).nlink = update N.nlink i n := rfl
@[simp] theorem setNlink_ents (N : Names) (i n : Nat) : (N.setNlink i n).ents = N.ents := rfl
@[simp] theorem setEnts_typ (N : Names) (d : Nat) (l : List Dirent) : (N.setEnts d l).typ = N.typ := rfl
@[simp] theorem setEnts_nlink (N : Names) (d : Nat) (l : List Dirent) : (N.setEnts d l).nlink = N.nlink := rfl
@[simp] theorem setEnts_ents (N : Names) (d : Nat) (l : List Dirent) :
    (N.setEnts d l).ents = update N.ents d l := rfl
@[simp] theorem free_typ (N : Names) (i : Nat) : (N.free i).typ = update N.typ i 0 := rfl
@[simp] theorem free_nlink (N : Names) (i : Nat) : (N.free i).nlink = update N.nlink i 0 := rfl
@[simp] theorem free_ents (N : Names) (i : Nat) : (N.free i).ents = update N.ents i [] := rfl

/-- What the name space knows of inode `i` is the same. -/
structure Same (N N' : Names) (i : Nat) : Prop where
  typ : N'.typ i = N.typ i
  nlink : N'.nlink i = N.nlink i
  ents : N'.ents i = N.ents i

theorem free_same {j : Nat} (ne : i ≠ j) : Same N (N.free j) i := by
  constructor <;> simp [ne]

theorem Frees.refl (N : Names) : N.Frees held N := Relation.ReflTransGen.refl

theorem Frees.trans {N₁ N₂ N₃ : Names} (first : N₁.Frees held N₂) (second : N₂.Frees held N₃) : N₁.Frees held N₃ :=
  Relation.ReflTransGen.trans first second

theorem Frees.single (step : Free held N N') : N.Frees held N' := Relation.ReflTransGen.single step

theorem Frees.mono (frees : N.Frees held N') (fewer : held' ⊆ held) : N.Frees held' N' := by
  induction frees with
  | refl => exact .refl N
  | tail _ step ih =>
    cases step with
    | free typed unlinked loose => exact ih.trans (.single (.free typed unlinked fun h => loose (fewer h)))

theorem Frees.keep (frees : N.Frees held N') (h : i ∈ held) : Same N N' i := by
  induction frees with
  | refl => exact ⟨rfl,rfl,rfl⟩
  | tail _ step ih =>
    cases step with
    | @free j typed unlinked loose =>
      have ne : i ≠ j := fun eq => loose (eq ▸ h)
      exact ⟨(free_same ne).typ.trans ih.typ,(free_same ne).nlink.trans ih.nlink,(free_same ne).ents.trans ih.ents⟩

theorem Frees.preserve {P : Names → Prop} (frees : N.Frees held N') (start : P N)
    (step : ∀ M i, P M → M.typ i ≠ 0 → M.nlink i = 0 → P (M.free i)) : P N' := by
  induction frees with
  | refl => exact start
  | tail _ last ih =>
    cases last with
    | free typed unlinked _ => exact step _ _ ih typed unlinked

theorem Range.setEnts {n d : Nat} (range : N.Range n) {l : List Dirent} (all : ∀ e ∈ l, e.inum < n) :
    (N.setEnts d l).Range n := by
  refine ⟨range.typed,fun j e member => ?_⟩
  by_cases here : j = d
  · exact all e (by simpa [here] using member)
  · exact range.entry j e (by simpa [here] using member)

theorem Range.free {n : Nat} (range : N.Range n) (i : Nat) : (N.free i).Range n := by
  refine ⟨fun j typed => range.typed j ?_,fun d e member => range.entry d e ?_⟩
  · by_cases here : j = i
    · simp [here] at typed
    · simpa [here] using typed
  · by_cases here : d = i
    · simp [here] at member
    · simpa [here] using member

theorem Closed.free {W : Set Nat} (closed : N.Closed W) (unlinked : N.nlink i = 0) : (N.free i).Closed W := by
  have ne (j : Nat) (h : j ∈ W) : j ≠ i := by
    rintro rfl
    exact closed.linked j h unlinked
  refine ⟨fun j h => ?_,fun j h => ?_,fun d h => ?_⟩
  · simpa [ne j h] using closed.typed j h
  · simpa [ne j h] using closed.linked j h
  · simpa [ne d h] using closed.inside d h

theorem Frees.closed {W : Set Nat} (frees : N.Frees held N') (closed : N.Closed W) : N'.Closed W :=
  frees.preserve closed fun _ _ closed _ unlinked => closed.free unlinked

theorem Frees.linked (frees : N.Frees held N') (linked : N.nlink i ≠ 0) : Same N N' i := by
  induction frees with
  | refl => exact ⟨rfl,rfl,rfl⟩
  | tail _ step ih =>
    cases step with
    | @free j typed unlinked loose =>
      have ne : i ≠ j := by
        rintro rfl
        exact linked (ih.nlink ▸ unlinked)
      exact ⟨(free_same ne).typ.trans ih.typ,(free_same ne).nlink.trans ih.nlink,(free_same ne).ents.trans ih.ents⟩

theorem Frees.typ (frees : N.Frees held N') (typed : N'.typ i ≠ 0) : N'.typ i = N.typ i := by
  induction frees with
  | refl => rfl
  | tail _ step ih =>
    cases step with
    | @free j _ unlinked loose =>
      have ne : i ≠ j := by
        rintro rfl
        simp at typed
      rw [(free_same ne).typ] at typed ⊢
      exact ih typed

theorem setNlink_free {n j : Nat} (ne : j ≠ i) : (N.setNlink i n).free j = (N.free j).setNlink i n := by
  ext1
  · rfl
  · simp [update_comm ne]
  · rfl

/-- Freeing others commutes with a change to the link count of an inode that is held. -/
theorem Frees.setNlink {n : Nat} (frees : (N.setNlink i n).Frees held N') (h : i ∈ held) :
    ∃ M, N.Frees held M ∧ N' = M.setNlink i n := by
  induction frees with
  | refl => exact ⟨N,.refl N,rfl⟩
  | tail _ step ih =>
    obtain ⟨M,frees,rfl⟩ := ih
    cases step with
    | @free j typed unlinked loose =>
      have ne : j ≠ i := fun eq => loose (eq ▸ h)
      refine ⟨M.free j,frees.trans (.single (.free typed ?_ loose)),setNlink_free ne⟩
      simpa [ne] using unlinked

theorem Frees.setNlink_right {n : Nat} (frees : N.Frees held N') (h : i ∈ held) :
    (N.setNlink i n).Frees held (N'.setNlink i n) := by
  induction frees with
  | refl => exact .refl _
  | tail _ step ih =>
    cases step with
    | @free j typed unlinked loose =>
      have ne : j ≠ i := fun eq => loose (eq ▸ h)
      rw [← setNlink_free ne]
      exact ih.trans (.single (.free typed (by simpa [ne] using unlinked) loose))

end Free

section Effect

variable {N N' N'' : Names} {held held' : Set Nat} {i : Nat}

theorem Frees.effect (frees : N.Frees held N') : N.Effect held N' := ⟨N',N',frees,.inl rfl,.refl N'⟩

theorem Op.effect (op : Op N N') : N.Effect held N' := ⟨N,N',.refl N,.inr op,.refl N'⟩

theorem Effect.frees (effect : N.Effect held N') (frees : N'.Frees held N'') : N.Effect held N'' := by
  obtain ⟨N₁,N₂,before,op,after⟩ := effect
  exact ⟨N₁,N₂,before,op,after.trans frees⟩

theorem Frees.andThen (frees : N.Frees held N') (effect : N'.Effect held N'') : N.Effect held N'' := by
  obtain ⟨N₁,N₂,before,op,after⟩ := effect
  exact ⟨N₁,N₂,frees.trans before,op,after⟩

theorem Effect.mono (effect : N.Effect held N') (fewer : held' ⊆ held) : N.Effect held' N' := by
  obtain ⟨N₁,N₂,before,op,after⟩ := effect
  exact ⟨N₁,N₂,before.mono fewer,op,after.mono fewer⟩

theorem Op.typ (op : Op N N') (typed : N.typ i ≠ 0) : N'.typ i = N.typ i := by
  cases op with
  | @make d k j type name vacant free pos nonzero own plain dots =>
    have ne : i ≠ j := by
      rintro rfl
      exact typed free
    simp [ne]
  | link vacant _ file => rfl
  | unlink => rfl

theorem Effect.typ_linked (effect : N.Effect held N') (typed : N.typ i ≠ 0) (linked : N.nlink i ≠ 0)
    (still : N'.typ i ≠ 0) : N'.typ i = N.typ i := by
  obtain ⟨N₁,N₂,before,op,after⟩ := effect
  have first := (before.linked linked).typ
  rw [after.typ still,← first]
  rcases op with rfl | op
  · rfl
  · exact op.typ (by rwa [first])

theorem Effect.typ (effect : N.Effect held N') (h : i ∈ held) (typed : N.typ i ≠ 0) : N'.typ i = N.typ i := by
  obtain ⟨N₁,N₂,before,op,after⟩ := effect
  have first := (before.keep h).typ
  rw [(after.keep h).typ,← first]
  rcases op with rfl | op
  · rfl
  · exact op.typ (by rwa [first])

end Effect

end Names

/-! Slots and children. -/

theorem mem_put {l : List Dirent} {k : Nat} {e x : Dirent} (member : e ∈ put l k x) : e ∈ l ∨ e = x := by
  unfold put at member
  split at member
  · exact List.mem_or_eq_of_mem_set member
  · simpa using member

theorem mem_childrenOf {l : List Dirent} {c : Nat} :
    c ∈ childrenOf l ↔ c ≠ 0 ∧ ∃ k e, 2 ≤ k ∧ l[k]? = some e ∧ e.inum = c := by
  simp only [childrenOf,List.mem_filter,List.mem_map,decide_eq_true_eq]
  constructor
  · rintro ⟨⟨e,member,rfl⟩,some⟩
    obtain ⟨k,at_⟩ := List.mem_iff_getElem?.mp member
    rw [List.getElem?_drop] at at_
    exact ⟨some,2 + k,e,by omega,at_,rfl⟩
  · rintro ⟨some,k,e,low,at_,rfl⟩
    refine ⟨⟨e,List.mem_iff_getElem?.mpr ⟨k - 2,?_⟩,rfl⟩,some⟩
    rwa [List.getElem?_drop,Nat.add_sub_cancel' low]

theorem childrenOf_append {p : List Dirent} (q : List Dirent) (long : 2 ≤ p.length) :
    childrenOf (p ++ q) = childrenOf p ++ (q.map Dirent.inum).filter (· ≠ 0) := by
  rw [childrenOf,List.drop_append_of_le_length long,List.map_append,List.filter_append,childrenOf]

theorem childrenOf_put {l : List Dirent} {k : Nat} {e : Dirent} (low : 2 ≤ k) (bound : k ≤ l.length)
    (empty : ∀ e, l[k]? = some e → e.inum = 0) (some : e.inum ≠ 0) :
    (childrenOf (put l k e)).Perm (e.inum :: childrenOf l) := by
  by_cases inside : k < l.length
  · have long : 2 ≤ (l.take k).length := by
      rw [List.length_take]
      omega
    have zero := empty _ (List.getElem?_eq_getElem inside)
    have whole : l = l.take k ++ l[k] :: l.drop (k + 1) := by
      rw [List.getElem_cons_drop,List.take_append_drop]
    rw [put,if_pos inside,List.set_eq_take_append_cons_drop,if_pos inside,childrenOf_append _ long]
    conv_rhs => rw [whole,childrenOf_append _ long]
    simp only [List.map_cons]
    rw [List.filter_cons_of_pos (by simpa using some),List.filter_cons_of_neg (by simpa using zero)]
    exact List.perm_middle
  · rw [put,if_neg inside,childrenOf_append _ (by omega)]
    simp only [List.map_cons,List.map_nil]
    rw [List.filter_cons_of_pos (by simpa using some),List.filter_nil]
    exact List.perm_append_singleton ..

theorem childrenOf_clear {l : List Dirent} {k : Nat} {e : Dirent} (low : 2 ≤ k) (at_ : l[k]? = some e)
    (some : e.inum ≠ 0) : (childrenOf l).Perm (e.inum :: childrenOf (l.set k ⟨0,[]⟩)) := by
  obtain ⟨inside,here⟩ := List.getElem?_eq_some_iff.mp at_
  have whole : put (l.set k ⟨0,[]⟩) k e = l := by
    rw [put,if_pos (by simpa using inside),List.set_set,← here,List.set_getElem_self]
  have step := @childrenOf_put (l.set k ⟨0,[]⟩) k e low (by simpa using Nat.le_of_lt inside)
    (fun f => by simp [inside]; rintro rfl; rfl) some
  rwa [whole] at step

end Xv6.Fs
