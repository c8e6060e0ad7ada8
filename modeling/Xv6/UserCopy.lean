import Xv6.TableMap

/-! `copyin`, `copyout` and `copyinstr` go page by page. Here they are compared with the translation of one address
after the other. -/
namespace Xv6.Vm

open Prog Function

/-- Where the byte at `va` is, if it is in a present user page. -/
def translate (pte : Nat → Nat) (va : Nat) : Option Nat :=
  if va < maxva ∧ has (pte (va / pgsize)) pteV = true ∧ has (pte (va / pgsize)) pteU = true then
    some (pte2pa (pte (va / pgsize)) + va % pgsize)
  else none

/-- The number of bytes from `va` on that are there, of `len`. -/
def present (pte : Nat → Nat) (va : Nat) : Nat → Nat
  | 0 => 0
  | len + 1 => if (translate pte va).isSome then present pte ((va + 1) % 2 ^ 64) len + 1 else 0

def byteAt (pte : Nat → Nat) (m : Bytes.Storage) (va : Nat) : UInt8 := (translate pte va).elim 0 m

def fetched (pte : Nat → Nat) (m : Bytes.Storage) (va : Nat) : Nat → List UInt8
  | 0 => []
  | n + 1 => byteAt pte m va :: fetched pte m ((va + 1) % 2 ^ 64) n

/-- Memory with the bytes written one after the other from `va` on. -/
def stored (pte : Nat → Nat) (va : Nat) : List UInt8 → Bytes.Storage → Bytes.Storage
  | [], m => m
  | byte :: bytes, m =>
    stored pte ((va + 1) % 2 ^ 64) bytes ((translate pte va).elim m fun a => update m a byte)

/-- The user pages of a table are pages of RAM, and none of its own. -/
def Framed (pte : Nat → Nat) (tabs : Multiset Nat) : Prop :=
  ∀ i < maxva / pgsize, has (pte i) pteV = true → has (pte i) pteU = true → Page (pte2pa (pte i)) ∧ pte2pa (pte i) ∉ tabs

section Translate

variable {s : State} {root : Nat} {tabs : Multiset Nat} {pte : Nat → Nat} {va pa : Nat}

def At (pte : Nat → Nat) (va pa : Nat) : Prop :=
  va < maxva ∧ has (pte (va / pgsize)) pteV = true ∧ has (pte (va / pgsize)) pteU = true ∧ pte2pa (pte (va / pgsize)) = pa

instance (pte : Nat → Nat) (va pa : Nat) : Decidable (At pte va pa) := inferInstanceAs (Decidable (_ ∧ _ ∧ _ ∧ _))

theorem translate_some (here : At pte va pa) {i : Nat} (inside : va % pgsize + i < pgsize) :
    translate pte (va + i) = some (pa + (va % pgsize + i)) := by
  obtain ⟨bound,valid,user,rfl⟩ := here
  have page : (va + i) / pgsize = va / pgsize ∧ (va + i) % pgsize = va % pgsize + i ∧ va + i < maxva := by
    simp only [pgsize,maxva] at *
    omega
  rw [translate,page.1,page.2.1,if_pos ⟨page.2.2,valid,user⟩]

theorem translate_none (missing : ∀ pa, ¬At pte va pa) : translate pte va = none :=
  if_neg fun ⟨bound,valid,user⟩ => missing _ ⟨bound,valid,user,rfl⟩

theorem walkaddr_run (table : Table s.mem root tabs pte) (framed : Framed pte tabs) (va : Nat) :
    ∃ pa, (walkaddr root (pgrounddown va)).run s = .ok (pa,s) ∧
      (pa = 0 ∧ (∀ pa, ¬At pte va pa) ∨ pa ≠ 0 ∧ At pte va pa ∧ Page pa ∧ pa ∉ tabs) := by
  by_cases bound : va < maxva
  swap
  · have high : maxva ≤ pgrounddown va := by
      simp only [pgrounddown,pgsize,maxva] at *
      omega
    refine ⟨0,?_,.inl ⟨rfl,fun pa here => bound here.1⟩⟩
    rw [walkaddr,if_pos high]
    rfl
  have hi : va / pgsize < maxva / pgsize := by
    simp only [pgsize,maxva] at *
    omega
  have low : pgrounddown va < maxva := Table.address_lt hi
  have found := table.tree.walk_lookup low false (.inr rfl)
  have entry : leaf s.mem root (pgrounddown va) = pte (va / pgsize) := table.maps _ hi
  rw [walkaddr,if_neg (Nat.not_le.mpr low),run_bind found]
  obtain ⟨none,zero⟩ | ⟨_,_,_,some,ok,word⟩ := table.tree.slot_cases (pgrounddown va)
  · rw [if_pos none]
    refine ⟨0,rfl,.inl ⟨rfl,fun pa here => ?_⟩⟩
    have valid := here.2.1
    rw [← entry,zero,has_zero] at valid
    exact Bool.false_ne_true valid
  · rw [if_neg some,run_bind (load64_run ok),← word,entry]
    by_cases valid : has (pte (va / pgsize)) pteV = true
    swap
    · exact ⟨0,by simp [valid]; rfl,.inl ⟨rfl,fun pa here => valid here.2.1⟩⟩
    by_cases user : has (pte (va / pgsize)) pteU = true
    swap
    · exact ⟨0,by simp [valid,user]; rfl,.inl ⟨rfl,fun pa here => user here.2.2.1⟩⟩
    obtain ⟨isPage,other⟩ := framed _ hi valid user
    refine ⟨_,by simp [valid,user]; rfl,.inr ⟨isPage.ne_zero,⟨bound,valid,user,rfl⟩,isPage,other⟩⟩

theorem At.next (here : At pte va pa) {n : Nat} (inside : va % pgsize + n < pgsize) : (va + n + 1) % 2 ^ 64 =
    va + (n + 1) := by
  have bound := here.1
  simp only [pgsize,maxva] at *
  omega

theorem present_page (here : At pte va pa) {n : Nat} (inside : va % pgsize + n ≤ pgsize) (rest : Nat) :
    present pte va (n + rest) = n + present pte (va + n) rest := by
  induction n generalizing rest with
  | zero => simp
  | succ n ih =>
    rw [Nat.add_assoc,ih (by omega),Nat.add_comm 1 rest,present,translate_some here (by omega),here.next (by omega)]
    simp only [Option.isSome_some,if_true]
    omega

theorem fetched_page (here : At pte va pa) (m : Bytes.Storage) {n : Nat} (inside : va % pgsize + n ≤ pgsize)
    (rest : Nat) :
    fetched pte m va (n + rest) =
      ((List.range n).map fun i => m (pa + va % pgsize + i)) ++ fetched pte m (va + n) rest := by
  induction n generalizing rest with
  | zero => simp
  | succ n ih =>
    rw [Nat.add_assoc,ih (by omega),Nat.add_comm 1 rest,fetched,byteAt,translate_some here (by omega),
      here.next (by omega),
      List.range_succ]
    simp [Nat.add_assoc]

theorem splice_cons (m : Bytes.Storage) (a : Nat) (byte : UInt8) (bytes : List UInt8) :
    Bytes.splice (update m a byte) (a + 1) bytes = Bytes.splice m a (byte :: bytes) := by
  funext i
  simp only [Bytes.splice]
  obtain rfl | first := eq_or_ne i a
  · simp
  · rw [update_of_ne first]
    by_cases inside : a + 1 ≤ i ∧ i < a + 1 + bytes.length
    · rw [if_pos inside,if_pos (by simp only [List.length_cons]; omega),show i - a = i - (a + 1) + 1 by omega]
      rfl
    · rw [if_neg inside,if_neg (by simp only [List.length_cons]; omega)]

theorem stored_page (here : At pte va pa) (m : Bytes.Storage) (bytes rest : List UInt8)
    (inside : va % pgsize + bytes.length ≤ pgsize) :
    stored pte va (bytes ++ rest) m =
      stored pte (va + bytes.length) rest (Bytes.splice m (pa + va % pgsize) bytes) := by
  have from' (n : Nat) (inside : va % pgsize + (n + bytes.length) ≤ pgsize) :
      stored pte (va + n) (bytes ++ rest) m =
        stored pte (va + (n + bytes.length)) rest (Bytes.splice m (pa + (va % pgsize + n)) bytes) := by
    induction bytes generalizing n m with
    | nil =>
      congr 1
      funext i
      simp only [Bytes.splice,List.length_nil]
      rw [if_neg (by omega)]
    | cons byte bytes ih =>
      rw [List.length_cons] at *
      rw [List.cons_append,stored,translate_some here (by omega),here.next (by omega),Option.elim_some,
        ih _ (by omega) (n + 1) (by omega),← splice_cons,Nat.add_assoc n,Nat.add_comm 1]
      rfl
  have := from' 0 (by omega)
  simpa using this

end Translate

/-! Copies. -/

section Copy

variable {s : State} {root : Nat} {tabs : Multiset Nat} {pte : Nat → Nat} {va pa : Nat}

theorem Page.mapped_byte (isPage : Page pa) {i : Nat} (bound : i < pgsize) : mapped (pa + i) = true := by
  have low := isPage.low
  have high := isPage.high
  simp only [mapped,Bool.and_eq_true,decide_eq_true_eq]
  omega

theorem turn_width (here : At pte va pa) {len : Nat} (some : len ≠ 0) :
    ∃ n rest, min (pgsize - (va - pgrounddown va)) len = n ∧ len = n + rest ∧ 0 < n ∧ va % pgsize + n ≤ pgsize ∧
      va - pgrounddown va = va % pgsize ∧ (rest ≠ 0 → va + n = (pgrounddown va + pgsize) % 2 ^ 64) := by
  have bound := here.1
  refine ⟨_,len - min (pgsize - (va - pgrounddown va)) len,rfl,?_⟩
  simp only [pgrounddown,pgsize,maxva] at *
  omega

section

variable (table : Table s.mem root tabs pte)
include table

theorem copyinFrom_run (framed : Framed pte tabs) (turns len : Nat) (enough : len < turns) :
    (copyinFrom root turns va len).run s =
      .ok ((fetched pte s.mem va (present pte va len),decide (present pte va len = len)),s) := by
  induction turns generalizing va len with
  | zero => omega
  | succ turns ih =>
    rw [copyinFrom]
    obtain rfl | none := eq_or_ne len 0
    · simp [present,fetched]
      rfl
    obtain ⟨pa,found,⟨rfl,missing⟩ | ⟨nonzero,here,isPage,_⟩⟩ := walkaddr_run table framed va
    · obtain ⟨len,rfl⟩ := Nat.exists_eq_succ_of_ne_zero none
      rw [if_neg none,run_bind found,if_pos rfl,present,translate_none missing]
      rfl
    obtain ⟨n,rest,width,rfl,some,inside,offset,next⟩ := turn_width here none
    have moved : (memmoveFrom (pa + va % pgsize) n).run s =
        .ok ((List.range n).map fun i => s.mem (pa + va % pgsize + i),s) := by
      rw [memmoveFrom,if_pos (isPage.mapped_byte (by omega))]
      rfl
    have later := @ih ((pgrounddown va + pgsize) % 2 ^ 64) rest (by omega)
    rw [if_neg none,run_bind found,if_neg nonzero]
    dsimp only
    rw [width,offset,run_bind moved,Nat.add_sub_cancel_left,run_bind later,present_page here inside,
      fetched_page here s.mem inside]
    obtain rfl | last := eq_or_ne rest 0
    · simp only [present,fetched,Nat.add_zero]
      rfl
    · rw [next last]
      simp only [Nat.add_left_cancel_iff]
      rfl

theorem copyin_run (framed : Framed pte tabs) (va len : Nat) : (copyin root va len).run s =
      .ok ((fetched pte s.mem va (present pte va len),decide (present pte va len = len)),s) :=
  copyinFrom_run table framed (len + 1) len (Nat.lt_succ_self len)

theorem Table.spliced (isPage : Page pa) (other : pa ∉ tabs) {o : Nat} {bytes : List UInt8}
    (inside : o + bytes.length ≤ pgsize) :
    Table (Bytes.splice s.mem (pa + o) bytes) root tabs pte := by
  refine (table.agree fun a table => ?_).1
  rw [Bytes.splice,if_neg]
  rintro ⟨lower,upper⟩
  have same := pgrounddown_word (i := a - pa) isPage (by simp only [pgsize] at *; omega)
  rw [Nat.add_sub_cancel' (by omega)] at same
  exact other (same ▸ table)

theorem copyoutFrom_run (framed : Framed pte tabs) (turns : Nat) (src : List UInt8) (enough : src.length < turns) :
    (copyoutFrom root turns va src).run s = .ok (if present pte va src.length = src.length then 0 else -1,
        { s with mem := stored pte va (src.take (present pte va src.length)) s.mem }) := by
  induction turns generalizing s va src with
  | zero => omega
  | succ turns ih =>
    rw [copyoutFrom]
    by_cases none : src.length = 0
    · rw [List.length_eq_zero_iff] at none
      subst none
      rfl
    obtain ⟨pa,found,⟨rfl,missing⟩ | ⟨nonzero,here,isPage,other⟩⟩ := walkaddr_run table framed va
    · obtain ⟨len,length⟩ := Nat.exists_eq_succ_of_ne_zero none
      rw [if_neg none,run_bind found,if_pos rfl,length,present,translate_none missing]
      rfl
    obtain ⟨n,rest,width,length,some,inside,offset,next⟩ := turn_width here none
    have front : (src.take n).length = n := List.length_take_of_le (by omega)
    have back : (src.drop n).length = rest := by
      rw [List.length_drop]
      omega
    have moved : (memmoveTo (pa + va % pgsize) (src.take n)).run s =
        .ok ((),{ s with mem := Bytes.splice s.mem (pa + va % pgsize) (src.take n) }) := by
      rw [memmoveTo,if_pos (isPage.mapped_byte (by omega))]
      rfl
    have later := @ih { s with mem := Bytes.splice s.mem (pa + va % pgsize) (src.take n) }
      ((pgrounddown va + pgsize) % 2 ^ 64) (table.spliced isPage other (by omega)) (src.drop n) (by omega)
    rw [if_neg none,run_bind found,if_neg nonzero]
    dsimp only
    rw [width,offset,run_bind moved,later,back,length,present_page here inside]
    have taken (k : Nat) : src.take (n + k) = src.take n ++ (src.drop n).take k := List.take_add
    rw [taken,stored_page here s.mem _ _ (by omega),front]
    obtain rfl | last := eq_or_ne rest 0
    · simp only [present,Nat.add_zero,List.take_zero,stored]
    · rw [next last]
      simp only [Nat.add_left_cancel_iff]

theorem copyout_run (framed : Framed pte tabs) (va : Nat) (src : List UInt8) :
    (copyout root va src).run s = .ok (if present pte va src.length = src.length then 0 else -1,
      { s with mem := stored pte va (src.take (present pte va src.length)) s.mem }) :=
  copyoutFrom_run table framed (src.length + 1) src (Nat.lt_succ_self _)

end

/-- The first `k` of `len` bytes from `va` on are there, and the next one is in a page that is not. -/
structure Reaches (pte : Nat → Nat) (va len k : Nat) : Prop where
  bound : k ≤ len
  there : ∀ i < k, (translate pte ((va + i) % 2 ^ 64)).isSome = true
  stop : k < len → translate pte ((va + k) % 2 ^ 64) = none ∧ (k = 0 ∨ (va + k) % pgsize = 0)

theorem next_address (va i : Nat) : ((va + 1) % 2 ^ 64 + i) % 2 ^ 64 = (va + (i + 1)) % 2 ^ 64 := by
  rw [Nat.mod_add_mod,Nat.add_assoc,Nat.add_comm 1]

theorem translate_next (there : (translate pte va).isSome = true) (inside : (va + 1) % pgsize ≠ 0) :
    (translate pte ((va + 1) % 2 ^ 64)).isSome = true := by
  obtain ⟨pa,here⟩ : ∃ pa, At pte va pa := by
    by_contra none
    rw [translate_none (fun pa here => none ⟨pa,here⟩)] at there
    exact Bool.false_ne_true there
  have room : va % pgsize + 1 < pgsize := by
    simp only [pgsize] at *
    omega
  rw [show (va + 1) % 2 ^ 64 = va + 1 from here.next (n := 0) (by omega),translate_some here room]
  rfl

theorem present_reaches (small : va < 2 ^ 64) (len : Nat) : Reaches pte va len (present pte va len) := by
  induction len generalizing va with
  | zero => exact ⟨Nat.le_refl 0,by simp [present],fun less => absurd less (Nat.lt_irrefl 0)⟩
  | succ len ih =>
    have start : (va + 0) % 2 ^ 64 = va := by
      rw [Nat.add_zero,Nat.mod_eq_of_lt small]
    rw [present]
    by_cases first : (translate pte va).isSome = true
    swap
    · rw [if_neg first]
      refine ⟨Nat.zero_le _,by simp,fun _ => ⟨?_,.inl rfl⟩⟩
      rw [start]
      simpa using first
    rw [if_pos first]
    obtain ⟨bound,there,stop⟩ := @ih ((va + 1) % 2 ^ 64) (Nat.mod_lt _ (by decide))
    refine ⟨Nat.succ_le_succ bound,fun i less => ?_,fun less => ?_⟩
    · cases i with
      | zero => rwa [start]
      | succ i =>
        rw [← next_address]
        exact there i (by omega)
    · obtain ⟨missing,edge⟩ := stop (by omega)
      rw [← next_address]
      refine ⟨missing,.inr ?_⟩
      rcases edge with none | edge
      · rw [none] at missing ⊢
        by_contra inside
        have again := translate_next first (by simpa using inside)
        rw [Nat.add_zero,Nat.mod_mod] at missing
        rw [missing] at again
        exact Bool.false_ne_true again
      · simp only [pgsize] at *
        omega

theorem Reaches.all_iff {len k : Nat} (reaches : Reaches pte va len k) :
    k = len ↔ ∀ i < len, (translate pte ((va + i) % 2 ^ 64)).isSome = true := by
  constructor
  · rintro rfl
    exact reaches.there
  · intro all
    by_contra short
    have less : k < len := lt_of_le_of_ne reaches.bound short
    have there := all k less
    rw [(reaches.stop less).1] at there
    exact Bool.false_ne_true there

theorem fetched_eq (small : va < 2 ^ 64) (m : Bytes.Storage) (k : Nat) :
    fetched pte m va k = (List.range k).map fun i => byteAt pte m ((va + i) % 2 ^ 64) := by
  induction k generalizing va with
  | zero => rfl
  | succ k ih =>
    have start : (va + 0) % 2 ^ 64 = va := Nat.mod_eq_of_lt small
    rw [fetched,ih (Nat.mod_lt _ (by decide)),List.range_succ_eq_map,List.map_cons,List.map_map,start]
    simp only [next_address]
    rfl

/-- `copyin` and `copyout` return 0 if all bytes of the range are in present user pages, and then have copied what
translating one address after the other gives. If not, they return -1 and have copied the bytes before the first page
that is not there. -/
theorem copies_bytewise (table : Table s.mem root tabs pte) (framed : Framed pte tabs) (small : va < 2 ^ 64) :
    (∀ len, ∃ k, Reaches pte va len k ∧ (k = len ↔ ∀ i < len, (translate pte ((va + i) % 2 ^ 64)).isSome = true) ∧
      (copyin root va len).run s =
        .ok (((List.range k).map fun i => byteAt pte s.mem ((va + i) % 2 ^ 64),decide (k = len)),s)) ∧
    ∀ src : List UInt8, ∃ k, Reaches pte va src.length k ∧
      (k = src.length ↔ ∀ i < src.length, (translate pte ((va + i) % 2 ^ 64)).isSome = true) ∧
      (copyout root va src).run s =
        .ok (if k = src.length then 0 else -1,{ s with mem := stored pte va (src.take k) s.mem }) := by
  refine ⟨fun len => ?_,fun src => ?_⟩
  · have reaches := @present_reaches pte va small len
    exact ⟨_,reaches,reaches.all_iff,by rw [copyin_run table framed,fetched_eq small]⟩
  · have reaches := @present_reaches pte va small src.length
    exact ⟨_,reaches,reaches.all_iff,copyout_run table framed va src⟩

end Copy

theorem onePage_framed {flags : Nat} (fits : flags < 2 ^ 10) : Framed (onePte flags) {frame 0,frame 1,frame 2} := by
  intro i hi valid _
  obtain rfl | zero := eq_or_ne i 0
  · have target : pte2pa (onePte flags 0) = frame 3 := pte2pa_or (frame_page (by decide)) fits
    rw [target]
    exact ⟨frame_page (by decide),by decide⟩
  · rw [onePte,if_neg zero,has_zero] at valid
    exact absurd valid (by decide)

/-- A range that starts in the page and ends in the next one, which is missing. -/
theorem onePage_bytewise : ∃ k, Reaches (onePte userFlags) 4000 200 k ∧
    (copyin (frame 0) 4000 200).run (onePage userFlags) =
      .ok (((List.range k).map fun i => byteAt (onePte userFlags) (onePage userFlags).mem ((4000 + i) % 2 ^ 64),
        decide (k = 200)),onePage userFlags) := by
  have fits : userFlags < 2 ^ 10 := by decide
  have small : 4000 < 2 ^ 64 := by decide
  obtain ⟨k,reaches,_,ran⟩ := (copies_bytewise (onePage_table fits) (onePage_framed fits) small).1 200
  exact ⟨k,reaches,ran⟩

/-! Write protection. -/

section Protection

variable {s : State} {root : Nat} {tabs : Multiset Nat} {pte : Nat → Nat} {va len : Nat}

/-- The page with number `i` is mapped and cannot be written. -/
def ReadOnly (pte : Nat → Nat) (i : Nat) : Prop :=
  i < maxva / pgsize ∧ has (pte i) pteV = true ∧ has (pte i) pteW = false

/-- `copyout` to a range leaves pages that cannot be written as they are, and returns -1 if the range meets one. -/
def Respects (s : State) (root : Nat) (pte : Nat → Nat) (va len : Nat) : Prop :=
  ∀ src : List UInt8, src.length = len → ∃ r t, (copyout root va src).run s = .ok (r,t) ∧
    (∀ i, ReadOnly pte i → ∀ x < pgsize, t.mem (pte2pa (pte i) + x) = s.mem (pte2pa (pte i) + x)) ∧
    ((∃ j < len, ReadOnly pte ((va + j) % 2 ^ 64 / pgsize)) → r = -1)

/-- No page that `copyout` comes to is mapped without `PTE_W`. -/
def Writable (pte : Nat → Nat) (va len : Nat) : Prop :=
  ∀ j < present pte va len, ∀ i, ReadOnly pte i → pte2pa (pte i) ≠ pte2pa (pte ((va + j) % 2 ^ 64 / pgsize))

theorem translate_eq_some {a : Nat} (found : translate pte va = some a) :
    At pte va (pte2pa (pte (va / pgsize))) ∧ a = pte2pa (pte (va / pgsize)) + va % pgsize := by
  rw [translate] at found
  split at found
  · rename_i here
    exact ⟨⟨here.1,here.2.1,here.2.2,rfl⟩,(Option.some.inj found).symm⟩
  · cases found

theorem stored_other {a : Nat} (small : va < 2 ^ 64) (bytes : List UInt8) (m : Bytes.Storage)
    (other : ∀ j < bytes.length, translate pte ((va + j) % 2 ^ 64) ≠ some a) : stored pte va bytes m a = m a := by
  induction bytes generalizing va m with
  | nil => rfl
  | cons byte bytes ih =>
    have first := other 0 (by simp)
    rw [Nat.add_zero,Nat.mod_eq_of_lt small] at first
    rw [stored,ih (Nat.mod_lt _ (by decide))]
    · cases found : translate pte va with
      | none => rfl
      | some b =>
        have ne : a ≠ b := fun same => first (same ▸ found)
        exact update_of_ne ne ..
    · intro j less
      rw [next_address]
      exact other (j + 1) (by simp; omega)

theorem stored_differs {a : Nat} (small : va < 2 ^ 64) (bytes : List UInt8) (old m : Bytes.Storage)
    (new : ∀ j byte, bytes[j]? = some byte → translate pte ((va + j) % 2 ^ 64) = some a → byte ≠ old a)
    (hit : m a ≠ old a ∨ ∃ j < bytes.length, translate pte ((va + j) % 2 ^ 64) = some a) :
    stored pte va bytes m a ≠ old a := by
  induction bytes generalizing va m with
  | nil =>
    rcases hit with differs | ⟨j,less,_⟩
    · exact differs
    · exact absurd less (Nat.not_lt_zero j)
  | cons byte bytes ih =>
    have start : (va + 0) % 2 ^ 64 = va := Nat.mod_eq_of_lt small
    rw [stored]
    apply ih (Nat.mod_lt _ (by decide))
    · intro j b there found
      rw [next_address] at found
      exact new (j + 1) b there found
    · by_cases here : translate pte va = some a
      · left
        rw [here]
        have := new 0 byte rfl (by rwa [start])
        simpa using this
      · have kept : (translate pte va).elim m (fun b => update m b byte) a = m a := by
          cases found : translate pte va with
          | none => rfl
          | some b =>
            have ne : a ≠ b := fun same => here (same ▸ found)
            exact update_of_ne ne ..
        rcases hit with differs | ⟨j,less,found⟩
        · exact .inl (by rwa [kept])
        · cases j with
          | zero =>
            rw [start] at found
            exact absurd found here
          | succ j =>
            refine .inr ⟨j,by simpa using less,?_⟩
            rwa [next_address]

theorem pte2pa_aligned (v : Nat) : pte2pa v % pgsize = 0 := by
  simp only [pte2pa,pgsize]
  omega

theorem writable_of_respects (table : Table s.mem root tabs pte) (framed : Framed pte tabs) (small : va < 2 ^ 64)
    (respects : Respects s root pte va len) : Writable pte va len := by
  intro j less i fixed same
  obtain ⟨bound,there,_⟩ := @present_reaches pte va small len
  -- every byte of the source is one more than what it replaces
  obtain ⟨src,isSrc⟩ : ∃ src, src = (List.range len).map fun j => byteAt pte s.mem ((va + j) % 2 ^ 64) + 1 := ⟨_,rfl⟩
  have length : src.length = len := by simp [isSrc]
  obtain ⟨r,t,ran,kept,_⟩ := respects src length
  rw [copyout_run table framed,length] at ran
  obtain rfl := (Prod.mk.inj (Except.ok.inj ran)).2
  obtain ⟨a,found⟩ := Option.isSome_iff_exists.mp (there j less)
  obtain ⟨_,place⟩ := translate_eq_some found
  have last : (va + j) % 2 ^ 64 % pgsize < pgsize := Nat.mod_lt _ (by decide)
  have unchanged := kept i fixed _ last
  rw [same,← place] at unchanged
  refine stored_differs small _ s.mem s.mem (fun k byte member hit => ?_)
    (.inr ⟨j,by simp [length]; omega,found⟩) unchanged
  have source : src[k]? = some byte := by
    rw [List.getElem?_take] at member
    split at member
    · exact member
    · cases member
  rw [isSrc,List.getElem?_map] at source
  obtain ⟨k',at',rfl⟩ := Option.map_eq_some_iff.mp source
  obtain rfl : k = k' := by
    have := List.getElem?_eq_some_iff.mp at'
    simpa using this.2
  rw [byteAt,hit]
  simp

theorem respects_of_writable (table : Table s.mem root tabs pte) (framed : Framed pte tabs) (small : va < 2 ^ 64)
    (writable : Writable pte va len) : Respects s root pte va len := by
  rintro src rfl
  obtain ⟨bound,there,_⟩ := @present_reaches pte va small src.length
  refine ⟨_,_,copyout_run table framed va src,fun i fixed x inside => ?_,fun ⟨j,less,fixed⟩ => ?_⟩
  · refine stored_other small _ _ fun j less found => ?_
    have less : j < present pte va src.length := by
      simp only [List.length_take] at less
      omega
    obtain ⟨_,place⟩ := translate_eq_some found
    have aligned := pte2pa_aligned (pte i)
    have aligned' := pte2pa_aligned (pte ((va + j) % 2 ^ 64 / pgsize))
    refine writable j less i fixed ?_
    simp only [pgsize] at *
    omega
  · rw [if_neg]
    intro all
    rw [← all] at less
    exact writable j less _ fixed rfl

/-- `copyout` looks at `PTE_V` and `PTE_U` only: it respects write protection if it does not come to a page without
`PTE_W`. -/
theorem copyout_respects_iff (table : Table s.mem root tabs pte) (framed : Framed pte tabs) (small : va < 2 ^ 64) :
    Respects s root pte va len ↔ Writable pte va len :=
  ⟨writable_of_respects table framed small,respects_of_writable table framed small⟩

end Protection

def textFlags : Nat := pteV ||| pteR ||| pteX ||| pteU

theorem onePage_respects : Respects (onePage userFlags) (frame 0) (onePte userFlags) 0 pgsize := by
  have fits : userFlags < 2 ^ 10 := by decide
  have small : 0 < 2 ^ 64 := by decide
  refine (copyout_respects_iff (onePage_table fits) (onePage_framed fits) small).mpr fun j _ i fixed => ?_
  obtain ⟨_,valid,fixed⟩ := fixed
  obtain rfl | zero := eq_or_ne i 0
  · exact absurd fixed (by decide)
  · rw [onePte,if_neg zero,has_zero] at valid
    exact absurd valid (by decide)

/-- A byte is written to program text. -/
theorem onePage_text_overwritten :
    ReadOnly (onePte textFlags) 0 ∧ pte2pa (onePte textFlags 0) = frame 3 ∧ (onePage textFlags).mem (frame 3) = 97 ∧
    (resultOf (copyout (frame 0) 0 [7]) (onePage textFlags)).map (fun r => (r.1,r.2.mem (frame 3))) = some (0,7) := by
  refine ⟨⟨by decide,by decide,by decide⟩,by decide,by decide +kernel,by decide +kernel⟩

end Xv6.Vm
