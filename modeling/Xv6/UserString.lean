import Xv6.UserCopy

/-! `copyinstr` copies a string that ends in time, or fails. -/
namespace Xv6.Vm

open Prog

/-- `copyinstrFrom` with the pages that it looks up. -/
def copyinstrTrace (pagetable : Nat) : Nat → Nat → Nat → Kernel ((List UInt8 × Bool) × List Nat)
  | 0, _, _ => fail .diverges
  | turns + 1, srcva, max => do
    if max = 0 then return (([],false),[])
    let va0 := pgrounddown srcva
    let pa0 ← walkaddr pagetable va0
    if pa0 = 0 then return (([],false),[va0])
    let n := min (pgsize - (srcva - va0)) max
    let bytes ← memmoveFrom (pa0 + (srcva - va0)) n
    if bytes.contains 0 then return ((bytes.takeWhile (· ≠ 0),true),[va0])
    let ((rest,null),pages) ← copyinstrTrace pagetable turns ((va0 + pgsize) % 2 ^ 64) (max - n)
    return ((bytes ++ rest,null),va0 :: pages)

theorem copyinstrFrom_eq (pagetable turns srcva max : Nat) :
    copyinstrFrom pagetable turns srcva max = (do
      let (r,_) ← copyinstrTrace pagetable turns srcva max
      return r) := by
  induction turns generalizing srcva max with
  | zero => rfl
  | succ turns ih =>
    rw [copyinstrFrom,copyinstrTrace]
    simp only [ih,bind_bind,ite_bind,bind_pure]

/-- The bytes stored at the destination: those before the null byte, and the null byte if it was seen. -/
def copied (r : List UInt8 × Bool) : List UInt8 := if r.2 then r.1 ++ [0] else r.1

/-- The string at `va`, of at most `max` bytes, one address after the other. -/
def scanned (pte : Nat → Nat) (m : Bytes.Storage) (va : Nat) : Nat → List UInt8 × Bool
  | 0 => ([],false)
  | max + 1 =>
    match translate pte va with
    | none => ([],false)
    | some a =>
      if m a = 0 then ([],true)
      else
        let (rest,null) := scanned pte m ((va + 1) % 2 ^ 64) max
        (m a :: rest,null)

section Scan

variable {s : State} {root : Nat} {tabs : Multiset Nat} {pte : Nat → Nat} {va pa : Nat}

theorem scanned_page (here : At pte va pa) (m : Bytes.Storage) {n : Nat} (inside : va % pgsize + n ≤ pgsize)
    (rest : Nat) :
    scanned pte m va (n + rest) = if ((List.range n).map fun i => m (pa + va % pgsize + i)).contains 0 then
        (((List.range n).map fun i => m (pa + va % pgsize + i)).takeWhile (· ≠ 0),true)
      else (((List.range n).map fun i => m (pa + va % pgsize + i)) ++ (scanned pte m (va + n) rest).1,
        (scanned pte m (va + n) rest).2) := by
  have from' (o : Nat) (inside : va % pgsize + (o + n) ≤ pgsize) : scanned pte m (va + o) (n + rest) =
        if ((List.range n).map fun i => m (pa + va % pgsize + (o + i))).contains 0 then
          (((List.range n).map fun i => m (pa + va % pgsize + (o + i))).takeWhile (· ≠ 0),true)
        else (((List.range n).map fun i => m (pa + va % pgsize + (o + i))) ++ (scanned pte m (va + (o + n)) rest).1,
          (scanned pte m (va + (o + n)) rest).2) := by
    induction n generalizing o with
    | zero => simp
    | succ n ih =>
      have later := ih (by omega) (o + 1) (by omega)
      have shift : (fun i => m (pa + va % pgsize + (o + i))) ∘ Nat.succ =
          fun i => m (pa + va % pgsize + (o + 1 + i)) := by
        funext i
        simp only [Function.comp,Nat.succ_eq_add_one,Nat.add_assoc,Nat.add_comm 1]
      rw [Nat.add_right_comm n 1 rest,scanned,translate_some here (by omega),here.next (by omega),later,
        List.range_succ_eq_map,List.map_cons,List.map_map,shift,← Nat.add_assoc pa]
      simp only [Nat.add_zero,List.contains_cons,List.takeWhile_cons]
      by_cases zero : m (pa + va % pgsize + o) = 0
      · simp [zero]
      · have head : ((0 : UInt8) == m (pa + va % pgsize + o)) = false := beq_false_of_ne (Ne.symm zero)
        rw [head,Bool.false_or,if_neg zero,decide_eq_true zero,if_pos rfl,show o + (n + 1) = o + 1 + n by omega]
        split
        · rfl
        · rfl
  have start := from' 0 (by omega)
  simpa using start

/-- The page has one of the `max` bytes from `va` on, and no null byte comes before it. -/
def Needed (pte : Nat → Nat) (m : Bytes.Storage) (va max page : Nat) : Prop :=
  ∃ i < max, page = pgrounddown ((va + i) % 2 ^ 64) ∧
    ∀ j < i, ∃ a, translate pte ((va + j) % 2 ^ 64) = some a ∧ m a ≠ 0

theorem copyinstrTrace_run (table : Table s.mem root tabs pte) (framed : Framed pte tabs) (turns max : Nat)
    (small : va < 2 ^ 64) (enough : max < turns) :
    ∃ pages, (copyinstrTrace root turns va max).run s = .ok ((scanned pte s.mem va max,pages),s) ∧
      ∀ page ∈ pages, Needed pte s.mem va max page := by
  induction turns generalizing va max with
  | zero => omega
  | succ turns ih =>
    rw [copyinstrTrace]
    obtain rfl | none := eq_or_ne max 0
    · exact ⟨[],rfl,by simp⟩
    have first : Needed pte s.mem va max (pgrounddown va) :=
      ⟨0,Nat.pos_of_ne_zero none,by rw [Nat.add_zero,Nat.mod_eq_of_lt small],by simp⟩
    obtain ⟨pa,found,⟨rfl,missing⟩ | ⟨nonzero,here,isPage,_⟩⟩ := walkaddr_run table framed va
    · obtain ⟨max,rfl⟩ := Nat.exists_eq_succ_of_ne_zero none
      rw [if_neg none,run_bind found,if_pos rfl,scanned,translate_none missing]
      exact ⟨[pgrounddown va],rfl,by simpa using first⟩
    obtain ⟨n,rest,width,rfl,some,inside,offset,next⟩ := turn_width here none
    obtain ⟨bytes,isBytes⟩ : ∃ bytes, bytes = (List.range n).map fun i => s.mem (pa + va % pgsize + i) := ⟨_,rfl⟩
    have moved : (memmoveFrom (pa + va % pgsize) n).run s = .ok (bytes,s) := by
      rw [memmoveFrom,if_pos (isPage.mapped_byte (by omega)),isBytes]
      rfl
    rw [if_neg none,run_bind found,if_neg nonzero]
    dsimp only
    rw [width,offset,run_bind moved,Nat.add_sub_cancel_left,scanned_page here s.mem inside,← isBytes]
    by_cases null : bytes.contains 0 = true
    · rw [if_pos null,if_pos null]
      exact ⟨[pgrounddown va],rfl,by simpa using first⟩
    obtain ⟨pages,ran,needed⟩ := @ih ((pgrounddown va + pgsize) % 2 ^ 64) rest (Nat.mod_lt _ (by decide)) (by omega)
    rw [if_neg null,if_neg null,run_bind ran]
    refine ⟨pgrounddown va :: pages,?_,fun page member => ?_⟩
    · obtain rfl | last := eq_or_ne rest 0
      · simp only [scanned]
        rfl
      · rw [next last]
        rfl
    · rcases List.mem_cons.mp member with rfl | later
      · exact first
      obtain ⟨i,less,place,before⟩ := needed page later
      rw [← next (by omega)] at place before
      refine ⟨n + i,by omega,by rw [← Nat.add_assoc]; exact place,fun j early => ?_⟩
      by_cases here' : j < n
      · have low : (va + j) % 2 ^ 64 = va + j := by
          have bound := here.1
          simp only [pgsize,maxva] at bound inside
          omega
        rw [low]
        refine ⟨_,translate_some here (by omega),fun zero => null ?_⟩
        rw [isBytes,List.contains_iff_mem,List.mem_map]
        exact ⟨j,List.mem_range.mpr here',by rw [Nat.add_assoc]; exact zero⟩
      · have byte := before (j - n) (by omega)
        rwa [Nat.add_assoc,Nat.add_sub_cancel' (by omega)] at byte

/-- The byte `k` of the bytes from `va` on is the first null byte, and all up to it are there. -/
structure StringAt (pte : Nat → Nat) (m : Bytes.Storage) (va k : Nat) : Prop where
  there : ∀ i ≤ k, (translate pte ((va + i) % 2 ^ 64)).isSome = true
  before : ∀ i < k, byteAt pte m ((va + i) % 2 ^ 64) ≠ 0
  null : byteAt pte m ((va + k) % 2 ^ 64) = 0

theorem stringAt_succ {m : Bytes.Storage} {a k : Nat} (small : va < 2 ^ 64) (found : translate pte va = some a) :
    StringAt pte m va (k + 1) ↔ m a ≠ 0 ∧ StringAt pte m ((va + 1) % 2 ^ 64) k := by
  have start : (va + 0) % 2 ^ 64 = va := Nat.mod_eq_of_lt small
  constructor
  · rintro ⟨there,before,null⟩
    refine ⟨?_,fun i less => ?_,fun i less => ?_,?_⟩
    · have first := before 0 (by omega)
      rw [start,byteAt,found] at first
      exact first
    · rw [next_address]
      exact there (i + 1) (by omega)
    · rw [next_address]
      exact before (i + 1) (by omega)
    · rwa [next_address]
  · rintro ⟨first,there,before,null⟩
    refine ⟨fun i less => ?_,fun i less => ?_,by rwa [next_address] at null⟩
    · cases i with
      | zero =>
        rw [start,found]
        rfl
      | succ i =>
        rw [← next_address]
        exact there i (by omega)
    · cases i with
      | zero =>
        rw [start,byteAt,found]
        exact first
      | succ i =>
        rw [← next_address]
        exact before i (by omega)

theorem scanned_spec (small : va < 2 ^ 64) (m : Bytes.Storage) (max : Nat) :
    ((scanned pte m va max).2 = true ↔ ∃ k < max, StringAt pte m va k) ∧
    (∀ k < max, StringAt pte m va k → copied (scanned pte m va max) = fetched pte m va (k + 1)) ∧
    (copied (scanned pte m va max)).length ≤ max := by
  induction max generalizing va with
  | zero => simp [scanned,copied]
  | succ max ih =>
    have start : (va + 0) % 2 ^ 64 = va := Nat.mod_eq_of_lt small
    obtain ⟨ends,string,length⟩ := @ih ((va + 1) % 2 ^ 64) (Nat.mod_lt _ (by decide))
    rw [scanned]
    cases found : translate pte va with
    | none =>
      have none (k : Nat) : ¬StringAt pte m va k := fun string => by
        have there := string.there 0 (Nat.zero_le k)
        rw [start,found] at there
        exact Bool.false_ne_true there
      simp [none,copied]
    | some a =>
      have byte : byteAt pte m va = m a := by rw [byteAt,found]; rfl
      dsimp only
      by_cases zero : m a = 0
      · have here : StringAt pte m va 0 :=
          ⟨fun i least => by rw [Nat.le_zero.mp least,start,found]; rfl,by simp,by rw [start,byte,zero]⟩
        have only (k : Nat) (string : StringAt pte m va k) : k = 0 := by
          cases k with
          | zero => rfl
          | succ k => exact absurd zero ((stringAt_succ small found).mp string).1
        rw [if_pos zero]
        refine ⟨⟨fun _ => ⟨0,Nat.succ_pos max,here⟩,fun _ => rfl⟩,fun k _ string => ?_,by simp [copied]⟩
        rw [only k string,fetched,fetched,byte,zero]
        rfl
      · have later (k : Nat) (string : StringAt pte m va k) : ∃ j, k = j + 1 ∧ StringAt pte m ((va + 1) % 2 ^ 64) j := by
          cases k with
          | zero =>
            have null := string.null
            rw [start,byte] at null
            exact absurd null zero
          | succ k => exact ⟨k,rfl,((stringAt_succ small found).mp string).2⟩
        have more (r : List UInt8 × Bool) : copied (m a :: r.1,r.2) = m a :: copied r := by
          unfold copied
          split <;> simp_all
        rw [if_neg zero]
        refine ⟨ends.trans ⟨?_,?_⟩,fun k less here => ?_,?_⟩
        · rintro ⟨k,less,here⟩
          exact ⟨k + 1,by omega,(stringAt_succ small found).mpr ⟨zero,here⟩⟩
        · rintro ⟨k,less,here⟩
          obtain ⟨j,rfl,rest⟩ := later k here
          exact ⟨j,by omega,rest⟩
        · obtain ⟨j,rfl,rest⟩ := later k here
          rw [more,string j (by omega) rest,← byte]
          rfl
        · rw [more,List.length_cons]
          omega

/-- `copyinstr` returns 0 if there is a null byte among the first `max` bytes and all up to it are in present user
pages, and has then stored these bytes. It never stores more than `max` bytes, and looks up no page after the one with
the null byte or the last of the `max` bytes. -/
theorem copyinstr_exact (table : Table s.mem root tabs pte) (framed : Framed pte tabs) (small : va < 2 ^ 64) (max : Nat) :
    ∃ r pages, (copyinstr root va max).run s = .ok (r,s) ∧
      (copyinstrTrace root (max + 1) va max).run s = .ok ((r,pages),s) ∧
      (r.2 = true ↔ ∃ k < max, StringAt pte s.mem va k) ∧
      (∀ k < max, StringAt pte s.mem va k →
        copied r = (List.range (k + 1)).map fun i => byteAt pte s.mem ((va + i) % 2 ^ 64)) ∧
      (copied r).length ≤ max ∧ ∀ page ∈ pages, Needed pte s.mem va max page := by
  obtain ⟨pages,ran,needed⟩ := copyinstrTrace_run table framed (max + 1) max small (Nat.lt_succ_self max)
  obtain ⟨ends,string,length⟩ := @scanned_spec pte va small s.mem max
  refine ⟨_,pages,?_,ran,ends,fun k less here => ?_,length,needed⟩
  · rw [copyinstr,copyinstrFrom_eq,run_bind ran]
    rfl
  · rw [string k less here,fetched_eq small]

end Scan

/-- The page of the process starts with a string of two bytes. -/
theorem onePage_string : ∃ (r : List UInt8 × Bool) (pages : List Nat),
    (copyinstr (frame 0) 0 200).run (onePage userFlags) = .ok (r,onePage userFlags) ∧ r.2 = true ∧
    copied r = [97,98,0] ∧ ∀ page ∈ pages, Needed (onePte userFlags) (onePage userFlags).mem 0 200 page := by
  have fits : userFlags < 2 ^ 10 := by decide
  have string : StringAt (onePte userFlags) (onePage userFlags).mem 0 2 :=
    ⟨by decide +kernel,by decide +kernel,by decide +kernel⟩
  obtain ⟨r,pages,ran,_,ends,bytes,_,needed⟩ :=
    copyinstr_exact (onePage_table fits) (onePage_framed fits) (show 0 < 2 ^ 64 by decide) 200
  refine ⟨r,pages,ran,ends.mpr ⟨2,by decide,string⟩,?_,needed⟩
  rw [bytes 2 (by decide) string]
  decide +kernel

end Xv6.Vm
