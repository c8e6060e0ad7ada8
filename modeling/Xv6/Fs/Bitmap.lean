import Xv6.Fs.FileBytes

/-! The free map under `balloc` and `bfree`, for every superblock: nothing is assumed about where the bitmap is. -/
namespace Xv6.Fs

open Prog Function

section Bitmap

variable {sb : Superblock} {s : State}

theorem take_disk {b c : Nat} (other : c ≠ b) (elsewhere : c ≠ sb.bblock b) : (s.take sb b).disk c = s.disk c := by
  rw [State.take,State.setDisk_disk,update_of_ne other,State.setDisk_disk,update_of_ne elsewhere]

theorem take_zero (b : Nat) {x : Nat} (inside : x < bsize) : (s.take sb b).disk b x = 0 := by
  rw [State.take,State.setDisk_disk,update_self,← Nat.zero_add x]
  exact Bytes.fill_inside inside

theorem take_bit {b c : Nat} (kept : sb.bblock c ≠ b) :
    bit sb (s.take sb b).disk c = (bit sb s.disk c || decide (b = c)) := by
  rw [State.take,State.setDisk_disk,bit_elsewhere kept,State.setDisk_disk,bit_set]

theorem bfree_bit {b : Nat} (used : bit sb s.disk b = true) : wp (bfree sb b) (fun _ t =>
    (∀ c, bit sb t.disk c = (bit sb s.disk c && decide (b ≠ c))) ∧ ∀ d, d ≠ sb.bblock b → t.disk d = s.disk d)
    (fun _ => ¬Roomy s.log 1) s := by
  rw [wp_bfree used]
  refine (Costs.logWrite _).needs (wp_logWrite always fun log => ⟨fun c => ?_,fun d other => ?_⟩)
  · exact bit_clear b c
  · exact update_of_ne other ..

end Bitmap

theorem bitmap_exact (sb : Superblock) (s : State) (zero : bit sb s.disk 0 = true)
    (own : ∀ c < sb.size, sb.bblock c < sb.size → bit sb s.disk (sb.bblock c) = true) :
    wp (balloc sb) (fun b t =>
      (b = 0 ∧ t = s ∧ ∀ c < sb.size, bit sb s.disk c = true) ∨
      (0 < b ∧ b < sb.size ∧ bit sb s.disk b = false ∧
        (∀ c < sb.size, bit sb t.disk c = (bit sb s.disk c || decide (b = c))) ∧
        (∀ x < bsize, t.disk b x = 0) ∧ (∀ d, d ≠ b → d ≠ sb.bblock b → t.disk d = s.disk d) ∧
        wp (bfree sb b) (fun _ u => ∀ c < sb.size, bit sb u.disk c = bit sb s.disk c) (fun _ => ¬Roomy t.log 1) t))
      (fun _ => ¬Roomy s.log 2) s ∧
    (∀ b, bit sb s.disk b = true → wp (bfree sb b) (fun _ t =>
      (∀ c, bit sb t.disk c = (bit sb s.disk c && decide (b ≠ c))) ∧ ∀ d, d ≠ sb.bblock b → t.disk d = s.disk d)
      (fun _ => ¬Roomy s.log 1) s) ∧
    ∀ b c, sb.bblock b = sb.bblock c → b % bpb = c % bpb → b = c := by
  refine ⟨(Costs.balloc sb).needs (wp_post (balloc_first always) ?_),fun b => bfree_bit,fun b c => bblock_inj⟩
  rintro b t (⟨none,full,same⟩ | ⟨bound,clear,-,log,rfl⟩)
  · exact .inl ⟨none,same,full⟩
  have kept (c : Nat) (hc : c < sb.size) : sb.bblock c ≠ b := by
    rintro rfl
    rw [own c hc bound] at clear
    cases clear
  have bits (c : Nat) (hc : c < sb.size) := take_bit (s := s) (kept c hc)
  refine .inr ⟨Nat.pos_of_ne_zero ?_,bound,clear,bits,fun x => take_zero b,fun d => take_disk,?_⟩
  · rintro rfl
    rw [zero] at clear
    cases clear
  · have used : bit sb (s.take sb b).disk b = true := (bits b bound).trans (by simp)
    apply wp_post (bfree_bit (s := { s.take sb b with log }) used)
    rintro - u ⟨after,-⟩ c hc
    rw [after,show bit sb _ c = _ from bits c hc]
    by_cases here : b = c
    · simp [← here,clear]
    · simp [here]

/-- Block 37 is taken and can be given back, and so can block 36, which was taken before. -/
theorem nested_balloc : (∃ t, (balloc smallSb).run (holding smallSb nested 1) = .ok (37,t) ∧
      (∀ c < smallSb.size, bit smallSb t.disk c = (bit smallSb nested c || decide (37 = c))) ∧
      wp (bfree smallSb 37) (fun _ u => ∀ c < smallSb.size, bit smallSb u.disk c = bit smallSb nested c)
        (fun _ => ¬Roomy t.log 1) t) ∧
    wp (bfree smallSb 36) (fun _ t => bit smallSb t.disk 36 = false ∧ bit smallSb t.disk 35 = true) (fun _ => False)
      (holding smallSb nested 1) := by
  obtain ⟨takes,frees,_⟩ := bitmap_exact smallSb (holding smallSb nested 1) (by decide +kernel) (by decide +kernel)
  refine ⟨?_,wp_mono (frees 36 (by decide +kernel)) (fun _ t bits => ?_) fun _ full => full ⟨by decide,
    by decide,by decide⟩⟩
  · have seen : ((balloc smallSb).run (holding smallSb nested 1)).toOption.map Prod.fst = some 37 := by decide +kernel
    obtain ⟨b,t,ran,rfl⟩ := run_of_seen seen
    obtain ⟨none,_⟩ | ⟨_,_,_,bits,_,_,back⟩ := wp_ok takes ran
    · cases none
    · exact ⟨t,ran,bits,back⟩
  · exact ⟨by simp [bits.1],(bits.1 35).trans (by decide +kernel)⟩

/-- A bitmap block that is free itself is the next to be taken, and to be zeroed. -/
theorem map_zeroed : ((resultOf (balloc smallSb) (holding smallSb (fun _ x => if x = 4 then 253 else 255) 1)).map
    fun r => (r.1,bit smallSb r.2.disk 0)) = some (33,false) := by
  decide +kernel

end Xv6.Fs
