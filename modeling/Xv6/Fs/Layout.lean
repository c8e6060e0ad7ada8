import Xv6.LogCommit
import Mathlib.Data.Nat.Bitwise
import Mathlib.Tactic.IntervalCases

/-! The disk format of `fs.h`: where the super block puts things, the bits of the free map and
the fields of an on-disk inode. -/
namespace Xv6.Fs

open Function

/-- `struct superblock` without its magic number. -/
structure Superblock where
  size : Nat
  nblocks : Nat
  ninodes : Nat
  nlog : Nat
  logstart : Nat
  inodestart : Nat
  bmapstart : Nat
  deriving DecidableEq, Repr

namespace Superblock

def iblock (sb : Superblock) (i : Nat) : Nat := i / ipb + sb.inodestart

def bblock (sb : Superblock) (b : Nat) : Nat := b / bpb + sb.bmapstart

/-- The first data block: `mkfs` puts the metadata in front of the `nblocks` data blocks. -/
def datastart (sb : Superblock) : Nat := sb.size - sb.nblocks

/-- A block of the data area. -/
def Data (sb : Superblock) (b : Nat) : Prop := sb.datastart ≤ b ∧ b < sb.size

instance (sb : Superblock) (b : Nat) : Decidable (sb.Data b) := inferInstanceAs (Decidable (_ ∧ _))

/-- The inode blocks come before the free map and the free map before the data, and block
numbers fit in an `int`. -/
structure Layout (sb : Superblock) : Prop where
  root : rootino < sb.ninodes
  inodes : ∀ i < sb.ninodes, sb.iblock i < sb.bmapstart
  bitmap : ∀ b < sb.size, sb.bblock b < sb.datastart
  room : sb.datastart ≤ sb.size
  small : sb.size ≤ 2 ^ 31 - bpb

variable {sb : Superblock}

theorem Layout.data_pos (layout : sb.Layout) {b : Nat} (data : sb.Data b) : b ≠ 0 := by
  have first := layout.bitmap b data.2
  have := data.1
  omega

theorem Layout.data_lt (layout : sb.Layout) {b : Nat} (data : sb.Data b) : b < 2 ^ 32 := by
  have small := layout.small
  have := data.2
  omega

theorem Layout.iblock_ne_bblock (layout : sb.Layout) {i b : Nat} (hi : i < sb.ninodes) :
    sb.iblock i ≠ sb.bblock b := by
  have first := layout.inodes i hi
  have : sb.bmapstart ≤ sb.bblock b := Nat.le_add_left _ _
  omega

theorem Layout.bblock_ne_data (layout : sb.Layout) {b b' : Nat} (hb : b < sb.size) (data : sb.Data b') :
    sb.bblock b ≠ b' := by
  have first := layout.bitmap b hb
  have := data.1
  omega

theorem Layout.iblock_ne_data (layout : sb.Layout) {i b : Nat} (hi : i < sb.ninodes) (data : sb.Data b) :
    sb.iblock i ≠ b := by
  have first := layout.inodes i hi
  have second := layout.bitmap b data.2
  have : sb.bmapstart ≤ sb.bblock b := Nat.le_add_left _ _
  have := data.1
  omega

end Superblock

/-! The free map. -/

/-- `bp->data[bi/8] & (1 << (bi % 8))`. -/
def getBit (blk : Block) (bi : Nat) : Bool := (blk (bi / 8)).toNat.testBit (bi % 8)

def setBit (blk : Block) (bi : Nat) : Block :=
  update blk (bi / 8) (UInt8.ofNat ((blk (bi / 8)).toNat ||| 2 ^ (bi % 8)))

def clearBit (blk : Block) (bi : Nat) : Block :=
  update blk (bi / 8) (UInt8.ofNat ((blk (bi / 8)).toNat &&& (255 - 2 ^ (bi % 8))))

theorem testBit_byte {v j : Nat} (hj : j < 8) : (UInt8.ofNat v).toNat.testBit j = v.testBit j := by
  have : (UInt8.ofNat v).toNat = v % 2 ^ 8 := by simp
  rw [this,Nat.testBit_mod_two_pow]
  simp [hj]

theorem testBit_mask {i j : Nat} (hi : i < 8) (hj : j < 8) : (255 - 2 ^ i).testBit j = decide (i ≠ j) := by
  interval_cases i <;> interval_cases j <;> rfl

theorem getBit_setBit (blk : Block) (bi bi' : Nat) :
    getBit (setBit blk bi) bi' = (getBit blk bi' || decide (bi = bi')) := by
  unfold getBit setBit
  by_cases byte : bi' / 8 = bi / 8
  · rw [byte,update_self,testBit_byte (Nat.mod_lt _ (by decide)),Nat.testBit_or,Nat.testBit_two_pow]
    congr 1
    apply decide_eq_decide.mpr
    omega
  · have : bi ≠ bi' := by rintro rfl; exact byte rfl
    simp [update_of_ne byte,this]

theorem getBit_clearBit (blk : Block) (bi bi' : Nat) :
    getBit (clearBit blk bi) bi' = (getBit blk bi' && decide (bi ≠ bi')) := by
  unfold getBit clearBit
  by_cases byte : bi' / 8 = bi / 8
  · rw [byte,update_self,testBit_byte (Nat.mod_lt _ (by decide)),Nat.testBit_and,
      testBit_mask (Nat.mod_lt _ (by decide)) (Nat.mod_lt _ (by decide))]
    congr 1
    apply decide_eq_decide.mpr
    omega
  · have : bi ≠ bi' := by rintro rfl; exact byte rfl
    simp [update_of_ne byte,this]

/-! On-disk inodes. -/

/-- `struct dinode`. A `short` is kept as its 16 bits. -/
@[ext] structure Dinode where
  type : Nat
  major : Nat
  minor : Nat
  nlink : Nat
  size : Nat
  addrs : Nat → Nat

/-- The value of a `short` with these 16 bits. -/
def short (v : Nat) : Int := if v < 2 ^ 15 then v else v - 2 ^ 16

namespace Dinode

def blank (type : Nat) : Dinode := ⟨type,0,0,0,0,fun _ => 0⟩

/-- The fields fit their places on the disk. -/
structure Fits (din : Dinode) : Prop where
  type : din.type < 2 ^ 16
  major : din.major < 2 ^ 16
  minor : din.minor < 2 ^ 16
  nlink : din.nlink < 2 ^ 16
  size : din.size < 2 ^ 32
  addrs : ∀ k, din.addrs k < 2 ^ 32
  beyond : ∀ k, ndirect < k → din.addrs k = 0

end Dinode

def getDinode (blk : Block) (o : Nat) : Dinode where
  type := Bytes.load 2 blk o
  major := Bytes.load 2 blk (o + 2)
  minor := Bytes.load 2 blk (o + 4)
  nlink := Bytes.load 2 blk (o + 6)
  size := Bytes.load 4 blk (o + 8)
  addrs k := if k ≤ ndirect then Bytes.load 4 blk (o + 12 + 4 * k) else 0

/-- The first `n` addresses, stored one after the other. -/
def putAddrs (blk : Block) (o : Nat) (addrs : Nat → Nat) : Nat → Block
  | 0 => blk
  | n + 1 => Bytes.store 4 (putAddrs blk o addrs n) (o + 4 * n) (addrs n)

/-- The bytes of a `struct dinode`. -/
def dinodeBytes (din : Dinode) : Bytes.Storage :=
  let m := Bytes.store 2 (fun _ => 0) 0 din.type
  let m := Bytes.store 2 m 2 din.major
  let m := Bytes.store 2 m 4 din.minor
  let m := Bytes.store 2 m 6 din.nlink
  let m := Bytes.store 4 m 8 din.size
  putAddrs m 12 din.addrs (ndirect + 1)

/-- The assignments of `iupdate`, which cover all bytes of the inode at offset `o`. -/
def putDinode (blk : Block) (o : Nat) (din : Dinode) : Block :=
  Bytes.copy blk o (dinodeBytes din) 0 dinodeSize

/-- `memset(dip, 0, sizeof(*dip)); dip->type = type`. -/
def blankDinode (blk : Block) (o type : Nat) : Block :=
  Bytes.store 2 (Bytes.fill blk o dinodeSize 0) o type

theorem getDinode_congr {m m' : Block} {o : Nat} (same : ∀ a, o ≤ a → a < o + dinodeSize → m a = m' a) :
    getDinode m o = getDinode m' o := by
  have part (k j : Nat) (fits : j + k ≤ dinodeSize) : Bytes.load k m (o + j) = Bytes.load k m' (o + j) :=
    Bytes.load_congr fun a lower upper => same a (by omega) (by omega)
  apply Dinode.ext
  · exact part 2 0 (by decide)
  · exact part 2 2 (by decide)
  · exact part 2 4 (by decide)
  · exact part 2 6 (by decide)
  · exact part 4 8 (by decide)
  · funext k
    simp only [getDinode]
    split
    · rw [Nat.add_assoc]
      apply part
      simp only [ndirect,dinodeSize] at *
      omega
    · rfl

theorem getDinode_fits (blk : Block) (o : Nat) : (getDinode blk o).Fits where
  type := Bytes.load_lt 2 _ _
  major := Bytes.load_lt 2 _ _
  minor := Bytes.load_lt 2 _ _
  nlink := Bytes.load_lt 2 _ _
  size := Bytes.load_lt 4 _ _
  addrs k := by
    simp only [getDinode]
    split
    · exact Bytes.load_lt 4 _ _
    · decide
  beyond k h := by simp [getDinode,Nat.not_le.mpr h]

theorem putAddrs_other {blk : Block} {o a : Nat} {addrs : Nat → Nat} (n : Nat)
    (apart : a < o ∨ o + 4 * n ≤ a) : putAddrs blk o addrs n a = blk a := by
  induction n with
  | zero => rfl
  | succ n ih =>
    rw [putAddrs,Bytes.store_other (by omega)]
    exact ih (by omega)

theorem load_putAddrs {blk : Block} {o k : Nat} {addrs : Nat → Nat} (n : Nat) (hk : k < n)
    (fits : addrs k < 2 ^ 32) : Bytes.load 4 (putAddrs blk o addrs n) (o + 4 * k) = addrs k := by
  induction n with
  | zero => omega
  | succ n ih =>
    rw [putAddrs]
    obtain rfl | last := eq_or_ne k n
    · exact Bytes.load_store_value _ _ (by simpa using fits)
    · rw [Bytes.load_store_other (by omega)]
      exact ih (by omega)

theorem putDinode_other {blk : Block} {o a : Nat} {din : Dinode} (apart : a < o ∨ o + dinodeSize ≤ a) :
    putDinode blk o din a = blk a := Bytes.copy_outside apart

theorem getDinode_bytes {din : Dinode} (fits : din.Fits) : getDinode (dinodeBytes din) 0 = din := by
  have front (k j : Nat) (before : j + k ≤ 12) (m : Block) (addrs : Nat → Nat) :
      Bytes.load k (putAddrs m 12 addrs (ndirect + 1)) j = Bytes.load k m j :=
    Bytes.load_congr fun a lower upper => putAddrs_other _ (by omega)
  apply Dinode.ext
  · simp only [getDinode,dinodeBytes,front 2 0 (by decide)]
    repeat rw [Bytes.load_store_other (by omega)]
    exact Bytes.load_store_value _ _ fits.type
  · simp only [getDinode,dinodeBytes,front 2 2 (by decide),Nat.zero_add]
    repeat rw [Bytes.load_store_other (by omega)]
    exact Bytes.load_store_value _ _ fits.major
  · simp only [getDinode,dinodeBytes,front 2 4 (by decide),Nat.zero_add]
    repeat rw [Bytes.load_store_other (by omega)]
    exact Bytes.load_store_value _ _ fits.minor
  · simp only [getDinode,dinodeBytes,front 2 6 (by decide),Nat.zero_add]
    repeat rw [Bytes.load_store_other (by omega)]
    exact Bytes.load_store_value _ _ fits.nlink
  · simp only [getDinode,dinodeBytes,front 4 8 (by decide),Nat.zero_add]
    exact Bytes.load_store_value _ _ fits.size
  · funext k
    simp only [getDinode,dinodeBytes,Nat.zero_add]
    split
    · exact load_putAddrs _ (by omega) (fits.addrs k)
    · exact (fits.beyond k (by omega)).symm

theorem getDinode_putDinode {blk : Block} {o : Nat} {din : Dinode} (fits : din.Fits) :
    getDinode (putDinode blk o din) o = din := by
  have part (k j : Nat) (inside : j + k ≤ dinodeSize) :
      Bytes.load k (putDinode blk o din) (o + j) = Bytes.load k (dinodeBytes din) (0 + j) :=
    Bytes.load_copy_inside inside
  rw [← getDinode_bytes fits]
  conv_lhs => rw [getDinode_bytes fits]
  apply Dinode.ext
  · exact part 2 0 (by decide)
  · exact part 2 2 (by decide)
  · exact part 2 4 (by decide)
  · exact part 2 6 (by decide)
  · exact part 4 8 (by decide)
  · funext k
    simp only [getDinode]
    split
    · rw [Nat.add_assoc,Nat.add_assoc]
      apply part
      simp only [ndirect,dinodeSize] at *
      omega
    · rfl

theorem blankDinode_other {blk : Block} {o a type : Nat} (apart : a < o ∨ o + dinodeSize ≤ a) :
    blankDinode blk o type a = blk a := by
  have : dinodeSize = 64 := rfl
  rw [blankDinode,Bytes.store_other (by omega),Bytes.fill_outside apart]

theorem getDinode_blankDinode {blk : Block} {o type : Nat} (fits : type < 2 ^ 16) :
    getDinode (blankDinode blk o type) o = Dinode.blank type := by
  have zero (k j : Nat) (after : 2 ≤ j) (inside : j + k ≤ dinodeSize) :
      Bytes.load k (blankDinode blk o type) (o + j) = 0 := by
    rw [blankDinode,Bytes.load_store_other (by omega),Bytes.load_fill_zero inside]
  apply Dinode.ext
  · exact Bytes.load_store_value _ _ fits
  · exact zero 2 2 (by decide) (by decide)
  · exact zero 2 4 (by decide) (by decide)
  · exact zero 2 6 (by decide) (by decide)
  · exact zero 4 8 (by decide) (by decide)
  · funext k
    simp only [getDinode,Dinode.blank]
    split
    · rw [Nat.add_assoc]
      apply zero
      · omega
      · simp only [ndirect,dinodeSize] at *
        omega
    · rfl

/-! The parts of a whole disk. -/

section Disk

variable (sb : Superblock) (disk : Disk)

def dinode (i : Nat) : Dinode := getDinode (disk (sb.iblock i)) (i % ipb * dinodeSize)

def bit (b : Nat) : Bool := getBit (disk (sb.bblock b)) (b % bpb)

end Disk

section Update

variable {sb : Superblock} {disk : Disk}

theorem inode_apart {i i' : Nat} (ne : i ≠ i') (same : sb.iblock i = sb.iblock i') :
    i' % ipb * dinodeSize + dinodeSize ≤ i % ipb * dinodeSize ∨
    i % ipb * dinodeSize + dinodeSize ≤ i' % ipb * dinodeSize := by
  simp only [Superblock.iblock,ipb,bsize,dinodeSize] at *
  omega

theorem dinode_update {i i' : Nat} {blk : Block} (ne : i' ≠ i)
    (same : ∀ a, a < i % ipb * dinodeSize ∨ i % ipb * dinodeSize + dinodeSize ≤ a → blk a = disk (sb.iblock i) a) :
    dinode sb (update disk (sb.iblock i) blk) i' = dinode sb disk i' := by
  unfold dinode
  by_cases block : sb.iblock i' = sb.iblock i
  · rw [block,update_self]
    have apart := inode_apart ne.symm block.symm
    exact getDinode_congr fun a lower upper => same a (by omega)
  · rw [update_of_ne block]

theorem dinode_elsewhere {i b : Nat} {blk : Block} (ne : sb.iblock i ≠ b) :
    dinode sb (update disk b blk) i = dinode sb disk i := by
  rw [dinode,dinode,update_of_ne ne]

theorem bit_elsewhere {b b' : Nat} {blk : Block} (ne : sb.bblock b ≠ b') :
    bit sb (update disk b' blk) b = bit sb disk b := by
  rw [bit,bit,update_of_ne ne]

theorem bblock_inj {b b' : Nat} (block : sb.bblock b = sb.bblock b') (place : b % bpb = b' % bpb) : b = b' := by
  simp only [Superblock.bblock] at block
  have quotient : b / bpb = b' / bpb := by omega
  rw [← Nat.div_add_mod b bpb,quotient,place,Nat.div_add_mod]

theorem bit_set (b b' : Nat) : bit sb (update disk (sb.bblock b) (setBit (disk (sb.bblock b)) (b % bpb))) b' =
      (bit sb disk b' || decide (b = b')) := by
  unfold bit
  by_cases block : sb.bblock b' = sb.bblock b
  · rw [block,update_self,getBit_setBit]
    congr 1
    apply decide_eq_decide.mpr
    exact ⟨fun h => bblock_inj block.symm h,fun h => by rw [h]⟩
  · have : b ≠ b' := by rintro rfl; exact block rfl
    simp [update_of_ne block,this]

theorem bit_clear (b b' : Nat) : bit sb (update disk (sb.bblock b) (clearBit (disk (sb.bblock b)) (b % bpb))) b' =
      (bit sb disk b' && decide (b ≠ b')) := by
  unfold bit
  by_cases block : sb.bblock b' = sb.bblock b
  · rw [block,update_self,getBit_clearBit]
    congr 1
    apply decide_eq_decide.mpr
    exact ⟨fun h same => h (by rw [same]),fun h same => h (bblock_inj block.symm same)⟩
  · have : b ≠ b' := by rintro rfl; exact block rfl
    simp [update_of_ne block,this]

end Update

end Xv6.Fs
