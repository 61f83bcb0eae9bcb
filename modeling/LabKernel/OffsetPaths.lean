import LabKernel.FsCode
import Mathlib.Data.UInt
import Mathlib.Tactic.IntervalCases

/-!
Which pointers `inode_modify_data` follows for an offset of a file: the
computation in the widths of the source, the bounds of all indices, and that
the offset can be read off its path.
-/

namespace LabKernel.OffsetPaths

open LabKernel.BlockCache
open LabKernel.BlockObject
open LabKernel.ByteMemory
open LabKernel.FsCode
open LabKernel.FsLayout
open LabKernel.ProgramLogic

/-- The arrays of pointers in an inode that the code uses. -/
inductive PointerArray
  | direct
  | l1
  | l2
  deriving DecidableEq, Repr

def PointerArray.length : PointerArray → Nat
  | .direct => 8
  | .l1 => 3
  | .l2 => 2

def PointerArray.depth : PointerArray → Nat
  | .direct => 0
  | .l1 => 1
  | .l2 => 2

/-- The path of an offset: the pointer in the inode, the entries of the index
blocks and the offset in the block of data. -/
structure Descent where
  array : PointerArray
  index : UInt64
  entries : List UInt64
  inBlock : UInt32
  deriving DecidableEq, Repr

def size0 : UInt64 := 4096

def size1 : UInt64 := size0 * 1024

def size2 : UInt64 := size1 * 1024

def bound0 : UInt64 := 8 * 4096

def bound1 : UInt64 := bound0 + 3 * size1

def bound2 : UInt64 := bound1 + 2 * size2

/-- The `switch` of `inode_modify_data_recur`. -/
def switchSize : Nat → Option UInt64
  | 1 => some size0
  | 2 => some size1
  | 3 => some size2
  | _ => none

/-- The entries that `inode_modify_data_recur` reads and its last offset; a
`uint` parameter gets its argument modulo `2 ^ 32`. -/
def descend : Nat → UInt32 → Option (List UInt64 × UInt32)
  | 0, offset => some ([], offset)
  | depth + 1, offset =>
      (switchSize (depth + 1)).bind fun size =>
        (descend depth (offset.toUInt64 % size).toUInt32).map fun r =>
          (offset.toUInt64 / size :: r.1, r.2)

/-- The branches of `inode_modify_data`; there is no result at `assert(0)`. -/
def decompose (offset : UInt32) : Option Descent :=
  if offset.toUInt64 < bound0 then
    (descend 0 (offset.toUInt64 % size0).toUInt32).map fun r =>
      ⟨.direct, offset.toUInt64 / size0, r.1, r.2⟩
  else if offset.toUInt64 < bound1 then
    let offset := (offset.toUInt64 - bound0).toUInt32
    (descend 1 (offset.toUInt64 % size1).toUInt32).map fun r =>
      ⟨.l1, offset.toUInt64 / size1, r.1, r.2⟩
  else if offset.toUInt64 < bound2 then
    let offset := (offset.toUInt64 - bound1).toUInt32
    (descend 2 (offset.toUInt64 % size2).toUInt32).map fun r =>
      ⟨.l2, offset.toUInt64 / size2, r.1, r.2⟩
  else none

/-- `inode_modify_data_recur` along given entries. -/
def follow (isWrite : Bool) : List UInt64 → Option (Block × Nat) → UInt32 → Data → Nat → Nat →
    Fs (UInt32 × Data × Bool)
  | [], reference, blockid, data, inBlock, length => do
      let (blockid, new, block) ← openPointer reference blockid
      let data ← transfer isWrite block data inBlock length
      return (blockid, data, new)
  | entry :: entries, reference, blockid, data, inBlock, length => do
      let (blockid, new, block) ← openPointer reference blockid
      let index ← block.load
      let (_, _, modified) ← follow isWrite entries (some (block, entry.toNat))
        (get32 index (4 * entry.toNat)) (.block block) inBlock length
      doWhen modified block.update
      return (blockid, data, new)

def readPointer (n : Inode) : PointerArray → Nat → UInt32
  | .direct, i => if h : i < 8 then n.dataDirect ⟨i, h⟩ else 0
  | .l1, i => if h : i < 3 then n.dataL1 ⟨i, h⟩ else 0
  | .l2, i => if h : i < 2 then n.dataL2 ⟨i, h⟩ else 0

def writePointer (n : Inode) (blockid : UInt32) : PointerArray → Nat → Inode
  | .direct, i =>
      if h : i < 8 then { n with dataDirect := Function.update n.dataDirect ⟨i, h⟩ blockid } else n
  | .l1, i =>
      if h : i < 3 then { n with dataL1 := Function.update n.dataL1 ⟨i, h⟩ blockid } else n
  | .l2, i =>
      if h : i < 2 then { n with dataL2 := Function.update n.dataL2 ⟨i, h⟩ blockid } else n

/-- `inode_modify_data` without its assertions, with the given transfer behind
a pointer of the inode. -/
def transferWith (behind : UInt32 → Fs (UInt32 × Data × Bool)) (array : PointerArray) (index : Nat)
    (inode : Inode) (buffer : Bytes) (offset length : UInt32) : Fs (Inode × Bytes × Bool) := do
  let grows := inode.size < offset + length && inode.type = 2
  let inode := if grows then { inode with size := offset + length } else inode
  let (blockid, data, modified) ← behind (readPointer inode array index)
  return (writePointer inode blockid array index, data.bytes buffer, grows || modified)

/-- `inode_modify_data` along a path. -/
def transferAlong (d : Descent) (isWrite : Bool) (inode : Inode) (buffer : Bytes)
    (offset length : UInt32) : Fs (Inode × Bytes × Bool) :=
  transferWith
    (fun blockid => follow isWrite d.entries none blockid (.buffer buffer) d.inBlock.toNat
      length.toNat)
    d.array d.index.toNat inode buffer offset length

variable {depth : Nat}

theorem toNat_mod_toUInt32 (x : UInt32) (size : UInt64) :
    (x.toUInt64 % size).toUInt32.toNat = x.toNat % size.toNat := by
  rw [UInt64.toNat_toUInt32, UInt64.toNat_mod, UInt32.toNat_toUInt64]
  exact Nat.mod_eq_of_lt (Nat.lt_of_le_of_lt (Nat.mod_le _ _) x.toNat_lt)

theorem toNat_div (x : UInt32) (size : UInt64) :
    (x.toUInt64 / size).toNat = x.toNat / size.toNat := by
  rw [UInt64.toNat_div, UInt32.toNat_toUInt64]

theorem toNat_sub_toUInt32 {x : UInt32} {bound : UInt64} (h : ¬x.toUInt64 < bound) :
    (x.toUInt64 - bound).toUInt32.toNat = x.toNat - bound.toNat := by
  have hle : bound ≤ x.toUInt64 := UInt64.not_lt.mp h
  rw [UInt64.toNat_toUInt32, UInt64.toNat_sub_of_le _ _ hle, UInt32.toNat_toUInt64]
  exact Nat.mod_eq_of_lt (Nat.lt_of_le_of_lt (Nat.sub_le _ _) x.toNat_lt)

theorem lt_bound {x : UInt32} {bound : UInt64} : x.toUInt64 < bound ↔ x.toNat < bound.toNat := by
  rw [UInt64.lt_iff_toNat_lt, UInt32.toNat_toUInt64]

theorem toNat_size : size0.toNat = 4096 ∧ size1.toNat = 4194304 ∧ size2.toNat = 4294967296 := by
  decide

theorem toNat_bound : bound0.toNat = 32768 ∧ bound1.toNat = 12615680 ∧
    bound2.toNat = 8602550272 := by
  decide

/-- How many bytes lie behind a pointer with the given number of index blocks. -/
def span (depth : Nat) : Nat := 4096 * 1024 ^ depth

theorem switchSize_eq (h : depth < 3) :
    ∃ size, switchSize (depth + 1) = some size ∧ size.toNat = span depth ∧
      entrySize (depth + 1) = span depth := by
  obtain ⟨h0, h1, h2⟩ := toNat_size
  interval_cases depth
  · exact ⟨size0, rfl, h0, rfl⟩
  · exact ⟨size1, rfl, h1, rfl⟩
  · exact ⟨size2, rfl, h2, rfl⟩

/-- The offset that a path below a pointer leads to. -/
def offsetBelow : List UInt64 → Nat → Nat
  | [], inBlock => inBlock
  | entry :: entries, inBlock =>
      entry.toNat * span entries.length + offsetBelow entries inBlock

def PointerArray.base : PointerArray → Nat
  | .direct => 0
  | .l1 => 32768
  | .l2 => 12615680

/-- The offset of a path. -/
def Descent.offset (d : Descent) : Nat :=
  d.array.base + d.index.toNat * span d.array.depth + offsetBelow d.entries d.inBlock.toNat

/-- Every index lies in its array, and the bytes in the block. -/
structure Descent.InBounds (d : Descent) (length : UInt32) : Prop where
  index : d.index.toNat < d.array.length
  depth : d.entries.length = d.array.depth
  entries : ∀ entry ∈ d.entries, entry.toNat < pointersPerBlock
  inBlock : d.inBlock.toNat + length.toNat ≤ blockSize

/-- What one descent computes, whatever the offset. -/
structure Descends (x : UInt32) (depth : Nat) (entries : List UInt64) (inBlock : UInt32) :
    Prop where
  run : descend depth x = some (entries, inBlock)
  length : entries.length = depth
  offset : offsetBelow entries inBlock.toNat = x.toNat
  entries : x.toNat < span depth → ∀ entry ∈ entries, entry.toNat < 1024
  inBlock : x.toNat < span depth → inBlock.toNat = x.toNat % 4096

theorem descends (x : UInt32) (h : depth ≤ 3) :
    ∃ entries inBlock, Descends x depth entries inBlock := by
  induction depth generalizing x with
  | zero =>
      refine ⟨[], x, rfl, rfl, rfl, fun _ entry hentry => absurd hentry List.not_mem_nil, ?_⟩
      exact fun hx => (Nat.mod_eq_of_lt hx).symm
  | succ depth ih =>
      obtain ⟨size, hswitch, hsize, -⟩ := switchSize_eq (Nat.lt_of_succ_le h)
      obtain ⟨entries, inBlock, hbelow⟩ :=
        ih (x.toUInt64 % size).toUInt32 (Nat.le_of_succ_le h)
      have hpos : 0 < span depth := Nat.mul_pos (by decide) (Nat.pow_pos (by decide))
      have hrest := toNat_mod_toUInt32 x size
      have hentry := toNat_div x size
      rw [hsize] at hrest hentry
      have hlt : (x.toUInt64 % size).toUInt32.toNat < span depth := hrest ▸ Nat.mod_lt _ hpos
      refine ⟨x.toUInt64 / size :: entries, inBlock, ?_, ?_, ?_, fun hx => ?_, fun _ => ?_⟩
      · rw [descend, hswitch, Option.bind_some, hbelow.run]
        rfl
      · rw [List.length_cons, hbelow.length]
      · rw [offsetBelow, hbelow.length, hbelow.offset, hentry, hrest, Nat.mul_comm]
        exact Nat.div_add_mod _ _
      · intro entry hmem
        rcases List.mem_cons.mp hmem with rfl | hmem
        · rw [hentry]
          apply Nat.div_lt_of_lt_mul
          rw [span, Nat.pow_succ] at hx
          rw [span]
          omega
        · exact hbelow.entries hlt entry hmem
      · have hdvd : 4096 ∣ span depth := Nat.dvd_mul_right ..
        rw [hbelow.inBlock hlt, hrest, Nat.mod_mod_of_dvd _ hdvd]

theorem PointerArray.base_mod (array : PointerArray) : array.base % 4096 = 0 := by
  cases array <;> rfl

theorem inodeModifyDataRecur_eq_follow {isWrite : Bool} {x : UInt32} {entries : List UInt64}
    {inBlock : UInt32} (hdepth : depth ≤ 3) (h : descend depth x = some (entries, inBlock))
    (reference : Option (Block × Nat)) (blockid : UInt32) (data : Data) (length : Nat) :
    inodeModifyDataRecur isWrite depth reference blockid data x.toNat length =
      follow isWrite entries reference blockid data inBlock.toNat length := by
  induction depth generalizing x entries reference blockid data with
  | zero =>
      cases h
      rfl
  | succ depth ih =>
      obtain ⟨size, hswitch, hsize, hentrySize⟩ := switchSize_eq (Nat.lt_of_succ_le hdepth)
      rw [descend, hswitch, Option.bind_some] at h
      obtain ⟨⟨entries', inBlock'⟩, hbelow, hpair⟩ := Option.map_eq_some_iff.mp h
      obtain ⟨rfl, rfl⟩ := Prod.mk.inj hpair
      have hentry := toNat_div x size
      have hrest := toNat_mod_toUInt32 x size
      rw [hsize] at hentry hrest
      have hassert : FsCode.assert (decide (depth < 3)) .depth = (pure () : Fs Unit) :=
        if_pos (decide_eq_true (Nat.lt_of_succ_le hdepth))
      rw [inodeModifyDataRecur, follow, hassert, hentry]
      simp only [hentrySize, ← hrest, ih (Nat.le_of_succ_le hdepth) hbelow]
      rfl

/-- `inode_modify_data` as a branch with the given pointer and offset below it. -/
def Branch (offset : UInt32) (array : PointerArray) (below : Nat) : Prop :=
  ∀ isWrite inode buffer (length : UInt32),
    offset.toNat % blockSize + length.toNat ≤ blockSize →
      inodeModifyData isWrite inode buffer offset length =
        transferWith
          (fun blockid => inodeModifyDataRecur isWrite array.depth none blockid (.buffer buffer)
            (below % span array.depth) length.toNat)
          array (below / span array.depth) inode buffer offset length

theorem assert_fits {offset length : UInt32}
    (h : offset.toNat % blockSize + length.toNat ≤ blockSize) :
    FsCode.assert (offset.toNat % blockSize + length.toNat ≤ blockSize) .crossesBlock =
      (pure () : Fs Unit) :=
  if_pos (decide_eq_true h)

theorem branch_direct {offset : UInt32} (h0 : offset.toNat < l0Bound) :
    Branch offset .direct offset.toNat := by
  intro isWrite inode buffer length hfits
  have hindex : offset.toNat / span 0 < 8 := directIndex_lt h0
  have hread : ∀ n, readPointer n .direct (offset.toNat / span 0) = n.dataDirect ⟨_, hindex⟩ :=
    fun n => dif_pos hindex
  have hwrite : ∀ n blockid, writePointer n blockid .direct (offset.toNat / span 0) =
      { n with dataDirect := Function.update n.dataDirect ⟨_, hindex⟩ blockid } :=
    fun n blockid => dif_pos hindex
  unfold inodeModifyData transferWith
  rw [assert_fits hfits]
  simp only [dif_pos h0, PointerArray.depth, hread, hwrite]
  rfl

theorem branch_l1 {offset : UInt32} (h0 : ¬offset.toNat < l0Bound) (h1 : offset.toNat < l1Bound) :
    Branch offset .l1 (offset.toNat - l0Bound) := by
  intro isWrite inode buffer length hfits
  have hindex : (offset.toNat - l0Bound) / span 1 < 3 := l1Index_lt h1
  have hread : ∀ n, readPointer n .l1 ((offset.toNat - l0Bound) / span 1) = n.dataL1 ⟨_, hindex⟩ :=
    fun n => dif_pos hindex
  have hwrite : ∀ n blockid, writePointer n blockid .l1 ((offset.toNat - l0Bound) / span 1) =
      { n with dataL1 := Function.update n.dataL1 ⟨_, hindex⟩ blockid } :=
    fun n blockid => dif_pos hindex
  unfold inodeModifyData transferWith
  rw [assert_fits hfits]
  simp only [dif_neg h0, dif_pos h1, PointerArray.depth, hread, hwrite]
  rfl

theorem branch_l2 {offset : UInt32} (h0 : ¬offset.toNat < l0Bound) (h1 : ¬offset.toNat < l1Bound)
    (h2 : offset.toNat < l2Bound) : Branch offset .l2 (offset.toNat - l1Bound) := by
  intro isWrite inode buffer length hfits
  have hindex : (offset.toNat - l1Bound) / span 2 < 2 := l2Index_lt h2
  have hread : ∀ n, readPointer n .l2 ((offset.toNat - l1Bound) / span 2) = n.dataL2 ⟨_, hindex⟩ :=
    fun n => dif_pos hindex
  have hwrite : ∀ n blockid, writePointer n blockid .l2 ((offset.toNat - l1Bound) / span 2) =
      { n with dataL2 := Function.update n.dataL2 ⟨_, hindex⟩ blockid } :=
    fun n blockid => dif_pos hindex
  unfold inodeModifyData transferWith
  rw [assert_fits hfits]
  simp only [dif_neg h0, dif_neg h1, dif_pos h2, PointerArray.depth, hread, hwrite]
  rfl

/-- What is computed for an offset. -/
structure Decomposes (x : UInt32) (d : Descent) : Prop where
  run : decompose x = some d
  offset : d.offset = x.toNat
  index : d.index.toNat < d.array.length
  depth : d.entries.length = d.array.depth
  entries : ∀ entry ∈ d.entries, entry.toNat < pointersPerBlock
  inBlock : d.inBlock.toNat = x.toNat % blockSize
  code : ∀ isWrite inode buffer (length : UInt32), x.toNat % blockSize + length.toNat ≤ blockSize →
    inodeModifyData isWrite inode buffer x length = transferAlong d isWrite inode buffer x length

theorem decomposes_branch {offset x : UInt32} (array : PointerArray) {size : UInt64}
    (hsize : size.toNat = span array.depth) (hx : offset.toNat = array.base + x.toNat)
    (hlt : x.toNat < array.length * span array.depth)
    (hdecompose : decompose offset =
      (descend array.depth (x.toUInt64 % size).toUInt32).map fun r =>
        ⟨array, x.toUInt64 / size, r.1, r.2⟩)
    (hbranch : Branch offset array x.toNat) : ∃ d, Decomposes offset d := by
  have hdepth : array.depth ≤ 3 := by cases array <;> decide
  have hpos : 0 < span array.depth := Nat.mul_pos (by decide) (Nat.pow_pos (by decide))
  have hdvd : 4096 ∣ span array.depth := Nat.dvd_mul_right ..
  obtain ⟨entries, inBlock, hbelow⟩ := descends (x.toUInt64 % size).toUInt32 hdepth
  have hrest := toNat_mod_toUInt32 x size
  have hindex := toNat_div x size
  rw [hsize] at hrest hindex
  have hrestLt : (x.toUInt64 % size).toUInt32.toNat < span array.depth :=
    hrest ▸ Nat.mod_lt _ hpos
  refine ⟨⟨array, x.toUInt64 / size, entries, inBlock⟩, ?_, ?_, ?_, hbelow.length,
    hbelow.entries hrestLt, ?_, fun isWrite inode buffer length hfits => ?_⟩
  · rw [hdecompose, hbelow.run]
    rfl
  · have hdivision := Nat.div_add_mod x.toNat (span array.depth)
    rw [Descent.offset, hbelow.offset, hindex, hrest, hx, Nat.mul_comm, Nat.add_assoc, hdivision]
  · dsimp only
    rw [hindex]
    exact Nat.div_lt_of_lt_mul (by rwa [Nat.mul_comm])
  · have hbase := array.base_mod
    rw [hbelow.inBlock hrestLt, hrest, Nat.mod_mod_of_dvd _ hdvd, hx, blockSize]
    omega
  · rw [hbranch isWrite inode buffer length hfits, transferAlong]
    simp only [← hrest, ← hindex, inodeModifyDataRecur_eq_follow hdepth hbelow.run]

theorem decomposes (offset : UInt32) : ∃ d, Decomposes offset d := by
  obtain ⟨hs0, hs1, hs2⟩ := toNat_size
  obtain ⟨hb0, hb1, hb2⟩ := toNat_bound
  have hl0 : l0Bound = 32768 := by decide
  have hl1 : l1Bound = 12615680 := by decide
  have hl2 : l2Bound = 8602550272 := by decide
  have hlt := offset.toNat_lt
  rcases em (offset.toUInt64 < bound0) with h0 | h0
  · have hlow := lt_bound.mp h0
    rw [hb0] at hlow
    exact decomposes_branch .direct hs0 (Nat.zero_add _).symm hlow (if_pos h0)
      (branch_direct (hl0 ▸ hlow))
  · have hhigh0 := mt lt_bound.mpr h0
    rw [hb0] at hhigh0
    have hsub0 := toNat_sub_toUInt32 h0
    rw [hb0] at hsub0
    rcases em (offset.toUInt64 < bound1) with h1 | h1
    · have hlow := lt_bound.mp h1
      rw [hb1] at hlow
      refine decomposes_branch .l1 hs1 ?_ ?_ ((if_neg h0).trans (if_pos h1)) ?_
      · change offset.toNat = 32768 + (offset.toUInt64 - bound0).toUInt32.toNat
        omega
      · change (offset.toUInt64 - bound0).toUInt32.toNat < 3 * 4194304
        omega
      · rw [hsub0, ← hl0]
        exact branch_l1 (hl0 ▸ hhigh0) (hl1 ▸ hlow)
    · have hhigh1 := mt lt_bound.mpr h1
      rw [hb1] at hhigh1
      have h2 : offset.toUInt64 < bound2 := by
        rw [lt_bound, hb2]
        omega
      have hsub1 := toNat_sub_toUInt32 h1
      rw [hb1] at hsub1
      refine decomposes_branch .l2 hs2 ?_ ?_ ((if_neg h0).trans ((if_neg h1).trans (if_pos h2))) ?_
      · change offset.toNat = 12615680 + (offset.toUInt64 - bound1).toUInt32.toNat
        omega
      · change (offset.toUInt64 - bound1).toUInt32.toNat < 2 * 4294967296
        omega
      · rw [hsub1, ← hl1]
        exact branch_l2 (hl0 ▸ hhigh0) (hl1 ▸ hhigh1) (by omega)

/-- For every offset and every length that fits into its block,
`inode_modify_data` follows a path whose indices are all in bounds, and which
no other offset has. -/
theorem inodeModifyData_along {offset length : UInt32}
    (hfits : offset.toNat % blockSize + length.toNat ≤ blockSize) :
    ∃ d, decompose offset = some d ∧ d.InBounds length ∧
      (∀ isWrite inode buffer, inodeModifyData isWrite inode buffer offset length =
        transferAlong d isWrite inode buffer offset length) ∧
      ∀ offset', decompose offset' = some d ↔ offset' = offset := by
  obtain ⟨d, hd⟩ := decomposes offset
  refine ⟨d, hd.run, ⟨hd.index, hd.depth, hd.entries, hd.inBlock ▸ hfits⟩,
    fun isWrite inode buffer => hd.code isWrite inode buffer length hfits, fun offset' => ?_⟩
  constructor
  · intro hrun
    obtain ⟨d', hd'⟩ := decomposes offset'
    obtain rfl : d' = d := Option.some.inj (hd'.run.symm.trans hrun)
    exact UInt32.toNat_inj.mp (hd'.offset.symm.trans hd.offset)
  · rintro rfl
    exact hd.run

/-- The last byte of the largest file. -/
theorem lastByte_along : (2 ^ 32 - 1 : UInt32).toNat % blockSize + (1 : UInt32).toNat ≤ blockSize ∧
    ∃ d, decompose (2 ^ 32 - 1) = some d ∧ d.InBounds 1 ∧ d.array = .l2 := by
  have hfits : (2 ^ 32 - 1 : UInt32).toNat % blockSize + (1 : UInt32).toNat ≤ blockSize := by
    decide
  obtain ⟨d, hrun, hbounds, -⟩ := inodeModifyData_along hfits
  have harray : (decompose (2 ^ 32 - 1)).map Descent.array = some .l2 := by decide
  rw [hrun] at harray
  exact ⟨hfits, d, hrun, hbounds, Option.some.inj harray⟩

end LabKernel.OffsetPaths
