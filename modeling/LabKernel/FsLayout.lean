import Mathlib.Data.Fintype.Pi
import LabKernel.ByteMemory
import LabKernel.BlockCache

/-!
The records of the file system (`fs/fs.hpp`) and their layout in memory and
on disk.
-/

namespace LabKernel.FsLayout

open LabKernel.BlockCache
open LabKernel.ByteMemory

def superblockMagic : UInt32 := 0x20221205
def maxInodeNum : Nat := 32 * 1024

/-- `SuperBlock`; the starts are counted in blocks. -/
structure SuperBlock where
  magic0 : UInt32
  fsStart : UInt32
  inodeMapStartBlock : UInt32
  inodeMapSize : UInt32
  inodeAllocated : UInt32
  inodeFreeMin : UInt32
  blockMapStartBlock : UInt32
  blockMapSize : UInt32
  blockAllocated : UInt32
  blockFreeMin : UInt32
  inodeStartBlock : UInt32
  blockStartBlock : UInt32
  rootInode : UInt32
  magic1 : UInt32
  deriving DecidableEq, Repr

def SuperBlock.words (sb : SuperBlock) : List UInt32 :=
  [sb.magic0, sb.fsStart, sb.inodeMapStartBlock, sb.inodeMapSize, sb.inodeAllocated,
    sb.inodeFreeMin, sb.blockMapStartBlock, sb.blockMapSize, sb.blockAllocated, sb.blockFreeMin,
    sb.inodeStartBlock, sb.blockStartBlock, sb.rootInode, sb.magic1]

/-- `sizeof(SuperBlock)`. -/
def superBlockSize : Nat := 56

def SuperBlock.toBytes (sb : SuperBlock) : Bytes := fun i =>
  natBytes (sb.words.getD (i / 4) 0).toNat (i % 4)

def inodeDataDirect : Nat := 8
def inodeDataL1 : Nat := 3
def inodeDataL2 : Nat := 2

/-- `Inode`; the type is 0 for empty, 1 for a directory, 2 for a file. -/
structure Inode where
  type : UInt8
  mode : UInt8
  linkCnt : UInt16
  size : UInt32
  dataDirect : Fin 8 → UInt32
  dataL1 : Fin 3 → UInt32
  dataL2 : Fin 2 → UInt32
  dataL3 : UInt32
  deriving DecidableEq

/-- `Inode{}`. -/
def Inode.empty : Inode where
  type := 0
  mode := 0
  linkCnt := 0
  size := 0
  dataDirect := fun _ => 0
  dataL1 := fun _ => 0
  dataL2 := fun _ => 0
  dataL3 := 0

/-- `sizeof(Inode)`. -/
def inodeSize : Nat := 64
def inodePerBlock : Nat := blockSize / inodeSize

/-- The block pointers of an inode in their order in memory. -/
def Inode.pointer (n : Inode) (j : Nat) : UInt32 :=
  if h : j < 8 then n.dataDirect ⟨j, h⟩
  else if h' : j < 11 then n.dataL1 ⟨j - 8, by omega⟩
  else if h'' : j < 13 then n.dataL2 ⟨j - 11, by omega⟩
  else n.dataL3

def Inode.toBytes (n : Inode) : Bytes := fun i =>
  if i = 0 then n.type
  else if i = 1 then n.mode
  else if i < 4 then natBytes n.linkCnt.toNat (i - 2)
  else if i < 8 then natBytes n.size.toNat (i - 4)
  else natBytes (n.pointer ((i - 8) / 4)).toNat ((i - 8) % 4)

/-- The inode at `position`. -/
def Inode.ofBytes (d : Bytes) (position : Nat) : Inode where
  type := d position
  mode := d (position + 1)
  linkCnt := get16 d (position + 2)
  size := get32 d (position + 4)
  dataDirect := fun i => get32 d (position + 8 + 4 * i)
  dataL1 := fun i => get32 d (position + 40 + 4 * i)
  dataL2 := fun i => get32 d (position + 52 + 4 * i)
  dataL3 := get32 d (position + 60)

structure DirEntry where
  inode : UInt32
  valid : UInt32
  name : List UInt8
  deriving DecidableEq, Repr

/-- `sizeof(DirEntry)`. -/
def dirEntrySize : Nat := 32
def dirEntryPerBlock : Nat := blockSize / dirEntrySize

/-- The size of the field `name`. -/
def nameSize : Nat := 24

def DirEntry.toBytes (e : DirEntry) : Bytes := fun i =>
  if i < 4 then natBytes e.inode.toNat i
  else if i < 8 then natBytes e.valid.toNat (i - 4)
  else listBytes e.name (i - 8)

/-- The entry at index `j` of a block. -/
def DirEntry.ofBytes (d : Bytes) (j : Nat) : DirEntry where
  inode := get32 d (dirEntrySize * j)
  valid := get32 d (dirEntrySize * j + 4)
  name := cString d (dirEntrySize * j + 8) nameSize

variable {d d' : Bytes} {position position' : Nat}

theorem Inode.ofBytes_congr (h : ∀ i < 64, d (position + i) = d' (position' + i)) :
    Inode.ofBytes d position = Inode.ofBytes d' position' := by
  have h32 : ∀ o, o + 4 ≤ 64 → get32 d (position + o) = get32 d' (position' + o) := by
    intro o ho
    refine get32_congr fun i hi => ?_
    rw [Nat.add_assoc, Nat.add_assoc]
    exact h (o + i) (by omega)
  simp only [Inode.ofBytes, Inode.mk.injEq]
  refine ⟨h 0 (by omega), h 1 (by omega), ?_, h32 4 (by omega), ?_, ?_, ?_, h32 60 (by omega)⟩
  · refine get16_congr fun i hi => ?_
    rw [Nat.add_assoc, Nat.add_assoc]
    exact h (2 + i) (by omega)
  · funext i
    rw [Nat.add_assoc, Nat.add_assoc]
    exact h32 _ (by omega)
  · funext i
    rw [Nat.add_assoc, Nat.add_assoc]
    exact h32 _ (by omega)
  · funext i
    rw [Nat.add_assoc, Nat.add_assoc]
    exact h32 _ (by omega)

theorem Inode.get32_toBytes (n : Inode) {j : Nat} :
    get32 n.toBytes (8 + 4 * j) = n.pointer j := by
  refine get32_eq fun i hi => ?_
  unfold Inode.toBytes
  rw [if_neg (by omega), if_neg (by omega), if_neg (by omega), if_neg (by omega)]
  rw [show (8 + 4 * j + i - 8) / 4 = j by omega, show (8 + 4 * j + i - 8) % 4 = i by omega]

theorem Inode.ofBytes_toBytes (n : Inode) : Inode.ofBytes n.toBytes 0 = n := by
  have hlink : get16 n.toBytes 2 = n.linkCnt := by
    refine get16_eq fun i hi => ?_
    unfold Inode.toBytes
    rw [if_neg (by omega), if_neg (by omega), if_pos (by omega)]
    congr 1
    omega
  have hsize : get32 n.toBytes 4 = n.size := by
    refine get32_eq fun i hi => ?_
    unfold Inode.toBytes
    rw [if_neg (by omega), if_neg (by omega), if_neg (by omega), if_pos (by omega)]
    congr 1
    omega
  cases n with
  | mk type mode linkCnt size dataDirect dataL1 dataL2 dataL3 =>
      simp only [Inode.ofBytes, Inode.mk.injEq, Nat.zero_add]
      refine ⟨rfl, rfl, hlink, hsize, ?_, ?_, ?_, ?_⟩
      · funext i
        rw [Inode.get32_toBytes]
        simp [Inode.pointer]
      · funext i
        rw [show 40 + 4 * (i : Nat) = 8 + 4 * (8 + i) by omega, Inode.get32_toBytes]
        simp [Inode.pointer, show 8 + (i : Nat) < 11 by omega]
      · funext i
        rw [show 52 + 4 * (i : Nat) = 8 + 4 * (11 + i) by omega, Inode.get32_toBytes]
        simp [Inode.pointer, show ¬11 + (i : Nat) < 8 by omega, show 11 + (i : Nat) < 13 by omega]
      · rw [show 60 = 8 + 4 * 13 by omega, Inode.get32_toBytes]
        simp [Inode.pointer]

theorem DirEntry.ofBytes_congr {j j' : Nat}
    (h : ∀ i < 32, d (32 * j + i) = d' (32 * j' + i)) :
    DirEntry.ofBytes d j = DirEntry.ofBytes d' j' := by
  simp only [DirEntry.ofBytes, DirEntry.mk.injEq, dirEntrySize, nameSize]
  refine ⟨get32_congr fun i hi => h i (by omega), get32_congr fun i hi => ?_,
    cString_congr fun i hi => ?_⟩
  · rw [Nat.add_assoc, Nat.add_assoc]
    exact h (4 + i) (by omega)
  · rw [Nat.add_assoc, Nat.add_assoc]
    exact h (8 + i) (by omega)

/-- A name that fits into its field with its terminator. -/
def NameOk (name : List UInt8) : Prop := name.length < nameSize ∧ ∀ x ∈ name, x ≠ 0

theorem DirEntry.ofBytes_toBytes (e : DirEntry) (h : NameOk e.name) :
    DirEntry.ofBytes e.toBytes 0 = e := by
  have hinode : get32 e.toBytes 0 = e.inode := by
    refine get32_eq fun i hi => ?_
    unfold DirEntry.toBytes
    rw [if_pos (by omega), Nat.zero_add]
  have hvalid : get32 e.toBytes 4 = e.valid := by
    refine get32_eq fun i hi => ?_
    unfold DirEntry.toBytes
    rw [if_neg (by omega), if_pos (by omega)]
    congr 1
    omega
  have hname : cString e.toBytes 8 24 = e.name := by
    have hlist := @cString_listBytes e.name 24 0 h.1 h.2
    rw [List.drop_zero] at hlist
    refine Eq.trans (cString_congr fun i hi => ?_) hlist
    unfold DirEntry.toBytes
    rw [if_neg (by omega), if_neg (by omega)]
    congr 1
    omega
  cases e with
  | mk inode valid name =>
      simp only [DirEntry.ofBytes, dirEntrySize, nameSize, Nat.mul_zero, Nat.zero_add,
        DirEntry.mk.injEq]
      exact ⟨hinode, hvalid, hname⟩

end LabKernel.FsLayout
