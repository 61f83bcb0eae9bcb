import LabKernel.FsLayout
import LabKernel.BlockObject

/-!
The functions of the file system (`fs/fs.cpp` and `fs/file.cpp`) as programs
over the block cache.

A loop of the source is a recursive function; its last arguments are the
number of rounds left and the loop variables.  A name or path is the list of
its bytes without the terminator.
-/

namespace LabKernel.FsCode

open LabKernel.BlockCache
open LabKernel.BlockObject
open LabKernel.ByteMemory
open LabKernel.FsLayout
open LabKernel.ProgramLogic

/-- `File`, without the bookkeeping of `IdObject`. -/
structure File where
  inodeIdx : UInt32
  mode : UInt32
  filePtr : UInt32
  inode : Inode

/-- What the file system prints. -/
inductive Printed where
  | text (s : String)
  | name (s : List UInt8)
  | row (type : UInt8) (linkCnt : UInt16) (size : UInt32) (name : List UInt8)
  | superblock (sb : SuperBlock)

/-- The variables of the file system outside the block cache: `superblock`,
the current directory of the process, `cat_buffer`, the table of
`File::pool`, and what was printed so far. -/
structure Globals where
  superblock : SuperBlock
  cwdNode : UInt32
  catBuffer : Bytes
  files : List (Option File)
  console : List Printed

abbrev Fs (α : Type) : Type := BlockProgram Bytes Globals α

def getSuperblock : Fs SuperBlock := do
  return (← getGlobals).superblock

def modifySuperblock (f : SuperBlock → SuperBlock) : Fs Unit :=
  modifyGlobals fun g => { g with superblock := f g.superblock }

/-- `cwd_node()`. -/
def cwdNode : Fs UInt32 := do
  return (← getGlobals).cwdNode

def setCwdNode (ino : UInt32) : Fs Unit :=
  modifyGlobals fun g => { g with cwdNode := ino }

def print (p : Printed) : Fs Unit :=
  modifyGlobals fun g => { g with console := g.console ++ [p] }

/-- Print the text of an error and return `-1`. -/
def failWith (s : String) : Fs Int := do
  print (.text s)
  return -1

/-- The test `(int)value < 0`. -/
def isNegative (value : UInt32) : Bool := 2 ^ 31 ≤ value.toNat

/-- The return value `-1` as an unsigned number. -/
def minusOne : UInt32 := 0xffffffff

def assert (condition : Bool) (failure : Failure) : Fs Unit :=
  if condition then pure () else fail failure

/-- An `if` without `else`. -/
def doWhen (condition : Bool) (p : Fs Unit) : Fs Unit :=
  if condition then p else pure ()

def flushSuperblock : Fs Unit := do
  let block ← openBlock 0
  let sb ← getSuperblock
  let data ← block.load
  block.store (copy data 0 sb.toBytes 0 superBlockSize)
  block.update

/-- The loop over the bits of one byte. -/
def findClearBit (byte : UInt8) : Nat → Nat → Option Nat
  | 0, _ => none
  | left + 1, k =>
      if byte &&& 1 <<< UInt8.ofNat k = 0 then some k else findClearBit byte left (k + 1)

/-- The loop over the bytes of a block of a bit map. -/
def findClear (data : Bytes) : Nat → Nat → Option (Nat × Nat)
  | 0, _ => none
  | left + 1, j =>
      if data j ≠ 0xff then
        match findClearBit (data j) 8 0 with
        | some k => some (j, k)
        | none => findClear data left (j + 1)
      else findClear data left (j + 1)

/-- The number of bits in a block. -/
def bitsPerBlock : Nat := blockSize * 8

/-- The loop common to `inode_alloc` and `block_alloc`, over the blocks of a
bit map; `account` is the change of the super block for a number taken. -/
def allocLoop (mapStart : UInt32) (noSpace : Failure)
    (account : UInt32 → SuperBlock → SuperBlock) : Nat → Nat → Fs UInt32
  | 0, _ => fail noSpace
  | left + 1, i => do
      let block ← openBlock (mapStart + UInt32.ofNat i).toNat
      let data ← block.load
      match findClear data blockSize 0 with
      | some (j, k) => do
          block.store (setBit data j k)
          block.update
          let number := UInt32.ofNat (i * bitsPerBlock + j * 8 + k)
          modifySuperblock (account number)
          flushSuperblock
          return number
      | none => allocLoop mapStart noSpace account left (i + 1)

def inodeAlloc : Fs UInt32 := do
  let sb ← getSuperblock
  let first := sb.inodeFreeMin.toNat / bitsPerBlock
  allocLoop sb.inodeMapStartBlock .noInode
    (fun number sb => { sb with
      inodeAllocated := sb.inodeAllocated + 1
      inodeFreeMin := number + 1 })
    (sb.inodeMapSize.toNat / bitsPerBlock - first) first

def blockAlloc : Fs UInt32 := do
  let sb ← getSuperblock
  let first := sb.blockFreeMin.toNat / bitsPerBlock
  allocLoop sb.blockMapStartBlock .noBlock
    (fun number sb => { sb with
      blockAllocated := sb.blockAllocated + 1
      blockFreeMin := number + 1 })
    (sb.blockMapSize.toNat / bitsPerBlock - first) first

/-- The body common to `inode_free` and `block_free`. -/
def freeNumber (mapStart : UInt32) (limit : Nat) (account : UInt32 → SuperBlock → SuperBlock)
    (number : UInt32) : Fs Unit := do
  assert (number.toNat < limit) .notAllocated
  let i := number.toNat / bitsPerBlock
  let j := number.toNat % bitsPerBlock / 8
  let k := number.toNat % 8
  let block ← openBlock (mapStart + UInt32.ofNat i).toNat
  let data ← block.load
  assert (data j &&& 1 <<< UInt8.ofNat k ≠ 0) .notAllocated
  block.store (clearBit data j k)
  block.update
  modifySuperblock (account number)
  flushSuperblock

def inodeFree (ino : UInt32) : Fs Unit := do
  let sb ← getSuperblock
  freeNumber sb.inodeMapStartBlock maxInodeNum
    (fun ino sb => { sb with
      inodeAllocated := sb.inodeAllocated - 1
      inodeFreeMin := if ino < sb.inodeFreeMin then ino else sb.inodeFreeMin })
    ino

def blockFree (blockid : UInt32) : Fs Unit := do
  let sb ← getSuperblock
  freeNumber sb.blockMapStartBlock maxBlockNum
    (fun blockid sb => { sb with
      blockAllocated := sb.blockAllocated - 1
      blockFreeMin := if blockid < sb.blockFreeMin then blockid else sb.blockFreeMin })
    blockid

/-- The block of the inode table that holds an inode. -/
def inodeBlock (sb : SuperBlock) (ino : UInt32) : Nat :=
  (sb.inodeStartBlock + UInt32.ofNat (ino.toNat / inodePerBlock)).toNat

/-- The position of an inode in its block. -/
def inodePosition (ino : UInt32) : Nat := inodeSize * (ino.toNat % inodePerBlock)

def readInode (ino : UInt32) : Fs Inode := do
  let sb ← getSuperblock
  let block ← openBlock (inodeBlock sb ino)
  let data ← block.load
  return Inode.ofBytes data (inodePosition ino)

def writeInode (ino : UInt32) (inode : Inode) : Fs Unit := do
  let sb ← getSuperblock
  let block ← openBlock (inodeBlock sb ino)
  let data ← block.load
  block.store (copy data (inodePosition ino) inode.toBytes 0 inodeSize)
  block.update

def l0Size : Nat := blockSize
/-- `RATIO_PER_LEVEL`. -/
def pointersPerBlock : Nat := blockSize / 4
def l1Size : Nat := l0Size * pointersPerBlock
def l2Size : Nat := l1Size * pointersPerBlock
def l0Bound : Nat := inodeDataDirect * blockSize
def l1Bound : Nat := l0Bound + inodeDataL1 * l1Size
def l2Bound : Nat := l1Bound + inodeDataL2 * l2Size

/-- What the parameter `data` of `inode_modify_data_recur` points to. -/
inductive Data where
  /-- The buffer of the caller. -/
  | buffer (bytes : Bytes)
  /-- The data of a block in the cache. -/
  | block (b : Block)

def Data.load : Data → Fs Bytes
  | .buffer bytes => pure bytes
  | .block b => b.load

/-- `memcpy` to the place `data` points to; the result is the buffer of the
caller afterwards. -/
def Data.receive (data : Data) (src : Bytes) (start length : Nat) : Fs Data :=
  match data with
  | .buffer bytes => pure (.buffer (copy bytes 0 src start length))
  | .block b => do
      let bytes ← b.load
      b.store (copy bytes 0 src start length)
      return .block b

/-- An assignment to the reference `blockid`, which is an entry of an index
block unless it is a field of the inode. -/
def assignPointer (reference : Option (Block × Nat)) (blockid : UInt32) : Fs Unit :=
  match reference with
  | none => pure ()
  | some (parent, entry) => do
      let index ← parent.load
      parent.store (put32 index (4 * entry) blockid)

/-- The beginning of `inode_modify_data_recur`: open the block with the given
pointer, after allocating it if the pointer is 0.  The results are the
pointer, whether the block is new, and the block. -/
def openPointer (reference : Option (Block × Nat)) (blockid : UInt32) :
    Fs (UInt32 × Bool × Block) := do
  if blockid = 0 then
    let new ← blockAlloc
    assignPointer reference new
    let block ← openBlock new.toNat
    block.store zeros
    return (new, true, block)
  else
    let block ← openBlock blockid.toNat
    return (blockid, false, block)

/-- The transfer of `inode_modify_data_recur` at depth 0. -/
def transfer (isWrite : Bool) (block : Block) (data : Data) (offset length : Nat) : Fs Data :=
  if isWrite then do
    let src ← data.load
    let bytes ← block.load
    block.store (copy bytes offset src 0 length)
    block.update
    return data
  else do
    let bytes ← block.load
    data.receive bytes offset length

/-- The size of what one entry of an index block covers. -/
def entrySize : Nat → Nat
  | 1 => l0Size
  | 2 => l1Size
  | 3 => l2Size
  | _ => 0

/-- `inode_modify_data_recur`.  In an index block the variable `data` of the
source hides the parameter `data`, so the next level transfers to or from
the index block itself. -/
def inodeModifyDataRecur (isWrite : Bool) : Nat → Option (Block × Nat) → UInt32 → Data → Nat →
    Nat → Fs (UInt32 × Data × Bool)
  | 0, reference, blockid, data, offset, length => do
      let (blockid, new, block) ← openPointer reference blockid
      let data ← transfer isWrite block data offset length
      return (blockid, data, new)
  | depth + 1, reference, blockid, data, offset, length => do
      let (blockid, new, block) ← openPointer reference blockid
      assert (depth < 3) .depth
      let size := entrySize (depth + 1)
      let index ← block.load
      let (_, _, modified) ← inodeModifyDataRecur isWrite depth (some (block, offset / size))
        (get32 index (4 * (offset / size))) (.block block) (offset % size) length
      doWhen modified block.update
      return (blockid, data, new)

/-- The buffer of the caller after a transfer. -/
def Data.bytes (fallback : Bytes) : Data → Bytes
  | .buffer bytes => bytes
  | .block _ => fallback

theorem directIndex_lt {o : Nat} (h : o < l0Bound) : o / l0Size < 8 := by
  simp only [l0Bound, l0Size, inodeDataDirect, blockSize] at *
  omega

theorem l1Index_lt {o : Nat} (h : o < l1Bound) : (o - l0Bound) / l1Size < 3 := by
  simp only [l1Bound, l0Bound, l1Size, l0Size, pointersPerBlock, inodeDataDirect, inodeDataL1,
    blockSize] at *
  omega

theorem l2Index_lt {o : Nat} (h : o < l2Bound) : (o - l1Bound) / l2Size < 2 := by
  simp only [l2Bound, l1Bound, l0Bound, l2Size, l1Size, l0Size, pointersPerBlock,
    inodeDataDirect, inodeDataL1, inodeDataL2, blockSize] at *
  omega

/-- `inode_modify_data`; the results are the inode, the buffer and whether
the inode was modified. -/
def inodeModifyData (isWrite : Bool) (inode : Inode) (buffer : Bytes) (offset length : UInt32) :
    Fs (Inode × Bytes × Bool) := do
  assert (offset.toNat % blockSize + length.toNat ≤ blockSize) .crossesBlock
  let grows := inode.size < offset + length && inode.type = 2
  let inode := if grows then { inode with size := offset + length } else inode
  let o := offset.toNat
  if h0 : o < l0Bound then
    let i : Fin 8 := ⟨o / l0Size, directIndex_lt h0⟩
    let (blockid, data, modified) ← inodeModifyDataRecur isWrite 0 none (inode.dataDirect i)
      (.buffer buffer) (o % l0Size) length.toNat
    return ({ inode with dataDirect := Function.update inode.dataDirect i blockid },
      data.bytes buffer, grows || modified)
  else if h1 : o < l1Bound then
    let i : Fin 3 := ⟨(o - l0Bound) / l1Size, l1Index_lt h1⟩
    let (blockid, data, modified) ← inodeModifyDataRecur isWrite 1 none (inode.dataL1 i)
      (.buffer buffer) ((o - l0Bound) % l1Size) length.toNat
    return ({ inode with dataL1 := Function.update inode.dataL1 i blockid },
      data.bytes buffer, grows || modified)
  else if h2 : o < l2Bound then
    let i : Fin 2 := ⟨(o - l1Bound) / l2Size, l2Index_lt h2⟩
    let (blockid, data, modified) ← inodeModifyDataRecur isWrite 2 none (inode.dataL2 i)
      (.buffer buffer) ((o - l1Bound) % l2Size) length.toNat
    return ({ inode with dataL2 := Function.update inode.dataL2 i blockid },
      data.bytes buffer, grows || modified)
  else fail .depth

/-- `data_direct[i]`. -/
def direct (n : Inode) (i : Nat) : UInt32 :=
  if h : i < 8 then n.dataDirect ⟨i, h⟩ else 0

/-- The loop of `get_inode_by_filename` over the entries of one block; the
results are the inode found and `free_offset`. -/
def scanEntries (data : Bytes) (path : List UInt8) (i : Nat) :
    Nat → Nat → Nat → Option UInt32 × Nat
  | 0, _, freeOffset => (none, freeOffset)
  | left + 1, j, freeOffset =>
      let entry := DirEntry.ofBytes data j
      if entry.valid ≠ 0 ∧ entry.name = path then (some entry.inode, freeOffset)
      else if entry.valid = 0 ∧ freeOffset = 0 then
        scanEntries data path i left (j + 1) (i * dirEntryPerBlock + j)
      else scanEntries data path i left (j + 1) freeOffset

/-- The loop of `get_inode_by_filename` over the blocks of the directory. -/
def scanBlocks (dir : Inode) (path : List UInt8) : Nat → Nat → Nat → Fs (Option UInt32 × Nat)
  | 0, _, freeOffset => return (none, freeOffset)
  | left + 1, i, freeOffset => do
      if direct dir i ≠ 0 then
        let block ← openBlock (direct dir i).toNat
        let data ← block.load
        match scanEntries data path i dirEntryPerBlock 0 freeOffset with
        | (some ino, freeOffset) => return (some ino, freeOffset)
        | (none, freeOffset) => scanBlocks dir path left (i + 1) freeOffset
      else scanBlocks dir path left (i + 1) freeOffset

/-- The loop that looks for a block the directory does not have yet. -/
def missingBlock (dir : Inode) : Nat → Nat → Nat
  | 0, _ => 0
  | left + 1, i => if direct dir i = 0 then i * dirEntryPerBlock else missingBlock dir left (i + 1)

/-- The inode of a new entry: a new empty one unless one is given. -/
def entryInode (newInodeIdx : UInt32) : Fs UInt32 :=
  if newInodeIdx = 0 then do
    let ino ← inodeAlloc
    writeInode ino Inode.empty
    return ino
  else return newInodeIdx

/-- The end of `get_inode_by_filename`: write the new entry and count it. -/
def insertEntry (cwd : Inode) (path : List UInt8) (freeOffset : Nat) (ino : UInt32) :
    Fs UInt32 := do
  let entry : DirEntry := ⟨ino, 1, path⟩
  let (cwd, _, _) ← inodeModifyData true cwd entry.toBytes
    (UInt32.ofNat (freeOffset * dirEntrySize)) (UInt32.ofNat dirEntrySize)
  writeInode (← cwdNode) { cwd with size := cwd.size + 1 }
  return ino

def getInodeByFilename (path : List UInt8) (createIfNotExisted : Bool) (newInodeIdx : UInt32) :
    Fs UInt32 := do
  let cwd ← readInode (← cwdNode)
  match ← scanBlocks cwd path inodeDataDirect 0 0 with
  | (some ino, _) => return ino
  | (none, freeOffset) =>
      if createIfNotExisted then
        let ino ← entryInode newInodeIdx
        insertEntry cwd path
          (if freeOffset = 0 then missingBlock cwd inodeDataDirect 0 else freeOffset) ino
      else return minusOne

/-- The search of `remove_inode_by_filename` in one block. -/
def findEntry (data : Bytes) (path : List UInt8) : Nat → Nat → Option Nat
  | 0, _ => none
  | left + 1, j =>
      let entry := DirEntry.ofBytes data j
      if entry.valid ≠ 0 ∧ entry.name = path then some j else findEntry data path left (j + 1)

/-- The loop of `remove_inode_by_filename` over the blocks of the directory. -/
def removeEntry (cwd : Inode) (path : List UInt8) : Nat → Nat → Fs Unit
  | 0, _ => fail .noSuchFile
  | left + 1, i => do
      if direct cwd i ≠ 0 then
        let block ← openBlock (direct cwd i).toNat
        let data ← block.load
        match findEntry data path dirEntryPerBlock 0 with
        | some j => do
            block.store (put32 data (dirEntrySize * j + 4) 0)
            block.update
            writeInode (← cwdNode) { cwd with size := cwd.size - 1 }
        | none => removeEntry cwd path left (i + 1)
      else removeEntry cwd path left (i + 1)

def removeInodeByFilename (path : List UInt8) : Fs Unit := do
  let cwd ← readInode (← cwdNode)
  removeEntry cwd path inodeDataDirect 0

/-- The first `n` bits of a block of a bit map set. -/
def markFirst (data : Bytes) : Nat → Bytes
  | 0 => data
  | n + 1 => setBit (markFirst data n) (n / 8) (n % 8)

/-- The loops that clear blocks of a bit map. -/
def clearBlocks (start : UInt32) : Nat → Nat → Fs Unit
  | 0, _ => return ()
  | left + 1, i => do
      let block ← openBlock (start + UInt32.ofNat i).toNat
      block.store zeros
      block.update
      clearBlocks start left (i + 1)

/-- The names `.` and `..`. -/
def dot : List UInt8 := [46]
def dotDot : List UInt8 := [46, 46]

/-- The two entries of a new directory. -/
def dotEntries (self parent : UInt32) : Bytes :=
  copy (DirEntry.toBytes ⟨self, 1, dot⟩) dirEntrySize (DirEntry.toBytes ⟨parent, 1, dotDot⟩) 0
    dirEntrySize

/-- The assignments at the beginning of `fs_mkfs`. -/
def mkfsSuperblock (sb : SuperBlock) : SuperBlock :=
  let inodeMapStartBlock := 1
  let blockMapStartBlock := inodeMapStartBlock + UInt32.ofNat (maxInodeNum / bitsPerBlock)
  let inodeStartBlock := blockMapStartBlock + UInt32.ofNat (maxBlockNum / bitsPerBlock)
  let blockStartBlock := inodeStartBlock + UInt32.ofNat (maxInodeNum / inodePerBlock)
  { sb with
    magic0 := superblockMagic
    fsStart := UInt32.ofNat blockStart
    inodeMapStartBlock := inodeMapStartBlock
    inodeMapSize := UInt32.ofNat maxInodeNum
    inodeAllocated := 0
    inodeFreeMin := 0
    blockMapStartBlock := blockMapStartBlock
    blockMapSize := UInt32.ofNat maxBlockNum
    inodeStartBlock := inodeStartBlock
    blockStartBlock := blockStartBlock
    blockAllocated := blockStartBlock
    blockFreeMin := blockStartBlock + 1
    magic1 := superblockMagic }

/-- The loops of `fs_mkfs` over the blocks of the bit maps. -/
def clearMaps : Fs Unit := do
  let sb ← getSuperblock
  clearBlocks sb.inodeMapStartBlock (sb.inodeMapSize.toNat / bitsPerBlock) 0
  let block ← openBlock sb.blockMapStartBlock.toNat
  block.store (markFirst zeros sb.blockStartBlock.toNat)
  block.update
  clearBlocks sb.blockMapStartBlock (sb.blockMapSize.toNat / bitsPerBlock - 1) 1

/-- The end of `fs_mkfs`: the root directory. -/
def makeRoot : Fs Int := do
  let root ← inodeAlloc
  modifySuperblock fun sb => { sb with rootInode := root }
  setCwdNode root
  flushSuperblock
  let inode := { Inode.empty with type := 1, linkCnt := 65535 }
  let (inode, _, _) ← inodeModifyData true inode (dotEntries root root) 0
    (UInt32.ofNat (2 * dirEntrySize))
  writeInode root inode
  return 0

def fsMkfs : Fs Int := do
  modifySuperblock mkfsSuperblock
  clearMaps
  makeRoot

/-- `fs_statfs`. -/
def fsStatfs : Fs Int := do
  print (.superblock (← getSuperblock))
  return 0

/-- The strings `fs_cd` copies to `tmp`: the path cut at each `/`. -/
def components (current : List UInt8) : List UInt8 → List (List UInt8)
  | [] => if current = [] then [] else [current]
  | c :: rest =>
      if c = 47 then current :: components [] rest else components (current ++ [c]) rest

/-- The loop of `fs_cd`. -/
def cdLoop (oldCwd : UInt32) : List (List UInt8) → Fs Int
  | [] => return 0
  | name :: rest => do
      setCwdNode (← getInodeByFilename name false 0)
      let ino ← cwdNode
      if isNegative ino then
        setCwdNode oldCwd
        failWith "No such directory\n"
      else
        let inode ← readInode ino
        if inode.type ≠ 1 then
          setCwdNode oldCwd
          failWith "Not a directory\n"
        else cdLoop oldCwd rest

def fsCd (path : List UInt8) : Fs Int := do
  cdLoop (← cwdNode) (components [] path)

/-- The body of the loop of `fs_ls` over the entries of one block. -/
def listEntry (block : Block) (optL : Bool) (j : Nat) : Fs Unit := do
  let entry := DirEntry.ofBytes (← block.load) j
  if entry.valid = 0 then return ()
  else if optL then
    let n ← readInode entry.inode
    let entry := DirEntry.ofBytes (← block.load) j
    print (.row n.type n.linkCnt n.size entry.name)
  else print (.name entry.name)

def listEntries (block : Block) (optL : Bool) : Nat → Nat → Fs Unit
  | 0, _ => return ()
  | left + 1, j => do
      listEntry block optL j
      listEntries block optL left (j + 1)

/-- The loop of `fs_ls` over the blocks of the directory. -/
def listBlocks (inode : Inode) (optL : Bool) : Nat → Nat → Fs Unit
  | 0, _ => return ()
  | left + 1, i => do
      if direct inode i = 0 then listBlocks inode optL left (i + 1)
      else
        let block ← openBlock (direct inode i).toNat
        listEntries block optL dirEntryPerBlock 0
        listBlocks inode optL left (i + 1)

/-- `LS_L`. -/
def lsL : UInt32 := 1

def fsLs (path : List UInt8) (option : UInt32) : Fs Int := do
  let oldCwd ← cwdNode
  let result ← fsCd path
  if result = -1 then
    setCwdNode oldCwd
    return -1
  else
    let inode ← readInode (← cwdNode)
    if inode.type ≠ 1 then
      print (.text "Not a directory\n")
      setCwdNode oldCwd
      return -1
    else
      let optL := option &&& lsL ≠ 0
      doWhen optL (print (.text "| mode | links |   size   |      name    |\n"))
      listBlocks inode optL inodeDataDirect 0
      print (.text "\n")
      setCwdNode oldCwd
      return 0

def fsMkdir (path : List UInt8) : Fs Int := do
  let ino ← getInodeByFilename path true 0
  if isNegative ino then failWith "Failed to create directory\n"
  else
    let inode ← readInode ino
    if inode.type ≠ 0 then failWith "Already existed\n"
    else
      let inode := { inode with type := 1, linkCnt := 1 }
      let (inode, _, _) ← inodeModifyData true inode (dotEntries ino (← cwdNode)) 0
        (UInt32.ofNat (2 * dirEntrySize))
      writeInode ino inode
      return 0

def fsTouch (path : List UInt8) : Fs Int := do
  let ino ← getInodeByFilename path true 0
  if isNegative ino then failWith "Failed to create file\n"
  else
    let inode ← readInode ino
    if inode.type ≠ 0 then failWith "Already existed\n"
    else
      writeInode ino { inode with type := 2, linkCnt := 1 }
      return 0

/-- The loop over the entries of an index block in `free_inode_blocks_recur`;
`freeEntry` is the recursive call. -/
def freeEntries (block : Block) (freeEntry : UInt32 → Fs Unit) : Nat → Nat → Fs Unit
  | 0, _ => return ()
  | left + 1, i => do
      let pointer := get32 (← block.load) (4 * i)
      if pointer = 0 then freeEntries block freeEntry left (i + 1)
      else
        freeEntry pointer
        freeEntries block freeEntry left (i + 1)

/-- The loop over all entries of an index block. -/
@[irreducible]
def freeIndex (block : Block) (freeEntry : UInt32 → Fs Unit) : Fs Unit :=
  freeEntries block freeEntry pointersPerBlock 0

def freeInodeBlocksRecur : Nat → UInt32 → Fs Unit
  | 0, blockid => if blockid = 0 then return () else blockFree blockid
  | depth + 1, blockid => do
      let block ← openBlock blockid.toNat
      freeIndex block (freeInodeBlocksRecur depth)

theorem freeInodeBlocksRecur_succ (depth : Nat) (blockid : UInt32) :
    freeInodeBlocksRecur (depth + 1) blockid = (do
      let block ← openBlock blockid.toNat
      freeEntries block (freeInodeBlocksRecur depth) pointersPerBlock 0) := by
  rw [freeInodeBlocksRecur]
  simp only [freeIndex]

/-- The loops of `free_inode_blocks` over the pointers of one kind. -/
def freePointers (depth : Nat) : List UInt32 → Fs Unit
  | [] => return ()
  | blockid :: rest => do
      if blockid = 0 then freePointers depth rest
      else
        freeInodeBlocksRecur depth blockid
        freePointers depth rest

def freeInodeBlocks (inode : Inode) : Fs Unit := do
  freePointers 0 (List.ofFn inode.dataDirect)
  freePointers 1 (List.ofFn inode.dataL1)
  freePointers 2 (List.ofFn inode.dataL2)
  freePointers 3 [inode.dataL3]

/-- The end of `fs_rm` and `fs_rmdir`, after the entry was removed. -/
def dropLink (ino : UInt32) (inode : Inode) : Fs Int := do
  let inode := { inode with linkCnt := inode.linkCnt - 1 }
  if inode.linkCnt ≠ 0 then
    writeInode ino inode
    return 0
  else
    freeInodeBlocks inode
    inodeFree ino
    return 0

def fsRm (path : List UInt8) : Fs Int := do
  let ino ← getInodeByFilename path false 0
  if isNegative ino then failWith "No such file\n"
  else
    let inode ← readInode ino
    if inode.type ≠ 2 then failWith "Not a file\n"
    else
      removeInodeByFilename path
      dropLink ino inode

def fsRmdir (path : List UInt8) : Fs Int := do
  let ino ← getInodeByFilename path false 0
  if isNegative ino then failWith "No such directory\n"
  else
    let inode ← readInode ino
    if inode.type ≠ 1 then failWith "Not a directory\n"
    else if inode.size ≠ 0 then failWith "Directory not empty\n"
    else
      removeInodeByFilename path
      dropLink ino inode

def fsLn (srcPath dstPath : List UInt8) : Fs Int := do
  let src ← getInodeByFilename srcPath false 0
  if isNegative src then failWith "No such source file\n"
  else
    let dst ← getInodeByFilename dstPath true src
    if isNegative dst then failWith "Failed to create link\n"
    else
      let inode ← readInode src
      writeInode src { inode with linkCnt := inode.linkCnt + 1 }
      return 0

/-- The loop of `fs_cat`.  `cat_buffer` keeps what earlier rounds and calls
left in it, and `putstr` shows it up to the first terminator. -/
def catLoop : Nat → Inode → Nat → Fs Unit
  | 0, _, _ => return ()
  | left + 1, inode, offset => do
      if offset < inode.size.toNat then
        let readSize := min blockSize (inode.size.toNat - offset)
        let buffer := (← getGlobals).catBuffer
        let (inode, buffer, _) ← inodeModifyData false inode buffer (UInt32.ofNat offset)
          (UInt32.ofNat readSize)
        modifyGlobals fun g => { g with catBuffer := buffer }
        print (.name (cString buffer 0 blockSize))
        catLoop left inode (offset + readSize)
      else return ()

def fsCat (path : List UInt8) : Fs Int := do
  let ino ← getInodeByFilename path false 0
  if isNegative ino then failWith "No such file\n"
  else
    let inode ← readInode ino
    if inode.type ≠ 2 then failWith "Not a file\n"
    else
      catLoop (inode.size.toNat / blockSize + 1) inode 0
      print (.text "\n")
      return 0

/-- The modes of `fs_fopen` and the values of `whence`. -/
def oRdonly : UInt32 := 1
def oWronly : UInt32 := 2
def oRdwr : UInt32 := 3
def seekSet : Int := 0
def seekCur : Int := 1
def seekEnd : Int := 2

/-- `File::pool.get`. -/
def getFile (fd : Nat) : Fs (Option File) := do
  return ((← getGlobals).files[fd]?).join

/-- A change of the object behind a handle. -/
def setFile (fd : Nat) (file : Option File) : Fs Unit :=
  modifyGlobals fun g => { g with files := g.files.set fd file }

/-- The object of `File::pool` with the given key. -/
def lookupFile (inodeIdx : UInt32) : List (Option File) → Option Nat :=
  List.findIdx? fun entry => (entry.map File.inodeIdx) = some inodeIdx

/-- `File::pool.init` for a single process: an existing object of the key is
returned as it is. -/
def initFile (file : File) : Fs Int := do
  let files := (← getGlobals).files
  match lookupFile file.inodeIdx files with
  | some fd => return fd
  | none => do
      modifyGlobals fun g => { g with files := g.files ++ [some file] }
      return files.length

/-- The round of the loops of `File::read` and `File::write` that transfers
between the file and position `done` of the buffer. -/
def fileRound (isWrite : Bool) (file : File) (buff : Bytes) (done length : Nat) :
    Fs (File × Bytes × Bool × Nat) := do
  let size := min (blockSize - file.filePtr.toNat % blockSize) length
  let (inode, bytes, modified) ← inodeModifyData isWrite file.inode (fun i => buff (done + i))
    file.filePtr (UInt32.ofNat size)
  return ({ file with inode := inode, filePtr := file.filePtr + UInt32.ofNat size },
    copy buff done bytes 0 size, modified, size)

/-- The loop of `File::read` and `File::write`; `length` bytes are left. -/
def fileLoop (isWrite : Bool) : Nat → File → Bytes → Nat → Nat → Bool → Fs (File × Bytes × Bool)
  | 0, file, buff, _, _, modified => return (file, buff, modified)
  | left + 1, file, buff, done, length, modified => do
      if length = 0 then return (file, buff, modified)
      else
        let (file, buff, roundModified, size) ← fileRound isWrite file buff done length
        fileLoop isWrite left file buff (done + size) (length - size) (modified || roundModified)

/-- `File::read` and `File::write`; the results are the file, the buffer and
the number of bytes. -/
def fileTransfer (isWrite : Bool) (file : File) (buff : Bytes) (length : Nat) :
    Fs (File × Bytes × Int) := do
  if file.mode &&& (if isWrite then oWronly else oRdonly) = 0 then return (file, buff, -1)
  else
    let (file, buff, modified) ← fileLoop isWrite length file buff 0 length false
    doWhen modified (writeInode file.inodeIdx file.inode)
    return (file, buff, length)

def fsFopen (path : List UInt8) (mode : UInt32) : Fs Int := do
  let ino ← getInodeByFilename path true 0
  let inode ← readInode ino
  if inode.type = 1 then return -1
  else if inode.type = 0 then
    let inode := { inode with type := 2, linkCnt := 1 }
    writeInode ino inode
    initFile ⟨ino, mode, 0, inode⟩
  else initFile ⟨ino, mode, 0, inode⟩

/-- `fs_fread`; the second result is the buffer of the caller afterwards. -/
def fsFread (fd : Nat) (buff : Bytes) (length : Nat) : Fs (Int × Bytes) := do
  match ← getFile fd with
  | some file => do
      let (file, buff, result) ← fileTransfer false file buff length
      setFile fd (some file)
      return (result, buff)
  | none => return (-1, buff)

def fsFwrite (fd : Nat) (buff : Bytes) (length : Nat) : Fs Int := do
  match ← getFile fd with
  | some file => do
      let (file, _, result) ← fileTransfer true file buff length
      setFile fd (some file)
      return result
  | none => return -1

/-- `File::lseek`; the offset is an `int` converted to unsigned. -/
def lseek (file : File) (offset : UInt32) (whence : Int) : Option File :=
  if whence = seekSet then some { file with filePtr := offset }
  else if whence = seekCur then some { file with filePtr := file.filePtr + offset }
  else if whence = seekEnd then some { file with filePtr := file.inode.size + offset }
  else none

def fsLseek (fd : Nat) (offset : UInt32) (whence : Int) : Fs Int := do
  match ← getFile fd with
  | some file =>
      match lseek file offset whence with
      | some file => do
          setFile fd (some file)
          return file.filePtr.toBitVec.toInt
      | none => return -1
  | none => return -1

/-- `fs_fclose` for a single process: the only registration of the object is
dropped, and the object with it. -/
def fsFclose (fd : Nat) : Fs Int := do
  setFile fd none
  return 0

end LabKernel.FsCode
