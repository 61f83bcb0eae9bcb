import Mathlib.Algebra.Group.Nat.Defs
import Mathlib.Logic.Function.Basic
import Mathlib.Data.Int.Notation

/-!
The block cache of `fs/io.cpp`: 64 slots with least-recently-used replacement
in front of the disk, and the two write policies.

The contents of a block are an arbitrary type.  The disk is indexed by the
number of the first of the eight sectors of a block, as `bios_sd_read` and
`bios_sd_write` see it.  A failed assertion is `none`.
-/

namespace LabKernel.BlockCache

variable {β : Type*}

def sectorSize : Nat := 512
def blockSize : Nat := 4096
def blockStart : Nat := 128 * 1024 * 1024
def blockEnd : Nat := 512 * 1024 * 1024
def maxBlockNum : Nat := (blockEnd - blockStart) / blockSize
def cacheSize : Nat := 64

/-- One entry of the parallel arrays `cache_data`, `cache_blockid`,
`cache_dirty` and `cache_age`. -/
structure Slot (β : Type*) where
  data : β
  blockid : Nat
  dirty : Bool
  age : Int

/-- The globals of `fs/io.cpp` and the disk. -/
structure Cache (β : Type*) where
  age : Int
  slots : Nat → Slot β
  policyWritethrough : Bool
  policyWritebackInterval : Int
  lastTime : Int
  disk : Nat → β

/-- The first sector of a block, in 32-bit arithmetic. -/
def sector (blockid : Nat) : Nat := (blockStart / sectorSize + blockid * 8) % 2 ^ 32

/-- `read_block_direct`. -/
def readBlockDirect (disk : Nat → β) (blockid : Nat) : Option β :=
  if sector blockid < blockEnd / sectorSize then some (disk (sector blockid)) else none

/-- `write_block_direct`. -/
def writeBlockDirect (disk : Nat → β) (data : β) (blockid : Nat) : Option (Nat → β) :=
  if sector blockid < blockEnd / sectorSize then
    some (Function.update disk (sector blockid) data)
  else none

/-- The slots after `cache_init`; a free slot has the block id `-1`. -/
def cacheInit (c : Cache β) : Cache β :=
  { c with slots := fun i =>
      { c.slots i with blockid := 2 ^ 32 - 1, dirty := false, age := -1 } }

/-- The first loop of `cache_find`. -/
def lookupFrom (c : Cache β) (blockid : Nat) : Nat → Nat → Option Nat
  | 0, _ => none
  | left + 1, i =>
      if (c.slots i).blockid = blockid then some i else lookupFrom c blockid left (i + 1)

/-- The second loop of `cache_find`. -/
def selectFrom (c : Cache β) : Nat → Nat → Nat → Nat
  | 0, _, selected => selected
  | left + 1, i, selected =>
      selectFrom c left (i + 1)
        (if (c.slots i).age < (c.slots selected).age then i else selected)

def Cache.setSlot (c : Cache β) (i : Nat) (slot : Slot β) : Cache β :=
  { c with slots := Function.update c.slots i slot }

/-- A write through the `data` pointer of a block in slot `cacheid`. -/
def Cache.setData (c : Cache β) (cacheid : Nat) (data : β) : Cache β :=
  c.setSlot cacheid { c.slots cacheid with data := data }

/-- `cache_find`. -/
def cacheFind (c : Cache β) (blockid : Nat) : Option (Nat × Cache β) :=
  match lookupFrom c blockid cacheSize 0 with
  | some i => some (i, { c.setSlot i { c.slots i with age := c.age } with age := c.age + 1 })
  | none =>
      let selected := selectFrom c cacheSize 0 0
      let old := c.slots selected
      let flushed :=
        if old.dirty then writeBlockDirect c.disk old.data old.blockid else some c.disk
      flushed.bind fun disk =>
        (readBlockDirect disk blockid).map fun data =>
          (selected,
            { c.setSlot selected ⟨data, blockid, false, c.age⟩ with
              disk := disk
              age := c.age + 1 })

/-- `Block::update` for a block in slot `cacheid`. -/
def update (c : Cache β) (cacheid : Nat) : Option (Cache β) :=
  let slot := c.slots cacheid
  if c.policyWritethrough then
    (writeBlockDirect c.disk slot.data slot.blockid).map fun disk => { c with disk := disk }
  else some (c.setSlot cacheid { slot with dirty := true })

/-- The loop of `cache_writeback`. -/
def writebackFrom (c : Cache β) : Nat → Nat → Option (Cache β)
  | 0, _ => some c
  | left + 1, i =>
      let slot := c.slots i
      if slot.dirty then
        (writeBlockDirect c.disk slot.data slot.blockid).bind fun disk =>
          writebackFrom { c.setSlot i { slot with dirty := false } with disk := disk } left (i + 1)
      else writebackFrom c left (i + 1)

/-- `cache_writeback`. -/
def cacheWriteback (c : Cache β) : Option (Cache β) := writebackFrom c cacheSize 0

/-- `cache_scan_timer`, with the values of its two readings of the clock. -/
def cacheScanTimer (c : Cache β) (now later : Int) : Option (Cache β) :=
  if c.policyWritethrough then
    some c
  else if c.lastTime + c.policyWritebackInterval < now then
    cacheWriteback { c with lastTime := later }
  else some c

/-- `cache_set_policy`. -/
def cacheSetPolicy (c : Cache β) (policySeconds : Int) : Option (Cache β) :=
  if policySeconds = -1 then
    cacheWriteback { c with policyWritethrough := true, policyWritebackInterval := 0 }
  else if policySeconds ≥ 0 then
    some { c with policyWritethrough := false, policyWritebackInterval := policySeconds }
  else some c

end LabKernel.BlockCache
