import LabKernel.FsCode
import LabKernel.TransitionSystem

/-!
Runs of the file system: a machine whose disk was just formatted, followed by
any sequence of calls of one process.
-/

namespace LabKernel.FsRuns

open LabKernel.BlockCache
open LabKernel.BlockObject
open LabKernel.ByteMemory
open LabKernel.CacheCoherence
open LabKernel.CacheRecency
open LabKernel.FsCode
open LabKernel.ProgramLogic
open LabKernel.TransitionSystem

/-- The calls of the file system. -/
inductive FsOp where
  | mkfs
  | statfs
  | cd (path : List UInt8)
  | ls (path : List UInt8) (option : UInt32)
  | mkdir (path : List UInt8)
  | touch (path : List UInt8)
  | rm (path : List UInt8)
  | rmdir (path : List UInt8)
  | ln (srcPath dstPath : List UInt8)
  | cat (path : List UInt8)
  | fopen (path : List UInt8) (mode : UInt32)
  | fread (fd : Nat) (buff : Bytes) (length : Nat)
  | fwrite (fd : Nat) (buff : Bytes) (length : Nat)
  | lseek (fd : Nat) (offset : UInt32) (whence : Int)
  | fclose (fd : Nat)

/-- The call without its result. -/
def FsOp.program : FsOp → Fs Unit
  | .mkfs => do let _ ← fsMkfs
  | .statfs => do let _ ← fsStatfs
  | .cd path => do let _ ← fsCd path
  | .ls path option => do let _ ← fsLs path option
  | .mkdir path => do let _ ← fsMkdir path
  | .touch path => do let _ ← fsTouch path
  | .rm path => do let _ ← fsRm path
  | .rmdir path => do let _ ← fsRmdir path
  | .ln srcPath dstPath => do let _ ← fsLn srcPath dstPath
  | .cat path => do let _ ← fsCat path
  | .fopen path mode => do let _ ← fsFopen path mode
  | .fread fd buff length => do let _ ← fsFread fd buff length
  | .fwrite fd buff length => do let _ ← fsFwrite fd buff length
  | .lseek fd offset whence => do let _ ← fsLseek fd offset whence
  | .fclose fd => do let _ ← fsFclose fd

/-- The state after the call returned; `none` if an assertion failed. -/
def next (m : Machine Bytes Globals) (op : FsOp) : Option (Machine Bytes Globals) :=
  match op.program.run m with
  | (.ok _, m') => some m'
  | (.error _, _) => none

/-- A machine right after `cache_init`, with nothing open. -/
def boot (c : Cache Bytes) (g : Globals) : Machine Bytes Globals :=
  ⟨cacheInit c, { g with files := [] }, false, false⟩

/-- A machine right after `fs_mkfs`, on whatever disk. -/
def Formatted (m : Machine Bytes Globals) : Prop :=
  ∃ c g, 0 ≤ c.age ∧ fsMkfs.run (boot c g) = (.ok 0, m)

/-- The runs of the file system. -/
def fileSystem : System (Machine Bytes Globals) FsOp := ofFunction Formatted next

theorem aged_cacheInit {c : Cache Bytes} (hc : 0 ≤ c.age) : Aged (cacheInit c) where
  free _ _ _ := rfl
  young _ _ := lt_of_lt_of_le (show (-1 : Int) < 0 by decide) hc
  distinct _ _ _ _ hheld := absurd hheld (show ¬(0 : Int) ≤ -1 by decide)
  unique _ _ _ _ hheld := absurd hheld (show ¬(0 : Int) ≤ -1 by decide)
  first _ _ _ _ hheld := absurd hheld (show ¬(0 : Int) ≤ -1 by decide)
  counter := hc

theorem sound_boot {c : Cache Bytes} (g : Globals) (hc : 0 ≤ c.age) : Sound (boot c g) := by
  refine sound_of_coherent ⟨aged_cacheInit hc, fun _ _ => ?_, rfl⟩ (coherent_cacheInit c) rfl
  exact show sector freeId < blockEnd / sectorSize by decide

theorem program_run_of_next {m m' : Machine Bytes Globals} {op : FsOp}
    (h : next m op = some m') : op.program.run m = (.ok (), m') := by
  unfold next at h
  split at h
  next hrun =>
    rw [hrun, Option.some.inj h]
  next => cases h

/-- A blank disk with nothing cached, in write-through mode. -/
def blankCache : Cache Bytes where
  age := 0
  slots := fun _ => ⟨zeros, 0, false, 0⟩
  policyWritethrough := true
  policyWritebackInterval := 0
  lastTime := 0
  disk := fun _ => zeros

def blankGlobals : Globals where
  superblock := ⟨0, 0, 0, 0, 0, 0, 0, 0, 0, 0, 0, 0, 0, 0⟩
  cwdNode := 0
  catBuffer := zeros
  files := []
  console := []

/-- The value a run returned. -/
def returned {α : Type} : Except Failure α → Option α
  | .ok a => some a
  | .error _ => none

theorem run_eq_of_returned {α : Type} {p : Fs α} {m : Machine Bytes Globals} {a : α}
    (h : returned (p.run m).1 = some a) : p.run m = (.ok a, (p.run m).2) := by
  generalize p.run m = outcome at h ⊢
  obtain ⟨result, m'⟩ := outcome
  cases result with
  | error e => cases h
  | ok b => exact Prod.ext (congrArg Except.ok (Option.some.inj h)) rfl

/-- The machine after `fs_mkfs` on a blank disk. -/
@[irreducible]
def blankFormatted : Machine Bytes Globals := (fsMkfs.run (boot blankCache blankGlobals)).2

theorem markFirst_zeros (n : Nat) : markFirst zeros n = fun i =>
    if i < n / 8 then 255 else if i = n / 8 then UInt8.ofNat (2 ^ (n % 8) - 1) else 0 := by
  have hfill : ∀ k < 8, UInt8.ofNat (2 ^ k - 1) ||| 1 <<< UInt8.ofNat k =
      if k = 7 then 255 else UInt8.ofNat (2 ^ (k + 1) - 1) := by decide
  induction n with
  | zero =>
      funext i
      simp [markFirst, zeros]
  | succ n ih =>
      funext i
      rw [markFirst, ih, setBit]
      rcases lt_trichotomy i (n / 8) with hlt | rfl | hgt
      · rw [if_neg hlt.ne, if_pos hlt, if_pos (by omega)]
      · rw [if_pos rfl, if_neg (lt_irrefl _), if_pos rfl, hfill _ (Nat.mod_lt n (by omega))]
        by_cases hlast : n % 8 = 7
        · rw [if_pos hlast, if_pos (by omega)]
        · rw [if_neg hlast, if_neg (by omega), if_pos (by omega),
            show (n + 1) % 8 = n % 8 + 1 by omega]
      · rw [if_neg hgt.ne', if_neg (not_lt.mpr hgt.le), if_neg hgt.ne', if_neg (by omega)]
        by_cases hnext : i = (n + 1) / 8
        · rw [if_pos hnext, show (n + 1) % 8 = 0 by omega]
          rfl
        · rw [if_neg hnext]

/-- The blocks up to the data blocks, as bits of the map. -/
def reservedMap : Bytes := fun i => if i < 64 then 255 else if i = 64 then 31 else 0

/-- `clearMaps`, with the contents of the first block of the block map. -/
def clearMapsTo (reserved : Bytes) : Fs Unit := do
  let sb ← getSuperblock
  clearBlocks sb.inodeMapStartBlock (sb.inodeMapSize.toNat / bitsPerBlock) 0
  let block ← openBlock sb.blockMapStartBlock.toNat
  block.store reserved
  block.update
  clearBlocks sb.blockMapStartBlock (sb.blockMapSize.toNat / bitsPerBlock - 1) 1

theorem clearMaps_run {m : Machine Bytes Globals}
    (h : m.globals.superblock.blockStartBlock = 517) :
    clearMaps.run m = (clearMapsTo reservedMap).run m := by
  have hget : getSuperblock.run m = (.ok m.globals.superblock, m) := rfl
  unfold clearMaps clearMapsTo
  rw [run_bind_ok hget, run_bind_ok hget, h, markFirst_zeros]
  rfl

/-- The same machine, without the loop that sets the bits one by one. -/
def quickFormatted : Machine Bytes Globals :=
  ((do modifySuperblock mkfsSuperblock; clearMapsTo reservedMap; makeRoot : Fs Int).run
    (boot blankCache blankGlobals)).2

theorem fsMkfs_blank : fsMkfs.run (boot blankCache blankGlobals) =
    (do modifySuperblock mkfsSuperblock; clearMapsTo reservedMap; makeRoot : Fs Int).run
      (boot blankCache blankGlobals) := by
  have hmodify : (modifySuperblock mkfsSuperblock).run (boot blankCache blankGlobals) =
      (.ok (), { boot blankCache blankGlobals with
        globals := { blankGlobals with superblock := mkfsSuperblock blankGlobals.superblock } }) :=
    rfl
  unfold fsMkfs
  rw [run_bind_ok hmodify, run_bind_ok hmodify, run_bind, run_bind, clearMaps_run rfl]

theorem blankFormatted_eq : blankFormatted = quickFormatted := by
  unfold blankFormatted quickFormatted
  rw [fsMkfs_blank]

theorem formatted_blankFormatted : Formatted blankFormatted := by
  refine ⟨blankCache, blankGlobals, le_refl _, ?_⟩
  rw [blankFormatted_eq, fsMkfs_blank]
  exact run_eq_of_returned (by decide +kernel)

end LabKernel.FsRuns
