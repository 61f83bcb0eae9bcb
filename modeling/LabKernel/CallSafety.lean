import LabKernel.HandleSafety
import LabKernel.FsRuns

/-!
The calls of the file system that hold few blocks at a time use no recycled
slot, whatever the state.  The remaining ones, which list a directory or free
an index tree, are in `HandleRecycling`.
-/

namespace LabKernel.CallSafety

open LabKernel.BlockCache
open LabKernel.BlockObject
open LabKernel.ByteMemory
open LabKernel.FsCode
open LabKernel.FsLayout
open LabKernel.FsPrimitives
open LabKernel.FsRuns
open LabKernel.HandleSafety
open LabKernel.ProgramLogic

variable {m m' : Machine Bytes Globals} {T T' : Finset Nat} {P : Machine Bytes Globals → Prop}

section Lasting

variable [Lasting P]

theorem keeps_scanBlocks (dir : Inode) (path : List UInt8) (left i freeOffset : Nat) :
    Keeps P (scanBlocks dir path left i freeOffset) := by
  induction left generalizing i freeOffset with
  | zero => exact keeps_pure _
  | succ left ih =>
      unfold scanBlocks
      split
      next =>
        refine keeps_open_load _ fun b d m h _ => ?_
        split
        next => exact keeps_pure _ m h
        next => exact ih _ _ m h
      next => exact ih _ _

/-- A look-up that creates nothing. -/
theorem keeps_lookup (path : List UInt8) (newInodeIdx : UInt32) :
    Keeps P (getInodeByFilename path false newInodeIdx) := by
  unfold getInodeByFilename
  refine keeps_bind keeps_cwdNode fun _ => keeps_bind (keeps_readInode _) fun cwd =>
    keeps_bind (keeps_scanBlocks _ _ _ _ _) fun found => ?_
  split
  next => exact keeps_pure _
  next =>
    rw [if_neg (by decide)]
    exact keeps_pure _

theorem keeps_cdLoop (oldCwd : UInt32) (names : List (List UInt8)) :
    Keeps P (cdLoop oldCwd names) := by
  induction names with
  | nil => exact keeps_pure _
  | cons name rest ih =>
      unfold cdLoop
      refine keeps_bind (keeps_lookup _ _) fun _ => keeps_bind (keeps_setCwdNode _) fun _ =>
        keeps_bind keeps_cwdNode fun _ => keeps_ite ?_ ?_
      · exact keeps_bind (keeps_setCwdNode _) fun _ => keeps_failWith _
      · refine keeps_bind (keeps_readInode _) fun inode => keeps_ite ?_ ih
        exact keeps_bind (keeps_setCwdNode _) fun _ => keeps_failWith _

theorem keeps_fsCd (path : List UInt8) : Keeps P (fsCd path) :=
  keeps_bind keeps_cwdNode fun _ => keeps_cdLoop _ _

theorem keeps_catLoop (hread : ∀ n buffer offset length,
    Keeps P (inodeModifyData false n buffer offset length)) (left : Nat) (inode : Inode)
    (offset : Nat) : Keeps P (catLoop left inode offset) := by
  induction left generalizing inode offset with
  | zero => exact keeps_pure _
  | succ left ih =>
      refine keeps_ite ?_ (keeps_pure _)
      exact keeps_bind keeps_getGlobals fun _ => keeps_bind (hread _ _ _ _) fun _ =>
        keeps_bind (keeps_modifyGlobals _ fun _ => rfl) fun _ => keeps_bind (keeps_print _)
          fun _ => ih _ _

theorem keeps_fsCat (hread : ∀ n buffer offset length,
    Keeps P (inodeModifyData false n buffer offset length)) (path : List UInt8) :
    Keeps P (fsCat path) := by
  refine keeps_bind (keeps_lookup _ _) fun _ => keeps_ite (keeps_failWith _) ?_
  refine keeps_bind (keeps_readInode _) fun _ => keeps_ite (keeps_failWith _) ?_
  exact keeps_bind (keeps_catLoop hread _ _ _) fun _ => keeps_bind (keeps_print _) fun _ =>
    keeps_pure _

omit [Lasting P] in
theorem keeps_getFile (fd : Nat) : Keeps P (getFile fd) :=
  keeps_bind keeps_getGlobals fun _ => keeps_pure _

theorem keeps_setFile (fd : Nat) (file : Option File) : Keeps P (setFile fd file) :=
  keeps_modifyGlobals _ fun _ => rfl

theorem keeps_initFile (file : File) : Keeps P (initFile file) := by
  refine keeps_bind keeps_getGlobals fun g => ?_
  dsimp only
  split
  next => exact keeps_pure _
  next => exact keeps_bind (keeps_modifyGlobals _ fun _ => rfl) fun _ => keeps_pure _

omit [Lasting P] in
theorem keeps_fileLoop {isWrite : Bool} (hmodify : ∀ n buffer offset length,
    Keeps P (inodeModifyData isWrite n buffer offset length)) (left : Nat) (file : File)
    (buff : Bytes) (done length : Nat) (modified : Bool) :
    Keeps P (fileLoop isWrite left file buff done length modified) := by
  induction left generalizing file buff done length modified with
  | zero => exact keeps_pure _
  | succ left ih =>
      refine keeps_ite (keeps_pure _) (keeps_bind ?_ fun _ => ih _ _ _ _ _)
      exact keeps_bind (hmodify _ _ _ _) fun _ => keeps_pure _

theorem keeps_fsLseek (fd : Nat) (offset : UInt32) (whence : Int) :
    Keeps P (fsLseek fd offset whence) := by
  refine keeps_bind (keeps_getFile _) fun file => ?_
  split
  next =>
    split
    next => exact keeps_bind (keeps_setFile _ _) fun _ => keeps_pure _
    next => exact keeps_pure _
  next => exact keeps_pure _

end Lasting

section LastingWrite

variable [LastingWrite P]

theorem keeps_entryInode (newInodeIdx : UInt32) : Keeps P (entryInode newInodeIdx) :=
  keeps_ite (keeps_bind keeps_inodeAlloc fun _ => keeps_bind (keeps_writeInode _ _) fun _ =>
    keeps_pure _) (keeps_pure _)

theorem keeps_insertEntry (cwd : Inode) (path : List UInt8) (freeOffset : Nat) (ino : UInt32) :
    Keeps P (insertEntry cwd path freeOffset ino) :=
  keeps_bind (LastingWrite.write _ _ _ _) fun _ => keeps_bind keeps_cwdNode fun _ =>
    keeps_bind (keeps_writeInode _ _) fun _ => keeps_pure _

theorem keeps_getInodeByFilename (path : List UInt8) (create : Bool) (newInodeIdx : UInt32) :
    Keeps P (getInodeByFilename path create newInodeIdx) := by
  unfold getInodeByFilename
  refine keeps_bind keeps_cwdNode fun _ => keeps_bind (keeps_readInode _) fun cwd =>
    keeps_bind (keeps_scanBlocks _ _ _ _ _) fun found => ?_
  split
  next => exact keeps_pure _
  next =>
    exact keeps_ite (keeps_bind (keeps_entryInode _) fun _ => keeps_insertEntry _ _ _ _)
      (keeps_pure _)

theorem keeps_removeEntry (cwd : Inode) (path : List UInt8) (left i : Nat) :
    Keeps P (removeEntry cwd path left i) := by
  induction left generalizing i with
  | zero => exact keeps_fail _
  | succ left ih =>
      unfold removeEntry
      split
      next =>
        refine keeps_open_load _ fun b d m h hfresh => ?_
        split
        next =>
          exact store_update_tracks h hfresh fun m₁ h₁ _ _ =>
            keeps_bind keeps_cwdNode (fun _ => keeps_writeInode _ _) m₁ h₁
        next => exact ih _ m h
      next => exact ih _

theorem keeps_removeInodeByFilename (path : List UInt8) : Keeps P (removeInodeByFilename path) :=
  keeps_bind keeps_cwdNode fun _ => keeps_bind (keeps_readInode _) fun _ =>
    keeps_removeEntry _ _ _ _

theorem keeps_fsMkdir (path : List UInt8) : Keeps P (fsMkdir path) := by
  refine keeps_bind (keeps_getInodeByFilename _ _ _) fun _ => keeps_ite (keeps_failWith _) ?_
  refine keeps_bind (keeps_readInode _) fun _ => keeps_ite (keeps_failWith _) ?_
  exact keeps_bind keeps_cwdNode fun _ => keeps_bind (LastingWrite.write _ _ _ _) fun _ =>
    keeps_bind (keeps_writeInode _ _) fun _ => keeps_pure _

theorem keeps_fsTouch (path : List UInt8) : Keeps P (fsTouch path) := by
  refine keeps_bind (keeps_getInodeByFilename _ _ _) fun _ => keeps_ite (keeps_failWith _) ?_
  refine keeps_bind (keeps_readInode _) fun _ => keeps_ite (keeps_failWith _) ?_
  exact keeps_bind (keeps_writeInode _ _) fun _ => keeps_pure _

theorem keeps_fsLn (srcPath dstPath : List UInt8) : Keeps P (fsLn srcPath dstPath) := by
  refine keeps_bind (keeps_getInodeByFilename _ _ _) fun _ => keeps_ite (keeps_failWith _) ?_
  refine keeps_bind (keeps_getInodeByFilename _ _ _) fun _ => keeps_ite (keeps_failWith _) ?_
  exact keeps_bind (keeps_readInode _) fun _ => keeps_bind (keeps_writeInode _ _) fun _ =>
    keeps_pure _

theorem keeps_fileTransfer {isWrite : Bool} (hmodify : ∀ n buffer offset length,
    Keeps P (inodeModifyData isWrite n buffer offset length)) (file : File) (buff : Bytes)
    (length : Nat) : Keeps P (fileTransfer isWrite file buff length) :=
  keeps_ite (keeps_pure _) (keeps_bind (keeps_fileLoop hmodify _ _ _ _ _ _) fun _ =>
    keeps_bind (keeps_doWhen _ (keeps_writeInode _ _)) fun _ => keeps_pure _)

theorem keeps_fsFopen (path : List UInt8) (mode : UInt32) : Keeps P (fsFopen path mode) := by
  refine keeps_bind (keeps_getInodeByFilename _ _ _) fun _ => keeps_bind (keeps_readInode _)
    fun _ => keeps_ite (keeps_pure _) (keeps_ite ?_ (keeps_initFile _))
  exact keeps_bind (keeps_writeInode _ _) fun _ => keeps_initFile _

theorem keeps_fsFread (hread : ∀ n buffer offset length,
    Keeps P (inodeModifyData false n buffer offset length)) (fd : Nat) (buff : Bytes)
    (length : Nat) : Keeps P (fsFread fd buff length) := by
  refine keeps_bind (keeps_getFile _) fun file => ?_
  split
  next => exact keeps_bind (keeps_fileTransfer hread _ _ _) fun _ =>
    keeps_bind (keeps_setFile _ _) fun _ => keeps_pure _
  next => exact keeps_pure _

theorem keeps_fsFwrite (fd : Nat) (buff : Bytes) (length : Nat) :
    Keeps P (fsFwrite fd buff length) := by
  refine keeps_bind (keeps_getFile _) fun file => ?_
  split
  next => exact keeps_bind (keeps_fileTransfer LastingWrite.write _ _ _) fun _ =>
    keeps_bind (keeps_setFile _ _) fun _ => keeps_pure _
  next => exact keeps_pure _

theorem keeps_modifySuperblock (f : SuperBlock → SuperBlock)
    (hf : ∀ sb, Layout sb → Layout (f sb)) : Keeps P (modifySuperblock f) := fun _ h =>
  (modifyGlobals_tracks (T := ∅) h (hf _ (layout_of_lasting h))).mono (fun _ _ he => he)
    fun _ _ hq => hq.1

theorem keeps_open_store_update {k : Fs Unit} (x : Nat) (d : Bytes) (hk : Keeps P k) :
    Keeps P (do let b ← openBlock x; b.store d; b.update; k) := by
  intro m h
  refine (openBlock_tracks h (T := {x}) (by simp [cacheSize])
    (Finset.mem_singleton_self x)).bind ?_
  rintro b m₁ ⟨h₁, -, hfresh, -, -⟩
  exact store_update_tracks h₁ hfresh fun m₂ h₂ _ _ => hk m₂ h₂

theorem keeps_clearBlocks (start : UInt32) (left i : Nat) :
    Keeps P (clearBlocks start left i) := by
  induction left generalizing i with
  | zero => exact keeps_pure _
  | succ left ih => exact keeps_open_store_update _ _ (ih _)

theorem layout_mkfsSuperblock (sb : SuperBlock) : Layout (mkfsSuperblock sb) :=
  ⟨rfl, rfl, rfl, rfl, rfl, rfl⟩

theorem keeps_flushSuperblock : Keeps P flushSuperblock := fun _ h =>
  (flushSuperblock_tracks h (T := {0}) (by decide) (by decide)).mono (fun _ _ he => he)
    fun _ _ hq => hq.1

theorem keeps_clearMaps : Keeps P clearMaps := by
  unfold clearMaps
  refine keeps_bind keeps_getSuperblock fun sb => keeps_bind (keeps_clearBlocks _ _ _) fun _ => ?_
  exact keeps_open_store_update _ _ (keeps_clearBlocks _ _ _)

theorem keeps_makeRoot : Keeps P makeRoot := by
  unfold makeRoot
  refine keeps_bind keeps_inodeAlloc fun root => ?_
  refine keeps_bind (keeps_modifySuperblock _ fun sb hsb =>
    ⟨hsb.1, hsb.2, hsb.3, hsb.4, hsb.5, hsb.6⟩) fun _ => ?_
  refine keeps_bind (keeps_setCwdNode _) fun _ => keeps_bind keeps_flushSuperblock fun _ => ?_
  refine keeps_bind (LastingWrite.write _ _ _ _) fun _ => ?_
  exact keeps_bind (keeps_writeInode _ _) fun _ => keeps_pure _

theorem fsMkfs_keeps (hstart : ∀ g : Globals, Layout g.superblock → P { m with globals := g }) :
    Runs fsMkfs m Halted fun _ m' => P m' := by
  unfold fsMkfs
  refine runs_bind (runs_of_ok rfl ?_)
  exact keeps_bind keeps_clearMaps (fun _ => keeps_makeRoot) _ (hstart _ (layout_mkfsSuperblock _))

theorem keeps_fsMkfs : Keeps P fsMkfs := fun _ h => fsMkfs_keeps fun _ => Lasting.globals h

end LastingWrite

theorem mounted_of_formatted (h : Formatted m) : Mounted m := by
  obtain ⟨c, g, hage, hrun⟩ := h
  have hboot := (sound_boot g hage).toTracked
  exact (fsMkfs_keeps fun g hlayout => ⟨⟨hboot.aged, hboot.sector_lt, hboot.recycled⟩, hlayout⟩).ok
    hrun

end LabKernel.CallSafety
