import LabKernel.FsCode

/-!
What the functions of the file system are composed of: the functions on
blocks, looks at the variables outside the cache, and changes of these.

Apart from the calls that open, move or close a handle, and the two ends of a
transfer through one, no function looks at the table of open files.
-/

namespace LabKernel.ComposedPrograms

open LabKernel.BlockCache
open LabKernel.BlockObject
open LabKernel.ByteMemory
open LabKernel.FsCode
open LabKernel.FsLayout
open LabKernel.ProgramLogic

/-- Programs that look at everything but the table of open files, and change
the variables outside the cache in the ways of `G` only. -/
inductive Composed (G : (Globals → Globals) → Prop) : {α : Type} → Fs α → Prop
  | pure {α : Type} (a : α) : Composed G (pure a : Fs α)
  | fail {α : Type} (e : Failure) : Composed G (fail e : Fs α)
  | bind {α γ : Type} {p : Fs α} {k : α → Fs γ} :
      Composed G p → (∀ a, Composed G (k a)) → Composed G (p >>= k)
  | openBlock (x : Nat) : Composed G (openBlock x : Fs Block)
  | load (b : Block) : Composed G (b.load : Fs Bytes)
  | store (b : Block) (d : Bytes) : Composed G (b.store d : Fs Unit)
  | update (b : Block) : Composed G (b.update : Fs Unit)
  | observe {α : Type} {k : Globals → Fs α} : (∀ g files, k { g with files := files } = k g) →
      (∀ g, Composed G (k g)) → Composed G (getGlobals >>= k)
  | modify {g : Globals → Globals} : G g → Composed G (modifyGlobals g : Fs Unit)

variable {G : (Globals → Globals) → Prop}

/-- Numbers may be taken and given back. -/
class Counting (G : (Globals → Globals) → Prop) : Prop where
  counted : ∀ account : SuperBlock → SuperBlock, (∀ sb, (account sb).magic0 = sb.magic0 ∧
    (account sb).magic1 = sb.magic1 ∧ (account sb).rootInode = sb.rootInode) →
      G fun g => { g with superblock := account g.superblock }

/-- Lines may be printed. -/
class Printing (G : (Globals → Globals) → Prop) : Prop where
  printed : ∀ text, G fun g => { g with console := g.console ++ [text] }

/-- The current directory may change. -/
class Moving (G : (Globals → Globals) → Prop) : Prop where
  moved : ∀ ino, G fun g => { g with cwdNode := ino }

theorem composed_ite {α : Type} {p q : Fs α} {c : Prop} [Decidable c] (hp : Composed G p)
    (hq : Composed G q) : Composed G (if c then p else q) := by
  split
  next => exact hp
  next => exact hq

theorem composed_getSuperblock : Composed G getSuperblock :=
  .observe (fun _ _ => rfl) fun _ => .pure _

theorem composed_cwdNode : Composed G cwdNode :=
  .observe (fun _ _ => rfl) fun _ => .pure _

theorem composed_doWhen (condition : Bool) {p : Fs Unit} (hp : Composed G p) :
    Composed G (doWhen condition p) :=
  composed_ite hp (.pure ())

theorem composed_assert (condition : Bool) (e : Failure) : Composed G (assert condition e) :=
  composed_ite (.pure ()) (.fail e)

theorem composed_flushSuperblock : Composed G flushSuperblock :=
  .bind (.openBlock 0) fun b => .bind composed_getSuperblock fun _ => .bind (.load b) fun _ =>
    .bind (.store b _) fun _ => .update b

theorem composed_readInode (ino : UInt32) : Composed G (readInode ino) :=
  .bind composed_getSuperblock fun _ => .bind (.openBlock _) fun b => .bind (.load b) fun _ =>
    .pure _

theorem composed_writeInode (ino : UInt32) (n : Inode) : Composed G (writeInode ino n) :=
  .bind composed_getSuperblock fun _ => .bind (.openBlock _) fun b => .bind (.load b) fun _ =>
    .bind (.store b _) fun _ => .update b

theorem composed_dataLoad (data : Data) : Composed G data.load := by
  cases data with
  | buffer bytes => exact .pure bytes
  | block b => exact .load b

theorem composed_receive (data : Data) (src : Bytes) (start length : Nat) :
    Composed G (data.receive src start length) := by
  cases data with
  | buffer bytes => exact .pure _
  | block b => exact .bind (.load b) fun _ => .bind (.store b _) fun _ => .pure _

theorem composed_assignPointer (reference : Option (Block × Nat)) (blockid : UInt32) :
    Composed G (assignPointer reference blockid) := by
  cases reference with
  | none => exact .pure ()
  | some entry => exact .bind (.load _) fun _ => .store _ _

theorem composed_transfer (isWrite : Bool) (block : Block) (data : Data) (offset length : Nat) :
    Composed G (transfer isWrite block data offset length) := by
  refine composed_ite ?_ (.bind (.load block) fun _ => composed_receive data _ _ _)
  exact .bind (composed_dataLoad data) fun _ => .bind (.load block) fun _ =>
    .bind (.store block _) fun _ => .bind (.update block) fun _ => .pure _

theorem composed_scanBlocks (dir : Inode) (path : List UInt8) (left i freeOffset : Nat) :
    Composed G (scanBlocks dir path left i freeOffset) := by
  induction left generalizing i freeOffset with
  | zero => exact .pure _
  | succ left ih =>
      refine composed_ite (.bind (.openBlock _) fun b => .bind (.load b) fun data => ?_) (ih _ _)
      split
      next => exact .pure _
      next => exact ih _ _

theorem composed_lookup (path : List UInt8) (newInodeIdx : UInt32) :
    Composed G (getInodeByFilename path false newInodeIdx) := by
  refine .bind composed_cwdNode fun cwd => .bind (composed_readInode cwd) fun dir => ?_
  refine .bind (composed_scanBlocks dir path _ _ _) fun found => ?_
  split
  next => exact .pure _
  next => exact .pure _

theorem composed_removeEntry (cwd : Inode) (path : List UInt8) (left i : Nat) :
    Composed G (removeEntry cwd path left i) := by
  induction left generalizing i with
  | zero => exact .fail _
  | succ left ih =>
      refine composed_ite (.bind (.openBlock _) fun b => .bind (.load b) fun data => ?_) (ih _)
      split
      next =>
        exact .bind (.store b _) fun _ => .bind (.update b) fun _ =>
          .bind composed_cwdNode fun _ => composed_writeInode _ _
      next => exact ih _

theorem composed_removeInodeByFilename (path : List UInt8) :
    Composed G (removeInodeByFilename path) :=
  .bind composed_cwdNode fun _ => .bind (composed_readInode _) fun _ => composed_removeEntry _ _ _ _

theorem composed_freeEntries {block : Block} {freeEntry : UInt32 → Fs Unit}
    (hfree : ∀ pointer, Composed G (freeEntry pointer)) (left i : Nat) :
    Composed G (freeEntries block freeEntry left i) := by
  induction left generalizing i with
  | zero => exact .pure ()
  | succ left ih =>
      exact .bind (.load block) fun _ => composed_ite (ih _) (.bind (hfree _) fun _ => ih _)

theorem composed_setCwdNode [Moving G] (ino : UInt32) : Composed G (setCwdNode ino) :=
  .modify (Moving.moved ino)

section Counting

variable [Counting G]

theorem composed_count {account : SuperBlock → SuperBlock}
    (haccount : ∀ sb, (account sb).magic0 = sb.magic0 ∧ (account sb).magic1 = sb.magic1 ∧
      (account sb).rootInode = sb.rootInode) : Composed G (modifySuperblock account) :=
  .modify (Counting.counted account haccount)

theorem composed_allocLoop {mapStart : UInt32} {noSpace : Failure}
    {account : UInt32 → SuperBlock → SuperBlock}
    (haccount : ∀ n sb, (account n sb).magic0 = sb.magic0 ∧ (account n sb).magic1 = sb.magic1 ∧
      (account n sb).rootInode = sb.rootInode) (left i : Nat) :
    Composed G (allocLoop mapStart noSpace account left i) := by
  induction left generalizing i with
  | zero => exact .fail noSpace
  | succ left ih =>
      refine .bind (.openBlock _) fun b => .bind (.load b) fun data => ?_
      split
      next =>
        exact .bind (.store b _) fun _ => .bind (.update b) fun _ =>
          .bind (composed_count (haccount _)) fun _ => .bind composed_flushSuperblock fun _ =>
            .pure _
      next => exact ih (i + 1)

theorem composed_blockAlloc : Composed G blockAlloc := by
  refine .bind composed_getSuperblock fun sb => composed_allocLoop ?_ _ _
  exact fun _ _ => ⟨rfl, rfl, rfl⟩

theorem composed_inodeAlloc : Composed G inodeAlloc := by
  refine .bind composed_getSuperblock fun sb => composed_allocLoop ?_ _ _
  exact fun _ _ => ⟨rfl, rfl, rfl⟩

theorem composed_freeNumber {mapStart number : UInt32} {limit : Nat}
    {account : UInt32 → SuperBlock → SuperBlock}
    (haccount : ∀ sb, (account number sb).magic0 = sb.magic0 ∧
      (account number sb).magic1 = sb.magic1 ∧ (account number sb).rootInode = sb.rootInode) :
    Composed G (freeNumber mapStart limit account number) :=
  .bind (composed_assert _ _) fun _ => .bind (.openBlock _) fun _ => .bind (.load _) fun _ =>
    .bind (composed_assert _ _) fun _ => .bind (.store _ _) fun _ => .bind (.update _) fun _ =>
      .bind (composed_count haccount) fun _ => composed_flushSuperblock

theorem composed_inodeFree (ino : UInt32) : Composed G (inodeFree ino) :=
  .bind composed_getSuperblock fun _ => composed_freeNumber fun _ => ⟨rfl, rfl, rfl⟩

theorem composed_blockFree (blockid : UInt32) : Composed G (blockFree blockid) :=
  .bind composed_getSuperblock fun _ => composed_freeNumber fun _ => ⟨rfl, rfl, rfl⟩

theorem composed_openPointer (reference : Option (Block × Nat)) (blockid : UInt32) :
    Composed G (openPointer reference blockid) := by
  refine composed_ite ?_ (.bind (.openBlock _) fun _ => .pure _)
  exact .bind composed_blockAlloc fun new => .bind (composed_assignPointer reference new) fun _ =>
    .bind (.openBlock _) fun b => .bind (.store b _) fun _ => .pure _

theorem composed_inodeModifyDataRecur (isWrite : Bool) (depth : Nat)
    (reference : Option (Block × Nat)) (blockid : UInt32) (data : Data) (offset length : Nat) :
    Composed G (inodeModifyDataRecur isWrite depth reference blockid data offset length) := by
  induction depth generalizing reference blockid data offset with
  | zero =>
      exact .bind (composed_openPointer _ _) fun _ => .bind (composed_transfer _ _ _ _ _) fun _ =>
        .pure _
  | succ depth ih =>
      refine .bind (composed_openPointer _ _) fun _ => .bind (composed_assert _ _) fun _ => ?_
      refine .bind (.load _) fun _ => .bind (ih _ _ _ _) fun _ => ?_
      exact .bind (composed_doWhen _ (.update _)) fun _ => .pure _

theorem composed_inodeModifyData (isWrite : Bool) (n : Inode) (buffer : Bytes)
    (offset length : UInt32) :
    Composed G (inodeModifyData isWrite n buffer offset length) := by
  have hrecur : ∀ depth pointer o (k : UInt32 × Data × Bool → Inode × Bytes × Bool),
      Composed G (do
        let r ← inodeModifyDataRecur isWrite depth none pointer (.buffer buffer) o length.toNat
        return k r) := fun depth pointer o k =>
    .bind (composed_inodeModifyDataRecur isWrite depth _ _ _ _ _) fun _ => .pure _
  unfold inodeModifyData
  refine .bind (composed_assert _ _) fun _ => ?_
  dsimp only
  split
  next => exact hrecur _ _ _ _
  next =>
    split
    next => exact hrecur _ _ _ _
    next =>
      split
      next => exact hrecur _ _ _ _
      next => exact .fail _

theorem composed_entryInode (newInodeIdx : UInt32) : Composed G (entryInode newInodeIdx) :=
  composed_ite (.bind composed_inodeAlloc fun ino => .bind (composed_writeInode ino _) fun _ =>
    .pure ino) (.pure _)

theorem composed_getInodeByFilename (path : List UInt8) (create : Bool) (newInodeIdx : UInt32) :
    Composed G (getInodeByFilename path create newInodeIdx) := by
  refine .bind composed_cwdNode fun cwd => .bind (composed_readInode cwd) fun dir => ?_
  refine .bind (composed_scanBlocks dir path _ _ _) fun found => ?_
  split
  next => exact .pure _
  next =>
    refine composed_ite (.bind (composed_entryInode _) fun ino => ?_) (.pure _)
    exact .bind (composed_inodeModifyData _ _ _ _ _) fun _ => .bind composed_cwdNode fun _ =>
      .bind (composed_writeInode _ _) fun _ => .pure _

theorem composed_freeInodeBlocksRecur (depth : Nat) (blockid : UInt32) :
    Composed G (freeInodeBlocksRecur depth blockid) := by
  induction depth generalizing blockid with
  | zero => exact composed_ite (.pure ()) (composed_blockFree _)
  | succ depth ih =>
      rw [freeInodeBlocksRecur_succ]
      exact .bind (.openBlock _) fun block => composed_freeEntries ih _ _

theorem composed_freePointers (depth : Nat) (pointers : List UInt32) :
    Composed G (freePointers depth pointers) := by
  induction pointers with
  | nil => exact .pure ()
  | cons blockid rest ih =>
      exact composed_ite ih (.bind (composed_freeInodeBlocksRecur depth blockid) fun _ => ih)

theorem composed_freeInodeBlocks (n : Inode) : Composed G (freeInodeBlocks n) :=
  .bind (composed_freePointers 0 _) fun _ => .bind (composed_freePointers 1 _) fun _ =>
    .bind (composed_freePointers 2 _) fun _ => composed_freePointers 3 _

theorem composed_dropLink (ino : UInt32) (n : Inode) : Composed G (dropLink ino n) :=
  composed_ite (.bind (composed_writeInode ino _) fun _ => .pure _)
    (.bind (composed_freeInodeBlocks _) fun _ => .bind (composed_inodeFree ino) fun _ => .pure _)

theorem composed_fileLoop (isWrite : Bool) (left : Nat) (file : File) (buff : Bytes)
    (done length : Nat) (modified : Bool) :
    Composed G (fileLoop isWrite left file buff done length modified) := by
  induction left generalizing file buff done length modified with
  | zero => exact .pure _
  | succ left ih =>
      refine composed_ite (.pure _) (.bind ?_ fun _ => ih _ _ _ _ _)
      exact .bind (composed_inodeModifyData _ _ _ _ _) fun _ => .pure _

theorem composed_fileTransfer (isWrite : Bool) (file : File) (buff : Bytes) (length : Nat) :
    Composed G (fileTransfer isWrite file buff length) :=
  composed_ite (.pure _) (.bind (composed_fileLoop _ _ _ _ _ _ _) fun _ =>
    .bind (composed_doWhen _ (composed_writeInode _ _)) fun _ => .pure _)

end Counting

section Printing

variable [Printing G]

theorem composed_print (text : Printed) : Composed G (print text) := .modify (Printing.printed text)

theorem composed_failWith (text : String) : Composed G (failWith text) :=
  .bind (composed_print _) fun _ => .pure _

theorem composed_fsStatfs : Composed G fsStatfs :=
  .bind composed_getSuperblock fun _ => .bind (composed_print _) fun _ => .pure _

theorem composed_listEntry (block : Block) (optL : Bool) (j : Nat) :
    Composed G (listEntry block optL j) := by
  refine .bind (.load block) fun d => composed_ite (.pure ()) (composed_ite ?_ (composed_print _))
  exact .bind (composed_readInode _) fun _ => .bind (.load block) fun _ => composed_print _

theorem composed_listEntries (block : Block) (optL : Bool) (left j : Nat) :
    Composed G (listEntries block optL left j) := by
  induction left generalizing j with
  | zero => exact .pure ()
  | succ left ih => exact .bind (composed_listEntry block optL j) fun _ => ih _

theorem composed_listBlocks (n : Inode) (optL : Bool) (left i : Nat) :
    Composed G (listBlocks n optL left i) := by
  induction left generalizing i with
  | zero => exact .pure ()
  | succ left ih =>
      exact composed_ite (ih _) (.bind (.openBlock _) fun b =>
        .bind (composed_listEntries b optL _ _) fun _ => ih _)

variable [Moving G]

theorem composed_cdLoop (oldCwd : UInt32) (names : List (List UInt8)) :
    Composed G (cdLoop oldCwd names) := by
  have hback : ∀ text, Composed G (do setCwdNode oldCwd; failWith text) := fun text =>
    .bind (composed_setCwdNode _) fun _ => composed_failWith text
  induction names with
  | nil => exact .pure _
  | cons name rest ih =>
      refine .bind (composed_lookup name 0) fun ino => .bind (composed_setCwdNode ino) fun _ => ?_
      refine .bind composed_cwdNode fun ino => composed_ite (hback _) ?_
      exact .bind (composed_readInode ino) fun n => composed_ite (hback _) ih

theorem composed_fsCd (path : List UInt8) : Composed G (fsCd path) :=
  .bind composed_cwdNode fun _ => composed_cdLoop _ _

theorem composed_fsLs (path : List UInt8) (option : UInt32) : Composed G (fsLs path option) := by
  have hback : ∀ (oldCwd : UInt32) (r : Int), Composed G (do setCwdNode oldCwd; return r) :=
    fun oldCwd r => .bind (composed_setCwdNode oldCwd) fun _ => .pure r
  refine .bind composed_cwdNode fun oldCwd => .bind (composed_fsCd path) fun _ => ?_
  refine composed_ite (hback _ _) (.bind composed_cwdNode fun _ => ?_)
  refine .bind (composed_readInode _) fun n => composed_ite ?_ ?_
  · exact .bind (composed_print _) fun _ => hback _ _
  · exact .bind (composed_doWhen _ (composed_print _)) fun _ =>
      .bind (composed_listBlocks n _ _ _) fun _ => .bind (composed_print _) fun _ => hback _ _

end Printing

section Calls

variable [Counting G] [Printing G]

theorem composed_fsMkdir (path : List UInt8) : Composed G (fsMkdir path) := by
  refine .bind (composed_getInodeByFilename path true 0) fun ino => ?_
  refine composed_ite (composed_failWith _) (.bind (composed_readInode ino) fun n => ?_)
  refine composed_ite (composed_failWith _) (.bind composed_cwdNode fun _ => ?_)
  exact .bind (composed_inodeModifyData _ _ _ _ _) fun _ => .bind (composed_writeInode _ _) fun _ =>
    .pure _

theorem composed_fsTouch (path : List UInt8) : Composed G (fsTouch path) := by
  refine .bind (composed_getInodeByFilename path true 0) fun ino => ?_
  refine composed_ite (composed_failWith _) (.bind (composed_readInode ino) fun n => ?_)
  exact composed_ite (composed_failWith _) (.bind (composed_writeInode _ _) fun _ => .pure _)

theorem composed_fsRm (path : List UInt8) : Composed G (fsRm path) := by
  refine .bind (composed_lookup path 0) fun ino => composed_ite (composed_failWith _) ?_
  refine .bind (composed_readInode ino) fun n => composed_ite (composed_failWith _) ?_
  exact .bind (composed_removeInodeByFilename path) fun _ => composed_dropLink ino n

theorem composed_fsRmdir (path : List UInt8) : Composed G (fsRmdir path) := by
  refine .bind (composed_lookup path 0) fun ino => composed_ite (composed_failWith _) ?_
  refine .bind (composed_readInode ino) fun n => composed_ite (composed_failWith _) ?_
  refine composed_ite (composed_failWith _) ?_
  exact .bind (composed_removeInodeByFilename path) fun _ => composed_dropLink ino n

theorem composed_fsLn (srcPath dstPath : List UInt8) : Composed G (fsLn srcPath dstPath) := by
  refine .bind (composed_lookup srcPath 0) fun src => composed_ite (composed_failWith _) ?_
  refine .bind (composed_getInodeByFilename dstPath true src) fun dst => ?_
  refine composed_ite (composed_failWith _) (.bind (composed_readInode src) fun n => ?_)
  exact .bind (composed_writeInode _ _) fun _ => .pure _

end Calls

/-- A change that neither depends on the table of open files nor concerns it. -/
def Apart (f : Globals → Globals) : Prop :=
  ∀ g files, f { g with files := files } = { f g with files := files }

instance : Counting Apart where
  counted _ _ _ _ := rfl

instance : Printing Apart where
  printed _ _ _ := rfl

instance : Moving Apart where
  moved _ _ _ := rfl

theorem composed_catLoop (left : Nat) (n : Inode) (offset : Nat) :
    Composed Apart (catLoop left n offset) := by
  induction left generalizing n offset with
  | zero => exact .pure ()
  | succ left ih =>
      refine composed_ite ?_ (.pure ())
      refine .observe (fun _ _ => rfl) fun g => .bind (composed_inodeModifyData _ _ _ _ _) fun _ => ?_
      exact .bind (.modify fun _ _ => rfl) fun _ => .bind (composed_print _) fun _ => ih _ _

theorem composed_fsCat (path : List UInt8) : Composed Apart (fsCat path) := by
  refine .bind (composed_lookup path 0) fun ino => composed_ite (composed_failWith _) ?_
  refine .bind (composed_readInode ino) fun n => composed_ite (composed_failWith _) ?_
  exact .bind (composed_catLoop _ n 0) fun _ => .bind (composed_print _) fun _ => .pure _

theorem composed_clearBlocks (start : UInt32) (left i : Nat) :
    Composed Apart (clearBlocks start left i) := by
  induction left generalizing i with
  | zero => exact .pure ()
  | succ left ih =>
      exact .bind (.openBlock _) fun b => .bind (.store b _) fun _ => .bind (.update b) fun _ => ih _

theorem composed_fsMkfs : Composed Apart fsMkfs := by
  have hmaps : Composed Apart clearMaps :=
    .bind composed_getSuperblock fun _ => .bind (composed_clearBlocks _ _ _) fun _ =>
      .bind (.openBlock _) fun b => .bind (.store b _) fun _ => .bind (.update b) fun _ =>
        composed_clearBlocks _ _ _
  have hroot : Composed Apart makeRoot :=
    .bind composed_inodeAlloc fun root => .bind (.modify fun _ _ => rfl) fun _ =>
      .bind (composed_setCwdNode root) fun _ => .bind composed_flushSuperblock fun _ =>
        .bind (composed_inodeModifyData _ _ _ _ _) fun _ =>
          .bind (composed_writeInode root _) fun _ => .pure _
  exact .bind (.modify fun _ _ => rfl) fun _ => .bind hmaps fun _ => hroot

end LabKernel.ComposedPrograms
