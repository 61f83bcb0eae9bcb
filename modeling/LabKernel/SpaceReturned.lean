import LabKernel.CallPairs

/-!
What a file that was made, written and removed leaves in the maps and in the
counters of the super block.

`free_inode_blocks` gives back the blocks with the data and the inode, but no
index block.
-/

namespace LabKernel.SpaceReturned

open LabKernel.BlockCache
open LabKernel.BlockFreeing
open LabKernel.BlockObject
open LabKernel.BlockOwnership
open LabKernel.ByteMemory
open LabKernel.CallPairs
open LabKernel.Directories
open LabKernel.DirectoryCalls
open LabKernel.FileContents
open LabKernel.FileWrites
open LabKernel.FsCode
open LabKernel.FsLayout
open LabKernel.FsRuns
open LabKernel.FsTables
open LabKernel.FsView
open LabKernel.HandleRecycling
open LabKernel.IndexWrites
open LabKernel.ProgramLogic
open LabKernel.TidyCalls
open LabKernel.TidyDisk
open LabKernel.TidyRuns
open LabKernel.TransitionSystem

variable {m m' m₁ : Machine Bytes Globals} {s s' s₀ s₁ s₂ : FsState} {path : List UInt8}
  {k q fd length : Nat} {ino mode : UInt32} {file file' : File} {buff : Bytes}

/-- A write of the first `length` bytes of a buffer. -/
structure Write where
  offset : UInt32
  buff : Bytes
  length : Nat

/-- The blocks of the current directory that were free before. -/
def gained (m m' : Machine Bytes Globals) : Finset Nat :=
  let n := inodeAt m' m'.globals.cwdNode.toNat
  (Finset.range maxBlockNum).filter fun x =>
    blockBit m x = false ∧ ∃ i, n.dataDirect i ≠ 0 ∧ x = (n.dataDirect i).toNat

/-- The map of `s'` has the blocks that `s` had, and beyond them blocks of the
current directory and the blocks of inode `k`. -/
structure Mapped (s : FsState) (k : Nat) (s' : FsState) : Prop where
  used : ∀ x, s.blockUsed x = true → s'.blockUsed x = true
  reached : ∀ x, s'.blockUsed x = true → s.blockUsed x = true ∨
    (∃ i, direct s'.here i ≠ 0 ∧ x = (direct s'.here i).toNat) ∨
    ∃ a : Place, a.Fits ∧ blockAt s' (s'.inode k) a ≠ 0 ∧ x = (blockAt s' (s'.inode k) a).toNat
  fresh : ∀ a : Place, a.Fits → blockAt s' (s'.inode k) a ≠ 0 →
    s.blockUsed (blockAt s' (s'.inode k) a).toNat = false

/-- The tables `s` with one file more, whose name is in the current directory. -/
structure Added (s : FsState) (path : List UInt8) (ino : UInt32) (s' : FsState) : Prop where
  inOrder : InOrder s'
  cwd : s'.cwd = s.cwd
  dead : s.inodeUsed ino.toNat = false
  inodeUsed : s'.inodeUsed = Function.update s.inodeUsed ino.toNat true
  blockDrift : s'.blockDrift = s.blockDrift
  inodeDrift : s'.inodeDrift = s.inodeDrift
  lookup_eq : lookup s' s'.here path = some ⟨ino, 1, path⟩
  type : (s'.inode ino.toNat).type = 2
  linkCnt : (s'.inode ino.toNat).linkCnt = 1
  mapped : Mapped s ino.toNat s'

/-- The object of the new file. -/
structure Handle (s : FsState) (fd : Nat) (ino mode : UInt32) (file : File) : Prop where
  entry : (s.files[fd]?).join = some file
  inodeIdx : file.inodeIdx = ino
  mode : file.mode = mode
  linkCnt : file.inode.linkCnt = 1

namespace Added

theorem live (h : Added s path ino s') : Live s' ino.toNat :=
  live_of_lookup h.inOrder.tidy h.lookup_eq

theorem ne_cwd (h : Added s path ino s') : ino.toNat ≠ s'.cwd.toNat := by
  intro heq
  have hroot := h.inOrder.tidy.cwd.2
  rw [← heq, h.type] at hroot
  cases hroot

theorem setFiles (h : Added s path ino s') {files : List (Option File)}
    (ho : InOrder { s' with files := files }) : Added s path ino { s' with files := files } :=
  ⟨ho, h.cwd, h.dead, h.inodeUsed, h.blockDrift, h.inodeDrift, h.lookup_eq, h.type, h.linkCnt,
    h.mapped.used, h.mapped.reached, h.mapped.fresh⟩

end Added

theorem join_set {files : List (Option File)} (h : (files[fd]?).join = some file)
    (entry : Option File) : ((files.set fd entry)[fd]?).join = entry := by
  obtain ⟨hlt, -⟩ := List.getElem?_eq_some_iff.mp (Option.join_eq_some_iff.mp h)
  rw [List.getElem?_set_self hlt]
  rfl

theorem Mapped.takes (h : Mapped s k s₁) (htakes : Takes k s₁ s₂) (hhere : s₂.here = s₁.here) :
    Mapped s k s₂ := by
  refine ⟨fun x hx => htakes.used x (h.used x hx), fun x hx => ?_, fun a ha hne => ?_⟩
  · rcases htakes.reached x hx with hx₁ | hnew
    · rcases h.reached x hx₁ with hold | ⟨i, hi, heq⟩ | ⟨a, ha, hblock, heq⟩
      · exact Or.inl hold
      · rw [hhere]
        exact Or.inr (Or.inl ⟨i, hi, heq⟩)
      · have hkept := htakes.kept a ha hblock
        exact Or.inr (Or.inr ⟨a, ha, hkept ▸ hblock, hkept ▸ heq⟩)
    · exact Or.inr (Or.inr hnew)
  · rcases eq_or_ne (blockAt s₁ (s₁.inode k) a) 0 with hzero | hold
    · have hfree := htakes.fresh a ha hzero hne
      by_contra hused
      rw [h.used _ (Bool.of_not_eq_false hused)] at hfree
      cases hfree
    · rw [htakes.kept a ha hold]
      exact h.fresh a ha hold

/-- A write to the new file. -/
theorem Added.written (h : Added s path ino s₁) (hfile : Handle s₁ fd ino mode file)
    (hwritten : Written ino.toNat s₁ file file' length s₂) (howned : Owned s₂)
    (hpointer : ∀ r, pointer file'.inode r = pointer (s₂.inode ino.toNat) r) :
    Added s path ino { s₂ with files := s₂.files.set fd (some file') } ∧
      Handle { s₂ with files := s₂.files.set fd (some file') } fd ino mode file' := by
  have hupToDate := h.inOrder.tidy.files file (mem_of_join hfile.entry)
  have hleaves := hwritten.leaves
  have hne : s₁.cwd.toNat ≠ ino.toNat := h.ne_cwd.symm
  have hhere : s₂.here = s₁.here := by
    rw [FsState.here, hleaves.cwd, hleaves.inode _ hne]
    rfl
  have hcwd : Live s₁ s₁.cwd.toNat := h.inOrder.tidy.cwd.1
  have hinode : (s₂.inode ino.toNat).type = 2 ∧ (s₂.inode ino.toNat).linkCnt = 1 := by
    rcases hwritten.inode with heq | ⟨heq, -⟩
    · rw [heq]
      exact ⟨h.type, h.linkCnt⟩
    · rw [heq, hwritten.type, hwritten.linkCnt]
      exact ⟨hupToDate.object, hfile.linkCnt⟩
  have htakes := hwritten.takes
  have hentry : (s₂.files[fd]?).join = some file := by
    rw [hleaves.files]
    exact hfile.entry
  have hslot : ∀ q, slot s₂ s₂.here q = slot s₁ s₁.here q := fun q => by
    rw [FsState.here, hleaves.cwd]
    exact hleaves.slot_eq hne hcwd q
  have hmapped := h.mapped.takes htakes hhere
  refine ⟨⟨?_, hleaves.cwd.trans h.cwd, h.dead, hleaves.inodeUsed.trans h.inodeUsed,
    htakes.blockDrift.trans h.blockDrift, htakes.inodeDrift.trans h.inodeDrift, ?_, hinode.1,
    hinode.2, ⟨hmapped.used, hmapped.reached, hmapped.fresh⟩⟩, join_set hentry _,
    hwritten.inodeIdx.trans hfile.inodeIdx, hwritten.mode.trans hfile.mode,
    hwritten.linkCnt.trans hfile.linkCnt⟩
  · have hidx := hfile.inodeIdx
    subst hidx
    exact (h.inOrder.written hupToDate hwritten howned hpointer hfile.entry).1
  · exact (lookup_congr hslot).trans h.lookup_eq

/-- The write goes behind the direct part of the file. -/
def Behind (mode : UInt32) (w : Write) : Prop :=
  mode &&& oWronly ≠ 0 ∧ Deep w.offset.toNat w.length

namespace Unnamed

end Unnamed

end LabKernel.SpaceReturned
