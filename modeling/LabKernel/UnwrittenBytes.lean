import LabKernel.StoreRefinement

/-!
The bytes of files that nobody wrote: they are zero, and each call keeps them
zero as long as reads stay in blocks that the file has.
-/

namespace LabKernel.UnwrittenBytes

open LabKernel.BlockCache
open LabKernel.BlockFreeing
open LabKernel.BlockObject
open LabKernel.BlockOwnership
open LabKernel.ByteMemory
open LabKernel.CallPairs
open LabKernel.DirectTransfers
open LabKernel.Directories
open LabKernel.DirectoryCalls
open LabKernel.FileContents
open LabKernel.FsCode
open LabKernel.FsLayout
open LabKernel.FsPairs
open LabKernel.FsPrimitives
open LabKernel.FsTables
open LabKernel.FsView
open LabKernel.NameInsertion
open LabKernel.PairedRuns
open LabKernel.PairedWrites
open LabKernel.PathWalks
open LabKernel.StoreRefinement
open LabKernel.TidyCalls
open LabKernel.TidyDisk

variable {m₁ m₂ : Machine Bytes Globals} {s s' s₀ s₁ : FsState} {W W' wrote : Nat → Set Nat}
  {path srcPath dstPath : List UInt8} {k q fd length : Nat} {e : DirEntry}
  {ino mode : UInt32} {file file' : File} {buff : Bytes}

/-- Every block of a file or a directory is settled, and the bytes of files
outside `W` are zero. -/
structure Zeroed (W : Nat → Set Nat) (s : FsState) : Prop where
  backed : ∀ k, Live s k → HasBlocks s (s.inode k)
  zero : ∀ k, Live s k → (s.inode k).type = 2 → ∀ o < l0Bound, o ∉ W k →
    contentsOf s (s.inode k) o = 0

/-- The bytes written so far, of files that were there before a step, when the
step writes those of `wrote`. -/
def recorded (s : FsState) (wrote W : Nat → Set Nat) : Nat → Set Nat := fun k =>
  {o | Live s k ∧ (o ∈ W k ∨ o ∈ wrote k)}

namespace Zeroed

theorem mono (hz : Zeroed W s) (hsub : ∀ k, Live s k → W k ⊆ W' k) : Zeroed W' s :=
  ⟨hz.backed, fun k hk htype o ho hout => hz.zero k hk htype o ho fun hmem =>
    hout (hsub k hk hmem)⟩

/-- A step without new files. -/
theorem record (hz : Zeroed W s') (hlive : ∀ k, Live s' k → Live s k) :
    Zeroed (recorded s wrote W) s' :=
  hz.mono fun k hk _ hmem => ⟨hlive k hk, Or.inl hmem⟩

theorem setFiles (hz : Zeroed W s) (files : List (Option File)) :
    Zeroed W { s with files := files } :=
  ⟨hz.backed, hz.zero⟩

theorem goto (hz : Zeroed W s) (dir : UInt32) : Zeroed W (goto s dir) :=
  ⟨hz.backed, hz.zero⟩

/-- A change of one inode and its blocks. -/
theorem leaves (hz : Zeroed W s) (hleaves : Leaves k s s')
    (hblocks : Live s k → HasBlocks s' (s'.inode k))
    (hzero : Live s k → (s'.inode k).type = 2 → ∀ o < l0Bound, o ∉ W k →
      contentsOf s' (s'.inode k) o = 0) : Zeroed W s' := by
  refine ⟨fun k' hk' => ?_, fun k' hk' htype o ho hout => ?_⟩
  · have hold := hleaves.of_live hk'
    rcases eq_or_ne k' k with rfl | hne
    · exact hblocks hold
    · exact hleaves.hasBlocks hne hold (hz.backed k' hold)
  · have hold := hleaves.of_live hk'
    rcases eq_or_ne k' k with rfl | hne
    · exact hzero hold htype o ho hout
    · have hsame := same_of_leaves hleaves hne hold
      rw [hsame.inode] at htype
      rw [hsame.contents]
      exact hz.zero k' hold htype o ho hout

theorem added (hz : Zeroed W s) (ht : Tidy s) (hadded : InodeAdded s ino s')
    (hblocks : ¬Live s ino.toNat → HasBlocks s' (s'.inode ino.toNat))
    (hzero : ¬Live s ino.toNat → (s'.inode ino.toNat).type = 2 →
      ∀ o, contentsOf s' (s'.inode ino.toNat) o = 0) :
    Zeroed (recorded s wrote W) s' := by
  refine ⟨hadded.backed hz.backed hblocks, fun k hk htype o ho hout => ?_⟩
  rcases em (Live s k) with hold | hdead
  · obtain ⟨htype, hsame⟩ := hadded.same_of_file ht hold htype
    rw [hsame.contents]
    exact hz.zero k hold htype o ho fun hmem => hout ⟨hold, Or.inl hmem⟩
  · obtain rfl := ((hadded.live k).mp hk).resolve_left hdead
    exact hzero hdead htype o

theorem recount (hz : Zeroed W s) (k : Nat) (count : UInt16) :
    Zeroed W (s.setInode k { s.inode k with linkCnt := count }) := by
  have hself : (s.setInode k { s.inode k with linkCnt := count }).inode k =
      { s.inode k with linkCnt := count } := Function.update_self ..
  refine hz.leaves (leaves_setInode s k _) (fun hk => ?_) fun hk htype o ho hout => ?_
  · rw [hself]
    exact hz.backed k hk
  · rw [hself] at htype ⊢
    exact hz.zero k hk htype o ho hout

theorem discard (hz : Zeroed W s) (k : Nat) : Zeroed W (discarded s k) :=
  ⟨fun k' hk' => hz.backed k' (live_discarded.mp hk').2,
    fun k' hk' => hz.zero k' (live_discarded.mp hk').2⟩

/-- A slot of the current directory is set. -/
theorem slotSet {new : Option DirEntry} (hz : Zeroed W s) (ht : Tidy s)
    (hset : SlotSet s s' q new) : Zeroed W s' := by
  have hhere : s'.inode s.cwd.toNat = s'.here := by rw [FsState.here, hset.leaves.cwd]
  refine hz.leaves hset.leaves (fun _ => hhere.symm ▸ hset.hasBlocks) fun _ htype => ?_
  rw [hhere, hset.type, FsState.here, ht.cwd.2] at htype
  cases htype

end Zeroed

theorem fileMade_zeroed (ho : InOrder s) (hz : Zeroed W s)
    (hcreated : Created s path 0 ino q s₀ s₁) :
    InOrder (fileMade s₁ ino) ∧ Zeroed (recorded s wrote W) (fileMade s₁ ino) := by
  have hnew := newName_of_created ho hcreated
  have hself : (fileMade s₁ ino).inode ino.toNat =
      { s₁.inode ino.toNat with type := 2, linkCnt := 1 } := Function.update_self ..
  have hdirect : ∀ i, direct ((fileMade s₁ ino).inode ino.toNat) i = 0 := fun i => by
    rw [hself, hnew.inode]
    exact direct_empty i
  have hadded := (inodeAdded_of_created ho.tidy hcreated fun hne => absurd rfl hne).leaves ho.tidy
    hnew.dead (leaves_fileMade s₁ ino)
  exact ⟨hnew.inOrder, hz.added ho.tidy hadded (fun _ => hasBlocks_of_zero hdirect)
    fun _ _ o => contentsOf_empty hdirect o⟩

theorem touchDone_zeroed {r : Int} (h : TouchDone s path r s') (ho : InOrder s)
    (hz : Zeroed W s) : InOrder s' ∧ Zeroed (recorded s wrote W) s' := by
  cases h with
  | existed _ => exact ⟨ho, hz.record fun _ => id⟩
  | created hcreated => exact fileMade_zeroed ho hz hcreated

theorem opened_zeroed (ho : InOrder s) (hz : Zeroed W s) (hfile : UpToDate s file) :
    InOrder (opened s file).2 ∧ Zeroed W (opened s file).2 := by
  unfold opened
  cases hlookup : lookupFile file.inodeIdx s.files with
  | some fd => exact ⟨ho, hz⟩
  | none => exact ⟨⟨ho.tidy.openFile hlookup hfile, ho.typed⟩, hz.setFiles _⟩

theorem openDone_zeroed {r : Int} (h : OpenDone s path mode r s') (ho : InOrder s)
    (hz : Zeroed W s) : InOrder s' ∧ Zeroed (recorded s wrote W) s' := by
  cases h with
  | directory _ _ => exact ⟨ho, hz.record fun _ => id⟩
  | existed he htype =>
      exact opened_zeroed ho (hz.record fun _ => id)
        ⟨live_of_lookup ho.tidy he, fun _ => rfl, htype, htype⟩
  | @created ino q s₀ s₁ s₂ hcreated heq =>
      subst heq
      have hself : (fileMade s₁ ino).inode ino.toNat =
          { s₁.inode ino.toNat with type := 2, linkCnt := 1 } := Function.update_self ..
      have htype : ((fileMade s₁ ino).inode ino.toNat).type = 2 := by rw [hself]
      obtain ⟨ho', hz'⟩ := fileMade_zeroed ho hz hcreated
      exact opened_zeroed ho' hz'
        ⟨(newName_of_created ho hcreated).live, fun _ => rfl, htype, htype⟩

theorem madeDir_zeroed {r : Int} (h : MadeDir s path r s') (ho : InOrder s) (hz : Zeroed W s) :
    InOrder s' ∧ Zeroed (recorded s wrote W) s' := by
  have ho' := h.inOrder ho
  cases h with
  | existed _ => exact ⟨ho', hz.record fun _ => id⟩
  | @made ino q s₀ s₁ s' hcreated hmade =>
      have hnew := newName_of_created ho hcreated
      have hadded := (inodeAdded_of_created ho.tidy hcreated fun hne => absurd rfl hne).leaves
        ho.tidy hnew.dead hmade.leaves
      refine ⟨ho', hz.added ho.tidy hadded (fun _ => hmade.hasBlocks) fun _ htype => ?_⟩
      rw [hmade.type] at htype
      cases htype

theorem linkDone_zeroed {r : Int} (h : LinkDone s srcPath dstPath r s') (ho : InOrder s)
    (hok : LinkOk s srcPath dstPath) (hz : Zeroed W s) :
    InOrder s' ∧ Zeroed (recorded s wrote W) s' := by
  have ho' := h.inOrder ho hok
  cases h with
  | missing _ => exact ⟨ho', hz.record fun _ => id⟩
  | existed _ _ => exact ⟨ho', (hz.recount _ _).record fun _ => id⟩
  | @created e ino q s₀ s₁ hsrc hcreated =>
      have hlive := live_of_lookup ho.tidy hsrc
      have hne := (hok e hsrc).resolve_right fun hne => hne (lookup_of_misses hcreated.misses)
      obtain rfl := Created.given hcreated hne
      have hadded := inodeAdded_of_created ho.tidy hcreated fun _ => hlive
      exact ⟨ho', (hz.added ho.tidy hadded (fun hdead => absurd hlive hdead)
        fun hdead => absurd hlive hdead).recount _ _⟩

theorem removed_zeroed {type : UInt8} (h : Removed s path type s') (ho : InOrder s)
    (hok : RemoveOk s path type) (hz : Zeroed W s) :
    InOrder s' ∧ Zeroed (recorded s wrote W) s' := by
  have ho' := h.inOrder ho hok
  cases h with
  | kept => exact ⟨ho', hz.record fun _ => id⟩
  | removed _ _ _ hset _ hdropped =>
      have hz₁ := hz.slotSet ho.tidy hset
      cases hdropped with
      | counted _ => exact ⟨ho', (hz₁.recount _ _).record fun _ hk => hset.leaves.of_live hk⟩
      | last _ =>
          exact ⟨ho', (hz₁.discard _).record fun _ hk =>
            hset.leaves.of_live (live_discarded.mp hk).2⟩

end LabKernel.UnwrittenBytes
