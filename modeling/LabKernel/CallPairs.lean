import LabKernel.PairedWrites
import LabKernel.TidyRuns

/-!
The calls of the file system on two disks that differ in free blocks: their
results, and the tables they leave.
-/

namespace LabKernel.CallPairs

open LabKernel.BlockCache
open LabKernel.BlockFreeing
open LabKernel.BlockObject
open LabKernel.BlockOwnership
open LabKernel.BlockPairs
open LabKernel.ByteMemory
open LabKernel.CalmMachines
open LabKernel.DirectData
open LabKernel.DirectTransfers
open LabKernel.Directories
open LabKernel.DirectoryCalls
open LabKernel.FileContents
open LabKernel.FileWrites
open LabKernel.FsCode
open LabKernel.FsLayout
open LabKernel.FsPairs
open LabKernel.FsRuns
open LabKernel.FsPrimitives
open LabKernel.FsTables
open LabKernel.FsView
open LabKernel.HandleRecycling
open LabKernel.InertReads
open LabKernel.PairedRuns
open LabKernel.PairedWrites
open LabKernel.PathWalks
open LabKernel.ProgramLogic
open LabKernel.SuperBlockCopy
open LabKernel.TidyCalls
open LabKernel.TidyDisk

variable {m₁ m₂ : Machine Bytes Globals} {s s' s₀ s₁ : FsState}
  {path srcPath dstPath : List UInt8} {k q fd length : Nat} {e : DirEntry}
  {ino mode option : UInt32} {file file' : File} {buff : Bytes}

theorem getFile_paired (h : Paired s m₁ m₂) (fd : Nat) :
    Together (getFile fd) m₁ m₂ fun r m₁' m₂' =>
      r = (s.files[fd]?).join ∧ m₁' = m₁ ∧ m₂' = m₂ := by
  refine (together_getGlobals h.alike).bind ?_
  rintro _ m₁ m₂ ⟨rfl, rfl, rfl⟩
  rw [h.realizes.files]
  exact together_pure ⟨rfl, rfl, rfl⟩

theorem changeGlobals_paired {f : Globals → Globals} (h : Paired s m₁ m₂)
    (hf : ∀ g, (f g).superblock = g.superblock) (hblocks : s'.blockUsed = s.blockUsed)
    (hrealizes : Runs (modifyGlobals f) m₁ Any fun _ m' => Realizes m' s') :
    Together (modifyGlobals f) m₁ m₂ fun _ => Paired s' := by
  have halike : Together (modifyGlobals f) m₁ m₂ fun _ => Alike (unused s) (unused s) :=
    (together_modifyGlobals (T := ∅) h.alike f).mono fun _ _ _ hq => hq.2.2
  refine ((halike.and hrealizes).and (modifyGlobals_headed h.realizes h.headed f hf)).mono ?_
  rintro _ m₁' m₂' ⟨hh, h', ha⟩
  exact Paired.of_alike h' hh ha (unused_congr hblocks).symm.subset

theorem setFile_paired (h : Paired s m₁ m₂) (fd : Nat) (entry : Option File) :
    Together (setFile fd entry) m₁ m₂ fun _ m₁' m₂' =>
      Paired { s with files := s.files.set fd entry } m₁' m₂' :=
  changeGlobals_paired h (fun _ => rfl) rfl (setFile_realizes h.realizes fd entry)

theorem failWith_paired (h : Paired s m₁ m₂) (text : String) :
    Together (failWith text) m₁ m₂ fun r m₁' m₂' => r = -1 ∧ Paired s m₁' m₂' := by
  have hprint : Together (print (.text text)) m₁ m₂ fun _ => Paired s :=
    changeGlobals_paired h (fun _ => rfl) rfl (print_realizes h.realizes _)
  exact hprint.bind fun _ m₁ m₂ h' => together_pure ⟨rfl, h'⟩

/-- The handle that `File::pool.init` returns, and the table afterwards. -/
def opened (s : FsState) (file : File) : Int × FsState :=
  match lookupFile file.inodeIdx s.files with
  | some fd => (fd, s)
  | none => (s.files.length, { s with files := s.files ++ [some file] })

theorem initFile_paired (h : Paired s m₁ m₂) (file : File) :
    Together (initFile file) m₁ m₂ fun r m₁' m₂' =>
      r = (opened s file).1 ∧ Paired (opened s file).2 m₁' m₂' := by
  have hfiles := h.realizes.files
  unfold opened
  refine (together_getGlobals h.alike).bind ?_
  rintro _ m₁ m₂ ⟨rfl, rfl, rfl⟩
  dsimp only
  rw [hfiles]
  cases lookupFile file.inodeIdx s.files with
  | some fd => exact together_pure ⟨rfl, h⟩
  | none =>
      dsimp only
      have hrealizes : Runs (modifyGlobals fun g => { g with files := g.files ++ [some file] }) m₁
          Any fun _ m' => Realizes m' { s with files := m₁.globals.files ++ [some file] } :=
        modifyGlobals_realizes h.realizes _ (fun _ => rfl) fun _ => rfl
      rw [hfiles] at hrealizes
      have hadded : Together (modifyGlobals fun g => { g with files := g.files ++ [some file] })
          m₁ m₂ fun _ => Paired { s with files := s.files ++ [some file] } :=
        changeGlobals_paired h (fun _ => rfl) rfl hrealizes
      exact hadded.bind fun _ m₁ m₂ h' => together_pure ⟨rfl, h'⟩

theorem setCwdNode_paired (h : Paired s m₁ m₂) (ino : UInt32) :
    Together (setCwdNode ino) m₁ m₂ fun _ => Paired (goto s ino) :=
  changeGlobals_paired h (fun _ => rfl) rfl (setCwdNode_realizes h.realizes ino)

theorem found_live (ho : InOrder s)
    (h : (s₁ = s ∧ ∃ q e, Finds s s.here path 0 1024 q e ∧ ino = e.inode) ∨
      ∃ q s₀, Created s path 0 ino q s₀ s₁) : Live s₁ ino.toNat ∧ Owned s₁ := by
  rcases h with ⟨rfl, q, e, hfinds, rfl⟩ | ⟨q, s₀, hcreated⟩
  · exact ⟨live_of_finds ho.tidy hfinds, ho.tidy.owned⟩
  · have hnew := newName_of_created ho hcreated
    exact ⟨hnew.live, hnew.tidy.owned⟩

/-- The new inode of a name has become a file. -/
def fileMade (s : FsState) (ino : UInt32) : FsState :=
  s.setInode ino.toNat { s.inode ino.toNat with type := 2, linkCnt := 1 }

/-- The result of `fs_touch` and what it leaves. -/
inductive TouchDone (s : FsState) (path : List UInt8) : Int → FsState → Prop
  | existed {e : DirEntry} : lookup s s.here path = some e → TouchDone s path (-1) s
  | created {ino : UInt32} {q : Nat} {s₀ s₁ : FsState} : Created s path 0 ino q s₀ s₁ →
      TouchDone s path 0 (fileMade s₁ ino)

theorem fsTouch_paired (h : Paired s m₁ m₂) (ho : InOrder s) (hname : NameOk path) :
    Together (fsTouch path) m₁ m₂ fun r m₁' m₂' =>
      ∃ s', Paired s' m₁' m₂' ∧ TouchDone s path r s' := by
  refine (getInode_paired h ho.tidy.standing hname).bind ?_
  rintro ino m₁ m₂ ⟨s₁, h₁, hfound⟩
  have hlt := (found_live ho hfound).1.1
  rw [not_isNegative hlt, if_neg Bool.false_ne_true]
  refine (readInode_paired h₁ hlt).bind ?_
  rintro _ m₁ m₂ ⟨rfl, h₁⟩
  rcases hfound with ⟨rfl, q, e, hfinds, rfl⟩ | ⟨q, s₀, hcreated⟩
  · rw [if_pos (typed_ne_zero ho.typed (live_of_finds ho.tidy hfinds))]
    refine (failWith_paired h₁ _).mono ?_
    rintro _ _ _ ⟨rfl, h₂⟩
    exact ⟨_, h₂, .existed (lookup_of_finds hfinds)⟩
  · have htype : (s₁.inode ino.toNat).type = 0 := by
      rw [(newName_of_created ho hcreated).inode]
      rfl
    rw [if_neg (not_not.mpr htype)]
    refine (writeInode_paired h₁ hlt).bind ?_
    exact fun _ _ _ h₂ => together_pure ⟨_, h₂, .created hcreated⟩

theorem fsMkdir_paired (h : Paired s m₁ m₂) (ho : InOrder s) (hname : NameOk path) :
    Together (fsMkdir path) m₁ m₂ fun r m₁' m₂' =>
      ∃ s', Paired s' m₁' m₂' ∧ MadeDir s path r s' := by
  have hpaired : Together (fsMkdir path) m₁ m₂ fun _ m₁' m₂' => ∃ s', Paired s' m₁' m₂' := by
    refine (getInode_paired h ho.tidy.standing hname).bind ?_
    rintro ino m₁ m₂ ⟨s₁, h₁, hfound⟩
    obtain ⟨hlive, howned⟩ := found_live ho hfound
    rw [not_isNegative hlive.1, if_neg Bool.false_ne_true]
    refine (readInode_paired h₁ hlive.1).bind ?_
    rintro _ m₁ m₂ ⟨rfl, h₁⟩
    split
    next => exact (failWith_paired h₁ _).mono fun _ _ _ h₂ => ⟨_, h₂.2⟩
    next =>
      refine (together_cwdNode h₁.alike).bind ?_
      rintro _ m₁ m₂ ⟨rfl, rfl, rfl⟩
      have hzero : (0 : UInt32).toNat < l0Bound := by decide
      have hpointer : (s₁.inode ino.toNat).dataDirect (directIndex 0 hzero) ≠ 0 →
          IsData ((s₁.inode ino.toNat).dataDirect (directIndex 0 hzero)) ∧
            s₁.blockUsed ((s₁.inode ino.toNat).dataDirect (directIndex 0 hzero)).toNat = true :=
        fun hne => howned.isData _ hlive ⟨.direct (directIndex 0 hzero), []⟩ (fits_root _) hne
      refine (inodeModifyData_write_paired
        (n := { s₁.inode ino.toNat with type := 1, linkCnt := 1 }) h₁ howned.tables hzero
        hpointer).bind ?_
      rintro ⟨n, _, _⟩ m₁ m₂ ⟨s₂, d, p, -, -, -, -, -, -, h₂⟩
      exact (writeInode_paired h₂ hlive.1).bind fun _ _ _ h₃ => together_pure ⟨_, h₃⟩
  refine (hpaired.and (fsMkdir_made h.realizes ho hname)).mono ?_
  rintro r m₁' m₂' ⟨⟨s', h', hmade⟩, s'', h''⟩
  exact ⟨s', h''.of_realizes h', hmade⟩

/-- The result of `fs_fopen` and what it leaves. -/
inductive OpenDone (s : FsState) (path : List UInt8) (mode : UInt32) : Int → FsState → Prop
  | directory {e : DirEntry} : lookup s s.here path = some e → (s.inode e.inode.toNat).type = 1 →
      OpenDone s path mode (-1) s
  | existed {e : DirEntry} : lookup s s.here path = some e → (s.inode e.inode.toNat).type = 2 →
      OpenDone s path mode (opened s ⟨e.inode, mode, 0, s.inode e.inode.toNat⟩).1
        (opened s ⟨e.inode, mode, 0, s.inode e.inode.toNat⟩).2
  | created {ino : UInt32} {q : Nat} {s₀ s₁ s₂ : FsState} : Created s path 0 ino q s₀ s₁ →
      s₂ = fileMade s₁ ino → OpenDone s path mode
        (opened s₂ ⟨ino, mode, 0, s₂.inode ino.toNat⟩).1
        (opened s₂ ⟨ino, mode, 0, s₂.inode ino.toNat⟩).2

theorem fsFopen_paired (h : Paired s m₁ m₂) (ho : InOrder s) (hname : NameOk path) :
    Together (fsFopen path mode) m₁ m₂ fun r m₁' m₂' =>
      ∃ s', Paired s' m₁' m₂' ∧ OpenDone s path mode r s' := by
  refine (getInode_paired h ho.tidy.standing hname).bind ?_
  rintro ino m₁ m₂ ⟨s₁, h₁, ⟨rfl, q, e, hfinds, rfl⟩ | ⟨q, s₀, hcreated⟩⟩
  · have hlive := live_of_finds ho.tidy hfinds
    refine (readInode_paired h₁ hlive.1).bind ?_
    rintro _ m₁ m₂ ⟨rfl, h₂⟩
    split
    next hdir => exact together_pure ⟨s₁, h₂, .directory (lookup_of_finds hfinds) hdir⟩
    next hdir =>
      rw [if_neg (typed_ne_zero ho.typed hlive)]
      have htype := (ho.typed _ hlive).resolve_left hdir
      refine (initFile_paired h₂ _).mono ?_
      rintro _ _ _ ⟨rfl, h₃⟩
      exact ⟨_, h₃, .existed (lookup_of_finds hfinds) htype⟩
  · have hnew := newName_of_created ho hcreated
    refine (readInode_paired h₁ hnew.live.1).bind ?_
    rintro _ m₁ m₂ ⟨rfl, h₂⟩
    have htype : (s₁.inode ino.toNat).type = 0 := by
      rw [hnew.inode]
      rfl
    rw [if_neg (by rw [htype]; decide), if_pos htype]
    refine (writeInode_paired h₂ hnew.live.1).bind ?_
    intro _ m₁ m₂ h₃
    have hself : (fileMade s₁ ino).inode ino.toNat =
        { s₁.inode ino.toNat with type := 2, linkCnt := 1 } := Function.update_self ..
    have hdone : OpenDone s path mode _ _ := .created hcreated rfl
    rw [hself] at hdone
    refine (initFile_paired h₃ _).mono ?_
    rintro _ _ _ ⟨rfl, h₄⟩
    exact ⟨_, h₄, hdone⟩

theorem fsLn_paired (h : Paired s m₁ m₂) (ht : Tidy s) (hname : NameOk dstPath) :
    Together (fsLn srcPath dstPath) m₁ m₂ fun r m₁' m₂' =>
      ∃ s', Paired s' m₁' m₂' ∧ LinkDone s srcPath dstPath r s' := by
  have hpaired : Together (fsLn srcPath dstPath) m₁ m₂ fun _ m₁' m₂' =>
      ∃ s', Paired s' m₁' m₂' := by
    refine (lookup_paired h ht.standing).bind ?_
    rintro src m₁ m₂ ⟨h₁, ⟨q, e, hfinds, rfl⟩ | ⟨rfl, -⟩⟩
    · have hlive := live_of_finds ht hfinds
      rw [not_isNegative hlive.1, if_neg Bool.false_ne_true]
      refine (getInode_paired h₁ ht.standing hname).bind ?_
      rintro dst m₁ m₂ ⟨s₂, h₂, hfound⟩
      have hdst : isNegative dst = false := by
        rcases hfound with ⟨rfl, q', e', hfinds', rfl⟩ | ⟨q', s₀, hcreated⟩
        · exact not_isNegative (live_of_finds ht hfinds').1
        · have hlive₀ := live_of_provided hcreated.provided fun _ => hlive
          exact not_isNegative hlive₀.1
      rw [hdst, if_neg Bool.false_ne_true]
      refine (readInode_paired h₂ hlive.1).bind ?_
      rintro _ m₁ m₂ ⟨rfl, h₃⟩
      exact (writeInode_paired h₃ hlive.1).bind fun _ _ _ h₄ => together_pure ⟨_, h₄⟩
    · exact (failWith_paired h₁ _).mono fun _ _ _ h₂ => ⟨_, h₂.2⟩
  refine (hpaired.and (fsLn_done h.realizes ht hname)).mono ?_
  rintro r m₁' m₂' ⟨⟨s', h', hdone⟩, s'', h''⟩
  exact ⟨s', h''.of_realizes h', hdone⟩

/-- The result of `fs_rm` (for `type` 2) and of `fs_rmdir` (for `type` 1), and
what they leave. -/
inductive RemoveDone (s : FsState) (path : List UInt8) (type : UInt8) : Int → FsState → Prop
  | missing : lookup s s.here path = none → RemoveDone s path type (-1) s
  | wrongType {e : DirEntry} : lookup s s.here path = some e →
      (s.inode e.inode.toNat).type ≠ type → RemoveDone s path type (-1) s
  | notEmpty {e : DirEntry} : lookup s s.here path = some e →
      (s.inode e.inode.toNat).type = type → type = 1 → (s.inode e.inode.toNat).size ≠ 0 →
      RemoveDone s path type (-1) s
  | removed {q : Nat} {e : DirEntry} {s₁ s' : FsState} : Finds s s.here path 0 1024 q e →
      (s.inode e.inode.toNat).type = type → (type = 1 → (s.inode e.inode.toNat).size = 0) →
      SlotSet s s₁ q none → s₁.here.size = s.here.size - 1 → Dropped s₁ e.inode.toNat s' →
      RemoveDone s path type 0 s'

theorem RemoveDone.left {type : UInt8} {r : Int} (h : RemoveDone s path type r s') :
    Removed s path type s' := by
  cases h with
  | missing _ => exact .kept
  | wrongType _ _ => exact .kept
  | notEmpty _ _ _ _ => exact .kept
  | removed hfinds htype hsize hset hsmaller hdropped =>
      exact .removed hfinds htype hsize hset hsmaller hdropped

theorem dropLink_result {m : Machine Bytes Globals} {n : Inode} :
    Runs (dropLink ino n) m (fun _ _ => True) fun r _ => r = 0 := by
  unfold dropLink
  dsimp only
  split
  next => exact (runs_any _ m).bind fun _ _ _ => runs_pure rfl
  next =>
    exact (runs_any _ m).bind fun _ m _ => (runs_any _ m).bind fun _ _ _ => runs_pure rfl

theorem removeName_paired {type : UInt8} (h : Paired s m₁ m₂) (ho : InOrder s)
    (hfinds : Finds s s.here path 0 1024 q e) (htype : (s.inode e.inode.toNat).type = type)
    (hsize : type = 1 → (s.inode e.inode.toNat).size = 0) (hcwd : s.cwd ≠ e.inode)
    (hfits : ∀ m, (removeInodeByFilename path).run m₁ = (.ok (), m) →
      (s.inode e.inode.toNat).linkCnt = 1 → FreeingFits m (s.inode e.inode.toNat)) :
    Together (do removeInodeByFilename path; dropLink e.inode (s.inode e.inode.toNat)) m₁ m₂
      fun r m₁' m₂' => ∃ s', Paired s' m₁' m₂' ∧ RemoveDone s path type r s' := by
  have hlive := live_of_finds ho.tidy hfinds
  have hne : e.inode.toNat ≠ s.cwd.toNat := fun heq => hcwd (UInt32.toNat_inj.mp heq).symm
  refine ((removeInode_paired h ho.tidy.standing hfinds).and (runs_self _ m₁)).bind ?_
  rintro _ m₁ m₂ ⟨hrun, s₁, h₁, hset, hsmaller, -⟩
  have hlive₁ := hset.leaves.live hlive
  have hinode₁ := hset.leaves.inode _ hne
  have hdone : ∀ {s'}, Dropped s₁ e.inode.toNat s' → RemoveDone s path type 0 s' :=
    .removed hfinds htype hsize hset hsmaller
  rw [← hinode₁]
  refine ((dropLink_paired h₁ hset.owned hlive₁ (fun _ => rfl) ?_).and dropLink_result).mono ?_
  · intro hone
    have hfits₁ := hfits m₁ hrun (by rw [← hinode₁]; exact hone)
    rw [← hinode₁] at hfits₁
    refine ⟨hfits₁.1, fun i hi => outerFits_of_freeingFits h₁.realizes ?_ (hfits₁.2 i)⟩
    exact (hset.owned.isData _ hlive₁ ⟨.l2 i, []⟩ (fits_root _) hi).1
  · rintro _ m₁ m₂ ⟨rfl, ⟨hcount, h₂⟩ | ⟨hone, h₂⟩⟩
    · exact ⟨_, h₂, hdone (.counted hcount)⟩
    · exact ⟨_, h₂, hdone (.last hone)⟩

theorem fsRm_paired (h : Paired s m₁ m₂) (ho : InOrder s) (hfits : RemovalFits m₁ 2 path)
    (hok : RemoveOk s path 2) :
    Together (fsRm path) m₁ m₂ fun r m₁' m₂' =>
      ∃ s', Paired s' m₁' m₂' ∧ RemoveDone s path 2 r s' := by
  have hfail : ∀ {m₁ m₂ : Machine Bytes Globals} (text : String), Paired s m₁ m₂ →
      RemoveDone s path 2 (-1) s → Together (failWith text) m₁ m₂ fun r m₁' m₂' =>
        ∃ s', Paired s' m₁' m₂' ∧ RemoveDone s path 2 r s' := by
    refine fun text h hdone => (failWith_paired h text).mono ?_
    rintro _ _ _ ⟨rfl, h'⟩
    exact ⟨s, h', hdone⟩
  refine ((lookup_paired h ho.tidy.standing).and (runs_self _ m₁)).bind ?_
  rintro ino n₁ n₂ ⟨hrun₁, h₁, ⟨q, e, hfinds, rfl⟩ | ⟨rfl, hmiss⟩⟩
  · have hlive := live_of_finds ho.tidy hfinds
    have hnegative := not_isNegative hlive.1
    rw [hnegative, if_neg Bool.false_ne_true]
    refine ((readInode_paired h₁ hlive.1).and (runs_self _ n₁)).bind ?_
    rintro _ n₁ n₂ ⟨hrun₂, rfl, h₂⟩
    split
    next htype => exact hfail _ h₂ (.wrongType (lookup_of_finds hfinds) htype)
    next htype =>
      have hsize : (2 : UInt8) = 1 → (s.inode e.inode.toNat).size = 0 := fun heq => by cases heq
      have hcwd := (hok e (lookup_of_finds hfinds) (not_not.mp htype) hsize).2.1
      refine removeName_paired h₂ ho hfinds (not_not.mp htype) hsize hcwd fun n hrun₃ =>
        hfits _ n ?_
      unfold rmPrefix
      rw [run_bind_ok hrun₁, hnegative, if_neg Bool.false_ne_true, run_bind_ok hrun₂,
        if_neg htype, if_neg (by simp), run_bind_ok hrun₃]
      rfl
  · exact hfail _ h₁ (.missing (lookup_of_misses hmiss))

theorem fsRmdir_paired (h : Paired s m₁ m₂) (ho : InOrder s) (hfits : RemovalFits m₁ 1 path)
    (hok : RemoveOk s path 1) :
    Together (fsRmdir path) m₁ m₂ fun r m₁' m₂' =>
      ∃ s', Paired s' m₁' m₂' ∧ RemoveDone s path 1 r s' := by
  have hfail : ∀ {m₁ m₂ : Machine Bytes Globals} (text : String), Paired s m₁ m₂ →
      RemoveDone s path 1 (-1) s → Together (failWith text) m₁ m₂ fun r m₁' m₂' =>
        ∃ s', Paired s' m₁' m₂' ∧ RemoveDone s path 1 r s' := by
    refine fun text h hdone => (failWith_paired h text).mono ?_
    rintro _ _ _ ⟨rfl, h'⟩
    exact ⟨s, h', hdone⟩
  refine ((lookup_paired h ho.tidy.standing).and (runs_self _ m₁)).bind ?_
  rintro ino n₁ n₂ ⟨hrun₁, h₁, ⟨q, e, hfinds, rfl⟩ | ⟨rfl, hmiss⟩⟩
  · have hlive := live_of_finds ho.tidy hfinds
    have hnegative := not_isNegative hlive.1
    rw [hnegative, if_neg Bool.false_ne_true]
    refine ((readInode_paired h₁ hlive.1).and (runs_self _ n₁)).bind ?_
    rintro _ n₁ n₂ ⟨hrun₂, rfl, h₂⟩
    split
    next htype => exact hfail _ h₂ (.wrongType (lookup_of_finds hfinds) htype)
    next htype =>
      split
      next hsize =>
        exact hfail _ h₂ (.notEmpty (lookup_of_finds hfinds) (not_not.mp htype) rfl hsize)
      next hsize =>
        have hempty : (1 : UInt8) = 1 → (s.inode e.inode.toNat).size = 0 := fun _ =>
          not_not.mp hsize
        have hcwd := (hok e (lookup_of_finds hfinds) (not_not.mp htype) hempty).2.1
        refine removeName_paired h₂ ho hfinds (not_not.mp htype) hempty hcwd fun n hrun₃ =>
          hfits _ n ?_
        unfold rmPrefix
        rw [run_bind_ok hrun₁, hnegative, if_neg Bool.false_ne_true, run_bind_ok hrun₂,
          if_neg htype, if_neg fun hboth => hsize hboth.2, run_bind_ok hrun₃]
        rfl
  · exact hfail _ h₁ (.missing (lookup_of_misses hmiss))

/-- The result of a walk, and the tables it leaves. -/
inductive WalkDone (s : FsState) (target : Option UInt32) (oldCwd : UInt32) : Int → FsState → Prop
  | arrived {dir : UInt32} : target = some dir → WalkDone s target oldCwd 0 (goto s dir)
  | back : target = none → WalkDone s target oldCwd (-1) (goto s oldCwd)

theorem fail_paired (h : Paired (goto s ino) m₁ m₂) (oldCwd : UInt32) (text : String) :
    Together (do setCwdNode oldCwd; failWith text) m₁ m₂ fun r m₁' m₂' =>
      r = -1 ∧ Paired (goto s oldCwd) m₁' m₂' := by
  refine (setCwdNode_paired h oldCwd).bind fun _ m₁ m₂ h₁ => ?_
  exact failWith_paired h₁ text

theorem cdLoop_paired {oldCwd dir : UInt32} {names : List (List UInt8)}
    (h : Paired (goto s dir) m₁ m₂) (ht : Tidy s) (hdir : Dir s dir.toNat) :
    Together (cdLoop oldCwd names) m₁ m₂ fun r m₁' m₂' =>
      ∃ s', Paired s' m₁' m₂' ∧ WalkDone s (follow s dir names) oldCwd r s' := by
  induction names generalizing m₁ m₂ dir with
  | nil => exact together_pure ⟨_, h, .arrived rfl⟩
  | cons name rest ih =>
      rw [follow_cons, enter]
      refine (lookup_paired h (ht.goto hdir).standing).bind ?_
      rintro ino m₁ m₂ ⟨h₁, hfound⟩
      refine (setCwdNode_paired h₁ ino).bind fun _ m₁ m₂ h₂ => ?_
      have h₂ : Paired (goto s ino) m₁ m₂ := h₂
      refine (together_cwdNode h₂.alike).bind ?_
      rintro _ m₁ m₂ ⟨rfl, rfl, rfl⟩
      rw [show m₁.globals.cwdNode = ino from h₂.realizes.cwd]
      rcases hfound with ⟨q, e, hfinds, rfl⟩ | ⟨rfl, hmiss⟩
      · have hlookup : lookup s (s.inode dir.toNat) name = some e :=
          (lookup_goto s dir _ name).symm.trans (lookup_of_finds hfinds)
        have hlive := Folder.live (ht.folder _ hdir) hlookup
        rw [not_isNegative hlive.1, if_neg Bool.false_ne_true, hlookup, Option.bind_some]
        refine (readInode_paired h₂ hlive.1).bind ?_
        rintro _ m₁ m₂ ⟨rfl, h₃⟩
        rw [show (goto s e.inode).inode = s.inode from rfl]
        rcases eq_or_ne (s.inode e.inode.toNat).type 1 with htype | htype
        · rw [if_neg (not_not.mpr htype), if_pos htype]
          exact ih h₃ ⟨hlive, htype⟩
        · rw [if_pos htype, if_neg htype]
          refine (fail_paired h₃ oldCwd _).mono ?_
          rintro _ _ _ ⟨rfl, h₄⟩
          exact ⟨_, h₄, .back rfl⟩
      · have hlookup : lookup s (s.inode dir.toNat) name = none :=
          (lookup_goto s dir _ name).symm.trans (lookup_of_misses hmiss)
        rw [if_pos (by decide), hlookup]
        refine (fail_paired h₂ oldCwd _).mono ?_
        rintro _ _ _ ⟨rfl, h₄⟩
        exact ⟨_, h₄, .back rfl⟩

theorem fsCd_paired (h : Paired s m₁ m₂) (ht : Tidy s) :
    Together (fsCd path) m₁ m₂ fun r m₁' m₂' =>
      ∃ s', Paired s' m₁' m₂' ∧ WalkDone s (follow s s.cwd (pieces path)) s.cwd r s' := by
  rw [← components_eq_pieces]
  refine (together_cwdNode h.alike).bind ?_
  rintro _ m₁ m₂ ⟨rfl, rfl, rfl⟩
  rw [h.realizes.cwd]
  exact cdLoop_paired h ht ht.cwd

theorem set_join {files : List (Option File)} (h : (files[fd]?).join = some file) :
    files.set fd (some file) = files := by
  obtain ⟨hlt, hget⟩ := List.getElem?_eq_some_iff.mp (Option.join_eq_some_iff.mp h)
  rw [← hget, List.set_getElem_self]

/-- The result of `fs_lseek` and what it leaves. -/
inductive SeekDone (s : FsState) (fd : Nat) (offset : UInt32) (whence : Int) : Int → FsState → Prop
  | closed : (s.files[fd]?).join = none → SeekDone s fd offset whence (-1) s
  | refused {file : File} : (s.files[fd]?).join = some file → lseek file offset whence = none →
      SeekDone s fd offset whence (-1) s
  | moved {file file' : File} : (s.files[fd]?).join = some file →
      lseek file offset whence = some file' →
      SeekDone s fd offset whence file'.filePtr.toBitVec.toInt
        { s with files := s.files.set fd (some file') }

theorem fsLseek_paired {offset : UInt32} {whence : Int} (h : Paired s m₁ m₂) :
    Together (fsLseek fd offset whence) m₁ m₂ fun r m₁' m₂' =>
      ∃ s', Paired s' m₁' m₂' ∧ SeekDone s fd offset whence r s' := by
  refine (getFile_paired h fd).bind ?_
  rintro _ m₁ m₂ ⟨rfl, rfl, rfl⟩
  cases hfile : (s.files[fd]?).join with
  | none => exact together_pure ⟨s, h, .closed hfile⟩
  | some file =>
      cases hlseek : lseek file offset whence with
      | none =>
          simp only [hlseek]
          exact together_pure ⟨s, h, .refused hfile hlseek⟩
      | some file' =>
          simp only [hlseek]
          refine (setFile_paired h fd _).bind fun _ _ _ h' => together_pure ⟨_, h', ?_⟩
          exact .moved hfile hlseek

theorem fsFclose_paired (h : Paired s m₁ m₂) :
    Together (fsFclose fd) m₁ m₂ fun r m₁' m₂' =>
      r = 0 ∧ Paired { s with files := s.files.set fd none } m₁' m₂' :=
  (setFile_paired h fd none).bind fun _ _ _ h' => together_pure ⟨rfl, h'⟩

theorem fileTransfer_refused {isWrite : Bool}
    (hmode : file.mode &&& (if isWrite then oWronly else oRdonly) = 0) :
    Together (fileTransfer isWrite file buff length) m₁ m₂ fun r m₁' m₂' =>
      r = (file, buff, -1) ∧ m₁' = m₁ ∧ m₂' = m₂ := by
  unfold fileTransfer
  rw [if_pos hmode]
  exact together_pure ⟨rfl, rfl, rfl⟩

/-- The direct blocks of the files behind handles are settled. -/
def Backed (s : FsState) : Prop :=
  ∀ file, some file ∈ s.files → HasBlocks s (s.inode file.inodeIdx.toNat)

/-- The result of `fs_fwrite` and what it leaves. -/
inductive WriteDone (s : FsState) (fd : Nat) (buff : Bytes) (length : Nat) : Int → FsState → Prop
  | closed : (s.files[fd]?).join = none → WriteDone s fd buff length (-1) s
  | refused {file : File} : (s.files[fd]?).join = some file → file.mode &&& oWronly = 0 →
      WriteDone s fd buff length (-1) s
  | stored {file file' : File} {s₁ : FsState} : (s.files[fd]?).join = some file →
      file.mode &&& oWronly ≠ 0 → Stored s s₁ file file' buff length →
      WriteDone s fd buff length length { s₁ with files := s₁.files.set fd (some file') }

/-- The position does not wrap around. -/
def Within (s : FsState) (fd length : Nat) : Prop :=
  ∀ file, (s.files[fd]?).join = some file → file.filePtr.toNat + length < 2 ^ 32

theorem fsFwrite_paired (h : Paired s m₁ m₂) (ho : InOrder s) (hbacked : Backed s)
    (hwithin : Within s fd length) :
    Together (fsFwrite fd buff length) m₁ m₂ fun r m₁' m₂' =>
      ∃ s', Paired s' m₁' m₂' ∧ WriteDone s fd buff length r s' := by
  refine (getFile_paired h fd).bind ?_
  rintro _ m₁ m₂ ⟨rfl, rfl, rfl⟩
  cases hfile : (s.files[fd]?).join with
  | none => exact together_pure ⟨s, h, .closed hfile⟩
  | some file =>
      have hmem := mem_of_join hfile
      rcases eq_or_ne (file.mode &&& oWronly) 0 with hmode | hmode
      · refine (fileTransfer_refused hmode).bind ?_
        rintro _ m₁ m₂ ⟨rfl, rfl, rfl⟩
        refine (setFile_paired h fd (some file)).bind fun _ m₁ m₂ h₂ => ?_
        rw [set_join hfile] at h₂
        exact together_pure ⟨s, h₂, .refused hfile hmode⟩
      · refine (fileWrite_paired h ho.tidy.owned (ho.tidy.files file hmem) (hbacked file hmem) hmode
          (hwithin file hfile)).bind ?_
        rintro ⟨file', buff', result⟩ m₁ m₂ ⟨rfl, s₁, h₁, hstored⟩
        refine (setFile_paired h₁ fd (some file')).bind fun _ m₁ m₂ h₂ => ?_
        exact together_pure ⟨_, h₂, .stored hfile hmode hstored⟩

theorem realizes_disk {m m' : Machine Bytes Globals} (h : Realizes m s)
    (hshowing : Showing (visible m) m') (hsb : m'.globals.superblock = m.globals.superblock) :
    Realizes m' { s with cwd := m'.globals.cwdNode, files := m'.globals.files } := by
  have hv : ∀ x < maxBlockNum, visible m' x = visible m x := hshowing.visible_eq
  have hs : ∀ x < maxBlockNum, Settled m' x := fun x hx =>
    hshowing.calm.settled x hx (Set.notMem_empty x)
  have hmax : maxBlockNum = 98304 := maxBlockNum_eq
  refine ⟨hshowing.ready, fun x hx => hs x (by omega), fun n hn => ?_, fun k hk => ?_,
    fun k hk => ?_, fun x hx hlt d hd => ?_, rfl, rfl, hsb ▸ ⟨h.counted.blocks, h.counted.inodes⟩⟩
  · rw [← h.blockUsed n hn, blockBit, blockBit, hv _ (by omega)]
  · rw [← h.inodeUsed k hk, inodeBit, inodeBit, hv _ (by omega)]
  · have := inodeBlock_lt hk
    rw [← h.inode k hk, inodeAt, inodeAt, hv _ (by omega)]
  · rw [hv x hlt]
    exact ⟨(h.data x hx hlt d hd).1, hs x hlt⟩

theorem realizes_of_showing {m m' : Machine Bytes Globals} (h : Realizes m s)
    (hshowing : Showing (visible m) m') (hg : m'.globals = m.globals) : Realizes m' s := by
  have h' := realizes_disk h hshowing (congrArg Globals.superblock hg)
  rw [hg, h.cwd, h.files] at h'
  exact h'

/-- The result of `fs_fread` with the buffer afterwards, and what it leaves. -/
inductive ReadDone (s : FsState) (fd : Nat) (buff : Bytes) (length : Nat) :
    Int × Bytes → FsState → Prop
  | closed : (s.files[fd]?).join = none → ReadDone s fd buff length (-1, buff) s
  | refused {file : File} : (s.files[fd]?).join = some file → file.mode &&& oRdonly = 0 →
      ReadDone s fd buff length (-1, buff) s
  | delivered {file : File} {ptr : UInt32} : (s.files[fd]?).join = some file →
      file.mode &&& oRdonly ≠ 0 → (0 < length → file.filePtr.toNat + length ≤ l0Bound) →
      ptr.toNat = file.filePtr.toNat + length →
      ReadDone s fd buff length (length, copy buff 0
          (contentsOf s (s.inode file.inodeIdx.toNat)) file.filePtr.toNat length)
        { s with files := s.files.set fd (some { file with filePtr := ptr }) }

theorem fileTransfer_result {m : Machine Bytes Globals} (hmode : file.mode &&& oRdonly ≠ 0) :
    Runs (fileTransfer false file buff length) m Stopped fun r _ => r.2.2 = (length : Int) := by
  unfold fileTransfer
  rw [if_neg Bool.false_ne_true, if_neg hmode]
  refine (runs_any _ m).bind ?_
  rintro ⟨file', buff', modified⟩ m' -
  exact (runs_any _ m').bind fun _ _ _ => runs_pure rfl

theorem fileRead_paired (h : Paired s m₁ m₂) (hcalm : Calm ∅ m₁) (howned : Owned s)
    (hfile : UpToDate s file) (hblocks : HasBlocks s (s.inode file.inodeIdx.toNat))
    (hmode : file.mode &&& oRdonly ≠ 0) (hharmless : Harmless file length) :
    Together (fileTransfer false file buff length) m₁ m₂ fun r m₁' m₂' =>
      Paired s m₁' m₂' ∧ ∃ ptr : UInt32, ptr.toNat = file.filePtr.toNat + length ∧
        r = ({ file with filePtr := ptr },
          copy buff 0 (contentsOf s (s.inode file.inodeIdx.toNat)) file.filePtr.toNat length,
          (length : Int)) := by
  have hbound : l0Bound = 32768 := by decide
  have hplace : 0 < length → InPlace file.inode file.filePtr.toNat length ∧
      file.filePtr.toNat + length ≤ l0Bound := fun hpos => by
    rcases hharmless with hclosed | hzero | hplace
    · exact absurd hclosed hmode
    · omega
    · exact hplace
  have hpresent : Present false file.inode file.filePtr.toNat length := fun _ o hlo hhi => by
    obtain ⟨hset, hbelow⟩ := hplace (by omega)
    rw [← pointer_rootOf (by omega)]
    exact hset.present o hlo hhi
  have hpaired : Together (fileTransfer false file buff length) m₁ m₂ fun r m₁' m₂' =>
      ∃ s', Paired s' m₁' m₂' ∧ Carried false s s' file r.1 buff r.2.1 length :=
    fileTransfer_paired h howned ⟨hfile.live, hfile.pointer, hfile.object.trans hfile.inode.symm⟩
      hblocks (by simpa using hmode) (fun hpos => by have := (hplace hpos).2; omega) hpresent
  refine ((hpaired.and (fileTransfer_inert (showing_of_calm hcalm) hharmless)).and
    (fileTransfer_result hmode)).mono ?_
  rintro ⟨file', buff', result⟩ m₁' m₂'
    ⟨hresult, ⟨⟨ptr, hadvanced⟩, hshowing, hglobals⟩, s', h', hcarried⟩
  simp only at hresult hadvanced
  have hr : Realizes m₁' s :=
    realizes_of_showing h.realizes hshowing hglobals
  refine ⟨h'.of_realizes hr, ptr, ?_, ?_⟩
  · have hptr := hcarried.moved.filePtr
    rwa [hadvanced] at hptr
  · have hbuffer : buff' = copy buff 0 (contentsOf s (s.inode file.inodeIdx.toNat))
        file.filePtr.toNat length := hcarried.buffer_eq
    rw [hresult, hadvanced, hbuffer]

theorem fsFread_paired (h : Paired s m₁ m₂) (hcalm : Calm ∅ m₁) (ho : InOrder s)
    (hbacked : Backed s)
    (hharmless : ∀ file, (s.files[fd]?).join = some file → Harmless file length) :
    Together (fsFread fd buff length) m₁ m₂ fun r m₁' m₂' =>
      ∃ s', Paired s' m₁' m₂' ∧ ReadDone s fd buff length r s' := by
  refine (getFile_paired h fd).bind ?_
  rintro _ m₁ m₂ ⟨rfl, rfl, rfl⟩
  cases hfile : (s.files[fd]?).join with
  | none => exact together_pure ⟨s, h, .closed hfile⟩
  | some file =>
      have hmem := mem_of_join hfile
      rcases eq_or_ne (file.mode &&& oRdonly) 0 with hmode | hmode
      · refine (fileTransfer_refused hmode).bind ?_
        rintro _ m₁ m₂ ⟨rfl, rfl, rfl⟩
        refine (setFile_paired h fd (some file)).bind fun _ m₁ m₂ h₂ => ?_
        rw [set_join hfile] at h₂
        exact together_pure ⟨s, h₂, .refused hfile hmode⟩
      · refine (fileRead_paired h hcalm ho.tidy.owned (ho.tidy.files file hmem) (hbacked file hmem)
          hmode (hharmless file hfile)).bind ?_
        rintro _ m₁ m₂ ⟨h₁, ptr, hptr, rfl⟩
        refine (setFile_paired h₁ fd (some { file with filePtr := ptr })).bind
          fun _ m₁ m₂ h₂ => ?_
        refine together_pure ⟨_, h₂, .delivered hfile hmode (fun hpos => ?_) hptr⟩
        rcases hharmless file hfile with hclosed | hzero | hplace
        · exact absurd hclosed hmode
        · omega
        · exact hplace.2

end LabKernel.CallPairs
