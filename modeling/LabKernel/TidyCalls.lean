import LabKernel.InertReads
import LabKernel.PathWalks
import LabKernel.TidyDisk

/-!
What the calls do to a disk in order.
-/

namespace LabKernel.TidyCalls

open LabKernel.BlockCache
open LabKernel.BlockFreeing
open LabKernel.BlockObject
open LabKernel.BlockOwnership
open LabKernel.ByteMemory
open LabKernel.CacheCoherence (sector_lt)
open LabKernel.CallSafety
open LabKernel.CalmMachines
open LabKernel.ComposedPrograms
open LabKernel.DirectData
open LabKernel.Directories
open LabKernel.DirectoryCalls
open LabKernel.FileWrites
open LabKernel.FsCode
open LabKernel.FsLayout
open LabKernel.FsPrimitives
open LabKernel.FsRuns
open LabKernel.FsTables
open LabKernel.FsView
open LabKernel.HandleRecycling
open LabKernel.HandleSafety
open LabKernel.IndexWrites
open LabKernel.InertReads
open LabKernel.PathWalks
open LabKernel.ProgramLogic
open LabKernel.SteadyPrograms
open LabKernel.TidyDisk

variable {m m' : Machine Bytes Globals} {s s' s₀ s₁ : FsState} {n : Inode}
  {path srcPath dstPath : List UInt8} {k q fd length : Nat} {e : DirEntry}
  {ino newInodeIdx mode option : UInt32} {file file' : File} {buff : Bytes}

/-- A disk in order whose inodes have all got their type. -/
structure InOrder (s : FsState) : Prop where
  tidy : Tidy s
  typed : Typed s

theorem typed_ne_zero (h : Typed s) (hk : Live s k) : (s.inode k).type ≠ 0 := by
  rcases h k hk with htype | htype
  · rw [htype]
    decide
  · rw [htype]
    decide

/-- The directories are as they were. -/
structure SameDirs (s s' : FsState) : Prop where
  dir : ∀ k, Dir s' k ↔ Dir s k
  size : ∀ k, Dir s k → (s'.inode k).size = (s.inode k).size
  slot_eq : ∀ k, Dir s k → ∀ q, slot s' (s'.inode k) q = slot s (s.inode k) q

theorem SameDirs.refl (s : FsState) : SameDirs s s :=
  ⟨fun _ => Iff.rfl, fun _ _ => rfl, fun _ _ _ => rfl⟩

theorem SameDirs.setFiles (s : FsState) (files : List (Option File)) :
    SameDirs s { s with files := files } :=
  ⟨fun _ => Iff.rfl, fun _ _ => rfl, fun _ _ _ => rfl⟩

theorem sameDirs_of_leaves (h : Leaves k s s') (hold : ¬Dir s k) (hnew : ¬Dir s' k) :
    SameDirs s s' := by
  have hne : ∀ k', Dir s k' → k' ≠ k := by
    rintro k' hk' rfl
    exact hold hk'
  refine ⟨fun k' => ?_, fun k' hk' => ?_, fun k' hk' q => ?_⟩
  · rcases eq_or_ne k' k with rfl | hk
    · exact iff_of_false hnew hold
    · exact dir_of_leaves h hk
  · rw [h.inode k' (hne k' hk')]
  · exact h.slot_eq (hne k' hk') hk'.1 q

/-- The tables after a call that leaves the directories alone. -/
def Quiet (s : FsState) (m' : Machine Bytes Globals) : Prop :=
  ∃ s', Realizes m' s' ∧ InOrder s' ∧ SameDirs s s'

theorem quiet_of_realizes (ho : InOrder s) (h : Realizes m s) : Quiet s m :=
  ⟨s, h, ho, SameDirs.refl s⟩

theorem live_of_finds (h : Tidy s) (hfinds : Finds s s.here path 0 1024 q e) :
    Live s e.inode.toNat :=
  h.here.entries q e hfinds.slot_eq

theorem Folder.live (h : Folder s k) (hlookup : lookup s (s.inode k) path = some e) :
    Live s e.inode.toNat := by
  rcases lookup_cases s (s.inode k) path with ⟨q, e', hfinds, heq⟩ | ⟨-, hnone⟩
  · obtain rfl := Option.some.inj (hlookup.symm.trans heq)
    exact h.entries q e hfinds.slot_eq
  · rw [hnone] at hlookup
    cases hlookup

theorem live_of_lookup (h : Tidy s) (hlookup : lookup s s.here path = some e) :
    Live s e.inode.toNat :=
  Folder.live h.here hlookup

theorem lookup_tidy {E : Failure → Machine Bytes Globals → Prop} (h : Realizes m s) (ht : Tidy s) :
    Runs (getInodeByFilename path false newInodeIdx) m E fun ino m' => Realizes m' s ∧
      ((∃ q e, Finds s s.here path 0 1024 q e ∧ ino = e.inode ∧ isNegative ino = false) ∨
        (lookup s s.here path = none ∧ isNegative ino = true)) := by
  refine (lookup_realizes h ht.standing.live.1 ht.standing.hasBlocks).mono (fun _ _ he => he) ?_
  rintro ino m' ⟨h', ⟨q, e, hfinds, rfl⟩ | ⟨rfl, hmiss⟩⟩
  · exact ⟨h', Or.inl ⟨q, e, hfinds, rfl, not_isNegative (live_of_finds ht hfinds).1⟩⟩
  · exact ⟨h', Or.inr ⟨lookup_of_misses hmiss, by decide⟩⟩

theorem walkable (h : Tidy s) {dir : UInt32} (hdir : Dir s dir.toNat) (names : List (List UInt8)) :
    Walkable s dir names := by
  induction names generalizing dir with
  | nil => trivial
  | cons name rest ih =>
      have hfolder := h.folder _ hdir
      refine ⟨hdir.1.1, hfolder.hasBlocks, fun e he => ?_⟩
      have hlive := Folder.live hfolder he
      exact ⟨hlive.1, fun htype => ih ⟨hlive, htype⟩⟩

theorem dir_of_follow (h : Tidy s) {dir dir' : UInt32} (hdir : Dir s dir.toNat)
    {names : List (List UInt8)} (hfollow : follow s dir names = some dir') : Dir s dir'.toNat := by
  induction names generalizing dir with
  | nil =>
      cases hfollow
      exact hdir
  | cons name rest ih =>
      rw [follow_cons] at hfollow
      obtain ⟨next, henter, hrest⟩ := Option.bind_eq_some_iff.mp hfollow
      obtain ⟨e, he, hnext⟩ := Option.bind_eq_some_iff.mp henter
      split at hnext
      next htype =>
        cases hnext
        exact ih ⟨Folder.live (h.folder _ hdir) he, htype⟩ hrest
      next => cases hnext

theorem lookup_of_slot (h : Folder s k) (he : slot s (s.inode k) q = some e) :
    lookup s (s.inode k) e.name = some e := by
  rcases lookup_cases s (s.inode k) e.name with ⟨q', e', hfinds, heq⟩ | ⟨hmiss, -⟩
  · obtain rfl := h.names q' q e' e hfinds.slot_eq he hfinds.name_eq
    rw [heq, ← hfinds.slot_eq, he]
  · exact absurd rfl (hmiss q (Nat.zero_le _) (lt_of_slot he) e he)

theorem created_lookup (h : Tidy s) (hcreated : Created s path newInodeIdx ino q s₀ s')
    (hgiven : newInodeIdx ≠ 0 → Live s newInodeIdx.toNat) :
    lookup s' s'.here path = some ⟨ino, 1, path⟩ := by
  have hslot : slot s' (s'.inode s'.cwd.toNat) q = some ⟨ino, 1, path⟩ := hcreated.slotSet.slot_self
  have hlookup := lookup_of_slot (h.created hcreated hgiven).here hslot
  exact hlookup

theorem provided_entry (hprovided : Provided s newInodeIdx ino s₀)
    (hk : Dir s₀ k) : Dir s k ∧ ∀ q, slot s₀ (s₀.inode k) q = slot s (s.inode k) q := by
  cases hprovided with
  | given _ => exact ⟨hk, fun _ => rfl⟩
  | new _ _ hfree =>
      have hne : k ≠ ino.toNat := by
        rintro rfl
        have htype := hk.2
        rw [FsState.setInode_inode, Function.update_self] at htype
        exact absurd htype (show ¬(0 : UInt8) = 1 by decide)
      have hinode : ((s.setInodeUsed ino.toNat true).setInode ino.toNat Inode.empty).inode k =
          s.inode k := Function.update_of_ne hne ..
      refine ⟨⟨⟨hk.1.1, (Function.update_of_ne hne ..).symm.trans hk.1.2⟩, ?_⟩, fun q => ?_⟩
      · rw [← hinode]
        exact hk.2
      · rw [hinode]
        rfl

/-- All entries but the new one were there. -/
theorem created_entry (h : Tidy s) (hcreated : Created s path newInodeIdx ino q s₀ s') {q' : Nat}
    (hk : Dir s' k) (he : slot s' (s'.inode k) q' = some e) :
    (k = s.cwd.toNat ∧ q' = q ∧ e = ⟨ino, 1, path⟩) ∨
      Dir s k ∧ slot s (s.inode k) q' = some e := by
  have hset := hcreated.slotSet
  have hcwd₀ : s₀.cwd = s.cwd := (hcreated.provided.here_eq h.standing).1
  have hleaves := hset.leaves
  rw [hcwd₀] at hleaves
  have hdir₀ : Dir s₀ k := by
    rcases eq_or_ne k s.cwd.toNat with rfl | hne
    · have hdir := (h.provided hcreated.provided).cwd
      rwa [hcwd₀] at hdir
    · exact (dir_of_leaves hleaves hne).mp hk
  obtain ⟨hdir, hslot⟩ := provided_entry hcreated.provided hdir₀
  rcases eq_or_ne k s.cwd.toNat with rfl | hne
  · have hhere : s'.inode s.cwd.toNat = s'.here := by rw [FsState.here, hleaves.cwd, hcwd₀]
    have hhere₀ : s₀.inode s.cwd.toNat = s₀.here := by rw [FsState.here, hcwd₀]
    rw [hhere] at he
    rcases eq_or_ne q' q with rfl | hq
    · rw [hset.slot_self] at he
      exact Or.inl ⟨rfl, rfl, (Option.some.inj he).symm⟩
    · rw [hset.slot_of_ne q' hq, ← hhere₀, hslot] at he
      exact Or.inr ⟨hdir, he⟩
  · rw [hleaves.slot_eq hne hdir₀.1, hslot] at he
    exact Or.inr ⟨hdir, he⟩

/-- A name with a new empty inode. -/
structure NewName (s : FsState) (path : List UInt8) (ino : UInt32) (s' : FsState) : Prop where
  tidy : Tidy s'
  dead : ¬Live s ino.toNat
  live : Live s' ino.toNat
  inode : s'.inode ino.toNat = Inode.empty
  typed : ∀ k ≠ ino.toNat, Live s' k → (s'.inode k).type = 1 ∨ (s'.inode k).type = 2

theorem newName_of_created (h : InOrder s) (hcreated : Created s path 0 ino q s₀ s') :
    NewName s path ino s' := by
  have htidy : Tidy s' := h.tidy.created hcreated fun hne => absurd rfl hne
  have hlive₀ := live_of_provided hcreated.provided fun hne => absurd rfl hne
  have hcwd : s₀.cwd = s.cwd := (hcreated.provided.here_eq h.tidy.standing).1
  have hset := hcreated.slotSet
  cases hcreated.provided with
  | given hne => exact absurd rfl hne
  | new _ hlt hfree =>
      have hdead : ¬Live s ino.toNat := by
        rintro ⟨-, hused⟩
        rw [hused] at hfree
        cases hfree
      have hne : ino.toNat ≠ s.cwd.toNat := by
        intro heq
        rw [heq] at hdead
        exact hdead h.tidy.cwd.1
      refine ⟨htidy, hdead, hset.leaves.live hlive₀, ?_, fun k hk hlive => ?_⟩
      · rw [hset.leaves.inode _ (by rw [hcwd]; exact hne)]
        exact Function.update_self ..
      · have hold : Live s k :=
          ⟨hlive.1, (Function.update_of_ne hk ..).symm.trans (hset.leaves.of_live hlive).2⟩
        rcases eq_or_ne k s.cwd.toNat with rfl | hkc
        · have hroot := htidy.cwd.2
          rw [hset.leaves.cwd, hcwd] at hroot
          exact Or.inl hroot
        · rw [hset.leaves.inode k (by rw [hcwd]; exact hkc)]
          have hsame : ((s.setInodeUsed ino.toNat true).setInode ino.toNat Inode.empty).inode k =
              s.inode k := Function.update_of_ne hk ..
          rw [hsame]
          exact h.typed k hold

theorem failWith_returns {E : Failure → Machine Bytes Globals → Prop} (h : Realizes m s)
    (text : String) : Runs (failWith text) m E fun r m' => r = -1 ∧ Realizes m' s := by
  have hrealizes : Runs (failWith text) m E fun _ m' => Realizes m' s := failWith_realizes h text
  refine ((runs_failWith text).and hrealizes).mono (fun _ _ he => he.1) ?_
  exact fun r m' hq => ⟨hq.1.1, hq.2⟩

/-- The result of `fs_mkdir` and what it leaves. -/
inductive MadeDir (s : FsState) (path : List UInt8) : Int → FsState → Prop
  | made {ino : UInt32} {q : Nat} {s₀ s₁ s' : FsState} : Created s path 0 ino q s₀ s₁ →
      Made s₁ ino s' → MadeDir s path 0 s'
  | existed : lookup s s.here path ≠ none → MadeDir s path (-1) s

theorem fsMkdir_made (h : Realizes m s) (ho : InOrder s) (hname : NameOk path) :
    Runs (fsMkdir path) m Full fun r m' => ∃ s', Realizes m' s' ∧ MadeDir s path r s' := by
  refine (getInode_realizes h ho.tidy.standing hname).bind ?_
  rintro ino m₁ ⟨s₁, h₁, ⟨rfl, q, e, hfinds, rfl⟩ | ⟨q, s₀, hcreated⟩⟩
  · have hlive := live_of_finds ho.tidy hfinds
    rw [not_isNegative hlive.1, if_neg Bool.false_ne_true]
    refine (readInode_realizes h₁ hlive.1).bind ?_
    rintro _ m₂ ⟨rfl, h₂⟩
    rw [if_pos (typed_ne_zero ho.typed hlive)]
    refine (failWith_returns h₂ _).mono (fun _ _ he => he) ?_
    rintro _ m₃ ⟨rfl, h₃⟩
    refine ⟨s₁, h₃, .existed ?_⟩
    rw [lookup_of_finds hfinds]
    exact nofun
  · have hnew := newName_of_created ho hcreated
    rw [not_isNegative hnew.live.1, if_neg Bool.false_ne_true]
    refine (readInode_realizes h₁ hnew.live.1).bind ?_
    rintro _ m₂ ⟨rfl, h₂⟩
    have htype : Inode.empty.type = 0 := rfl
    rw [hnew.inode, if_neg (not_not.mpr htype)]
    refine runs_cwdNode.bind ?_
    rintro _ m₂ ⟨rfl, rfl⟩
    rw [h₂.cwd]
    have hzero : (0 : UInt32).toNat < l0Bound := by decide
    have hindex : directIndex 0 hzero = 0 := rfl
    refine (inodeModifyData_write_realizes (A := fun _ _ => True) h₂ hnew.tidy.owned.tables
      (by decide) hzero (fun hne => absurd rfl hne) fun _ => blockAlloc_full h₂).bind ?_
    rintro ⟨n, _, _⟩ m₃ ⟨s₂, d, p, hpointed, hp, hheld, hn, h₃, -⟩
    have hd : d = zeros := hheld.1 rfl
    rw [hd, show (0 : UInt32).toNat % blockSize = 0 by decide,
      show (UInt32.ofNat (2 * dirEntrySize)).toNat = 64 by decide] at h₃
    refine (writeInode_realizes h₃ hnew.live.1).bind ?_
    intro _ m₄ h₄
    have hroot : n = newDirectory p := by
      simp only at hn
      rw [hn, grown_of_type_ne (show ¬(1 : UInt8) = 2 by decide), hindex]
      simp only [newDirectory, setDirect, Inode.mk.injEq, and_self, and_true, true_and]
      funext i
      rw [Function.update_apply]
      exact if_congr Fin.ext_iff rfl rfl
    rw [hroot] at h₄
    cases hpointed with
    | old hne => exact absurd rfl hne
    | new _ hfree =>
        exact runs_pure ⟨_, h₄, .made hcreated
          (made_of_pointed hnew.tidy.owned hnew.live hnew.inode hp hfree)⟩

theorem MadeDir.inOrder {r : Int} (h : MadeDir s path r s') (ho : InOrder s) : InOrder s' := by
  cases h with
  | existed _ => exact ho
  | @made ino q s₀ s₁ s' hcreated hmade =>
      have hnew := newName_of_created ho hcreated
      refine ⟨hnew.tidy.made hmade hnew.live hnew.inode, fun k hk => ?_⟩
      rcases eq_or_ne k ino.toNat with rfl | hne
      · exact Or.inl hmade.type
      · rw [hmade.leaves.inode k hne]
        exact hnew.typed k hne (hmade.leaves.of_live hk)

/-- An inode that is new gets its type. -/
theorem NewName.inOrder (h : NewName s path ino s') :
    InOrder (s'.setInode ino.toNat { s'.inode ino.toNat with type := 2, linkCnt := 1 }) := by
  refine ⟨h.tidy.setInode (fun r => by cases r <;> rfl) ?_ fun _ => rfl, fun k hk => ?_⟩
  · rw [h.inode]
    exact iff_of_false (show ¬(2 : UInt8) = 1 by decide) (show ¬(0 : UInt8) = 1 by decide)
  · rcases eq_or_ne k ino.toNat with rfl | hne
    · rw [FsState.setInode_inode, Function.update_self]
      exact Or.inr rfl
    · rw [FsState.setInode_inode, Function.update_of_ne hne]
      exact h.typed k hne hk

/-- What `fs_touch` leaves. -/
inductive Touched (s : FsState) (path : List UInt8) : FsState → Prop
  | existed : Touched s path s
  | created {ino : UInt32} {q : Nat} {s₀ s₁ : FsState} : Created s path 0 ino q s₀ s₁ →
      Touched s path (s₁.setInode ino.toNat { s₁.inode ino.toNat with type := 2, linkCnt := 1 })

theorem Touched.inOrder (h : Touched s path s') (ho : InOrder s) : InOrder s' := by
  cases h with
  | existed => exact ho
  | created hcreated => exact (newName_of_created ho hcreated).inOrder

theorem fsTouch_touched (h : Realizes m s) (ho : InOrder s) (hname : NameOk path) :
    Runs (fsTouch path) m Full fun _ m' => ∃ s', Realizes m' s' ∧ Touched s path s' := by
  refine (getInode_realizes h ho.tidy.standing hname).bind ?_
  rintro ino m₁ ⟨s₁, h₁, ⟨rfl, q, e, hfinds, rfl⟩ | ⟨q, s₀, hcreated⟩⟩
  · have hlive := live_of_finds ho.tidy hfinds
    rw [not_isNegative hlive.1, if_neg Bool.false_ne_true]
    refine (readInode_realizes h₁ hlive.1).bind ?_
    rintro _ m₂ ⟨rfl, h₂⟩
    rw [if_pos (typed_ne_zero ho.typed hlive)]
    exact (failWith_realizes h₂ _).mono (fun _ _ he => he) fun _ _ h₃ => ⟨s₁, h₃, .existed⟩
  · have hnew := newName_of_created ho hcreated
    rw [not_isNegative hnew.live.1, if_neg Bool.false_ne_true]
    refine (readInode_realizes h₁ hnew.live.1).bind ?_
    rintro _ m₂ ⟨rfl, h₂⟩
    have htype : (s₁.inode ino.toNat).type = 0 := by
      rw [hnew.inode]
      rfl
    rw [if_neg (not_not.mpr htype)]
    refine (writeInode_realizes h₂ hnew.live.1).bind ?_
    exact fun _ m₃ h₃ => runs_pure ⟨_, h₃, .created hcreated⟩

theorem initFile_quiet {E : Failure → Machine Bytes Globals → Prop} (h : Realizes m s)
    (ho : InOrder s) (hfile : UpToDate s file) :
    Runs (initFile file) m E fun _ m' => Quiet s m' := by
  refine (initFile_realizes h file).mono (fun _ _ he => he) ?_
  rintro _ m' ⟨files, h', rfl | ⟨hnone, rfl⟩⟩
  · exact quiet_of_realizes ho h'
  · exact ⟨_, h', ⟨ho.tidy.openFile hnone hfile, ho.typed⟩, SameDirs.setFiles _ _⟩

theorem fsFopen_touched (h : Realizes m s) (ho : InOrder s) (hname : NameOk path) :
    Runs (fsFopen path mode) m Full fun _ m' => ∃ s', Touched s path s' ∧ Quiet s' m' := by
  refine (getInode_realizes h ho.tidy.standing hname).bind ?_
  rintro ino m₁ ⟨s₁, h₁, ⟨rfl, q, e, hfinds, rfl⟩ | ⟨q, s₀, hcreated⟩⟩
  · have hlive := live_of_finds ho.tidy hfinds
    refine (readInode_realizes h₁ hlive.1).bind ?_
    rintro _ m₂ ⟨rfl, h₂⟩
    split
    next => exact runs_pure ⟨s₁, .existed, quiet_of_realizes ho h₂⟩
    next hdir =>
      rw [if_neg (typed_ne_zero ho.typed hlive)]
      have htype := (ho.typed _ hlive).resolve_left hdir
      refine (initFile_quiet h₂ ho ⟨hlive, fun _ => rfl, htype, htype⟩).mono (fun _ _ he => he) ?_
      exact fun _ _ hq => ⟨s₁, .existed, hq⟩
  · have hnew := newName_of_created ho hcreated
    refine (readInode_realizes h₁ hnew.live.1).bind ?_
    rintro _ m₂ ⟨rfl, h₂⟩
    have htype : (s₁.inode ino.toNat).type = 0 := by
      rw [hnew.inode]
      rfl
    rw [if_neg (by rw [htype]; decide), if_pos htype]
    refine (writeInode_realizes h₂ hnew.live.1).bind ?_
    intro _ m₃ h₃
    have hfile : UpToDate (s₁.setInode ino.toNat
        { s₁.inode ino.toNat with type := 2, linkCnt := 1 }) ⟨ino, mode, 0,
          { s₁.inode ino.toNat with type := 2, linkCnt := 1 }⟩ := by
      refine ⟨hnew.live, fun _ => ?_, rfl, ?_⟩
      · rw [FsState.setInode_inode, Function.update_self]
      · rw [FsState.setInode_inode, Function.update_self]
    refine (initFile_quiet h₃ hnew.inOrder hfile).mono (fun _ _ he => he) ?_
    exact fun _ _ hq => ⟨_, .created hcreated, hq⟩

theorem setFile_quiet {E : Failure → Machine Bytes Globals → Prop} (h : Realizes m s)
    (ho : InOrder s) (hfile : (s.files[fd]?).join = some file)
    (hidx : file'.inodeIdx = file.inodeIdx) (hupToDate : UpToDate s file') :
    Runs (setFile fd (some file')) m E fun _ m' => Quiet s m' := by
  refine (setFile_realizes h fd (some file')).mono (fun _ _ he => he) ?_
  exact fun _ m' h' =>
    ⟨_, h', ⟨ho.tidy.storeFile hfile hidx hupToDate, ho.typed⟩, SameDirs.setFiles _ _⟩

theorem fsFclose_quiet {E : Failure → Machine Bytes Globals → Prop} (h : Realizes m s)
    (ho : InOrder s) : Runs (fsFclose fd) m E fun _ m' => Quiet s m' := by
  refine (setFile_realizes h fd none).bind ?_
  exact fun _ m' h' =>
    runs_pure ⟨_, h', ⟨ho.tidy.closeFile fd, ho.typed⟩, SameDirs.setFiles _ _⟩

theorem fsLseek_quiet {E : Failure → Machine Bytes Globals → Prop} {offset : UInt32}
    {whence : Int} (h : Realizes m s) (ho : InOrder s) :
    Runs (fsLseek fd offset whence) m E fun _ m' => Quiet s m' := by
  refine (getFile_realizes h fd).bind ?_
  rintro _ m ⟨rfl, rfl⟩
  cases hfile : (s.files[fd]?).join with
  | none => exact runs_pure (quiet_of_realizes ho h)
  | some file =>
      cases hlseek : lseek file offset whence with
      | none =>
          simp only [hlseek]
          exact runs_pure (quiet_of_realizes ho h)
      | some file' =>
          simp only [hlseek]
          have hkeep : file'.inodeIdx = file.inodeIdx ∧ file'.inode = file.inode := by
            unfold lseek at hlseek
            split at hlseek
            next =>
              cases hlseek
              exact ⟨rfl, rfl⟩
            next =>
              split at hlseek
              next =>
                cases hlseek
                exact ⟨rfl, rfl⟩
              next =>
                split at hlseek
                next =>
                  cases hlseek
                  exact ⟨rfl, rfl⟩
                next => cases hlseek
          obtain ⟨hlive, hpointer, hobject, htype⟩ := ho.tidy.files file (mem_of_join hfile)
          refine (setFile_quiet h ho hfile hkeep.1 ?_).bind fun _ _ hq => runs_pure hq
          rw [← hkeep.1] at hlive hpointer htype
          rw [← hkeep.2] at hpointer hobject
          exact ⟨hlive, hpointer, hobject, htype⟩

/-- A transfer to or from an open file. -/
theorem InOrder.transferred (ho : InOrder s) (hleaves : Leaves file.inodeIdx.toNat s s')
    (howned : Owned s') (hidx : file'.inodeIdx = file.inodeIdx) (hobject : file'.inode.type = 2)
    (htype : (s'.inode file.inodeIdx.toNat).type = 2)
    (hpointer : ∀ r, pointer file'.inode r = pointer (s'.inode file.inodeIdx.toNat) r)
    (hfd : (s.files[fd]?).join = some file) :
    InOrder { s' with files := s'.files.set fd (some file') } ∧ SameDirs s s' := by
  have hfile := ho.tidy.files file (mem_of_join hfd)
  have hfile' : UpToDate s' file' := by
    refine ⟨?_, fun r => ?_, hobject, ?_⟩
    · rw [hidx]
      exact hleaves.live hfile.live
    · rw [hidx, hpointer]
    · rw [hidx, htype]
  have hne : s.cwd.toNat ≠ file.inodeIdx.toNat := by
    intro heq
    have hcwd := ho.tidy.cwd.2
    rw [heq, hfile.inode] at hcwd
    cases hcwd
  have hkeys := ho.tidy.keys_set hfd hidx
  rw [← hleaves.files] at hkeys
  have hnot : ¬Dir s file.inodeIdx.toNat := fun hdir => by
    have hold := hfile.inode
    rw [hdir.2] at hold
    cases hold
  refine ⟨⟨ho.tidy.of_leaves hleaves howned (fun hdir => absurd hdir hnot) (fun hdir => ?_)
    (fun file₁ hmem => ?_) hkeys, fun k hk => ?_⟩,
    sameDirs_of_leaves hleaves hnot fun hdir => ?_⟩
  · rw [hdir.2] at htype
    cases htype
  · obtain ⟨i, hi⟩ := List.mem_iff_getElem?.mp hmem
    have hjoin : ((s'.files.set fd (some file'))[i]?).join = some file₁ :=
      Option.join_eq_some_iff.mpr hi
    rw [hleaves.files] at hjoin
    rcases getElem?_set_join hjoin with ⟨-, heq⟩ | ⟨hi, hold⟩
    · cases heq
      exact Or.inr hfile'
    · refine Or.inl ⟨mem_of_join hold, fun heq => hi ?_⟩
      exact ho.tidy.keys i fd file₁ file hold hfd (UInt32.toNat_inj.mp heq)
  · rcases eq_or_ne k file.inodeIdx.toNat with rfl | hk'
    · exact Or.inr htype
    · rw [show
          ({ s' with files := s'.files.set fd (some file') } : FsState).inode = s'.inode from rfl,
        hleaves.inode k hk']
      exact ho.typed k (hleaves.of_live hk)
  · rw [hdir.2] at htype
    cases htype

/-- A write to an open file. -/
theorem InOrder.written (ho : InOrder s) (hfile : UpToDate s file)
    (hwritten : Written file.inodeIdx.toNat s file file' length s') (howned : Owned s')
    (hpointer : ∀ r, pointer file'.inode r = pointer (s'.inode file.inodeIdx.toNat) r)
    (hfd : (s.files[fd]?).join = some file) :
    InOrder { s' with files := s'.files.set fd (some file') } ∧ SameDirs s s' := by
  refine ho.transferred hwritten.leaves howned hwritten.inodeIdx
    (hwritten.type.trans hfile.object) ?_ hpointer hfd
  rcases hwritten.inode with heq | ⟨heq, -⟩
  · rw [heq, hfile.inode]
  · rw [heq, hwritten.type, hfile.object]

theorem transfer_quiet {α : Type} {isWrite : Bool} (f : Int → Bytes → α) (h : Realizes m s)
    (ho : InOrder s) (hfile : (s.files[fd]?).join = some file)
    (hdirect : Direct isWrite file length) :
    Runs (do
      let (file, buff, result) ← fileTransfer isWrite file buff length
      setFile fd (some file)
      return f result buff) m Full fun _ m' => Quiet s m' := by
  have hupToDate := ho.tidy.files file (mem_of_join hfile)
  refine (fileTransfer_realizes h ho.tidy.owned hupToDate.live hupToDate.pointer hdirect).bind ?_
  rintro ⟨file₁, buff₁, result⟩ m₁ ⟨s₁, h₁, howned₁, hwritten, hpointer⟩
  obtain ⟨ho₁, hdirs⟩ := ho.written hupToDate hwritten howned₁ hpointer hfile
  refine (setFile_realizes h₁ fd (some file₁)).bind ?_
  exact fun _ m₂ h₂ => runs_pure ⟨_, h₂, ho₁, hdirs.dir, hdirs.size, hdirs.slot_eq⟩

theorem fsFwrite_quiet (h : Realizes m s) (ho : InOrder s) :
    Runs (fsFwrite fd buff length) m Full fun _ m' => Quiet s m' := by
  refine (getFile_realizes h fd).bind ?_
  rintro _ m ⟨rfl, rfl⟩
  cases hfile : (s.files[fd]?).join with
  | none => exact runs_pure (quiet_of_realizes ho h)
  | some file => exact transfer_quiet (fun result _ => result) h ho hfile (direct_write _ _)

theorem fsFread_quiet (h : Realizes m s) (ho : InOrder s)
    (hdirect : ∀ file, objectOf m fd = some file → Direct false file length) :
    Runs (fsFread fd buff length) m Full fun _ m' => Quiet s m' := by
  have hobject : objectOf m fd = (s.files[fd]?).join := by rw [objectOf, h.files]
  refine (getFile_realizes h fd).bind ?_
  rintro _ m ⟨rfl, rfl⟩
  cases hfile : (s.files[fd]?).join with
  | none => exact runs_pure (quiet_of_realizes ho h)
  | some file => exact transfer_quiet Prod.mk h ho hfile (hdirect file (hobject.trans hfile))

/-- The loop of `fs_cat` allocates the missing blocks of the file, but leaves
its inode on the disk as it is. -/
theorem catLoop_writing {left offset : Nat} {n₀ : Inode} (h : Writing k n₀ m s)
    (hbelow : (s.inode k).size.toNat ≤ l0Bound)
    (haligned : offset % blockSize = 0 ∨ (s.inode k).size.toNat ≤ offset) :
    Runs (catLoop left (s.inode k) offset) m Full fun _ m' =>
      ∃ s', Writing k n₀ m' s' ∧ Grows k s s' := by
  induction left generalizing m s offset with
  | zero => exact runs_pure ⟨s, h, Grows.refl k s⟩
  | succ left ih =>
      unfold catLoop
      split
      next hlt =>
        have haligned := haligned.resolve_right (by omega)
        have hsize := (s.inode k).size.toNat_lt
        set readSize := min blockSize ((s.inode k).size.toNat - offset) with hreadSize
        have hle : offset + readSize ≤ (s.inode k).size.toNat := by omega
        have hoffset : (UInt32.ofNat offset).toNat = offset := by
          rw [UInt32.toNat_ofNat', Nat.mod_eq_of_lt (by omega)]
        have hlength : (UInt32.ofNat readSize).toNat = readSize := by
          rw [UInt32.toNat_ofNat', Nat.mod_eq_of_lt (by omega)]
        have hgrown : grown (s.inode k) (UInt32.ofNat offset + UInt32.ofNat readSize) =
            s.inode k := by
          rw [grown, if_neg]
          have hnot : ¬(s.inode k).size < UInt32.ofNat offset + UInt32.ofNat readSize := by
            rw [UInt32.lt_iff_toNat_lt, UInt32.toNat_add, hoffset, hlength,
              Nat.mod_eq_of_lt (by omega)]
            omega
          simp [hnot]
        refine runs_getGlobals.bind ?_
        rintro _ m ⟨rfl, rfl⟩
        have hfit : (UInt32.ofNat offset).toNat % blockSize + (UInt32.ofNat readSize).toNat ≤
            blockSize := by
          rw [hoffset, hlength, haligned]
          omega
        have hread : false = false → (UInt32.ofNat offset).toNat < l0Bound := fun _ => by
          rw [hoffset]
          omega
        refine (inodeModifyData_writing h hfit hread).bind ?_
        rintro ⟨n, buffer, _⟩ m₁ ⟨-, hsame, s₁, h₁, hgrows₁, hn, -, -⟩
        dsimp only at hsame hn
        rw [hgrown] at hsame
        subst hn
        have hcatBuffer : Runs (modifyGlobals fun g => { g with catBuffer := buffer }) m₁ Full
            fun _ m' => Realizes m' (s₁.setInode k n₀) := by
          refine (modifyGlobals_realizes h₁.realizes (fun g => { g with catBuffer := buffer })
            (fun _ => rfl) fun _ => rfl).mono (fun _ _ he => he) fun _ m' h' => ?_
          have hfiles : { s₁.setInode k n₀ with files := m₁.globals.files } = s₁.setInode k n₀ := by
            rw [h₁.realizes.files]
          exact hfiles ▸ h'
        refine hcatBuffer.bind fun _ m₂ h₂ => (print_realizes h₂ _).bind fun _ m₃ h₃ => ?_
        have hrest : (offset + readSize) % blockSize = 0 ∨
            (s₁.inode k).size.toNat ≤ offset + readSize := by
          have hblock : blockSize = 4096 := rfl
          rw [hsame]
          rw [hblock] at haligned hreadSize ⊢
          omega
        refine (ih ⟨h₃, h₁.owned, h₁.live⟩ (by rw [hsame]; exact hbelow) hrest).mono
          (fun _ _ he => he) ?_
        rintro _ m₄ ⟨s₄, h₄, hgrows₄⟩
        exact ⟨s₄, h₄, hgrows₁.trans hgrows₄⟩
      next => exact runs_pure ⟨s, h, Grows.refl k s⟩

theorem InOrder.leaked (ho : InOrder s) (hlive : Live s k) (htype : (s.inode k).type = 2)
    (howned : Owned s') (hgrows : Grows k s s') : InOrder (s'.setInode k (s.inode k)) ∧
      SameDirs s (s'.setInode k (s.inode k)) := by
  have hself : (s'.setInode k (s.inode k)).inode k = s.inode k := Function.update_self ..
  have hback : s.setInode k (s.inode k) = s := by
    simp only [FsState.setInode, Function.update_eq_self]
  have hleaves : Leaves k s (s'.setInode k (s.inode k)) := by
    rw [← hback] at hgrows
    exact Grows.leaves hgrows
  have hnot : ¬Dir s k := fun hdir => absurd (hdir.2.symm.trans htype) (by decide)
  have hnot' : ¬Dir (s'.setInode k (s.inode k)) k := by
    rintro ⟨-, hdir⟩
    rw [hself, htype] at hdir
    cases hdir
  have howned' : Owned (s'.setInode k (s.inode k)) := by
    refine howned.setInode_fewer fun r hne => ?_
    exact (hgrows.block k hlive ⟨r, []⟩ (fits_root r) hne).symm
  refine ⟨⟨ho.tidy.leaves hleaves howned' ?_ ?_ ?_, fun k' hk' => ?_⟩,
    sameDirs_of_leaves hleaves hnot hnot'⟩
  · exact fun hdir => absurd hdir hnot
  · exact fun hdir => absurd hdir hnot'
  · intro file hfile heq
    obtain ⟨hfileLive, hpointer, hobject, hinode⟩ := ho.tidy.files file hfile
    rw [heq] at hpointer
    refine ⟨hleaves.live hfileLive, fun r => ?_, hobject, ?_⟩
    · rw [heq, hself, hpointer]
    · rw [heq, hself, htype]
  · rcases eq_or_ne k' k with rfl | hne
    · rw [hself]
      exact Or.inr htype
    · rw [hleaves.inode k' hne]
      exact ho.typed k' (hleaves.of_live hk')

theorem fsCat_quiet (h : Realizes m s) (ho : InOrder s)
    (hcat : ∀ n m₁, (catPrefix path).run m = (.ok (some n), m₁) → n.size.toNat ≤ l0Bound) :
    Runs (fsCat path) m Full fun _ m' => Quiet s m' := by
  have hlookup : Runs (getInodeByFilename path false 0) m Full fun ino m' => Realizes m' s ∧
      ((∃ q e, Finds s s.here path 0 1024 q e ∧ ino = e.inode ∧ isNegative ino = false) ∨
        (lookup s s.here path = none ∧ isNegative ino = true)) := lookup_tidy h ho.tidy
  have hfail : ∀ {m : Machine Bytes Globals} (text : String), Realizes m s →
      Runs (failWith text) m Full fun _ m' => Quiet s m' := fun text h =>
    (failWith_realizes h text).mono (fun _ _ he => he) fun _ _ h' => quiet_of_realizes ho h'
  refine (hlookup.withRun.mono (fun _ _ he => he) fun _ _ hq => hq).bind ?_
  rintro ino m₁ ⟨⟨h₁, hfound⟩, hrun₁⟩
  rcases hfound with ⟨q, e, hfinds, rfl, hnegative⟩ | ⟨-, hnegative⟩
  · have hlive := live_of_finds ho.tidy hfinds
    have hread : Runs (readInode e.inode) m₁ Full fun n m' =>
        n = s.inode e.inode.toNat ∧ Realizes m' s := readInode_realizes h₁ hlive.1
    rw [hnegative, if_neg Bool.false_ne_true]
    refine (hread.withRun.mono (fun _ _ he => he) fun _ _ hq => hq).bind ?_
    rintro _ m₂ ⟨⟨rfl, h₂⟩, hrun₂⟩
    split
    next => exact hfail _ h₂
    next htype =>
      have hbelow := hcat _ m₂ (by
        unfold catPrefix
        rw [run_bind_ok hrun₁, hnegative, if_neg Bool.false_ne_true, run_bind_ok hrun₂,
          if_neg htype]
        rfl)
      have hback : s.setInode e.inode.toNat (s.inode e.inode.toNat) = s := by
        simp only [FsState.setInode, Function.update_eq_self]
      have hwriting : Writing e.inode.toNat (s.inode e.inode.toNat) m₂ s :=
        ⟨hback.symm ▸ h₂, ho.tidy.owned, hlive⟩
      refine (catLoop_writing hwriting hbelow (Or.inl rfl)).bind ?_
      rintro _ m₃ ⟨s₃, h₃, hgrows⟩
      obtain ⟨ho₃, hdirs⟩ := ho.leaked hlive (not_not.mp htype) h₃.owned hgrows
      refine (print_realizes h₃.realizes _).bind ?_
      exact fun _ _ h' => runs_pure ⟨_, h', ho₃, hdirs⟩
  · rw [hnegative, if_pos rfl]
    exact hfail _ h₁

theorem fsStatfs_realizes {E : Failure → Machine Bytes Globals → Prop} (h : Realizes m s) :
    Runs fsStatfs m E fun _ m' => Realizes m' s := by
  have hget : Runs getSuperblock m E fun _ m' => m' = m := runs_of_ok rfl rfl
  refine hget.bind ?_
  rintro _ m rfl
  exact (print_realizes h _).bind fun _ _ h' => runs_pure h'

theorem fsCd_tidy (h : Realizes m s) (ht : Tidy s) (path : List UInt8) :
    Runs (fsCd path) m Never fun r m' =>
      Walked s (follow s s.cwd (pieces path)) s.cwd r m' :=
  fsCd_walked h (walkable ht ht.cwd _)

theorem goto_quiet (ho : InOrder s) {dir : UInt32} (hdir : Dir s dir.toNat)
    (h : Realizes m (goto s dir)) : Quiet s m :=
  ⟨_, h, ⟨ho.tidy.goto hdir, ho.typed⟩, fun _ => Iff.rfl, fun _ _ => rfl, fun _ _ _ => rfl⟩

theorem fsCd_quiet (h : Realizes m s) (ho : InOrder s) :
    Runs (fsCd path) m Never fun _ m' => Quiet s m' := by
  refine (fsCd_tidy h ho.tidy path).mono (fun _ _ he => he) ?_
  rintro r m' (⟨-, hfollow, h'⟩ | ⟨-, -, h'⟩)
  · exact goto_quiet ho (dir_of_follow ho.tidy ho.tidy.cwd hfollow) h'
  · exact goto_quiet ho ho.tidy.cwd h'

/-- The variables that the tables depend on. -/
def kept (g : Globals) : SuperBlock × UInt32 × List (Option File) :=
  (g.superblock, g.cwdNode, g.files)

instance : Printing (Unseen kept) where
  printed _ _ := rfl

theorem realizes_of_kept {T T' : Finset Nat} (h : Realizes m s) (hev : Evolves T T' ∅ m m')
    (hkept : kept m'.globals = kept m.globals) : Realizes m' s := by
  obtain ⟨hsb, hcwd, hfiles⟩ : m'.globals.superblock = m.globals.superblock ∧
      m'.globals.cwdNode = m.globals.cwdNode ∧ m'.globals.files = m.globals.files := by
    simpa only [kept, Prod.mk.injEq] using hkept
  exact h.evolves hev ⟨hev.sound, hsb ▸ h.ready.layout⟩ (hcwd.trans h.cwd)
    (hfiles.trans h.files) (hsb ▸ h.counted) rfl

/-- Nothing has been written since. -/
structure Unwritten (m m' : Machine Bytes Globals) : Prop where
  evolves : Evolves ∅ ∅ ∅ m m'
  layout : Layout m'.globals.superblock

instance : Lasting (Unwritten m) where
  mounted h := ⟨h.evolves.tracked, h.layout⟩
  opened {m₁ m₂ x b} h hrun := by
    have hopen := (runs_openBlock (E := Any) h.evolves.sound (T := {x}) (by simp [cacheSize])
      (Finset.mem_singleton_self x) fun _ => trivial).ok hrun
    exact ⟨h.evolves.trans hopen.2.2.1.forget, hopen.2.2.2 ▸ h.layout⟩
  globals h hg := ⟨h.evolves.trans (evolves_globals h.evolves.sound _), hg⟩

theorem listing_realizes {α : Type} {optL : Bool} {rest : Fs α}
    {Q : α → Machine Bytes Globals → Prop} (h : Realizes m s)
    (hfits : optL = true → ListingFits m n)
    (hrest : ∀ m', Realizes m' s → Runs rest m' Stopped Q) :
    Runs (do
      doWhen optL (print (.text "| mode | links |   size   |      name    |\n"))
      listBlocks n optL inodeDataDirect 0
      rest) m Stopped Q := by
  have hheader : Silent kept (doWhen optL
      (print (.text "| mode | links |   size   |      name    |\n"))) :=
    silent_composed (composed_doWhen _ (composed_print _))
  have hentries : Silent kept (listBlocks n optL inodeDataDirect 0) :=
    silent_composed (composed_listBlocks n optL inodeDataDirect 0)
  have hstart : Unwritten m m := ⟨Evolves.refl h.ready.sound subset_rfl, h.ready.layout⟩
  have hprint := hheader.runs (keeps_doWhen (P := Unwritten m) optL (keeps_print _) m hstart)
  refine (hprint.mono (fun _ _ _ => trivial) fun _ _ hq => hq).bind ?_
  rintro _ m₁ ⟨h₁, hkept₁⟩
  have hlist := hentries.runs
    (listBlocks_keeps (P := Unwritten m) h₁ fun hopt => (hfits hopt).tracks h₁.evolves.toTracks)
  refine (hlist.mono (fun _ _ _ => trivial) fun _ _ hq => hq).bind ?_
  rintro _ m₂ ⟨h₂, hkept₂⟩
  exact hrest m₂ (realizes_of_kept h h₂.evolves (hkept₂.trans hkept₁))

theorem fsLs_realizes (h : Realizes m s) (ht : Tidy s) (hfits : Fits m (.ls path option)) :
    Runs (fsLs path option) m Stopped fun _ m' => Realizes m' s := by
  -- The last step goes back to the current directory.
  have hback : ∀ {dir : UInt32} (r : Int) (m : Machine Bytes Globals), Realizes m (goto s dir) →
      Runs (do setCwdNode s.cwd; return r) m Stopped fun _ m' => Realizes m' s := by
    intro dir r m hm
    have hset : Runs (setCwdNode s.cwd) m Stopped fun _ m' =>
        Realizes m' (goto (goto s dir) s.cwd) := setCwdNode_realizes hm s.cwd
    exact hset.bind fun _ _ h' => runs_pure h'
  refine runs_cwdNode.bind ?_
  rintro _ m ⟨rfl, rfl⟩
  rw [h.cwd]
  refine ((fsCd_tidy h ht path).withRun.mono (fun _ _ he => he.elim) fun _ _ hq => hq).bind ?_
  rintro result m₁ ⟨hwalked, hrun₁⟩
  rcases hwalked with ⟨rfl, hfollow, h₁⟩ | ⟨rfl, -, h₁⟩
  · rename_i dir
    have hdir := dir_of_follow ht ht.cwd hfollow
    rw [if_neg (by decide)]
    refine runs_cwdNode.bind ?_
    rintro _ m₁ ⟨rfl, rfl⟩
    have hcwd : m₁.globals.cwdNode = dir := h₁.cwd
    rw [hcwd]
    have hread : Runs (readInode dir) m₁ Stopped fun n m' =>
        n = s.inode dir.toNat ∧ Realizes m' (goto s dir) := readInode_realizes h₁ hdir.1.1
    refine (hread.withRun.mono (fun _ _ _ => trivial) fun _ _ hq => hq).bind ?_
    rintro _ m₂ ⟨⟨rfl, h₂⟩, hrun₂⟩
    rw [if_neg (not_not.mpr hdir.2)]
    have hlisted : (option &&& lsL ≠ 0 : Bool) = true → ListingFits m₂ (s.inode dir.toNat) := by
      intro hopt
      refine hfits (of_decide_eq_true hopt) _ m₂ ?_
      have hnode : cwdNode.run m₁ = (.ok m₁.globals.cwdNode, m₁) := rfl
      unfold lsPrefix
      rw [run_bind_ok hrun₁, if_neg (by decide), run_bind_ok hnode, hcwd, run_bind_ok hrun₂,
        if_neg (not_not.mpr hdir.2)]
      rfl
    refine listing_realizes h₂ hlisted fun m₃ h₃ => ?_
    exact (print_realizes h₃ _).bind fun _ m₄ h₄ => hback 0 m₄ h₄
  · rw [if_pos rfl]
    exact hback _ _ h₁

/-- The counter of an inode goes up. -/
def countUp (s : FsState) (k : Nat) : FsState :=
  s.setInode k { s.inode k with linkCnt := (s.inode k).linkCnt + 1 }

/-- The result of `fs_ln` and what it leaves. -/
inductive LinkDone (s : FsState) (srcPath dstPath : List UInt8) : Int → FsState → Prop
  | missing : lookup s s.here srcPath = none → LinkDone s srcPath dstPath (-1) s
  | existed {e e' : DirEntry} : lookup s s.here srcPath = some e →
      lookup s s.here dstPath = some e' → LinkDone s srcPath dstPath 0 (countUp s e.inode.toNat)
  | created {e : DirEntry} {ino : UInt32} {q : Nat} {s₀ s₁ : FsState} :
      lookup s s.here srcPath = some e → Created s dstPath e.inode ino q s₀ s₁ →
      LinkDone s srcPath dstPath 0 (countUp s₁ e.inode.toNat)

theorem fsLn_done (h : Realizes m s) (ht : Tidy s) (hname : NameOk dstPath) :
    Runs (fsLn srcPath dstPath) m Full fun r m' =>
      ∃ s', Realizes m' s' ∧ LinkDone s srcPath dstPath r s' := by
  refine (lookup_tidy h ht).bind ?_
  rintro src m₁ ⟨h₁, ⟨q, e, hfinds, rfl, hnegative⟩ | ⟨hnone, hnegative⟩⟩
  · rw [hnegative, if_neg Bool.false_ne_true]
    have hlive := live_of_finds ht hfinds
    have hcount : ∀ {m : Machine Bytes Globals} {s₁ : FsState}, Realizes m s₁ →
        LinkDone s srcPath dstPath 0 (countUp s₁ e.inode.toNat) →
        Runs (do
          let inode ← readInode e.inode
          writeInode e.inode { inode with linkCnt := inode.linkCnt + 1 }
          return (0 : Int)) m Full fun r m' =>
            ∃ s', Realizes m' s' ∧ LinkDone s srcPath dstPath r s' := by
      intro m s₁ hm hdone
      refine (readInode_realizes hm hlive.1).bind ?_
      rintro _ m₃ ⟨rfl, h₃⟩
      refine (writeInode_realizes h₃ hlive.1).bind ?_
      exact fun _ m₄ h₄ => runs_pure ⟨_, h₄, hdone⟩
    refine (getInode_realizes h₁ ht.standing hname).bind ?_
    rintro dst m₂ ⟨s₂, h₂, ⟨rfl, q', e', hfinds', rfl⟩ | ⟨q', s₀, hcreated⟩⟩
    · rw [not_isNegative (live_of_finds ht hfinds').1, if_neg Bool.false_ne_true]
      exact hcount h₂ (.existed (lookup_of_finds hfinds) (lookup_of_finds hfinds'))
    · have hgiven : e.inode ≠ 0 → Live s e.inode.toNat := fun _ => hlive
      have hdst := hcreated.slotSet.leaves.live (live_of_provided hcreated.provided hgiven)
      rw [not_isNegative hdst.1, if_neg Bool.false_ne_true]
      exact hcount h₂ (.created (lookup_of_finds hfinds) hcreated)
  · rw [hnegative, if_pos rfl]
    refine (failWith_returns h₁ _).mono (fun _ _ he => he) ?_
    rintro _ m₂ ⟨rfl, h₂⟩
    exact ⟨s, h₂, .missing hnone⟩

/-- The counters do not matter. -/
theorem InOrder.recount (ho : InOrder s) (k : Nat) (count : UInt16) :
    InOrder (s.setInode k { s.inode k with linkCnt := count }) := by
  refine ⟨ho.tidy.setInode (fun r => by cases r <;> rfl) Iff.rfl fun htype => htype,
    fun k' hk' => ?_⟩
  rw [FsState.setInode_inode, Function.update_apply]
  split
  next heq =>
    rw [← heq]
    exact ho.typed k' hk'
  next => exact ho.typed k' hk'

theorem created_inOrder (ho : InOrder s) (hcreated : Created s path newInodeIdx ino q s₀ s₁)
    (hne : newInodeIdx ≠ 0) (hlive : Live s newInodeIdx.toNat) : InOrder s₁ := by
  have htidy := ho.tidy.created hcreated fun _ => hlive
  cases hcreated.provided with
  | new hzero _ _ => exact absurd hzero hne
  | given _ =>
      have hset := hcreated.slotSet
      refine ⟨htidy, fun k hk => ?_⟩
      rcases eq_or_ne k s.cwd.toNat with rfl | hkc
      · have hcwd := htidy.cwd.2
        rw [hset.leaves.cwd] at hcwd
        exact Or.inl hcwd
      · rw [hset.leaves.inode k hkc]
        exact ho.typed k (hset.leaves.of_live hk)

/-- `fs_ln` makes no name for the root directory; inode number 0 would stand
for a new inode. -/
def LinkOk (s : FsState) (srcPath dstPath : List UInt8) : Prop :=
  ∀ e, lookup s s.here srcPath = some e → e.inode ≠ 0 ∨ lookup s s.here dstPath ≠ none

theorem LinkDone.inOrder {r : Int} (h : LinkDone s srcPath dstPath r s') (ho : InOrder s)
    (hok : LinkOk s srcPath dstPath) : InOrder s' := by
  cases h with
  | missing _ => exact ho
  | existed _ _ => exact ho.recount _ _
  | created hsrc hcreated =>
      have hnone := lookup_of_misses hcreated.misses
      have hne := (hok _ hsrc).resolve_right fun hne => hne hnone
      exact (created_inOrder ho hcreated hne (live_of_lookup ho.tidy hsrc)).recount _ _

/-- The inode has no name but the one given, and it is not in use. -/
structure LastName (s : FsState) (path : List UInt8) (k : Nat) : Prop where
  names : ∀ k', Dir s k' → k' ≠ k → ∀ q e, slot s (s.inode k') q = some e → e.inode.toNat = k →
    k' = s.cwd.toNat ∧ e.name = path
  files : ∀ file, some file ∈ s.files → file.inodeIdx.toNat ≠ k

/-- The removal of a name: neither of the root nor of the current directory,
and the inode is given back with its last name only. -/
def RemoveOk (s : FsState) (path : List UInt8) (type : UInt8) : Prop :=
  ∀ e, lookup s s.here path = some e → (s.inode e.inode.toNat).type = type →
    (type = 1 → (s.inode e.inode.toNat).size = 0) → e.inode ≠ 0 ∧ s.cwd ≠ e.inode ∧
      ((s.inode e.inode.toNat).linkCnt = 1 → LastName s path e.inode.toNat)

theorem outerFits_of_freeingFits (h : Realizes m s) {p : UInt32} (hp : IsData p)
    (hfits : IndexFits m p.toNat) : OuterFits s p := by
  intro index hindex
  obtain ⟨-, hcard⟩ := hfits (by have := hp.1; omega) (sector_lt hp.2)
  have hshown := (h.data _ hp.1 hp.2 index hindex).1
  exact hcard index (hshown ▸ mayShow_visible m p.toNat)

/-- The inode after its name was removed. -/
inductive Dropped (s : FsState) (k : Nat) : FsState → Prop
  | counted : (s.inode k).linkCnt ≠ 1 →
      Dropped s k (s.setInode k { s.inode k with linkCnt := (s.inode k).linkCnt - 1 })
  | last : (s.inode k).linkCnt = 1 → Dropped s k (discarded s k)

/-- What `fs_rm` (for `type` 2) and `fs_rmdir` (for `type` 1) leave. -/
inductive Removed (s : FsState) (path : List UInt8) (type : UInt8) : FsState → Prop
  | kept : Removed s path type s
  | removed {q : Nat} {e : DirEntry} {s₁ s' : FsState} : Finds s s.here path 0 1024 q e →
      (s.inode e.inode.toNat).type = type → (type = 1 → (s.inode e.inode.toNat).size = 0) →
      SlotSet s s₁ q none → s₁.here.size = s.here.size - 1 → Dropped s₁ e.inode.toNat s' →
      Removed s path type s'

theorem removeName_dropped (h : Realizes m s) (ho : InOrder s)
    (hfinds : Finds s s.here path 0 1024 q e) (hcwd : s.cwd ≠ e.inode)
    (hfits : ∀ m₁, (removeInodeByFilename path).run m = (.ok (), m₁) →
      (s.inode e.inode.toNat).linkCnt = 1 → FreeingFits m₁ (s.inode e.inode.toNat)) :
    Runs (do removeInodeByFilename path; dropLink e.inode (s.inode e.inode.toNat)) m Any
      fun _ m' => ∃ s₁ s', Realizes m' s' ∧ SlotSet s s₁ q none ∧
        s₁.here.size = s.here.size - 1 ∧ Dropped s₁ e.inode.toNat s' := by
  have hlive := live_of_finds ho.tidy hfinds
  have hne : e.inode.toNat ≠ s.cwd.toNat := fun heq => hcwd (UInt32.toNat_inj.mp heq).symm
  have hremove : Runs (removeInodeByFilename path) m Any fun _ m' => ∃ s', Realizes m' s' ∧
      SlotSet s s' q none ∧ s'.here.size = s.here.size - 1 ∧ s'.blockUsed = s.blockUsed :=
    removeInode_realizes h ho.tidy.standing hfinds
  refine (hremove.withRun.mono (fun _ _ he => he) fun _ _ hq => hq).bind ?_
  rintro _ m₁ ⟨⟨s₁, h₁, hset, hsmaller, -⟩, hrun₁⟩
  have hlive₁ := hset.leaves.live hlive
  have hinode₁ := hset.leaves.inode _ hne
  rw [← hinode₁]
  refine (dropLink_realizes h₁ hlive₁ ?_ ?_).mono (fun _ _ he => he) ?_
  · exact fun _ r => indexed_of_owned hset.owned hlive₁ (fits_root r) (Nat.zero_add _)
  · intro hone
    have hfits₁ := hfits m₁ hrun₁ (by rw [← hinode₁]; exact hone)
    rw [← hinode₁] at hfits₁
    refine ⟨hfits₁.1, fun i hi => outerFits_of_freeingFits h₁ ?_ (hfits₁.2 i)⟩
    exact (hset.owned.isData _ hlive₁ ⟨.l2 i, []⟩ (fits_root _) hi).1
  rintro _ m₂ (⟨hcount, h₂⟩ | ⟨hone, h₂⟩)
  · exact ⟨s₁, _, h₂, hset, hsmaller, .counted hcount⟩
  · exact ⟨s₁, _, h₂, hset, hsmaller, .last hone⟩

theorem Removed.inOrder {type : UInt8} (h : Removed s path type s') (ho : InOrder s)
    (hok : RemoveOk s path type) : InOrder s' := by
  cases h with
  | kept => exact ho
  | @removed q e s₁ s' hfinds htype hsize hset hsmaller hdropped =>
      have hlive := live_of_finds ho.tidy hfinds
      obtain ⟨hroot, hcwd, hlast⟩ := hok e (lookup_of_finds hfinds) htype hsize
      have hne : s.cwd.toNat ≠ e.inode.toNat := fun heq => hcwd (UInt32.toNat_inj.mp heq)
      have htidy₁ : Tidy s₁ := ho.tidy.slotSet hset nofun
      have hlive₁ := hset.leaves.live hlive
      have hinode₁ := hset.leaves.inode _ hne.symm
      have htyped₁ : Typed s₁ := fun k hk => by
        rcases eq_or_ne k s.cwd.toNat with rfl | hkc
        · have hcwd₁ := htidy₁.cwd.2
          rw [hset.leaves.cwd] at hcwd₁
          exact Or.inl hcwd₁
        · rw [hset.leaves.inode k hkc]
          exact ho.typed k (hset.leaves.of_live hk)
      cases hdropped with
      | counted _ => exact InOrder.recount ⟨htidy₁, htyped₁⟩ _ _
      | last hone =>
          rw [hinode₁] at hone
          obtain ⟨hnames, hfiles⟩ := hlast hone
          have hroot' : e.inode.toNat ≠ 0 := fun heq => hroot (UInt32.toNat_inj.mp heq)
          refine ⟨htidy₁.discard hlive₁ hroot' (by rw [hset.leaves.cwd]; exact hne) ?_ ?_,
            fun k hk => htyped₁ k (live_discarded.mp hk).2⟩
          · intro k' hk' hk q' e' he' heq
            have hold : Dir s k' := by
              rcases eq_or_ne k' s.cwd.toNat with rfl | hkc
              · exact ho.tidy.cwd
              · exact (dir_of_leaves hset.leaves hkc).mp hk'
            rcases eq_or_ne k' s.cwd.toNat with rfl | hkc
            · rw [show s₁.inode s.cwd.toNat = s₁.here by rw [FsState.here, hset.leaves.cwd]] at he'
              rcases eq_or_ne q' q with rfl | hq
              · rw [hset.slot_self] at he'
                cases he'
              · rw [hset.slot_of_ne q' hq] at he'
                have hname := (hnames _ hold hk q' e' he' heq).2
                exact hq (ho.tidy.here.names q' q e' e he' hfinds.slot_eq
                  (hname.trans hfinds.name_eq.symm))
            · rw [hset.leaves.slot_eq hkc hold.1] at he'
              exact hkc (hnames k' hold hk q' e' he' heq).1
          · rw [hset.leaves.files]
            exact hfiles

theorem lookup_read (h : Realizes m s) (ht : Tidy s) :
    Runs (getInodeByFilename path false 0) m Any fun ino m₁ =>
      (getInodeByFilename path false 0).run m = (.ok ino, m₁) ∧ Realizes m₁ s ∧
        (lookup s s.here path = none ∧ isNegative ino = true ∨ isNegative ino = false ∧ ∃ q e,
          Finds s s.here path 0 1024 q e ∧ ino = e.inode ∧
            Runs (readInode ino) m₁ Any fun n m₂ => (readInode ino).run m₁ = (.ok n, m₂) ∧
              n = s.inode e.inode.toNat ∧ Realizes m₂ s) := by
  refine (lookup_tidy h ht).withRun.mono (fun _ _ he => he) ?_
  rintro ino m₁ ⟨⟨h₁, ⟨q, e, hfinds, rfl, hnegative⟩ | hmissing⟩, hrun₁⟩
  · refine ⟨hrun₁, h₁, Or.inr ⟨hnegative, q, e, hfinds, rfl, ?_⟩⟩
    refine (readInode_realizes h₁ (live_of_finds ht hfinds).1).withRun.mono (fun _ _ he => he) ?_
    rintro n m₂ ⟨⟨rfl, h₂⟩, hrun₂⟩
    exact ⟨hrun₂, rfl, h₂⟩
  · exact ⟨hrun₁, h₁, Or.inl hmissing⟩

theorem fsRm_removed (h : Realizes m s) (ho : InOrder s) (hfits : RemovalFits m 2 path)
    (hok : RemoveOk s path 2) :
    Runs (fsRm path) m Any fun _ m' => ∃ s', Realizes m' s' ∧ Removed s path 2 s' := by
  have hfail : ∀ {m : Machine Bytes Globals} (text : String), Realizes m s →
      Runs (failWith text) m Any fun _ m' => ∃ s', Realizes m' s' ∧ Removed s path 2 s' :=
    fun text h => (failWith_realizes h text).mono (fun _ _ he => he) fun _ _ h' => ⟨s, h', .kept⟩
  refine (lookup_read h ho.tidy).bind ?_
  rintro ino m₁ ⟨hrun₁, h₁, ⟨-, hnegative⟩ | ⟨hnegative, q, e, hfinds, rfl, hread⟩⟩
  · rw [hnegative, if_pos rfl]
    exact hfail _ h₁
  rw [hnegative, if_neg Bool.false_ne_true]
  refine hread.bind ?_
  rintro _ m₂ ⟨hrun₂, rfl, h₂⟩
  split
  next => exact hfail _ h₂
  next htype =>
    have htype' := not_not.mp htype
    have hsize : (2 : UInt8) = 1 → (s.inode e.inode.toNat).size = 0 := fun heq => by cases heq
    have hcwd := (hok e (lookup_of_finds hfinds) htype' hsize).2.1
    refine (removeName_dropped h₂ ho hfinds hcwd fun m₃ hrun₃ => hfits _ m₃ ?_).mono
      (fun _ _ he => he) fun _ _ ⟨s₁, s', h', hset, hsmaller, hdropped⟩ =>
        ⟨s', h', .removed hfinds htype' hsize hset hsmaller hdropped⟩
    unfold rmPrefix
    rw [run_bind_ok hrun₁, hnegative, if_neg Bool.false_ne_true, run_bind_ok hrun₂, if_neg htype,
      if_neg (by simp), run_bind_ok hrun₃]
    rfl

theorem fsRmdir_removed (h : Realizes m s) (ho : InOrder s) (hfits : RemovalFits m 1 path)
    (hok : RemoveOk s path 1) :
    Runs (fsRmdir path) m Any fun _ m' => ∃ s', Realizes m' s' ∧ Removed s path 1 s' := by
  have hfail : ∀ {m : Machine Bytes Globals} (text : String), Realizes m s →
      Runs (failWith text) m Any fun _ m' => ∃ s', Realizes m' s' ∧ Removed s path 1 s' :=
    fun text h => (failWith_realizes h text).mono (fun _ _ he => he) fun _ _ h' => ⟨s, h', .kept⟩
  refine (lookup_read h ho.tidy).bind ?_
  rintro ino m₁ ⟨hrun₁, h₁, ⟨-, hnegative⟩ | ⟨hnegative, q, e, hfinds, rfl, hread⟩⟩
  · rw [hnegative, if_pos rfl]
    exact hfail _ h₁
  rw [hnegative, if_neg Bool.false_ne_true]
  refine hread.bind ?_
  rintro _ m₂ ⟨hrun₂, rfl, h₂⟩
  split
  next => exact hfail _ h₂
  next htype =>
    split
    next => exact hfail _ h₂
    next hsize =>
      have htype' := not_not.mp htype
      have hsize' : (1 : UInt8) = 1 → (s.inode e.inode.toNat).size = 0 := fun _ => not_not.mp hsize
      have hcwd := (hok e (lookup_of_finds hfinds) htype' hsize').2.1
      refine (removeName_dropped h₂ ho hfinds hcwd fun m₃ hrun₃ => hfits _ m₃ ?_).mono
        (fun _ _ he => he) fun _ _ ⟨s₁, s', h', hset, hsmaller, hdropped⟩ =>
          ⟨s', h', .removed hfinds htype' hsize' hset hsmaller hdropped⟩
      unfold rmPrefix
      rw [run_bind_ok hrun₁, hnegative, if_neg Bool.false_ne_true, run_bind_ok hrun₂, if_neg htype,
        if_neg fun hboth => hsize hboth.2, run_bind_ok hrun₃]
      rfl

end LabKernel.TidyCalls
