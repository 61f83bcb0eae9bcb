import LabKernel.MindedRuns

/-!
Paths of `fs_mkdir` and `fs_cd`.

`fs_mkdir` takes its path for the name of one entry, `fs_cd` cuts it at every
`/`.
-/

namespace LabKernel.MkdirPaths

open LabKernel.BlindPrograms
open LabKernel.BlockCache
open LabKernel.BlockFreeing
open LabKernel.BlockObject
open LabKernel.BlockOwnership
open LabKernel.ByteMemory
open LabKernel.ComposedPrograms
open LabKernel.DirectData
open LabKernel.Directories
open LabKernel.DirectoryCalls
open LabKernel.FsCode
open LabKernel.FsLayout
open LabKernel.FsPrimitives
open LabKernel.FsRuns
open LabKernel.FsTables
open LabKernel.FsView
open LabKernel.MindedRuns
open LabKernel.PathWalks
open LabKernel.ProgramLogic
open LabKernel.TidyCalls
open LabKernel.TidyDisk
open LabKernel.TidyRuns
open LabKernel.TransitionSystem

variable {m m' : Machine Bytes Globals} {s s' s₀ s₁ : FsState} {path name : List UInt8}
  {names : List (List UInt8)} {k q : Nat} {e : DirEntry} {ino dir : UInt32} {r : Int}

theorem notMem_of_mem_splitOn (h : name ∈ path.splitOn 47) : 47 ∉ name := by
  induction path generalizing name with
  | nil =>
      rw [List.splitOn_nil, List.mem_singleton] at h
      rw [h]
      exact List.not_mem_nil
  | cons c rest ih =>
      rw [splitOn_cons] at h
      split at h
      next =>
        rcases List.mem_cons.mp h with rfl | h
        · exact List.not_mem_nil
        · exact ih h
      next hc =>
        cases hsplit : rest.splitOn 47 with
        | nil =>
            rw [hsplit] at h
            cases h
        | cons first others =>
            rw [hsplit] at h ih
            rcases List.mem_cons.mp h with rfl | h
            · exact List.not_mem_cons_of_ne_of_not_mem (Ne.symm hc) (ih List.mem_cons_self)
            · exact ih (List.mem_cons_of_mem _ h)

theorem notMem_of_mem_pieces (h : name ∈ pieces path) : 47 ∉ name := by
  have hsplit : name ∈ path.splitOn 47 := by
    unfold pieces trim at h
    split at h
    next => exact List.mem_of_mem_dropLast h
    next => exact h
  exact notMem_of_mem_splitOn hsplit

theorem pieces_of_notMem (h : 47 ∉ path) (hne : path ≠ []) : pieces path = [path] := by
  unfold pieces trim
  rw [List.splitOn_eq_singleton h, List.getLast?_singleton,
    if_neg fun heq => hne (Option.some.inj heq)]

/-- The name `path` was created for the directory `ino`. -/
structure NewDir (s : FsState) (path : List UInt8) (ino : UInt32) (s' : FsState) : Prop where
  tidy : Tidy s'
  dead : ¬Live s ino.toNat
  dir : Dir s' ino.toNat
  cwd : s'.cwd.toNat ≠ ino.toNat
  live : ∀ k ≠ ino.toNat, Live s' k → Live s k
  lookup_eq : lookup s' s'.here path = some ⟨ino, 1, path⟩
  named : ∀ k ≠ ino.toNat, Dir s' k → ∀ q e, slot s' (s'.inode k) q = some e → e.inode = ino →
    e.name = path

theorem newDir_of_made (h : InOrder s) (hcreated : Created s path 0 ino q s₀ s₁)
    (hmade : Made s₁ ino s') : NewDir s path ino s' := by
  have hnew := newName_of_created h hcreated
  have hlookup₁ := created_lookup h.tidy hcreated fun hne => absurd rfl hne
  have hcwd₁ : s₁.cwd = s.cwd :=
    hcreated.slotSet.leaves.cwd.trans (hcreated.provided.here_eq h.tidy.standing).1
  have hcwd : s'.cwd = s.cwd := hmade.leaves.cwd.trans hcwd₁
  have hne : s.cwd.toNat ≠ ino.toNat := by
    intro heq
    apply hnew.dead
    rw [← heq]
    exact h.tidy.cwd.1
  have htidy := hnew.tidy.made hmade hnew.live hnew.inode
  refine ⟨htidy, hnew.dead, ⟨hmade.leaves.live hnew.live, hmade.type⟩, by rwa [hcwd], ?_, ?_, ?_⟩
  · intro k hk hlive
    have hlive₁ := hcreated.slotSet.leaves.of_live (hmade.leaves.of_live hlive)
    cases hcreated.provided with
    | given hzero => exact absurd rfl hzero
    | new _ _ _ => exact ⟨hlive₁.1, (Function.update_of_ne hk ..).symm.trans hlive₁.2⟩
  · have hlive₁ : Live s₁ s.cwd.toNat := by
      rw [← hcwd₁]
      exact hnew.tidy.cwd.1
    have hslot : ∀ q, slot s' s'.here q = slot s₁ s₁.here q := by
      intro q
      rw [FsState.here, FsState.here, hcwd, hcwd₁]
      exact hmade.leaves.slot_eq hne hlive₁ q
    rw [lookup_congr hslot, hlookup₁]
  · intro k hk hdir q' e he hino
    have hdir₁ := (dir_of_leaves hmade.leaves hk).mp hdir
    rw [hmade.leaves.slot_eq hk hdir₁.1] at he
    rcases created_entry h.tidy hcreated hdir₁ he with ⟨-, -, rfl⟩ | ⟨hold, he⟩
    · rfl
    · have hlive := (h.tidy.folder k hold).entries q' e he
      rw [hino] at hlive
      exact absurd hlive hnew.dead

theorem NewDir.follow_ne (h : NewDir s path ino s') (hdir : Dir s' dir.toNat)
    (hne : dir.toNat ≠ ino.toNat) (hnames : ∀ name ∈ names, name ≠ path) :
    follow s' dir names ≠ some ino := by
  induction names generalizing dir with
  | nil =>
      intro hfollow
      exact hne (congrArg UInt32.toNat (Option.some.inj hfollow))
  | cons name rest ih =>
      intro hfollow
      rw [follow_cons] at hfollow
      obtain ⟨next, henter, hrest⟩ := Option.bind_eq_some_iff.mp hfollow
      obtain ⟨e, he, hnext⟩ := Option.bind_eq_some_iff.mp henter
      split at hnext
      next htype =>
        cases hnext
        have hlive := Folder.live (h.tidy.folder _ hdir) he
        refine ih ⟨hlive, htype⟩ (fun heq => ?_) (fun name hmem => hnames name
          (List.mem_cons_of_mem _ hmem)) hrest
        rcases lookup_cases s' (s'.inode dir.toNat) name with ⟨q, e', hfinds, heq'⟩ | ⟨-, hnone⟩
        · obtain rfl := Option.some.inj (he.symm.trans heq')
          have hpath := h.named _ hne hdir q e hfinds.slot_eq (UInt32.toNat_inj.mp heq)
          exact hnames name List.mem_cons_self (hfinds.name_eq.symm.trans hpath)
        · rw [hnone] at he
          cases he
      next => cases hnext

theorem NewDir.follow_self (h : NewDir s path ino s') : follow s' s'.cwd [path] = some ino := by
  have hlookup : lookup s' (s'.inode s'.cwd.toNat) path = some ⟨ino, 1, path⟩ := h.lookup_eq
  rw [follow_cons, enter, hlookup, Option.bind_some, if_pos h.dir.2]
  rfl

/-- `fs_cd` returns 0 and leaves the process in a directory that was not there
before. -/
def EntersNew (path : List UInt8) (m m' : Machine Bytes Globals) : Prop :=
  ∃ m'', (fsCd path).run m' = (.ok 0, m'') ∧
    inodeBit m m''.globals.cwdNode.toNat = false ∧ inodeBit m' m''.globals.cwdNode.toNat = true

theorem entersNew_iff (h : Realizes m s) (h' : Realizes m' s') (hnew : NewDir s path ino s') :
    EntersNew path m m' ↔ follow s' s'.cwd (pieces path) = some ino := by
  have hdead : inodeBit m ino.toNat = false := by
    rw [h.inodeUsed _ hnew.dir.1.1]
    by_contra hused
    exact hnew.dead ⟨hnew.dir.1.1, Bool.eq_true_of_not_eq_false hused⟩
  constructor
  · rintro ⟨m'', hrun, hfree, -⟩
    rcases (fsCd_tidy h' hnew.tidy path).ok hrun with ⟨-, hfollow, h''⟩ | ⟨hr, -, -⟩
    · rename_i dir
      have hdir := dir_of_follow hnew.tidy hnew.tidy.cwd hfollow
      have hcwd : m''.globals.cwdNode = dir := h''.cwd
      rw [hcwd] at hfree
      rcases eq_or_ne dir.toNat ino.toNat with heq | hne
      · rw [hfollow, UInt32.toNat_inj.mp heq]
      · have hlive := hnew.live _ hne hdir.1
        rw [h.inodeUsed _ hlive.1, hlive.2] at hfree
        cases hfree
    · cases hr
  · intro hfollow
    obtain ⟨r, m'', hrun, hwalked⟩ := (fsCd_tidy h' hnew.tidy path).returns fun _ _ he => he
    rcases hwalked with ⟨rfl, hfollow', h''⟩ | ⟨-, hnone, -⟩
    · obtain rfl := Option.some.inj (hfollow.symm.trans hfollow')
      have hcwd : m''.globals.cwdNode = ino := h''.cwd
      refine ⟨m'', hrun, ?_, ?_⟩
      · rw [hcwd]
        exact hdead
      · rw [hcwd, h'.inodeUsed _ hnew.dir.1.1]
        exact hnew.dir.1.2
    · rw [hfollow] at hnone
      cases hnone

theorem entersNew_closed : EntersNew path (closed m) (closed m') ↔ EntersNew path m m' := by
  have hblind := commutes_of_composed (composed_fsCd path) []
  constructor
  · rintro ⟨m₁, hrun, hfree, hused⟩
    obtain ⟨m'', hrun', rfl⟩ := hblind.of_run hrun
    exact ⟨m'', hrun', hfree, hused⟩
  · rintro ⟨m'', hrun, hfree, hused⟩
    exact ⟨closed m'', hblind.run_ok hrun, hfree, hused⟩

/-- In every run of minded calls, `fs_cd` enters the directory that `fs_mkdir`
made exactly if the path has no separator. -/
theorem mkdir_cd_iff (h : ReachableUnder fileSystem Minded m) (hname : NameOk path)
    (hne : path ≠ []) (hrun : (fsMkdir path).run m = (.ok 0, m')) :
    EntersNew path m m' ↔ 47 ∉ path := by
  obtain ⟨s, hs, ho⟩ := ordered_of_minded h
  have hclosed := (commutes_of_composed (composed_fsMkdir path) []).run_ok hrun
  obtain ⟨s', hs', hmade⟩ := (fsMkdir_made hs ho hname).ok hclosed
  obtain ⟨ino, hnew⟩ : ∃ ino, NewDir s path ino s' := by
    generalize hr : (0 : Int) = r at hmade
    cases hmade with
    | made hcreated hmade => exact ⟨_, newDir_of_made ho hcreated hmade⟩
    | existed _ => cases hr
  rw [← entersNew_closed]
  rw [entersNew_iff hs hs' hnew]
  constructor
  · intro hfollow hslash
    refine hnew.follow_ne hnew.tidy.cwd hnew.cwd (fun name hmem heq => ?_) hfollow
    rw [heq] at hmem
    exact notMem_of_mem_pieces hmem hslash
  · intro hslash
    rw [pieces_of_notMem hslash hne]
    exact hnew.follow_self

theorem reformattedDirectory_entered : ∃ m m',
    replay next blankFormatted [.fopen [97] 3, .mkfs] = some m ∧ m.globals.files.length = 1 ∧
      (fsMkdir [97]).run m = (.ok 0, m') ∧ EntersNew [97] m m' := by
  have hfacts : (replay next blankFormatted [.fopen [97] 3, .mkfs]).map (fun m =>
      (m.globals.files.length, returned ((fsMkdir [97]).run m).1)) = some (1, some 0) := by
    rw [blankFormatted_eq]
    decide +kernel
  obtain ⟨m, hreplay, hboth⟩ := Option.map_eq_some_iff.mp hfacts
  obtain ⟨hopen, hresult⟩ := Prod.mk.inj hboth
  have hrun := run_eq_of_returned hresult
  have hname : NameOk [97] := nameOk_singleton (by decide)
  exact ⟨m, _, hreplay, hopen, hrun,
    (mkdir_cd_iff (minded_reformatted hreplay) hname (by decide) hrun).mpr (by decide)⟩

theorem throughDirectory_walked : ∃ m s dir, next blankFormatted (.mkdir [97]) = some m ∧
    Realizes m s ∧ Walkable s s.cwd [[97], dotDot] ∧ follow s s.cwd [[97], dotDot] = some dir := by
  have hfacts : (next blankFormatted (.mkdir [97])).map
      (fun m => returned ((fsCd [97, 47, 46, 46]).run m).1) = some (some 0) := by
    rw [blankFormatted_eq]
    decide +kernel
  obtain ⟨m, hnext, hresult⟩ := Option.map_eq_some_iff.mp hfacts
  have hm : ReachableUnder fileSystem Tended m :=
    (ReachableUnder.start formatted_blankFormatted).step
      (a := .mkdir [97]) ⟨trivial, nameOk_singleton (by decide)⟩ hnext
  obtain ⟨s, hs, htidy, hwalkable⟩ := walkable_of_tended hm [97, 47, 46, 46]
  rcases (fsCd_tidy hs htidy _).ok (run_eq_of_returned hresult) with ⟨-, hfollow, -⟩ | ⟨hr, -, -⟩
  · exact ⟨m, s, _, hnext, hs, hwalkable, hfollow⟩
  · cases hr

/-- `fs_mkdir` takes a path with a separator for one name, and `fs_cd` does not
find it. -/
theorem slashDirectory_not_entered : ∃ m', Reachable fileSystem blankFormatted ∧
    (fsMkdir [97, 47, 98]).run blankFormatted = (.ok 0, m') ∧
      ¬EntersNew [97, 47, 98] blankFormatted m' := by
  have hfacts : returned ((fsMkdir [97, 47, 98]).run blankFormatted).1 = some 0 ∧
      returned ((fsCd [97, 47, 98]).run ((fsMkdir [97, 47, 98]).run blankFormatted).2).1 =
        some (-1) := by
    rw [blankFormatted_eq]
    decide +kernel
  have hrun := run_eq_of_returned hfacts.1
  refine ⟨_, ReachableUnder.start formatted_blankFormatted, hrun, ?_⟩
  rintro ⟨m'', hcd, -⟩
  have hback := run_eq_of_returned hfacts.2
  rw [hcd] at hback
  cases (Prod.mk.inj hback).1

end LabKernel.MkdirPaths
