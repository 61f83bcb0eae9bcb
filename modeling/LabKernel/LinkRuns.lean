import LabKernel.LinkCounts

/-!
Link counts in whole runs: linking and writing, the conditions under which the
counts stay right, and what goes wrong without them.
-/

namespace LabKernel.LinkRuns

open LabKernel.BlockCache
open LabKernel.BlockFreeing
open LabKernel.BlockObject
open LabKernel.BlockOwnership
open LabKernel.ByteMemory
open LabKernel.DirectData
open LabKernel.Directories
open LabKernel.DirectoryCalls
open LabKernel.FileWrites
open LabKernel.Formatting
open LabKernel.FsCode
open LabKernel.FsLayout
open LabKernel.FsPrimitives
open LabKernel.FsRuns
open LabKernel.FsTables
open LabKernel.FsView
open LabKernel.HandleRecycling
open LabKernel.LinkCounts
open LabKernel.ProgramLogic
open LabKernel.TransitionSystem

variable {m m' : Machine Bytes Globals} {s s' : FsState} {path srcPath dstPath : List UInt8}
  {k fd length : Nat} {e : DirEntry} {src : UInt32} {file file' : File} {buff : Bytes}

theorem type_eq_one_iff (h : Flat s) (hk : Live s k) : (s.inode k).type = 1 ↔ k = 0 := by
  refine ⟨h.only k hk, ?_⟩
  rintro rfl
  have hroot := h.standing.type
  rwa [FsState.here, h.cwd_toNat] at hroot

/-- A new link is a new name of a file, and a link that exists already is not
counted. -/
def LnOk (s : FsState) (srcPath dstPath : List UInt8) : Prop :=
  ∀ e ∈ lookup s s.here srcPath,
    (lookup s s.here dstPath = none → (s.inode e.inode.toNat).type ≠ 0 ∧ Spares s) ∧
      (lookup s s.here dstPath ≠ none → (s.inode e.inode.toNat).type ≠ 2)

theorem countUp_other (h : Linked s) (hk : Live s k) (htype : (s.inode k).type ≠ 2) :
    Linked (s.setInode k { s.inode k with linkCnt := (s.inode k).linkCnt + 1 }) := by
  apply Linked.setInode h.flat (fun k' _ => h.counted k')
  · intro r
    cases r <;> rfl
  · exact type_eq_one_iff h.flat hk
  · exact fun hfile => absurd hfile htype
  · exact (h.counted k).untyped hk

theorem created_linked {newInodeIdx ino : UInt32} (h : NewName s newInodeIdx ino s')
    (hsrc : Live s newInodeIdx.toNat) (hl : Linked s)
    (htype : (s.inode newInodeIdx.toNat).type ≠ 0) :
    Linked (s'.setInode newInodeIdx.toNat { s'.inode newInodeIdx.toNat with
      linkCnt := (s'.inode newInodeIdx.toNat).linkCnt + 1 }) := by
  rcases eq_or_ne newInodeIdx 0 with rfl | hne
  · -- The root directory cannot be linked; the new name gets an inode of its own.
    obtain ⟨hcount, hinode⟩ := h.empty rfl
    have hlinked : Linked s' := by
      refine ⟨h.flat, fun k => ?_⟩
      rcases eq_or_ne k ino.toNat with rfl | hk
      · refine ⟨fun _ htype' => ?_, fun _ _ => hcount.le⟩
        rw [hinode] at htype'
        cases htype'
      · exact h.counted k hk
    have hroot : (s'.inode 0).type = 1 := by
      have hroot := h.flat.standing.type
      rwa [FsState.here, h.flat.cwd_toNat] at hroot
    have hlive : Live s' 0 := by
      have hlive := h.flat.standing.live
      rwa [h.flat.cwd_toNat] at hlive
    exact countUp_other hlinked hlive (by rw [UInt32.toNat_zero, hroot]; decide)
  · obtain ⟨rfl, hinode, hcount⟩ := h.given hne
    apply Linked.setInode h.flat h.counted
    · intro r
      cases r <;> rfl
    · exact type_eq_one_iff h.flat h.live
    · intro hfile
      have hfile : (s'.inode ino.toNat).type = 2 := hfile
      rw [hinode] at hfile ⊢
      have hold := (hl.counted _).file hsrc hfile
      have hle := count_le s ino.toNat
      dsimp only
      rw [hcount hfile, UInt16.toNat_add, hold]
      have hone : (1 : UInt16).toNat = 1 := rfl
      omega
    · intro huntyped
      have huntyped : (s'.inode ino.toNat).type = 0 := huntyped
      rw [hinode] at huntyped
      exact absurd huntyped htype

theorem fsLn_linked (h : Realizes m s) (hl : Linked s) (hname : NameOk dstPath)
    (hok : LnOk s srcPath dstPath) :
    Runs (fsLn srcPath dstPath) m Any fun _ m' => ∃ s', Realizes m' s' ∧ Linked s' := by
  refine (lookup_linked h hl).bind ?_
  rintro src m₁ ⟨h₁, ⟨q, e, hfinds, rfl, hnegative⟩ | ⟨hnone, hnegative⟩⟩
  · rw [hnegative, if_neg Bool.false_ne_true]
    obtain ⟨hlive, -⟩ := finds_live hl.flat hfinds
    obtain ⟨hnew, hold⟩ := hok e (lookup_of_finds hfinds)
    refine ((getInode_realizes h₁ hl.flat.standing hname).mono (fun _ _ _ => trivial)
      (fun _ _ hq => hq)).bind ?_
    rintro dst m₂ ⟨s₂, h₂, ⟨rfl, q', e', hfinds', rfl⟩ | ⟨q', s₀, hcreated⟩⟩
    · obtain ⟨hlive', -⟩ := finds_live hl.flat hfinds'
      rw [not_isNegative hlive'.1, if_neg Bool.false_ne_true]
      refine (readInode_realizes h₂ hlive.1).bind ?_
      rintro _ m₃ ⟨rfl, h₃⟩
      refine (writeInode_realizes h₃ hlive.1).bind ?_
      intro _ m₄ h₄
      refine runs_pure ⟨_, h₄, countUp_other hl hlive (hold ?_)⟩
      rw [lookup_of_finds hfinds']
      exact nofun
    · obtain ⟨htype, hroom⟩ := hnew (lookup_of_misses hcreated.misses)
      have hnamed := created_newName hcreated hl hroom fun _ => hlive
      rw [not_isNegative hnamed.live.1, if_neg Bool.false_ne_true]
      refine (readInode_realizes h₂ hlive.1).bind ?_
      rintro _ m₃ ⟨rfl, h₃⟩
      refine (writeInode_realizes h₃ hlive.1).bind ?_
      intro _ m₄ h₄
      exact runs_pure ⟨_, h₄, created_linked hnamed hlive hl htype⟩
  · rw [hnegative, if_pos rfl]
    refine (failWith_realizes h₁ _).mono (fun _ _ he => he) fun _ m₂ h₂ => ?_
    exact ⟨s, h₂, hl⟩

/-- The inode in the object of an open file is the one on the disk.  Its link
count may differ as long as the write does not change the inode. -/
structure Current (s : FsState) (file : File) (length : Nat) : Prop where
  live : Live s file.inodeIdx.toNat
  pointer : ∀ r, pointer file.inode r = pointer (s.inode file.inodeIdx.toNat) r
  type : file.inode.type = (s.inode file.inodeIdx.toNat).type
  linkCnt : file.inode.linkCnt = (s.inode file.inodeIdx.toNat).linkCnt ∨
    InPlace file.inode file.filePtr.toNat length

theorem written_linked (h : Written k s file file' length s') (hl : Linked s) (howned : Owned s')
    (hk : file.inodeIdx.toNat = k) (hcurrent : Current s file length) (hne : k ≠ 0) :
    Linked s' := by
  subst hk
  set k := file.inodeIdx.toNat
  have hcwd : s'.cwd = s.cwd := h.leaves.cwd
  have hroot : s.cwd.toNat ≠ k := by
    rw [hl.flat.cwd_toNat]
    exact hne.symm
  have hhere : s'.here = s.here := by
    rw [FsState.here, hcwd]
    exact h.leaves.inode _ hroot
  have hslot : ∀ q, slot s' s'.here q = slot s s.here q := by
    intro q
    rw [FsState.here, hcwd]
    exact h.leaves.slot_eq hroot hl.flat.standing.live q
  have htype : ∀ k', (s'.inode k').type = (s.inode k').type := by
    intro k'
    rcases eq_or_ne k' k with rfl | hk'
    · rcases h.inode with heq | ⟨heq, -⟩
      · rw [heq]
      · rw [heq, h.type, hcurrent.type]
    · rw [h.leaves.inode k' hk']
  have hlinkCnt : ∀ k', (s'.inode k').linkCnt = (s.inode k').linkCnt := by
    intro k'
    rcases eq_or_ne k' k with rfl | hk'
    · rcases h.inode with heq | ⟨heq, hplace⟩
      · rw [heq]
      · rw [heq, h.linkCnt]
        exact hcurrent.linkCnt.resolve_right hplace
    · rw [h.leaves.inode k' hk']
  refine ⟨⟨⟨howned, ?_, ?_, ?_⟩, hcwd.trans hl.flat.cwd, ?_, ?_, ?_⟩, fun k' => ⟨?_, ?_⟩⟩
  · rw [hcwd]
    exact h.leaves.live hl.flat.standing.live
  · have hblocks := h.leaves.hasBlocks hroot hl.flat.standing.live hl.flat.standing.hasBlocks
    rwa [← hcwd] at hblocks
  · rw [hhere]
    exact hl.flat.standing.type
  · intro k' hk' hdir
    rw [htype] at hdir
    exact hl.flat.only k' (h.leaves.of_live hk') hdir
  · intro q e he
    rw [hslot] at he
    exact h.leaves.live (hl.flat.entries q e he)
  · rw [h.leaves.files]
    exact hl.flat.files
  · intro hk' hfile
    rw [htype] at hfile
    rw [hlinkCnt, count_congr hslot]
    exact (hl.counted k').file (h.leaves.of_live hk') hfile
  · intro hk' huntyped
    rw [htype] at huntyped
    rw [count_congr hslot]
    exact (hl.counted k').untyped (h.leaves.of_live hk') huntyped

/-- A file that is written is up to date. -/
def FwriteOk (s : FsState) (fd length : Nat) : Prop :=
  ∀ file ∈ (s.files[fd]?).join, file.mode &&& oWronly ≠ 0 → length ≠ 0 → Current s file length

theorem fileTransfer_idle (h : ¬(file.mode &&& oWronly ≠ 0 ∧ length ≠ 0)) (buff : Bytes)
    (m : Machine Bytes Globals) : ∃ result,
    (fileTransfer true file buff length).run m = (.ok (file, buff, result), m) := by
  unfold fileTransfer
  rw [if_pos rfl]
  rcases eq_or_ne (file.mode &&& oWronly) 0 with hmode | hmode
  · rw [if_pos hmode]
    exact ⟨_, rfl⟩
  · have hlength : length = 0 := by
      by_contra hne
      exact h ⟨hmode, hne⟩
    subst hlength
    rw [if_neg hmode]
    exact ⟨_, rfl⟩

theorem fsFwrite_linked (h : Realizes m s) (hl : Linked s) (hok : FwriteOk s fd length) :
    Runs (fsFwrite fd buff length) m Any fun _ m' => ∃ s', Realizes m' s' ∧ Linked s' := by
  refine (getFile_realizes h fd).bind ?_
  rintro _ m ⟨rfl, rfl⟩
  cases hfile : (s.files[fd]?).join with
  | none => exact runs_pure ⟨s, h, hl⟩
  | some file =>
      have hmem : some file ∈ s.files :=
        List.mem_of_getElem? (Option.join_eq_some_iff.mp hfile)
      have htype := hl.flat.files file hmem
      have hstore : ∀ {s₁ : FsState} {m₁ : Machine Bytes Globals} {file₁ : File},
          Realizes m₁ s₁ → Linked s₁ → s₁.files = s.files → file₁.inode.type = file.inode.type →
          Runs (setFile fd (some file₁)) m₁ Any fun _ m' => ∃ s', Realizes m' s' ∧ Linked s' := by
        intro s₁ m₁ file₁ h₁ hl₁ hfiles hsame
        refine (setFile_realizes h₁ fd (some file₁)).mono (fun _ _ he => he) ?_
        intro _ m₂ h₂
        refine ⟨_, h₂, hl₁.setFiles fun file₂ hfile₂ => ?_⟩
        rcases List.mem_or_eq_of_mem_set hfile₂ with hold | heq
        · exact hl₁.flat.files file₂ hold
        · rw [Option.some.inj heq, hsame]
          exact htype
      rcases em (file.mode &&& oWronly ≠ 0 ∧ length ≠ 0) with ⟨hmode, hlength⟩ | hidle
      · have hcurrent := hok file hfile hmode hlength
        have hne : file.inodeIdx.toNat ≠ 0 :=
          hl.flat.ne_zero_of_type (by rw [← hcurrent.type]; exact htype)
        refine ((fileTransfer_realizes h hl.flat.standing.owned hcurrent.live hcurrent.pointer
          (direct_write _ _)).mono (fun _ _ _ => trivial) (fun _ _ hq => hq)).bind ?_
        rintro ⟨file₁, buff₁, result⟩ m₁ ⟨s₁, h₁, howned₁, hwritten, -⟩
        have hl₁ := written_linked hwritten hl howned₁ rfl hcurrent hne
        refine (hstore h₁ hl₁ hwritten.leaves.files hwritten.type).bind ?_
        exact fun _ _ hq => runs_pure hq
      · obtain ⟨result, hrun⟩ := fileTransfer_idle hidle buff m
        apply runs_bind
        apply runs_of_ok hrun
        refine (hstore h hl rfl rfl).bind ?_
        exact fun _ _ hq => runs_pure hq

section Shown

theorem inode_shown (h : Realizes m s) (hk : k < maxInodeNum) : (shown m).inode k = s.inode k :=
  h.inode k hk

theorem slot_here_shown (h : Realizes m s) (hs : Standing s) (q : Nat) :
    slot (shown m) (shown m).here q = slot s s.here q := by
  rw [here_shown h hs.live]
  exact slot_shown h hs.hasBlocks q

theorem lookup_shown (h : Realizes m s) (hs : Standing s) (path : List UInt8) :
    lookup (shown m) (shown m).here path = lookup s s.here path :=
  lookup_congr (slot_here_shown h hs)

theorem spares_of_shown (h : Realizes m s) (hs : Flat s) (hroom : Spares (shown m)) : Spares s := by
  unfold Spares at hroom ⊢
  simp only [slot_here_shown h hs.standing] at hroom
  refine hroom.imp (fun hfree => hfree) fun hspared e he => ?_
  rw [← inode_shown h (hs.entries 0 e he).1]
  exact hspared e he

theorem live_of_lookup (hs : Flat s) (h : lookup s s.here path = some e) :
    Live s e.inode.toNat := by
  rcases lookup_cases s s.here path with ⟨q, e', hfinds, heq⟩ | ⟨-, hnone⟩
  · obtain rfl := Option.some.inj (h.symm.trans heq)
    exact (finds_live hs hfinds).1
  · rw [hnone] at h
    cases h

theorem lnOk_of_shown (h : Realizes m s) (hs : Flat s) (hok : LnOk (shown m) srcPath dstPath) :
    LnOk s srcPath dstPath := by
  unfold LnOk at hok
  rw [lookup_shown h hs.standing, lookup_shown h hs.standing] at hok
  intro e he
  obtain ⟨hnew, hold⟩ := hok e he
  rw [inode_shown h (live_of_lookup hs he).1] at hnew hold
  exact ⟨fun hnone => ⟨(hnew hnone).1, spares_of_shown h hs (hnew hnone).2⟩, hold⟩

theorem fwriteOk_of_shown (h : Realizes m s) (hok : FwriteOk (shown m) fd length) :
    FwriteOk s fd length := by
  intro file hfile hmode hlength
  have hfiles : (shown m).files = s.files := h.files
  obtain ⟨hlive, hpointer, htype, hlinkCnt⟩ := hok file (hfiles ▸ hfile) hmode hlength
  have hlive := (live_shown h).mp hlive
  rw [inode_shown h hlive.1] at htype hlinkCnt
  simp only [inode_shown h hlive.1] at hpointer
  exact ⟨hlive, hpointer, htype, hlinkCnt⟩

/-- A file without index blocks. -/
def OnlyDirect (n : Inode) : Prop := (∀ i, n.dataL1 i = 0) ∧ (∀ i, n.dataL2 i = 0) ∧ n.dataL3 = 0

theorem OnlyDirect.treeFits {n : Inode} (h : OnlyDirect n) (s : FsState) : TreeFits s n :=
  ⟨h.2.2, fun i hi => absurd (h.2.1 i) hi⟩

/-- A file that loses its last name has no index blocks, which `fs_rm` would
not free. -/
def RmOk (s : FsState) (path : List UInt8) : Prop :=
  ∀ e ∈ lookup s s.here path, (s.inode e.inode.toNat).type = 2 →
    (s.inode e.inode.toNat).linkCnt = 1 → OnlyDirect (s.inode e.inode.toNat)

theorem rmOk_of_shown (h : Realizes m s) (hs : Flat s) (hok : RmOk (shown m) path) :
    RmOk s path := by
  unfold RmOk at hok
  rw [lookup_shown h hs.standing] at hok
  intro e he
  have hok := hok e he
  rw [inode_shown h (live_of_lookup hs he).1] at hok
  exact hok

end Shown

/-- A new name overwrites no other. -/
def CreateOk (s : FsState) (path : List UInt8) : Prop :=
  NameOk path ∧ (lookup s s.here path = none → Spares s)

/-- The calls considered, and when they keep the counts right. -/
def Orderly (m : Machine Bytes Globals) : FsOp → Prop
  | .touch path => CreateOk (shown m) path
  | .fopen path _ => CreateOk (shown m) path
  | .fwrite fd _ length => FwriteOk (shown m) fd length
  | .fclose _ => True
  | .ln srcPath dstPath => NameOk dstPath ∧ LnOk (shown m) srcPath dstPath
  | .rm path => RmOk (shown m) path
  | _ => False

def Counts (m : Machine Bytes Globals) : Prop := ∃ s, Realizes m s ∧ Linked s

theorem counts_formatted (h : Formatted m) : Counts m := by
  obtain ⟨s, p, hrealizes, hinitial⟩ := formatted_realizes h
  have honly : ∀ k, Live s k → k = 0 := fun k hk => by
    have hused := hk.2
    rw [hinitial.inodeUsed] at hused
    exact of_decide_eq_true hused
  have hroot : Live s 0 := ⟨by decide, (hinitial.inodeUsed 0).trans rfl⟩
  have hflat : Flat s := by
    refine ⟨hinitial.standing, hinitial.cwd, fun k hk _ => honly k hk, fun q e he => ?_, ?_⟩
    · rw [hinitial.slot_eq] at he
      split at he
      next =>
        cases he
        exact hroot
      next =>
        split at he
        next =>
          cases he
          exact hroot
        next => cases he
    · rw [hinitial.files]
      exact fun _ hfile => absurd hfile List.not_mem_nil
  refine ⟨s, hrealizes, hflat, fun k => ⟨fun hk => ?_, fun hk => ?_⟩⟩
  · rw [honly k hk]
    exact (counted_root hflat).file hroot
  · rw [honly k hk]
    exact (counted_root hflat).untyped hroot

theorem counts_next {op : FsOp} (h : Counts m) (hok : Orderly m op) (hnext : next m op = some m') :
    Counts m' := by
  obtain ⟨s, h, hl⟩ := h
  have hrun := program_run_of_next hnext
  have hcall : ∀ {p : Fs Int}, op.program = (do let _ ← p) →
      Runs p m Any (fun _ m' => Counts m') → Counts m' := by
    intro p hp hruns
    rw [hp] at hrun
    exact Runs.ok (Q := fun _ m' => Counts m') (hruns.bind fun _ _ hq => runs_pure hq) hrun
  have hcreate : ∀ {path}, CreateOk (shown m) path → lookup s s.here path = none → Spares s := by
    intro path hcreate hnone
    rw [← lookup_shown h hl.flat.standing] at hnone
    exact spares_of_shown h hl.flat (hcreate.2 hnone)
  cases op with
  | touch path => exact hcall rfl (fsTouch_linked h hl hok.1 (hcreate hok))
  | fopen path mode => exact hcall rfl (fsFopen_linked h hl hok.1 (hcreate hok))
  | fwrite fd buff length => exact hcall rfl (fsFwrite_linked h hl (fwriteOk_of_shown h hok))
  | fclose fd => exact hcall rfl (fsFclose_linked h hl)
  | ln srcPath dstPath =>
      exact hcall rfl (fsLn_linked h hl hok.1 (lnOk_of_shown h hl.flat hok.2))
  | rm path =>
      apply hcall rfl
      have hfits := rmOk_of_shown h hl.flat hok
      refine (fsRm_linked h hl fun e he htype hone => (hfits e he htype hone).treeFits s).mono
        (fun _ _ he => he) ?_
      rintro _ m' ⟨s', h', hl', -⟩
      exact ⟨s', h', hl'⟩
  | mkfs => exact hok.elim
  | statfs => exact hok.elim
  | cd path => exact hok.elim
  | ls path option => exact hok.elim
  | mkdir path => exact hok.elim
  | rmdir path => exact hok.elim
  | cat path => exact hok.elim
  | fread fd buff length => exact hok.elim
  | lseek fd offset whence => exact hok.elim

/-- The valid entries that name an inode, each with its directory. -/
@[irreducible]
def namings (m : Machine Bytes Globals) (k : Nat) : Finset (Nat × Nat) :=
  (Finset.range maxInodeNum ×ˢ Finset.range 1024).filter fun dq =>
    inodeBit m dq.1 = true ∧ (inodeAt m dq.1).type = 1 ∧
      (slot (shown m) (inodeAt m dq.1) dq.2).map (fun e => e.inode.toNat) = some k

/-- The inode and all blocks of the file are free. -/
def Freed (m m' : Machine Bytes Globals) (k : Nat) : Prop :=
  inodeBit m' k = false ∧ ∀ a : Place, a.Fits → blockAt (shown m) (inodeAt m k) a ≠ 0 →
    blockBit m' (blockAt (shown m) (inodeAt m k) a).toNat = false

/-- The inode stays allocated, and no block changes hands. -/
def Kept (m m' : Machine Bytes Globals) (k : Nat) : Prop :=
  inodeBit m' k = true ∧ ∀ x < maxBlockNum, blockBit m' x = blockBit m x

/-- The link count of every file is the number of its names, and `fs_rm` frees
the file with its last name. -/
structure LinksCounted (m : Machine Bytes Globals) : Prop where
  linkCnt : ∀ k < maxInodeNum, inodeBit m k = true → (inodeAt m k).type = 2 →
    (inodeAt m k).linkCnt.toNat = (namings m k).card
  rm : ∀ path e m', lookup (shown m) (shown m).here path = some e →
    (inodeAt m e.inode.toNat).type = 2 → RmOk (shown m) path → next m (.rm path) = some m' →
      ((namings m e.inode.toNat).card = 1 → Freed m m' e.inode.toNat) ∧
        ((namings m e.inode.toNat).card ≠ 1 → Kept m m' e.inode.toNat)

theorem mem_namings {d q : Nat} : (d, q) ∈ namings m k ↔ (d < maxInodeNum ∧ q < 1024) ∧
    inodeBit m d = true ∧ (inodeAt m d).type = 1 ∧
      (slot (shown m) (inodeAt m d) q).map (fun e => e.inode.toNat) = some k := by
  unfold namings
  rw [Finset.mem_filter, Finset.mem_product, Finset.mem_range, Finset.mem_range]

theorem card_namings (h : Realizes m s) (hs : Flat s) (k : Nat) :
    (namings m k).card = count s k := by
  have hcwd := hs.cwd_toNat
  have hroot : inodeAt m 0 = s.here := by
    rw [h.inode 0 (by decide), FsState.here, hcwd]
  have himage : namings m k = ((Finset.range 1024).filter fun q => namedIn s q = some k).image
      fun q => (0, q) := by
    ext ⟨d, q⟩
    rw [mem_namings]
    simp only [Finset.mem_filter, Finset.mem_range, Finset.mem_image, Prod.mk.injEq]
    constructor
    · rintro ⟨⟨hd, hq⟩, hused, htype, hnamed⟩
      have hlive : Live s d := ⟨hd, (h.inodeUsed d hd).symm.trans hused⟩
      have hzero : d = 0 := hs.only d hlive ((congrArg Inode.type (h.inode d hd)).symm.trans htype)
      subst hzero
      rw [hroot, slot_shown h hs.standing.hasBlocks] at hnamed
      exact ⟨q, ⟨hq, hnamed⟩, rfl, rfl⟩
    · rintro ⟨q', ⟨hq, hnamed⟩, rfl, rfl⟩
      have hlive := hs.standing.live
      rw [hcwd] at hlive
      refine ⟨⟨by decide, hq⟩, (h.inodeUsed 0 (by decide)).trans hlive.2, ?_, ?_⟩
      · rw [hroot]
        exact hs.standing.type
      · rw [hroot, slot_shown h hs.standing.hasBlocks]
        exact hnamed
  rw [himage, Finset.card_image_of_injective _ (Prod.mk_right_injective 0)]
  rfl

theorem OnlyDirect.place_eq {n : Inode} (h : OnlyDirect n) {a : Place} (ha : a.Fits)
    (hne : blockAt s n a ≠ 0) : ∃ i, a = ⟨.direct i, []⟩ := by
  obtain ⟨root, path⟩ := a
  have hroot : pointer n root ≠ 0 := by
    intro hzero
    exact hne (blockAt_of_pointer_zero hzero)
  cases root with
  | direct i =>
      have hpath : path = [] := List.length_eq_zero_iff.mp (Nat.le_zero.mp ha.length_le)
      exact ⟨i, by rw [hpath]⟩
  | l1 i => exact absurd (h.1 i) hroot
  | l2 i => exact absurd (h.2.1 i) hroot
  | l3 => exact absurd h.2.2 hroot

theorem freed_of_nameRemoved (h : Realizes m s) (h' : Realizes m' s') (hs : Owned s)
    (hk : Live s k) (hdirect : OnlyDirect (s.inode k)) (hremoved : NameRemoved s s' k)
    (hone : count s k = 1) : Freed m m' k := by
  obtain ⟨hinode, hblocks⟩ := hremoved.last hone
  refine ⟨(h'.inodeUsed k hk.1).trans hinode, fun a ha hne => ?_⟩
  rw [h.inode k hk.1] at hne ⊢
  obtain ⟨i, rfl⟩ := hdirect.place_eq ha hne
  have hmem : (blockAt s (s.inode k) ⟨.direct i, []⟩).toNat ∈ leaves s (s.inode k) :=
    mem_leaves.mpr ⟨_, ha, Nat.lt_irrefl 0, hne, rfl⟩
  have hdata := (hs.isData k hk _ ha hne).1
  exact (h'.blockUsed _ hdata.2).trans (hblocks _ hmem)

theorem linksCounted_of_counts (h : Counts m) : LinksCounted m := by
  obtain ⟨s, h, hl⟩ := h
  constructor
  · intro k hk hused htype
    have hlive : Live s k := ⟨hk, (h.inodeUsed k hk).symm.trans hused⟩
    rw [h.inode k hk] at htype ⊢
    rw [card_namings h hl.flat]
    exact (hl.counted k).file hlive htype
  · intro path e m' he htype hok hnext
    have hok := rmOk_of_shown h hl.flat hok
    rw [lookup_shown h hl.flat.standing] at he
    rw [h.inode _ (live_of_lookup hl.flat he).1] at htype
    rw [card_namings h hl.flat]
    have hlive := live_of_lookup hl.flat he
    have hrun := program_run_of_next hnext
    obtain ⟨s', h', -, hremoved⟩ := Runs.ok (Q := fun _ m' => ∃ s', Realizes m' s' ∧ Linked s' ∧
      ∀ e, lookup s s.here path = some e → (s.inode e.inode.toNat).type = 2 →
        NameRemoved s s' e.inode.toNat)
      ((fsRm_linked h hl fun e he htype hone => (hok e he htype hone).treeFits s).bind
        fun _ _ hq => runs_pure hq) hrun
    have hremoved := hremoved e he htype
    constructor
    · intro hone
      have hlink : (s.inode e.inode.toNat).linkCnt = 1 :=
        UInt16.toNat_inj.mp (((hl.counted _).file hlive htype).trans hone)
      exact freed_of_nameRemoved h h' hl.flat.standing.owned hlive (hok e he htype hlink) hremoved
        hone
    · intro hmany
      obtain ⟨hinode, hblocks⟩ := hremoved.other hmany
      refine ⟨(h'.inodeUsed _ hlive.1).trans hinode, fun x hx => ?_⟩
      rw [h'.blockUsed x hx, hblocks, h.blockUsed x hx]

/-- In every run of orderly calls the link counts are right. -/
theorem linksCounted_of_orderly (h : ReachableUnder fileSystem Orderly m) : LinksCounted m := by
  apply linksCounted_of_counts
  apply h.invariant (P := Counts)
  · exact fun _ => counts_formatted
  · exact fun _ _ _ hm hok hstep => counts_next hm hok hstep

section Decidable

variable {n : Inode} {start : Nat}

instance : Decidable (NameOk path) := inferInstanceAs (Decidable (_ ∧ _))
instance : Decidable (Spares s) := inferInstanceAs (Decidable (_ ∨ _))
instance : Decidable (CreateOk s path) := inferInstanceAs (Decidable (_ ∧ _))
instance : Decidable (LnOk s srcPath dstPath) := inferInstanceAs (Decidable (∀ e ∈ _, _))
instance : Decidable (OnlyDirect n) := inferInstanceAs (Decidable (_ ∧ _))
instance : Decidable (RmOk s path) := inferInstanceAs (Decidable (∀ e ∈ _, _))

instance {k : Nat} : Decidable (Live s k) := inferInstanceAs (Decidable (_ ∧ _))

instance {P : Root → Prop} [DecidablePred P] : Decidable (∀ r, P r) :=
  decidable_of_iff ((∀ i, P (.direct i)) ∧ (∀ i, P (.l1 i)) ∧ (∀ i, P (.l2 i)) ∧ P .l3)
    ⟨fun h r => match r with
      | .direct i => h.1 i
      | .l1 i => h.2.1 i
      | .l2 i => h.2.2.1 i
      | .l3 => h.2.2.2,
    fun h => ⟨fun _ => h _, fun _ => h _, fun _ => h _, h _⟩⟩

instance : Decidable (InPlace n start length) :=
  decidable_of_iff (start + length ≤ n.size.toNat ∧
    ∀ o, start ≤ o → o < start + length → pointer n (rootOf o) ≠ 0)
    ⟨fun h => ⟨h.1, h.2⟩, fun h => ⟨h.1, h.2⟩⟩

instance : Decidable (Current s file length) :=
  decidable_of_iff (Live s file.inodeIdx.toNat ∧
    (∀ r, pointer file.inode r = pointer (s.inode file.inodeIdx.toNat) r) ∧
    file.inode.type = (s.inode file.inodeIdx.toNat).type ∧
    (file.inode.linkCnt = (s.inode file.inodeIdx.toNat).linkCnt ∨
      InPlace file.inode file.filePtr.toNat length))
    ⟨fun h => ⟨h.1, h.2.1, h.2.2.1, h.2.2.2⟩, fun h => ⟨h.1, h.2, h.3, h.4⟩⟩

instance {fd : Nat} : Decidable (FwriteOk s fd length) :=
  inferInstanceAs (Decidable (∀ file ∈ _, _))

instance : ∀ (m : Machine Bytes Globals) (op : FsOp), Decidable (Orderly m op)
  | m, .touch path => inferInstanceAs (Decidable (CreateOk (shown m) path))
  | m, .fopen path _ => inferInstanceAs (Decidable (CreateOk (shown m) path))
  | m, .fwrite fd _ length => inferInstanceAs (Decidable (FwriteOk (shown m) fd length))
  | _, .fclose _ => isTrue trivial
  | m, .ln srcPath dstPath =>
      inferInstanceAs (Decidable (NameOk dstPath ∧ LnOk (shown m) srcPath dstPath))
  | m, .rm path => inferInstanceAs (Decidable (RmOk (shown m) path))
  | _, .mkfs => isFalse id
  | _, .statfs => isFalse id
  | _, .cd _ => isFalse id
  | _, .ls _ _ => isFalse id
  | _, .mkdir _ => isFalse id
  | _, .rmdir _ => isFalse id
  | _, .cat _ => isFalse id
  | _, .fread _ _ _ => isFalse id
  | _, .lseek _ _ _ => isFalse id

end Decidable

/-- A file is created and written, gets a second name and loses the first. -/
def renamedFile : List FsOp :=
  [.fopen [97] oRdwr, .fwrite 0 zeros 10, .fclose 0, .ln [97] [98], .rm [97]]

theorem renamedFile_linksCounted : ∃ m,
    m = permittedState Orderly next blankFormatted renamedFile ∧ (inodeAt m 1).size = 10 ∧
      (inodeAt m 1).linkCnt = 1 ∧ slot (shown m) (shown m).here 2 = none ∧
      (slot (shown m) (shown m).here 3).map (fun e => e.inode.toNat) = some 1 ∧ LinksCounted m := by
  refine ⟨_, rfl, ?_⟩
  have hfacts : let m := permittedState Orderly next blankFormatted renamedFile
      (inodeAt m 1).size = 10 ∧ (inodeAt m 1).linkCnt = 1 ∧
        (slot (shown m) (shown m).here 2).isNone = true ∧
        (slot (shown m) (shown m).here 3).map (fun e => e.inode.toNat) = some 1 := by
    rw [blankFormatted_eq]
    decide +kernel
  obtain ⟨hsize, hlinkCnt, hfree, hname⟩ := hfacts
  exact ⟨hsize, hlinkCnt, Option.isNone_iff_eq_none.mp hfree, hname,
    linksCounted_of_orderly (permittedState_reachableUnder formatted_blankFormatted _)⟩

/-- The calls considered, with names that fit into an entry. -/
def Considered (_ : Machine Bytes Globals) : FsOp → Prop
  | .touch path => NameOk path
  | .fopen path _ => NameOk path
  | .fwrite _ _ _ => True
  | .fclose _ => True
  | .ln srcPath dstPath => NameOk srcPath ∧ NameOk dstPath
  | .rm path => NameOk path
  | _ => False

instance : ∀ (m : Machine Bytes Globals) (op : FsOp), Decidable (Considered m op)
  | _, .touch path => inferInstanceAs (Decidable (NameOk path))
  | _, .fopen path _ => inferInstanceAs (Decidable (NameOk path))
  | _, .fwrite _ _ _ => isTrue trivial
  | _, .fclose _ => isTrue trivial
  | _, .ln srcPath dstPath => inferInstanceAs (Decidable (NameOk srcPath ∧ NameOk dstPath))
  | _, .rm path => inferInstanceAs (Decidable (NameOk path))
  | _, .mkfs => isFalse id
  | _, .statfs => isFalse id
  | _, .cd _ => isFalse id
  | _, .ls _ _ => isFalse id
  | _, .mkdir _ => isFalse id
  | _, .rmdir _ => isFalse id
  | _, .cat _ => isFalse id
  | _, .fread _ _ _ => isFalse id
  | _, .lseek _ _ _ => isFalse id

/-- A file grows after it got its second name. -/
def grownAfterLink : List FsOp := [.fopen [97] oRdwr, .ln [97] [98], .fwrite 0 zeros 10]

/-- The write puts the old link count back. -/
theorem grownAfterLink_not_counted : ∃ m, ReachableUnder fileSystem Considered m ∧
    inodeBit m 1 = true ∧ (inodeAt m 1).type = 2 ∧ (inodeAt m 1).linkCnt = 1 ∧
      1 < (namings m 1).card ∧ ¬LinksCounted m := by
  obtain ⟨m, hm⟩ : ∃ m, m = permittedState Considered next blankFormatted grownAfterLink :=
    ⟨_, rfl⟩
  have hreachable : ReachableUnder fileSystem Considered m := by
    rw [hm]
    exact permittedState_reachableUnder formatted_blankFormatted _
  have hfacts : inodeBit m 1 = true ∧ (inodeAt m 1).type = 2 ∧ (inodeAt m 1).linkCnt = 1 ∧
      inodeBit m 0 = true ∧ (inodeAt m 0).type = 1 ∧
      (slot (shown m) (inodeAt m 0) 2).map (fun e => e.inode.toNat) = some 1 ∧
      (slot (shown m) (inodeAt m 0) 3).map (fun e => e.inode.toNat) = some 1 := by
    rw [hm, blankFormatted_eq]
    decide +kernel
  obtain ⟨hused, htype, hlink, hroot, hdirectory, hslot, hslot'⟩ := hfacts
  have hmem : (0, 2) ∈ namings m 1 :=
    mem_namings.mpr ⟨⟨by decide, by decide⟩, hroot, hdirectory, hslot⟩
  have hmem' : (0, 3) ∈ namings m 1 :=
    mem_namings.mpr ⟨⟨by decide, by decide⟩, hroot, hdirectory, hslot'⟩
  have hcard : 1 < (namings m 1).card := Finset.one_lt_card.mpr ⟨_, hmem, _, hmem', by decide⟩
  refine ⟨m, hreachable, hused, htype, hlink, hcard, fun hcounted => ?_⟩
  have hcount := hcounted.linkCnt 1 (by decide) hused htype
  rw [hlink] at hcount
  exact hcard.ne hcount

end LabKernel.LinkRuns
