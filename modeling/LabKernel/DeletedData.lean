import LabKernel.Lifetimes
import LabKernel.UnwrittenBytes

/-!
What is left in free blocks does not come back: two disks that differ in it
give the same replies, and bytes of files that nobody wrote are read as zero,
as long as no read goes to a hole.
-/

namespace LabKernel.DeletedData

open LabKernel.BlockCache
open LabKernel.BlockFreeing
open LabKernel.BlockObject
open LabKernel.BlockOwnership
open LabKernel.BlockPairs
open LabKernel.ByteMemory
open LabKernel.CacheTraffic
open LabKernel.CallPairs
open LabKernel.DirectTransfers
open LabKernel.Directories
open LabKernel.DirectoryCalls
open LabKernel.FileContents
open LabKernel.FileStore
open LabKernel.FsCode
open LabKernel.FsLayout
open LabKernel.FsPairs
open LabKernel.FsPrimitives
open LabKernel.FsRuns
open LabKernel.FsTables
open LabKernel.FsView
open LabKernel.InertReads
open LabKernel.Lifetimes
open LabKernel.PairedRuns
open LabKernel.PairedWrites
open LabKernel.PathWalks
open LabKernel.PrintingCalls
open LabKernel.ProgramLogic
open LabKernel.Simulation
open LabKernel.StoreRefinement
open LabKernel.StoreRuns
open LabKernel.SuperBlockCopy
open LabKernel.TidyCalls
open LabKernel.TidyDisk
open LabKernel.TidyRuns
open LabKernel.UnwrittenBytes

variable {m m' m₁ m₂ m₁' m₂' : Machine Bytes Globals} {s s' s₁ : FsState}
  {W W' wrote : Nat → Set Nat} {fd length : Nat} {file : File} {buff : Bytes} {op : FsOp} {t : Traffic}

/-- The bytes that a call writes, file by file. -/
def written (files : List (Option File)) : FsOp → Nat → Set Nat
  | .fwrite fd _ length => fun k => {o | ∃ file, (files[fd]?).join = some file ∧
      file.mode &&& oWronly ≠ 0 ∧ file.inodeIdx.toNat = k ∧ o ∈ span file.filePtr length}
  | _ => fun _ => ∅

/-- A read stays in blocks that the file has, behind its direct pointers. -/
def Filled (file : File) (length : Nat) : Prop :=
  file.mode &&& oRdonly = 0 ∨ length = 0 ∨ file.filePtr.toNat + length ≤ l0Bound ∧
    Present false file.inode file.filePtr.toNat length

/-- Two machines with the same tables, in order, and only zeros where nothing
was written. -/
def Twins (W : Nat → Set Nat) (m₁ m₂ : Machine Bytes Globals) : Prop :=
  ∃ s, Paired s m₁ m₂ ∧ InOrder s ∧ Zeroed W s

theorem rewritten_zeroed {file' : File} (ho : InOrder s) (hz : Zeroed W s)
    (hfile : (s.files[fd]?).join = some file) (hmode : file.mode &&& oWronly ≠ 0)
    (h : Rewritten s s₁ file file' length) :
    InOrder { s₁ with files := s₁.files.set fd (some file') } ∧
      Zeroed (recorded s (written s.files (.fwrite fd buff length)) W)
        { s₁ with files := s₁.files.set fd (some file') } := by
  obtain ⟨ho', -⟩ := ho.transferred h.leaves h.owned h.inodeIdx h.object h.inode h.pointer hfile
  have hlive : ∀ k, Live s₁ k → Live s k := fun k hk => h.leaves.of_live hk
  have hsub : ∀ k, Live s k → W k ⊆ recorded s (written s.files (.fwrite fd buff length)) W k :=
    fun k hk _ hmem => ⟨hk, Or.inl hmem⟩
  refine ⟨ho', ((hz.mono hsub).leaves h.leaves (fun _ => h.hasBlocks) ?_).setFiles _⟩
  intro hk _ o hlt hout
  rw [h.contents o hlt fun hmem => hout ⟨hk, Or.inr ⟨file, hfile, hmode, rfl, hmem⟩⟩]
  exact hz.zero _ hk (ho.tidy.files file (mem_of_join hfile)).inode o hlt fun hmem =>
    hout ⟨hk, Or.inl hmem⟩

theorem fsFwrite_twins (h : Paired s m₁ m₂) (ho : InOrder s) (hz : Zeroed W s) :
    Together (fsFwrite fd buff length) m₁ m₂ fun _ =>
      Twins (recorded s (written s.files (.fwrite fd buff length)) W) := by
  refine (getFile_paired h fd).bind ?_
  rintro _ m₁ m₂ ⟨rfl, rfl, rfl⟩
  cases hfile : (s.files[fd]?).join with
  | none => exact together_pure ⟨s, h, ho, hz.record fun _ => id⟩
  | some file =>
      have hmem := mem_of_join hfile
      have hupToDate := ho.tidy.files file hmem
      rcases eq_or_ne (file.mode &&& oWronly) 0 with hmode | hmode
      · refine (fileTransfer_refused hmode).bind ?_
        rintro _ m₁ m₂ ⟨rfl, rfl, rfl⟩
        refine (setFile_paired h fd (some file)).bind fun _ m₁ m₂ h₂ => ?_
        rw [set_join hfile] at h₂
        exact together_pure ⟨s, h₂, ho, hz.record fun _ => id⟩
      · refine (fileWrite_spares h ho.tidy.owned hupToDate (hz.backed _ hupToDate.live)
          hmode).bind ?_
        rintro ⟨file', buff', result⟩ m₁ m₂ ⟨s₁, h₁, hrewritten⟩
        refine (setFile_paired h₁ fd (some file')).bind fun _ m₁ m₂ h₂ => ?_
        exact together_pure ⟨_, h₂, rewritten_zeroed ho hz hfile hmode hrewritten⟩

/-- What a read delivers where nothing was written. -/
def Blank (W : Nat → Set Nat) (file : File) (r : Int × Bytes) : Prop :=
  ∀ i : Nat, (i : Int) < r.1 → file.filePtr.toNat + i ∉ W file.inodeIdx.toNat → r.2 i = 0

theorem fileRead_twins (h : Paired s m₁ m₂) (ho : InOrder s) (hz : Zeroed W s)
    (hfile : (s.files[fd]?).join = some file) (hmode : file.mode &&& oRdonly ≠ 0)
    (hfilled : Filled file length) :
    Together (fileTransfer false file buff length) m₁ m₂ fun r m₁' m₂' =>
      Blank W file (r.2.2, r.2.1) ∧ ∃ s₁, Paired s₁ m₁' m₂' ∧
        InOrder { s₁ with files := s₁.files.set fd (some r.1) } ∧
          Zeroed W s₁ ∧ ∀ k, Live s₁ k → Live s k := by
  have hbound : l0Bound = 32768 := by decide
  obtain ⟨hlive, hpointer, hobject, htype⟩ := ho.tidy.files file (mem_of_join hfile)
  have hplace : 0 < length → file.filePtr.toNat + length ≤ l0Bound ∧
      Present false file.inode file.filePtr.toNat length := fun hpos => by
    rcases hfilled with hclosed | hzero | hplace
    · exact absurd hclosed hmode
    · omega
    · exact hplace
  have hpresent : Present false file.inode file.filePtr.toNat length := fun hread o hlo hhi =>
    (hplace (by omega)).2 hread o hlo hhi
  refine ((fileTransfer_paired h ho.tidy.owned ⟨hlive, hpointer, hobject.trans htype.symm⟩
    (hz.backed _ hlive) (by simpa using hmode) (fun hpos => hbound ▸ (hplace hpos).1) hpresent).and
    (fileTransfer_result hmode)).mono ?_
  rintro ⟨file', buff', result⟩ m₁' m₂' ⟨hresult, s₁, h₁, hcarried⟩
  simp only at hresult hcarried
  have hcontents : contentsOf s₁ (s₁.inode file.inodeIdx.toNat) =
      contentsOf s (s.inode file.inodeIdx.toNat) := hcarried.contents
  refine ⟨fun i hi hout => ?_, s₁, h₁, ?_, ?_, fun _ => hcarried.leaves.of_live⟩
  · have hlt : i < length := by
      rw [hresult] at hi
      exact Int.ofNat_lt.mp hi
    have hbuffer : buff' = copy buff 0 (contentsOf s (s.inode file.inodeIdx.toNat))
        file.filePtr.toNat length := hcarried.buffer_eq
    have hdirect := (hplace (by omega)).1
    simp only
    rw [hbuffer, copy_inside (Nat.zero_le i) (by omega), Nat.sub_zero]
    exact hz.zero _ hlive htype _ (by omega) hout
  · exact (ho.transferred hcarried.leaves hcarried.owned hcarried.moved.inodeIdx
      (hcarried.type.trans hobject) (hcarried.inode_type.trans hobject) hcarried.pointer hfile).1
  · refine hz.leaves hcarried.leaves (fun _ => hcarried.hasBlocks) fun _ _ o hlt hout => ?_
    rw [hcontents]
    exact hz.zero _ hlive htype o hlt hout

theorem fsFread_twins (h : Paired s m₁ m₂) (ho : InOrder s) (hz : Zeroed W s)
    (hfilled : ∀ file, (s.files[fd]?).join = some file → Filled file length) :
    Together (fsFread fd buff length) m₁ m₂ fun r m₁' m₂' =>
      (∀ file, (s.files[fd]?).join = some file → Blank W file r) ∧
        Twins (recorded s (fun _ => ∅) W) m₁' m₂' := by
  refine (getFile_paired h fd).bind ?_
  rintro _ m₁ m₂ ⟨rfl, rfl, rfl⟩
  cases hfile : (s.files[fd]?).join with
  | none => exact together_pure ⟨fun _ hsome => (by cases hsome), s, h, ho,
      hz.record fun _ => id⟩
  | some file =>
      rcases eq_or_ne (file.mode &&& oRdonly) 0 with hmode | hmode
      · refine (fileTransfer_refused hmode).bind ?_
        rintro _ m₁ m₂ ⟨rfl, rfl, rfl⟩
        refine (setFile_paired h fd (some file)).bind fun _ m₁ m₂ h₂ => ?_
        rw [set_join hfile] at h₂
        refine together_pure ⟨fun _ _ i hi => ?_, s, h₂, ho, hz.record fun _ => id⟩
        simp only at hi
        omega
      · refine (fileRead_twins h ho hz hfile hmode (hfilled file hfile)).bind ?_
        rintro ⟨file', buff', result⟩ m₁ m₂ ⟨hblank, s₁, h₁, ho', hz', hlive⟩
        refine (setFile_paired h₁ fd (some file')).bind fun _ m₁ m₂ h₂ => ?_
        refine together_pure ⟨fun _ hsome => ?_, _, h₂, ho',
          (hz'.setFiles _).record hlive⟩
        obtain rfl := Option.some.inj hsome
        exact hblank

/-- The condition on a call: the disk stays in order, and no read goes to a
hole. -/
def Guarded (m : Machine Bytes Globals) : FsOp → Prop
  | .cat _ => False
  | .fread fd _ length => ∀ file, objectOf m fd = some file → Filled file length
  | op => Tended m op

theorem walkDone_twins {target : Option UInt32} {r : Int} (h : Paired s' m₁ m₂) (ho : InOrder s)
    (hz : Zeroed W s) (hdone : WalkDone s target s.cwd r s')
    (hdir : ∀ dir, target = some dir → Dir s dir.toNat) :
    Twins (recorded s wrote W) m₁ m₂ := by
  cases hdone with
  | arrived heq =>
      exact ⟨_, h, ⟨ho.tidy.goto (hdir _ heq), ho.typed⟩, (hz.goto _).record fun _ => id⟩
  | back _ => exact ⟨_, h, ho, hz.record fun _ => id⟩

theorem seekDone_twins {offset : UInt32} {whence r : Int} (h : Paired s' m₁ m₂) (ho : InOrder s)
    (hz : Zeroed W s) (hdone : SeekDone s fd offset whence r s') :
    Twins (recorded s wrote W) m₁ m₂ := by
  cases hdone with
  | closed _ => exact ⟨_, h, ho, hz.record fun _ => id⟩
  | refused _ _ => exact ⟨_, h, ho, hz.record fun _ => id⟩
  | moved hfile hlseek =>
      obtain ⟨ptr, rfl⟩ := advanced_of_lseek hlseek
      obtain ⟨hlive, hpointer, hobject, htype⟩ := ho.tidy.files _ (mem_of_join hfile)
      exact ⟨_, h, ⟨ho.tidy.storeFile hfile rfl ⟨hlive, hpointer, hobject, htype⟩, ho.typed⟩,
        (hz.setFiles _).record fun _ => id⟩

theorem twins_reply {α : Type} {f : Fs α} {g : α → Reply} (h : Together f m₁ m₂ fun _ => Twins W) :
    Together (do let r ← f; return g r) m₁ m₂ fun _ => Twins W :=
  h.bind fun _ _ _ hq => together_pure hq

theorem call_twins (h : Paired s m₁ m₂) (ho : InOrder s) (hz : Zeroed W s)
    (hok : Guarded m₁ op) :
    Together (call op) m₁ m₂ fun _ => Twins (recorded s (written s.files op) W) := by
  have hrealizes := h.realizes
  have ht := ho.tidy
  have hobject : ∀ fd, objectOf m₁ fd = (s.files[fd]?).join := fun fd => by
    rw [objectOf, hrealizes.files]
  cases op with
  | mkfs => exact hok.2.elim
  | cat path => exact hok.elim
  | statfs =>
      refine twins_reply ((fsStatfs_paired h).mono ?_)
      exact fun _ _ _ h' => ⟨s, h'.2, ho, hz.record fun _ => id⟩
  | cd path =>
      refine twins_reply ((fsCd_paired h ht).mono ?_)
      rintro r _ _ ⟨s', h', hdone⟩
      exact walkDone_twins h' ho hz hdone fun dir hdir => dir_of_follow ht ht.cwd hdir
  | ls path option =>
      refine twins_reply ((fsLs_paired h ht hok.1).mono ?_)
      exact fun _ _ _ h' => ⟨s, h'.2, ho, hz.record fun _ => id⟩
  | mkdir path =>
      refine twins_reply ((fsMkdir_paired h ho hok.2).mono ?_)
      rintro r _ _ ⟨s', h', hdone⟩
      exact ⟨s', h', madeDir_zeroed hdone ho hz⟩
  | touch path =>
      refine twins_reply ((fsTouch_paired h ho hok.2).mono ?_)
      rintro r _ _ ⟨s', h', hdone⟩
      exact ⟨s', h', touchDone_zeroed hdone ho hz⟩
  | rm path =>
      have hremove := removeOk_of_shown hrealizes ht hok.2
      refine twins_reply ((fsRm_paired h ho hok.1 hremove).mono ?_)
      rintro r _ _ ⟨s', h', hdone⟩
      exact ⟨s', h', removed_zeroed hdone.left ho hremove hz⟩
  | rmdir path =>
      have hremove := removeOk_of_shown hrealizes ht hok.2
      refine twins_reply ((fsRmdir_paired h ho hok.1 hremove).mono ?_)
      rintro r _ _ ⟨s', h', hdone⟩
      exact ⟨s', h', removed_zeroed hdone.left ho hremove hz⟩
  | ln srcPath dstPath =>
      refine twins_reply ((fsLn_paired h ht hok.2.1).mono ?_)
      rintro r _ _ ⟨s', h', hdone⟩
      exact ⟨s', h', linkDone_zeroed hdone ho (linkOk_of_shown hrealizes ht hok.2.2) hz⟩
  | fopen path mode =>
      refine twins_reply ((fsFopen_paired h ho hok.2).mono ?_)
      rintro r _ _ ⟨s', h', hdone⟩
      exact ⟨s', h', openDone_zeroed hdone ho hz⟩
  | fread fd buff length =>
      refine twins_reply ((fsFread_twins h ho hz fun file hfile => hok file ?_).mono ?_)
      · rw [hobject, hfile]
      · exact fun _ _ _ hq => hq.2
  | fwrite fd buff length => exact twins_reply (fsFwrite_twins h ho hz)
  | lseek fd offset whence =>
      refine twins_reply ((fsLseek_paired h).mono ?_)
      rintro r _ _ ⟨s', h', hdone⟩
      exact seekDone_twins h' ho hz hdone
  | fclose fd =>
      refine twins_reply ((fsFclose_paired h).mono ?_)
      exact fun _ _ _ h' =>
        ⟨_, h'.2, ⟨ht.closeFile fd, ho.typed⟩, (hz.setFiles _).record fun _ => id⟩

/-- The bytes written so far, after an event. -/
def after (m : Machine Bytes Globals) (W : Nat → Set Nat) : Event → Nat → Set Nat
  | .call op _ => recorded (shown m) (written m.globals.files op) W
  | _ => W

theorem after_call (h : Realizes m s) (reply : Reply) :
    after m W (.call op reply) = recorded s (written s.files op) W := by
  funext k
  ext o
  have hlive : Live (shown m) k ↔ Live s k := live_shown h
  rw [after, h.files]
  exact and_congr_left fun _ => hlive

/-- Calls and other traffic in the cache, and no restarts. -/
def Allows (m : Machine Bytes Globals) : Event → Prop
  | .call op _ => Guarded m op
  | .traffic _ => True
  | .restart => False

/-- An allowed event, with the record of what was written. -/
def Recorded (p : Machine Bytes Globals × (Nat → Set Nat)) (e : Event)
    (p' : Machine Bytes Globals × (Nat → Set Nat)) : Prop :=
  Allows p.1 e ∧ Happens p.1 e p'.1 ∧ p'.2 = after p.1 p.2 e

theorem twins_step {p p' : Machine Bytes Globals × (Nat → Set Nat)} {e : Event}
    (h : Twins p.2 p.1 m₂) (hstep : Recorded p e p') :
    ∃ m₂', Happens m₂ e m₂' ∧ Twins p'.2 p'.1 m₂' := by
  obtain ⟨s, h, ho, hz⟩ := h
  obtain ⟨hallows, hhappens, hafter⟩ := hstep
  rw [hafter]
  cases hhappens with
  | call hrun =>
      rw [after_call h.realizes]
      obtain ⟨m₂', hrun₂, h'⟩ := (call_twins h ho hz hallows).ok hrun
      exact ⟨m₂', .call hrun₂, h'⟩
  | @traffic _ t hrun =>
      obtain ⟨m₂', hrun₂, halike⟩ := (together_traffic h.alike t).ok hrun
      obtain ⟨⟨T, hev⟩, hg⟩ := (runs_traffic h.realizes.ready.sound t).ok hrun
      exact ⟨m₂', .traffic hrun₂, s, ⟨h.realizes.idle hev hg, h.headed.idle h.realizes hev hg,
        halike⟩, ho, hz⟩
  | restart _ => exact hallows.elim

/-- A file system in order, whose blocks are all settled, with only zeros where
nothing was written. -/
def Whole (W : Nat → Set Nat) (m : Machine Bytes Globals) : Prop :=
  ∃ s, Realizes m s ∧ Headed m ∧ InOrder s ∧ Zeroed W s

theorem fread_blank {r : Int × Bytes} (h : Twins W m₁ m₂) (hfile : objectOf m₁ fd = some file)
    (hfilled : Filled file length) (hrun : (fsFread fd buff length).run m₁ = (.ok r, m')) :
    Blank W file r := by
  obtain ⟨s, h, ho, hz⟩ := h
  rw [objectOf, h.realizes.files] at hfile
  have hread : Together (fsFread fd buff length) m₁ m₂ fun r _ _ =>
      (∀ file, (s.files[fd]?).join = some file → Blank W file r) ∧ True := by
    refine (fsFread_twins h ho hz fun file' hfile' => ?_).mono
      fun _ _ _ hq => ⟨hq.1, trivial⟩
    obtain rfl := Option.some.inj (hfile.symm.trans hfile')
    exact hfilled
  obtain ⟨-, -, hblank, -⟩ := hread.ok hrun
  exact hblank file hfile

theorem whole_of_formatted (h : Formatted m) : Whole (fun _ => ∅) m := by
  obtain ⟨s, hs, hc, ha⟩ := consistent_of_formatted h
  refine ⟨s, hs, headed_of_formatted h, hc.inOrder, hc.backed, fun k hk htype o ho _ => ?_⟩
  exact (ha.bytes k hk htype o ho).symm

theorem whole_of_path {es : List Event} (h : Whole W m) (hrun : Path Recorded (m, W) es (m', W')) :
    Whole W' m' := by
  obtain ⟨s, hs, hh, ho, hz⟩ := h
  have hstart : Twins W m m := ⟨s, paired_self hs hh, ho, hz⟩
  obtain ⟨_, -, s', h', ho', hz'⟩ := hrun.same (R := fun p m => Twins p.2 p.1 m) twins_step hstart
  exact ⟨s', h'.realizes, h'.headed, ho', hz'⟩

theorem recorded_empty (s : FsState) : recorded s (fun _ => ∅) (fun _ => ∅) = fun _ => ∅ := by
  funext k
  ext o
  simp [recorded]

theorem newFile_whole : Whole (fun _ => ∅) newFile := by
  have hafter : (fun _ => ∅) = after blankFormatted (fun _ => ∅)
      (.call (.fopen nameA oRdwr) (.code 0)) := (recorded_empty _).symm
  have hallows : Guarded blankFormatted (.fopen nameA oRdwr) :=
    tended_of_careful prudent_newName.1
  have hone : Recorded (blankFormatted, fun _ => ∅) (.call (.fopen nameA oRdwr) (.code 0))
      (newFile, fun _ => ∅) := ⟨hallows, newFile_happens.2, hafter⟩
  exact whole_of_path (whole_of_formatted formatted_blankFormatted) (.single hone)

theorem alike_stained : Alike (freeBlocks newFile) (freeBlocks newFile) newFile
    (scribbled newFile 518 fun _ => 7) := by
  obtain ⟨hfree, habsent⟩ : blockBit newFile 518 = false ∧
      ∀ i < cacheSize, (newFile.cache.slots i).blockid ≠ 518 := by
    rw [newFile_eq]
    decide +kernel
  have hmem : ({518} : Set Nat) ⊆ freeBlocks newFile := by
    rintro x rfl
    exact ⟨by decide, by decide, hfree⟩
  exact (alike_scribbled newFile_ready.sound (by decide) habsent fun _ => 7).mono hmem hmem

/-- Five bytes are written behind a gap, and the position goes back. -/
def gapEvents : List Event :=
  [.call (.lseek 0 2 seekSet) (.code 2), .call (.fwrite 0 (fun _ => 55) 5) (.code 5),
    .call (.lseek 0 0 seekSet) (.code 0)]

theorem path_of_passTraffic {ts : List Traffic} (h : (passTraffic ts).run m = (.ok (), m')) :
    Path Happens m (ts.map .traffic) m' := by
  induction ts generalizing m with
  | nil =>
      cases h
      exact .nil
  | cons t rest ih =>
      obtain ⟨_, m₁, hone, hrest⟩ := ok_of_bind h
      exact .cons (.traffic hone) (ih hrest)

/-- 64 blocks that no file has. -/
def otherBlocks : List Traffic := (List.range 64).map fun i => .find (600 + i)

/-- A byte of a hole is read before and after other blocks fill the cache. -/
def readsTwice : Fs (Int × Int × Int × UInt8) := do
  let (first, _) ← fsFread 0 zeros 1
  passTraffic otherBlocks
  let position ← fsLseek 0 0 seekSet
  let (second, buff) ← fsFread 0 zeros 1
  return (first, position, second, buff 0)

def rereadEvents (first second : Bytes) : List Event :=
  .call (.fread 0 zeros 1) (.data 1 first) :: otherBlocks.map .traffic ++
    [.call (.lseek 0 0 seekSet) (.code 0), .call (.fread 0 zeros 1) (.data 1 second)]

theorem path_of_readsTwice {b : UInt8} (h : readsTwice.run m = (.ok (1, 0, 1, b), m')) :
    ∃ first second, Path Happens m (rereadEvents first second) m' ∧ second 0 = b := by
  obtain ⟨⟨r₁, first⟩, m₁, h₁, h⟩ := ok_of_bind h
  obtain ⟨_, m₂, h₂, h⟩ := ok_of_bind h
  obtain ⟨r₃, m₃, h₃, h⟩ := ok_of_bind h
  obtain ⟨⟨r₄, second⟩, m₄, h₄, h⟩ := ok_of_bind h
  obtain ⟨hresult, rfl⟩ := Prod.mk.inj h
  obtain ⟨rfl, rfl, rfl, hb⟩ : r₁ = 1 ∧ r₃ = 0 ∧ r₄ = 1 ∧ second 0 = b := by
    simpa using hresult
  refine ⟨first, second, .cons (.call (run_call h₁)) ?_, hb⟩
  exact (path_of_passTraffic h₂).append
    (.cons (.call (run_call h₃)) (.single (.call (run_call h₄))))

theorem readsTwice_newFile : returned (readsTwice.run newFile).1 = some (1, 0, 1, 0) := by
  rw [newFile_eq]
  decide +kernel

theorem readsTwice_stained :
    returned (readsTwice.run (scribbled newFile 518 fun _ => 7)).1 = some (1, 0, 1, 7) := by
  rw [newFile_eq]
  decide +kernel

/-- What free blocks hold makes no difference to calls that read no hole, and
bytes that nobody wrote are zero. -/
theorem deletedData_hidden {es : List Event} (h : Whole W m₁)
    (halike : Alike (freeBlocks m₁) (freeBlocks m₁) m₁ m₂)
    (hrun : Path Recorded (m₁, W) es (m₁', W')) :
    ∃ m₂', Path Happens m₂ es m₂' ∧ Alike (freeBlocks m₁') (freeBlocks m₁') m₁' m₂' ∧
      (∀ op, Guarded m₁' op → Together (call op) m₁' m₂' fun _ _ _ => True) ∧
      ∀ fd buff length file r m, objectOf m₁' fd = some file → Filled file length →
        (fsFread fd buff length).run m₁' = (.ok r, m) → Blank W' file r := by
  obtain ⟨s, hs, hh, ho, hz⟩ := h
  rw [freeBlocks_eq hs] at halike
  have hstart : Twins W m₁ m₂ := ⟨s, ⟨hs, hh, halike⟩, ho, hz⟩
  obtain ⟨m₂', hpath, hend⟩ := hrun.same (R := fun p m => Twins p.2 p.1 m) twins_step hstart
  have hread : ∀ fd buff length file r m, objectOf m₁' fd = some file → Filled file length →
      (fsFread fd buff length).run m₁' = (.ok r, m) → Blank W' file r :=
    fun _ _ _ _ _ _ hfile hfilled hone => fread_blank hend hfile hfilled hone
  obtain ⟨s', h', ho', hz'⟩ := hend
  refine ⟨m₂', hpath, ?_, fun op hok => (call_twins h' ho' hz' hok).mono fun _ _ _ _ => trivial,
    hread⟩
  rw [freeBlocks_eq h'.realizes]
  exact h'.alike

theorem gap_hidden : ∃ m m₂ n r, Path Happens newFile gapEvents m ∧
    Path Happens (scribbled newFile 518 fun _ => 7) gapEvents m₂ ∧
    (fsFread 0 zeros 1).run m = (.ok r, n) ∧ r.1 = 1 ∧ r.2 0 = 0 := by
  let m₁ := ((fsLseek 0 2 seekSet).run newFile).2
  let m₂ := ((fsFwrite 0 (fun _ => 55) 5).run m₁).2
  let m₃ := ((fsLseek 0 0 seekSet).run m₂).2
  obtain ⟨h₁, hptr₁, h₂, h₃, hptr₃, hread⟩ :
      returned ((fsLseek 0 2 seekSet).run newFile).1 = some 2 ∧
      (objectOf m₁ 0).map (fun file => file.filePtr) = some 2 ∧
      returned ((fsFwrite 0 (fun _ => 55) 5).run m₁).1 = some 5 ∧
      returned ((fsLseek 0 0 seekSet).run m₂).1 = some 0 ∧
      (objectOf m₃ 0).map (fun file => (file.inodeIdx, file.filePtr, file.inode.dataDirect 0)) =
        some (1, 0, 518) ∧
      (returned ((fsFread 0 zeros 1).run m₃).1).map Prod.fst = some 1 := by
    simp only [m₃, m₂, m₁, newFile_eq]
    decide +kernel
  have hrun₁ : (fsLseek 0 2 seekSet).run newFile = (.ok 2, m₁) := run_eq_of_returned h₁
  have hrun₂ : (fsFwrite 0 (fun _ => 55) 5).run m₁ = (.ok 5, m₂) := run_eq_of_returned h₂
  have hrun₃ : (fsLseek 0 0 seekSet).run m₂ = (.ok 0, m₃) := run_eq_of_returned h₃
  obtain ⟨r, hreturned, hone⟩ := Option.map_eq_some_iff.mp hread
  have hrun₄ := run_eq_of_returned hreturned
  obtain ⟨file, hfile, hfields⟩ := Option.map_eq_some_iff.mp hptr₃
  simp only [Prod.mk.injEq] at hfields
  obtain ⟨hino, hptr, hdirect⟩ := hfields
  clear_value m₃ m₂ m₁
  set W₁ := after newFile (fun _ => ∅) (.call (.lseek 0 2 seekSet) (.code 2)) with hW₁
  set W₂ := after m₁ W₁ (.call (.fwrite 0 (fun _ => 55) 5) (.code 5)) with hW₂
  set W₃ := after m₂ W₂ (.call (.lseek 0 0 seekSet) (.code 0)) with hW₃
  have hstep₁ : Recorded (newFile, fun _ => ∅) (.call (.lseek 0 2 seekSet) (.code 2)) (m₁, W₁) :=
    ⟨⟨trivial, trivial⟩, .call (run_call hrun₁), rfl⟩
  have hstep₂ : Recorded (m₁, W₁) (.call (.fwrite 0 (fun _ => 55) 5) (.code 5)) (m₂, W₂) :=
    ⟨⟨trivial, trivial⟩, .call (run_call hrun₂), rfl⟩
  have hstep₃ : Recorded (m₂, W₂) (.call (.lseek 0 0 seekSet) (.code 0)) (m₃, W₃) :=
    ⟨⟨trivial, trivial⟩, .call (run_call hrun₃), rfl⟩
  have hpath : Path Recorded (newFile, fun _ => ∅) gapEvents (m₃, W₃) :=
    .cons hstep₁ (.cons hstep₂ (.single hstep₃))
  have hfilled : Filled file 1 := by
    refine Or.inr (Or.inr ⟨by rw [hptr]; decide, fun _ o hlo hhi => ?_⟩)
    rw [hptr] at hlo hhi
    obtain rfl : o = 0 := Nat.lt_one_iff.mp hhi
    show file.inode.dataDirect 0 ≠ 0
    rw [hdirect]
    decide
  -- The byte before the gap ends is not among those written.
  have hgap : file.filePtr.toNat + 0 ∉ W₃ file.inodeIdx.toNat := by
    rw [hptr]
    rintro ⟨-, (⟨-, ⟨-, h | h⟩ | ⟨file', hfile', -, -, j, hj, hzero⟩⟩) | h⟩
    · exact h
    · exact h
    · obtain ⟨file₁, hfile₁, hptr₁⟩ := Option.map_eq_some_iff.mp hptr₁
      obtain rfl := Option.some.inj (hfile₁.symm.trans hfile')
      have hone : file₁.filePtr.toNat = 2 := congrArg UInt32.toNat hptr₁
      have hnot : (0 : UInt32).toNat + 0 = 0 := rfl
      omega
    · exact h
  obtain ⟨n₂, hpath₂, -, -, hblank⟩ := deletedData_hidden newFile_whole alike_stained hpath
  have hhappens : Path Happens newFile gapEvents m₃ :=
    .cons hstep₁.2.1 (.cons hstep₂.2.1 (.single hstep₃.2.1))
  refine ⟨m₃, n₂, _, r, hhappens, hpath₂, hrun₄, hone, ?_⟩
  exact hblank 0 zeros 1 file r _ hfile hfilled hrun₄ 0 (by rw [hone]; decide) hgap

/-- A byte that nobody wrote is read as 7, which a free block of the second disk
holds. -/
theorem deletedByte_resurfaces : Whole (fun _ => ∅) newFile ∧
    Alike (freeBlocks newFile) (freeBlocks newFile) newFile (scribbled newFile 518 fun _ => 7) ∧
    ∃ first second first' second' m m₂,
      Path Happens newFile (rereadEvents first second) m ∧
      Path Happens (scribbled newFile 518 fun _ => 7) (rereadEvents first' second') m₂ ∧
      second 0 = 0 ∧ second' 0 = 7 := by
  obtain ⟨first, second, hpath, hzero⟩ :=
    path_of_readsTwice (run_eq_of_returned readsTwice_newFile)
  obtain ⟨first', second', hpath', hseven⟩ :=
    path_of_readsTwice (run_eq_of_returned readsTwice_stained)
  exact ⟨newFile_whole, alike_stained, first, second, first', second', _, _, hpath, hpath', hzero,
    hseven⟩

end LabKernel.DeletedData
