import LabKernel.BlindPrograms
import LabKernel.TidyRuns

/-!
Runs in which handles may outlive their files.

The order of the disk does not depend on the table of open files: a file may
be removed while it is open, and the disk may be formatted again, as long as
nothing is transferred afterwards through a handle that is out of date.
-/

namespace LabKernel.MindedRuns

open LabKernel.BlindPrograms
open LabKernel.BlockCache
open LabKernel.BlockFreeing
open LabKernel.BlockObject
open LabKernel.BlockOwnership
open LabKernel.ByteMemory
open LabKernel.ComposedPrograms
open LabKernel.DirectData
open LabKernel.Directories
open LabKernel.DirectoryCalls
open LabKernel.FileWrites
open LabKernel.Formatting
open LabKernel.FsCode
open LabKernel.FsLayout
open LabKernel.FsPrimitives
open LabKernel.FsRuns
open LabKernel.FsTables
open LabKernel.FsView
open LabKernel.HandleRecycling
open LabKernel.InertReads
open LabKernel.ProgramLogic
open LabKernel.TidyCalls
open LabKernel.TidyDisk
open LabKernel.TidyRuns
open LabKernel.TransitionSystem

variable {m m' : Machine Bytes Globals} {s s' : FsState} {files files' : List (Option File)}
  {file file' : File} {fd i : Nat} {op : FsOp}

theorem realizes_withFiles (h : Realizes (withFiles files m) s) (files' : List (Option File)) :
    Realizes (withFiles files' m) { s with files := files' } where
  ready := ⟨(evolves_globals (T := ∅) (W := ∅) h.ready.sound _).sound, h.ready.layout⟩
  settled := h.settled
  blockUsed := h.blockUsed
  inodeUsed := h.inodeUsed
  inode := h.inode
  data := h.data
  cwd := h.cwd
  files := rfl
  counted := ⟨h.counted.blocks, h.counted.inodes⟩

theorem realizes_closed (h : Realizes m s) : Realizes (closed m) { s with files := [] } :=
  have hself : Realizes (withFiles m.globals.files m) s := h
  realizes_withFiles hself []

theorem inOrder_noFiles (ho : InOrder s) : InOrder { s with files := [] } := by
  refine ⟨ho.tidy.setFiles (fun _ hfile => absurd hfile List.not_mem_nil) ?_, ho.typed⟩
  intro i j file file' hfile
  rw [List.getElem?_nil] at hfile
  cases hfile

theorem quiet_closed (h : Quiet { s with files := files } (withFiles files' m)) :
    Quiet s (closed m) := by
  obtain ⟨s', h', ho', hsame⟩ := h
  exact ⟨{ s' with files := [] }, realizes_withFiles h' [], inOrder_noFiles ho',
    hsame.dir, hsame.size, hsame.slot_eq⟩

/-- The table with one handle. -/
def only (fd : Nat) (file : File) : List (Option File) := List.replicate fd none ++ [some file]

theorem mem_only (h : some file' ∈ only fd file) : file' = file := by
  rcases List.mem_append.mp h with hmem | hmem
  · cases (List.mem_replicate.mp hmem).2
  · exact Option.some.inj (List.mem_singleton.mp hmem)

theorem join_only : ((only fd file)[fd]?).join = some file := by
  simp [only]

theorem eq_of_join_only (h : ((only fd file)[i]?).join = some file') : i = fd := by
  rcases lt_trichotomy i fd with hlt | heq | hgt
  · rw [only, List.getElem?_append_left (by simpa using hlt), List.getElem?_replicate,
      if_pos hlt] at h
    cases h
  · exact heq
  · rw [only, List.getElem?_eq_none (by simp; omega)] at h
    cases h

theorem inOrder_only (ho : InOrder s) (hfile : UpToDate s file) :
    InOrder { s with files := only fd file } := by
  refine ⟨ho.tidy.setFiles (fun file' hmem => ?_) fun i j _ _ hi hj _ => ?_, ho.typed⟩
  · rw [mem_only hmem]
    exact hfile
  · rw [eq_of_join_only hi, eq_of_join_only hj]

theorem upToDate_of_shown (h : Realizes (closed m) s) (hfile : UpToDate (shown m) file) :
    UpToDate s file := by
  have hlive : Live s file.inodeIdx.toNat := (live_shown h).mp hfile.live
  have hinode : (shown m).inode file.inodeIdx.toNat = s.inode file.inodeIdx.toNat :=
    inode_shown (m := closed m) h hlive
  exact ⟨hlive, hinode ▸ hfile.pointer, hfile.object, hinode ▸ hfile.inode⟩

/-- The condition on a call: reads and writes are through handles that are up
to date, and the other calls are tended whatever is open.  The disk may be
formatted at any time. -/
def Minded (m : Machine Bytes Globals) : FsOp → Prop
  | .mkfs => True
  | .fread fd _ length => ∀ file, objectOf m fd = some file →
      UpToDate (shown m) file ∧ Direct false file length
  | .fwrite fd _ _ => ∀ file, objectOf m fd = some file → UpToDate (shown m) file
  | op => Tended (closed m) op

/-- A transfer through a handle that is up to date. -/
theorem quiet_of_handle (h : Realizes (closed m) s) (ho : InOrder s)
    (hfile : UpToDate (shown m) file) (hok : Tended (withFiles (only fd file) m) op)
    (hnext : ∃ files, next (withFiles (only fd file) m) op = some (withFiles files m'))
    (hquiet : ∀ {s m'}, Left s m' op → Quiet s m') : Quiet s (closed m') := by
  obtain ⟨files, hnext⟩ := hnext
  have ho' : InOrder { s with files := only fd file } :=
    inOrder_only ho (upToDate_of_shown h hfile)
  exact quiet_closed (hquiet (left_of_next (realizes_withFiles h _) ho' hok hnext))

/-- What a minded call leaves on the disk. -/
theorem minded_cases (h : Realizes (closed m) s) (ho : InOrder s) (hok : Minded m op)
    (hnext : next m op = some m') :
    (op = .mkfs ∧ ∃ s' p, Realizes (closed m') s' ∧ Initial s' p) ∨
      (NamesOk (closed m) op ∧ Left s (closed m') op) := by
  have hblind : ∀ {α : Type} {p : Fs α}, op.program = (do let _ ← p) → Composed Apart p →
      next (closed m) op = some (closed m') := fun hprogram hcomposed =>
    next_of_composed (hprogram ▸ .bind hcomposed fun _ => .pure _) [] hnext
  have hleft : Tended (closed m) op → next (closed m) op = some (closed m') →
      NamesOk (closed m) op ∧ Left s (closed m') op :=
    fun hok hnext => ⟨hok.2, left_of_next h ho hok hnext⟩
  have hstay : closed m' = closed m → Quiet s (closed m') := fun heq => by
    rw [heq]
    exact quiet_of_realizes ho h
  cases op with
  | mkfs =>
      have hrun := program_run_of_next (hblind rfl composed_fsMkfs)
      have hmkfs := fsMkfs_realizes (m := closed m) ⟨h.ready.sound, h.settled⟩ rfl
      refine Or.inl ⟨rfl, ?_⟩
      exact Runs.ok (Q := fun _ m' => ∃ s' p, Realizes m' s' ∧ Initial s' p)
        (hmkfs.bind fun _ _ hq => runs_pure hq) hrun
  | statfs => exact Or.inr (hleft hok (hblind rfl composed_fsStatfs))
  | cd path => exact Or.inr (hleft hok (hblind rfl (composed_fsCd path)))
  | ls path option => exact Or.inr (hleft hok (hblind rfl (composed_fsLs path option)))
  | mkdir path => exact Or.inr (hleft hok (hblind rfl (composed_fsMkdir path)))
  | touch path => exact Or.inr (hleft hok (hblind rfl (composed_fsTouch path)))
  | rm path => exact Or.inr (hleft hok (hblind rfl (composed_fsRm path)))
  | rmdir path => exact Or.inr (hleft hok (hblind rfl (composed_fsRmdir path)))
  | ln srcPath dstPath => exact Or.inr (hleft hok (hblind rfl (composed_fsLn srcPath dstPath)))
  | cat path => exact Or.inr (hleft hok (hblind rfl (composed_fsCat path)))
  | fopen path mode =>
      obtain ⟨files, hnext'⟩ := next_fopen [] hnext
      obtain ⟨s₁, htouched, hquiet⟩ := left_of_next h ho hok hnext'
      exact Or.inr ⟨hok.2, s₁, htouched, quiet_closed hquiet⟩
  | fread fd buff length =>
      refine Or.inr ⟨trivial, ?_⟩
      cases hfile : objectOf m fd with
      | none => exact hstay (congrArg closed (next_fread_none hfile hnext))
      | some file =>
          obtain ⟨hupToDate, hdirect⟩ := hok file hfile
          have hok' : Tended (withFiles (only fd file) m) (.fread fd buff length) := by
            refine ⟨fun file' hfile' => ?_, trivial⟩
            rw [← Option.some.inj (join_only.symm.trans hfile')]
            exact hdirect
          exact quiet_of_handle h ho hupToDate hok' (next_fread hfile join_only hnext) fun hq => hq
  | fwrite fd buff length =>
      refine Or.inr ⟨trivial, ?_⟩
      cases hfile : objectOf m fd with
      | none => exact hstay (congrArg closed (next_fwrite_none hfile hnext))
      | some file =>
          have hok' : Tended (withFiles (only fd file) m) (.fwrite fd buff length) :=
            ⟨trivial, trivial⟩
          exact quiet_of_handle h ho (hok file hfile) hok' (next_fwrite hfile join_only hnext)
            fun hq => hq
  | lseek fd offset whence => exact Or.inr ⟨trivial, hstay (closed_lseek hnext)⟩
  | fclose fd => exact Or.inr ⟨trivial, hstay (closed_fclose hnext)⟩

theorem ordered_closed (h : Ordered m) : Ordered (closed m) := by
  obtain ⟨s, hs, ho⟩ := h
  exact ⟨_, realizes_closed hs, inOrder_noFiles ho⟩

/-- In every run of minded calls the disk is in order. -/
theorem ordered_of_minded (h : ReachableUnder fileSystem Minded m) : Ordered (closed m) := by
  refine h.invariant (P := fun m => Ordered (closed m))
    (fun _ hstart => ordered_closed (ordered_of_formatted hstart)) ?_
  rintro m op m' ⟨s, hs, ho⟩ hok hstep
  rcases minded_cases hs ho hok hstep with ⟨-, s', p, hs', hinitial⟩ | ⟨hnames, hleft⟩
  · exact ⟨s', hs', inOrder_initial hinitial⟩
  · exact hleft.ordered hs ho hnames

theorem composed_lsPrefix (path : List UInt8) : Composed Apart (lsPrefix path) := by
  refine .bind (composed_fsCd path) fun _ => composed_ite (.pure _) (.bind composed_cwdNode ?_)
  exact fun ino => .bind (composed_readInode ino) fun _ => composed_ite (.pure _) (.pure _)

theorem composed_rmPrefix (type : UInt8) (path : List UInt8) :
    Composed Apart (rmPrefix type path) := by
  refine .bind (composed_lookup path 0) fun ino => composed_ite (.pure _) ?_
  refine .bind (composed_readInode ino) fun _ => composed_ite (.pure _) (composed_ite (.pure _) ?_)
  exact .bind (composed_removeInodeByFilename path) fun _ => .pure _

theorem composed_catPrefix (path : List UInt8) : Composed Apart (catPrefix path) := by
  refine .bind (composed_lookup path 0) fun ino => composed_ite (.pure _) ?_
  exact .bind (composed_readInode ino) fun _ => composed_ite (.pure _) (.pure _)

theorem removalFits_closed {type : UInt8} {path : List UInt8} (h : RemovalFits m type path) :
    RemovalFits (closed m) type path := by
  intro inode m₁ hrun hlink
  obtain ⟨m₂, hrun', rfl⟩ :=
    (commutes_of_composed (composed_rmPrefix type path) []).of_run hrun
  exact h inode m₂ hrun' hlink

theorem removeOk_closed {type : UInt8} {path : List UInt8} (h : RemoveOk (shown m) path type) :
    RemoveOk (shown (closed m)) path type := by
  intro e he htype hsize
  obtain ⟨hroot, hcwd, hlast⟩ := h e he htype hsize
  exact ⟨hroot, hcwd, fun hlink => ⟨(hlast hlink).names, fun _ hfile =>
    absurd hfile List.not_mem_nil⟩⟩

/-- A call that is tended in a state in order is minded. -/
theorem minded_of_tended (h : Ordered m) (hok : Tended m op) : Minded m op := by
  obtain ⟨s, hs, ho⟩ := h
  have hfiles : ∀ {fd file}, objectOf m fd = some file → UpToDate (shown m) file := by
    intro fd file hfile
    rw [objectOf, hs.files] at hfile
    obtain ⟨hlive, hpointer, hobject, hinode⟩ := ho.tidy.files file (mem_of_join hfile)
    rw [← inode_shown hs hlive] at hinode
    refine ⟨(live_shown hs).mpr hlive, fun r => ?_, hobject, hinode⟩
    rw [inode_shown hs hlive, hpointer]
  obtain ⟨hshallow, hnames⟩ := hok
  cases op with
  | mkfs => trivial
  | statfs | cd | lseek | fclose => exact ⟨trivial, trivial⟩
  | mkdir path => exact ⟨trivial, hnames⟩
  | touch path => exact ⟨trivial, hnames⟩
  | fopen path mode => exact ⟨trivial, hnames⟩
  | ln srcPath dstPath => exact ⟨trivial, hnames⟩
  | ls path option =>
      refine ⟨fun hopt inode m₁ hrun => ?_, trivial⟩
      obtain ⟨m₂, hrun', rfl⟩ := (commutes_of_composed (composed_lsPrefix path) []).of_run hrun
      exact hshallow hopt inode m₂ hrun'
  | rm path => exact ⟨removalFits_closed hshallow, removeOk_closed hnames⟩
  | rmdir path => exact ⟨removalFits_closed hshallow, removeOk_closed hnames⟩
  | cat path =>
      refine ⟨fun n m₁ hrun => ?_, trivial⟩
      obtain ⟨m₂, hrun', rfl⟩ := (commutes_of_composed (composed_catPrefix path) []).of_run hrun
      exact hshallow n m₂ hrun'
  | fread fd buff length => exact fun file hfile => ⟨hfiles hfile, hshallow file hfile⟩
  | fwrite fd buff length => exact fun file hfile => hfiles hfile

/-- The runs of tended calls are among the runs of minded calls. -/
theorem minded_of_reachable (h : ReachableUnder fileSystem Tended m) :
    ReachableUnder fileSystem Minded m := by
  induction h with
  | start hstart => exact .start hstart
  | step hbefore hok hstep ih =>
      exact .step ih (minded_of_tended (ordered_of_tended hbefore) hok) hstep

/-- A file is open while the disk is formatted again. -/
theorem minded_reformatted (h : replay next blankFormatted [.fopen [97] 3, .mkfs] = some m) :
    ReachableUnder fileSystem Minded m := by
  obtain ⟨m₁, hopen, hrest⟩ := Option.bind_eq_some_iff.mp h
  obtain ⟨m₂, hmkfs, hend⟩ := Option.bind_eq_some_iff.mp hrest
  obtain rfl := Option.some.inj hend
  have hok : Minded blankFormatted (.fopen [97] 3) := ⟨trivial, nameOk_singleton (by decide)⟩
  have hopened : ReachableUnder fileSystem Minded m₁ :=
    (ReachableUnder.start formatted_blankFormatted).step hok hopen
  exact hopened.step (a := .mkfs) trivial hmkfs

end LabKernel.MindedRuns
