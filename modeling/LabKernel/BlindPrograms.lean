import LabKernel.FsRuns
import LabKernel.SteadyPrograms

/-!
Calls on machines that differ in their tables of open files.

No call looks at the table but those that open, use or close a handle, and
these look at the object of their handle only.
-/

namespace LabKernel.BlindPrograms

open LabKernel.BlockCache
open LabKernel.BlockObject
open LabKernel.ByteMemory
open LabKernel.ComposedPrograms
open LabKernel.FsCode
open LabKernel.FsLayout
open LabKernel.FsRuns
open LabKernel.ProgramLogic
open LabKernel.SteadyPrograms

variable {m m' : Machine Bytes Globals} {files : List (Option File)} {file : File} {fd : Nat}
  {α γ : Type} {p q : Fs α} {k : α → Fs γ} {rest : Fs Unit} {op : FsOp}

/-- The machine with another table of open files. -/
def withFiles (files : List (Option File)) (m : Machine Bytes Globals) : Machine Bytes Globals :=
  { m with globals := { m.globals with files := files } }

/-- The machine with no file open. -/
abbrev closed (m : Machine Bytes Globals) : Machine Bytes Globals := withFiles [] m

theorem commutes_of_composed (h : Composed Apart p) (files : List (Option File)) :
    Commutes (withFiles files) p := by
  induction h with
  | pure _ => exact fun _ => rfl
  | fail _ => exact fun _ => rfl
  | bind _ _ hp hk => exact commutes_bind hp hk
  | openBlock x =>
      intro m
      unfold openBlock withFiles
      dsimp only
      split
      next => rfl
      next => rfl
  | load _ => exact fun _ => rfl
  | store _ _ => exact fun _ => rfl
  | update b =>
      intro m
      unfold Block.update withFiles
      dsimp only
      split
      next => rfl
      next => rfl
  | @observe _ k hk _ hcommutes =>
      intro m
      show (k { m.globals with files := files }).run (withFiles files m) = _
      rw [hk]
      exact hcommutes m.globals m
  | modify hg =>
      intro m
      exact congrArg (fun g => (Except.ok (), { m with globals := g })) (hg m.globals files)

/-- From machines that differ in their tables of open files only, the program
returns from both or from none, to machines that differ so again. -/
def Loose (p : Fs α) : Prop := ∀ files m, ∃ files',
  (p.run (withFiles files m)).2 = withFiles files' (p.run m).2 ∧
    ((p.run (withFiles files m)).1.isOk = (p.run m).1.isOk)

theorem loose_pure (a : α) : Loose (pure a : Fs α) := fun files _ => ⟨files, rfl, rfl⟩

theorem loose_bind (hp : Composed Apart p) (hk : ∀ a, Loose (k a)) : Loose (p >>= k) := by
  intro files m
  rw [run_bind, run_bind, commutes_of_composed hp files m]
  generalize p.run m = outcome
  obtain ⟨result, m'⟩ := outcome
  cases result with
  | ok a => exact hk a files m'
  | error e => exact ⟨files, rfl, rfl⟩

theorem loose_ite {c : Prop} [Decidable c] (hp : Loose p) (hq : Loose q) :
    Loose (if c then p else q) := by
  split
  next => exact hp
  next => exact hq

theorem initFile_returns (file : File) (m : Machine Bytes Globals) :
    ∃ r files, (initFile file).run m = (.ok r, withFiles files m) := by
  cases hlookup : lookupFile file.inodeIdx m.globals.files with
  | none =>
      refine ⟨m.globals.files.length, m.globals.files ++ [some file], ?_⟩
      simp only [initFile, run_bind, getGlobals, hlookup]
      rfl
  | some fd =>
      refine ⟨fd, m.globals.files, ?_⟩
      simp only [initFile, run_bind, getGlobals, hlookup]
      rfl

theorem loose_initFile (file : File) : Loose (initFile file) := by
  intro files m
  obtain ⟨r, files₁, hrun₁⟩ := initFile_returns file (withFiles files m)
  obtain ⟨r', files₂, hrun₂⟩ := initFile_returns file m
  rw [hrun₁, hrun₂]
  exact ⟨files₁, rfl, rfl⟩

theorem loose_fsFopen (path : List UInt8) (mode : UInt32) : Loose (fsFopen path mode) := by
  refine loose_bind (composed_getInodeByFilename path true 0) fun ino => ?_
  refine loose_bind (composed_readInode ino) fun n => loose_ite (loose_pure _) ?_
  refine loose_ite (loose_bind (composed_writeInode _ _) fun _ => ?_) (loose_initFile _)
  exact loose_initFile _

theorem loose_discard (hp : Loose p) : Loose (do let _ ← p) := by
  intro files m
  obtain ⟨files', hstate, hok⟩ := hp files m
  refine ⟨files', ?_⟩
  rw [run_bind, run_bind]
  generalize p.run (withFiles files m) = outcome at hstate hok ⊢
  generalize p.run m = outcome' at hstate hok ⊢
  obtain ⟨result, m₁⟩ := outcome
  obtain ⟨result', m₂⟩ := outcome'
  cases result with
  | ok a =>
      cases result' with
      | ok a' => exact ⟨hstate, rfl⟩
      | error e' => cases hok
  | error e =>
      cases result' with
      | ok a' => cases hok
      | error e' => exact ⟨hstate, rfl⟩

theorem loose_handle (isWrite : Bool) (file : File) (buff : Bytes) (length fd : Nat)
    (k : File × Bytes × Int → α) : Loose (do
      let r ← fileTransfer isWrite file buff length
      setFile fd (some r.1)
      return k r) := by
  refine loose_bind (composed_fileTransfer isWrite file buff length) fun r => ?_
  intro files m
  exact ⟨files.set fd (some r.1), rfl, rfl⟩

theorem next_of_alike {m₁ : Machine Bytes Globals} (hnext : next m op = some m')
    (hstate : (op.program.run m₁).2 = withFiles files (op.program.run m).2)
    (hok : (op.program.run m₁).1.isOk = (op.program.run m).1.isOk) :
    next m₁ op = some (withFiles files m') := by
  rw [program_run_of_next hnext] at hstate hok
  unfold next
  generalize op.program.run m₁ = outcome at hstate hok ⊢
  obtain ⟨result, m₂⟩ := outcome
  cases result with
  | ok _ => exact congrArg some hstate
  | error _ => cases hok

/-- A call that does not look at the table takes the same step whatever is in
it. -/
theorem next_of_composed (h : Composed Apart op.program) (files : List (Option File))
    (hnext : next m op = some m') : next (withFiles files m) op = some (withFiles files m') := by
  unfold next
  rw [(commutes_of_composed h files).run_ok (program_run_of_next hnext)]

theorem next_fopen {path : List UInt8} {mode : UInt32} (files : List (Option File))
    (hnext : next m (.fopen path mode) = some m') :
    ∃ files', next (withFiles files m) (.fopen path mode) = some (withFiles files' m') := by
  have hloose : Loose (FsOp.fopen path mode).program := loose_discard (loose_fsFopen path mode)
  obtain ⟨files', hstate, hok⟩ := hloose files m
  exact ⟨files', next_of_alike hnext hstate hok⟩

/-- A transfer through a handle takes the same step in all tables with the
same object behind the handle. -/
theorem next_of_handle (hrest : Loose rest)
    (hrun : ∀ m, (m.globals.files[fd]?).join = some file → op.program.run m = rest.run m)
    (hfile : (m.globals.files[fd]?).join = some file) (hsame : (files[fd]?).join = some file)
    (hnext : next m op = some m') :
    ∃ files', next (withFiles files m) op = some (withFiles files' m') := by
  obtain ⟨files', hstate, hok⟩ := hrest files m
  rw [← hrun m hfile, ← hrun (withFiles files m) hsame] at hstate hok
  exact ⟨files', next_of_alike hnext hstate hok⟩

theorem run_getFile {entry : Option File} (hfile : (m.globals.files[fd]?).join = entry) :
    (getFile fd).run m = (.ok entry, m) :=
  congrArg (fun entry => (Except.ok entry, m)) hfile

theorem next_fread {buff : Bytes} {length : Nat} (hfile : (m.globals.files[fd]?).join = some file)
    (hsame : (files[fd]?).join = some file) (hnext : next m (.fread fd buff length) = some m') :
    ∃ files', next (withFiles files m) (.fread fd buff length) = some (withFiles files' m') := by
  refine next_of_handle (loose_discard (loose_handle false file buff length fd
    fun r => (r.2.2, r.2.1))) (fun m hm => ?_) hfile hsame hnext
  rw [FsOp.program, run_bind, run_bind, fsFread, run_bind_ok (run_getFile hm)]

theorem next_fwrite {buff : Bytes} {length : Nat} (hfile : (m.globals.files[fd]?).join = some file)
    (hsame : (files[fd]?).join = some file) (hnext : next m (.fwrite fd buff length) = some m') :
    ∃ files', next (withFiles files m) (.fwrite fd buff length) = some (withFiles files' m') := by
  refine next_of_handle (loose_discard (loose_handle true file buff length fd
    fun r => r.2.2)) (fun m hm => ?_) hfile hsame hnext
  rw [FsOp.program, run_bind, run_bind, fsFwrite, run_bind_ok (run_getFile hm)]

theorem next_fread_none {buff : Bytes} {length : Nat}
    (hfile : (m.globals.files[fd]?).join = none) (hnext : next m (.fread fd buff length) = some m') :
    m' = m := by
  have hrun := program_run_of_next hnext
  rw [FsOp.program, run_bind, fsFread, run_bind_ok (run_getFile hfile)] at hrun
  exact (Prod.mk.inj hrun).2.symm

theorem next_fwrite_none {buff : Bytes} {length : Nat}
    (hfile : (m.globals.files[fd]?).join = none) (hnext : next m (.fwrite fd buff length) = some m') :
    m' = m := by
  have hrun := program_run_of_next hnext
  rw [FsOp.program, run_bind, fsFwrite, run_bind_ok (run_getFile hfile)] at hrun
  exact (Prod.mk.inj hrun).2.symm

theorem steady_setFile_closed (entry : Option File) : Steady closed (setFile fd entry) :=
  fun _ => rfl

theorem closed_lseek {offset : UInt32} {whence : Int}
    (hnext : next m (.lseek fd offset whence) = some m') : closed m' = closed m := by
  have hsteady : Steady closed (FsOp.lseek fd offset whence).program := by
    refine steady_bind (steady_bind (steady_getFile fd) fun entry => ?_) fun _ => steady_pure _
    split
    next =>
      split
      next => exact steady_bind (steady_setFile_closed _) fun _ => steady_pure _
      next => exact steady_pure _
    next => exact steady_pure _
  have hclosed := hsteady m
  rwa [program_run_of_next hnext] at hclosed

theorem closed_fclose (hnext : next m (.fclose fd) = some m') : closed m' = closed m := by
  have hsteady : Steady closed (FsOp.fclose fd).program :=
    steady_bind (steady_bind (steady_setFile_closed none) fun _ => steady_pure _) fun _ =>
      steady_pure _
  have hclosed := hsteady m
  rwa [program_run_of_next hnext] at hclosed

end LabKernel.BlindPrograms
