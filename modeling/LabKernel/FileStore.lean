import LabKernel.FileContents
import LabKernel.PathWalks

/-!
The file system as its callers see it: a tree of names over numbered files and
directories, the bytes of the files, and a table of open files.  Neither blocks
nor bit maps nor a cache occur here.
-/

namespace LabKernel.FileStore

open LabKernel.ByteMemory
open LabKernel.FsCode
open LabKernel.FsRuns
open LabKernel.PathWalks
open LabKernel.ProgramLogic

/-- What a call returns, for `fs_fread` with the buffer of the caller. -/
inductive Reply where
  | code (result : Int)
  | data (result : Int) (buff : Bytes)

/-- The call with its result. -/
def call : FsOp → Fs Reply
  | .mkfs => do return .code (← fsMkfs)
  | .statfs => do return .code (← fsStatfs)
  | .cd path => do return .code (← fsCd path)
  | .ls path option => do return .code (← fsLs path option)
  | .mkdir path => do return .code (← fsMkdir path)
  | .touch path => do return .code (← fsTouch path)
  | .rm path => do return .code (← fsRm path)
  | .rmdir path => do return .code (← fsRmdir path)
  | .ln srcPath dstPath => do return .code (← fsLn srcPath dstPath)
  | .cat path => do return .code (← fsCat path)
  | .fopen path mode => do return .code (← fsFopen path mode)
  | .fread fd buff length => do
      let (result, buff) ← fsFread fd buff length
      return .data result buff
  | .fwrite fd buff length => do return .code (← fsFwrite fd buff length)
  | .lseek fd offset whence => do return .code (← fsLseek fd offset whence)
  | .fclose fd => do return .code (← fsFclose fd)

inductive Kind where
  | directory
  | file
deriving DecidableEq

structure Handle where
  inode : Nat
  mode : UInt32
  position : Nat

abbrev Name : Type := List UInt8

/-- `kind` says which numbers are taken, `entry` what the names of a directory
stand for. -/
structure Store where
  cwd : Nat
  kind : Nat → Option Kind
  entry : Nat → Name → Option Nat
  bytes : Nat → Bytes
  size : Nat → Nat
  handles : List (Option Handle)

namespace Store

variable (a : Store)

def lookup (path : Name) : Option Nat := a.entry a.cwd path

def handle (fd : Nat) : Option Handle := (a.handles[fd]?).join

/-- The directory that a walk from `dir` ends in. -/
def walk : Nat → List Name → Option Nat
  | dir, [] => some dir
  | dir, name :: rest =>
      match a.entry dir name with
      | some k => if a.kind k = some .directory then walk k rest else none
      | none => none

/-- There is nothing in the directory but the names of itself and its parent. -/
def Empty (k : Nat) : Prop := ∀ name, name ≠ dot → name ≠ dotDot → a.entry k name = none

/-- Nothing but the given name refers to `k`. -/
structure LastName (path : Name) (k : Nat) : Prop where
  names : ∀ dir name, a.kind dir = some .directory → dir ≠ k → a.entry dir name = some k →
    dir = a.cwd ∧ name = path
  handles : ∀ h, some h ∈ a.handles → h.inode ≠ k

/-- `path` stands for `k` in the current directory. -/
def bind (path : Name) (k : Nat) : Store :=
  { a with entry := Function.update a.entry a.cwd (Function.update (a.entry a.cwd) path (some k)) }

def unbind (path : Name) : Store :=
  { a with entry := Function.update a.entry a.cwd (Function.update (a.entry a.cwd) path none) }

/-- A new empty file. -/
def create (path : Name) (k : Nat) : Store :=
  { a.bind path k with
    kind := Function.update a.kind k (some .file)
    bytes := Function.update a.bytes k fun _ => 0
    size := Function.update a.size k 0 }

/-- The names in a new directory. -/
def ownNames (self parent : Nat) (name : Name) : Option Nat :=
  if name = dot then some self else if name = dotDot then some parent else none

def createDirectory (path : Name) (k : Nat) : Store :=
  { a.bind path k with
    kind := Function.update a.kind k (some .directory)
    entry := Function.update (a.bind path k).entry k (ownNames k a.cwd) }

def discard (k : Nat) : Store := { a with kind := Function.update a.kind k none }

/-- The handle for `k`, and the table with it: there is one handle for a file. -/
def openFile (k : Nat) (mode : UInt32) : Int × Store :=
  match a.handles.findIdx? fun h => (h.map Handle.inode) = some k with
  | some fd => (fd, a)
  | none => (a.handles.length, { a with handles := a.handles ++ [some ⟨k, mode, 0⟩] })

def setHandle (fd : Nat) (h : Option Handle) : Store := { a with handles := a.handles.set fd h }

/-- `length` bytes of the buffer are written. -/
def write (fd : Nat) (h : Handle) (buff : Bytes) (length : Nat) : Store :=
  { a with
    bytes := Function.update a.bytes h.inode (copy (a.bytes h.inode) h.position buff 0 length)
    size := Function.update a.size h.inode (if length = 0 then a.size h.inode else
      max (a.size h.inode) (h.position + length))
    handles := a.handles.set fd (some { h with position := h.position + length }) }

/-- The position that `fs_lseek` asks for. -/
def seekTarget (h : Handle) (offset : UInt32) (whence : Int) : Option Nat :=
  if whence = seekSet then some offset.toNat
  else if whence = seekCur then some ((h.position + offset.toNat) % 2 ^ 32)
  else if whence = seekEnd then some ((a.size h.inode + offset.toNat) % 2 ^ 32)
  else none

end Store

/-- What the calls do. -/
inductive Step : Store → FsOp → Reply → Store → Prop
  | statfs {a} : Step a .statfs (.code 0) a
  | cd {a path dir} : a.walk a.cwd (pieces path) = some dir →
      Step a (.cd path) (.code 0) { a with cwd := dir }
  | cdFails {a path} : a.walk a.cwd (pieces path) = none → Step a (.cd path) (.code (-1)) a
  | ls {a path option dir} : a.walk a.cwd (pieces path) = some dir →
      Step a (.ls path option) (.code 0) a
  | lsFails {a path option} : a.walk a.cwd (pieces path) = none →
      Step a (.ls path option) (.code (-1)) a
  | cat {a path k} : a.lookup path = some k → a.kind k = some .file →
      Step a (.cat path) (.code 0) a
  | catFails {a path} : (∀ k, a.lookup path = some k → a.kind k ≠ some .file) →
      Step a (.cat path) (.code (-1)) a
  | touch {a path k} : a.lookup path = none → a.kind k = none →
      Step a (.touch path) (.code 0) (a.create path k)
  | touchFails {a path k} : a.lookup path = some k → Step a (.touch path) (.code (-1)) a
  | mkdir {a path k} : a.lookup path = none → a.kind k = none →
      Step a (.mkdir path) (.code 0) (a.createDirectory path k)
  | mkdirFails {a path k} : a.lookup path = some k → Step a (.mkdir path) (.code (-1)) a
  | ln {a srcPath dstPath k} : a.lookup srcPath = some k → a.lookup dstPath = none →
      Step a (.ln srcPath dstPath) (.code 0) (a.bind dstPath k)
  | lnTaken {a srcPath dstPath k k'} : a.lookup srcPath = some k → a.lookup dstPath = some k' →
      Step a (.ln srcPath dstPath) (.code 0) a
  | lnFails {a srcPath dstPath} : a.lookup srcPath = none →
      Step a (.ln srcPath dstPath) (.code (-1)) a
  | rm {a path k} : a.lookup path = some k → a.kind k = some .file →
      Step a (.rm path) (.code 0) (a.unbind path)
  | rmLast {a path k} : a.lookup path = some k → a.kind k = some .file → a.LastName path k →
      Step a (.rm path) (.code 0) ((a.unbind path).discard k)
  | rmFails {a path} : (∀ k, a.lookup path = some k → a.kind k ≠ some .file) →
      Step a (.rm path) (.code (-1)) a
  | rmdir {a path k} : a.lookup path = some k → a.kind k = some .directory → a.Empty k →
      Step a (.rmdir path) (.code 0) (a.unbind path)
  | rmdirLast {a path k} : a.lookup path = some k → a.kind k = some .directory → a.Empty k →
      a.LastName path k → Step a (.rmdir path) (.code 0) ((a.unbind path).discard k)
  | rmdirFails {a path} :
      (∀ k, a.lookup path = some k → a.kind k = some .directory → ¬a.Empty k) →
      Step a (.rmdir path) (.code (-1)) a
  | fopen {a path mode k} : a.lookup path = some k → a.kind k = some .file →
      Step a (.fopen path mode) (.code (a.openFile k mode).1) (a.openFile k mode).2
  | fopenNew {a path mode k} : a.lookup path = none → a.kind k = none →
      Step a (.fopen path mode) (.code ((a.create path k).openFile k mode).1)
        ((a.create path k).openFile k mode).2
  | fopenFails {a path mode k} : a.lookup path = some k → a.kind k = some .directory →
      Step a (.fopen path mode) (.code (-1)) a
  | fread {a fd buff length h} : a.handle fd = some h → h.mode &&& oRdonly ≠ 0 →
      Step a (.fread fd buff length)
        (.data length (copy buff 0 (a.bytes h.inode) h.position length))
        (a.setHandle fd (some { h with position := h.position + length }))
  | freadFails {a fd buff length} : (∀ h, a.handle fd = some h → h.mode &&& oRdonly = 0) →
      Step a (.fread fd buff length) (.data (-1) buff) a
  | fwrite {a fd buff length h} : a.handle fd = some h → h.mode &&& oWronly ≠ 0 →
      Step a (.fwrite fd buff length) (.code length) (a.write fd h buff length)
  | fwriteFails {a fd buff length} : (∀ h, a.handle fd = some h → h.mode &&& oWronly = 0) →
      Step a (.fwrite fd buff length) (.code (-1)) a
  | lseek {a fd offset whence h target} : a.handle fd = some h →
      a.seekTarget h offset whence = some target →
      Step a (.lseek fd offset whence) (.code (BitVec.ofNat 32 target).toInt)
        (a.setHandle fd (some { h with position := target }))
  | lseekFails {a fd offset whence} :
      (∀ h, a.handle fd = some h → a.seekTarget h offset whence = none) →
      Step a (.lseek fd offset whence) (.code (-1)) a
  | fclose {a fd} : Step a (.fclose fd) (.code 0) (a.setHandle fd none)

end LabKernel.FileStore
