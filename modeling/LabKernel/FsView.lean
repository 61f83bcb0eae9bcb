import LabKernel.Formatting
import LabKernel.FileWrites

/-!
What the disk shows, as tables, and the calls that only touch variables
outside the disk.
-/

namespace LabKernel.FsView

open LabKernel.BlockCache
open LabKernel.BlockFreeing
open LabKernel.BlockObject
open LabKernel.BlockOwnership
open LabKernel.ByteMemory
open LabKernel.Directories
open LabKernel.DirectoryCalls
open LabKernel.FsCode
open LabKernel.FsLayout
open LabKernel.FsPrimitives
open LabKernel.FsTables
open LabKernel.HandleRecycling
open LabKernel.ProgramLogic

variable {m m' : Machine Bytes Globals} {s s' : FsState} {n n' : Inode} {path : List UInt8}
  {lo q k : Nat} {e : DirEntry} {E : Failure → Machine Bytes Globals → Prop}

/-- The tables as they show. -/
def shown (m : Machine Bytes Globals) : FsState where
  blockUsed := blockBit m
  inodeUsed := inodeBit m
  inode := inodeAt m
  data x := some (visible m x)
  cwd := m.globals.cwdNode
  files := m.globals.files
  blockDrift := m.globals.superblock.blockAllocated - marked (blockBit m) maxBlockNum
  inodeDrift := m.globals.superblock.inodeAllocated - marked (inodeBit m) maxInodeNum

theorem counted_shown (m : Machine Bytes Globals) : Counted m.globals.superblock (shown m) :=
  ⟨(UInt32.sub_add_cancel _ _).symm, (UInt32.sub_add_cancel _ _).symm⟩

theorem slot_shown (h : Realizes m s) (hn : HasBlocks s n) (q : Nat) :
    slot (shown m) n q = slot s n q := by
  rcases eq_or_ne (direct n (q / 128)) 0 with hzero | hne
  · rw [slot_of_zero hzero, slot_of_zero hzero]
  · obtain ⟨hp, d, hd⟩ := hn _ hne
    have hdata : (shown m).data (direct n (q / 128)).toNat = some d :=
      congrArg some (h.data _ hp.1 hp.2 d hd).1
    rw [slot_of_data hne hdata, slot_of_data hne hd]

theorem live_shown (h : Realizes m s) : Live (shown m) k ↔ Live s k := by
  refine and_congr_right fun hk => ?_
  rw [← h.inodeUsed k hk]
  rfl

theorem here_shown (h : Realizes m s) (hlive : Live s s.cwd.toNat) : (shown m).here = s.here := by
  have hcwd : (shown m).cwd = s.cwd := h.cwd
  rw [FsState.here, hcwd]
  exact h.inode _ hlive.1

theorem not_isNegative {ino : UInt32} (h : ino.toNat < maxInodeNum) : isNegative ino = false := by
  rw [maxInodeNum_eq] at h
  exact decide_eq_false (by omega)

/-- The entry with the given name in a directory. -/
def lookup (s : FsState) (n : Inode) (path : List UInt8) : Option DirEntry :=
  (List.range 1024).findSome? fun q => (slot s n q).filter fun e => e.name = path

theorem findSome_cases (s : FsState) (n : Inode) (path : List UInt8) (left lo : Nat) :
    (∃ q e, Finds s n path lo (lo + left) q e ∧ (List.range' lo left).findSome?
      (fun q => (slot s n q).filter fun e => e.name = path) = some e) ∨
    (Misses s n path lo (lo + left) ∧ (List.range' lo left).findSome?
      (fun q => (slot s n q).filter fun e => e.name = path) = none) := by
  induction left generalizing lo with
  | zero => exact Or.inr ⟨fun q hle hlt => absurd hlt (by omega), rfl⟩
  | succ left ih =>
      rw [List.range'_succ, List.findSome?_cons, show lo + (left + 1) = lo + 1 + left by omega]
      cases hfirst : (slot s n lo).filter fun e => e.name = path with
      | some e =>
          obtain ⟨hslot, hname⟩ := Option.filter_eq_some_iff.mp hfirst
          exact Or.inl ⟨lo, e, ⟨le_refl _, by omega, hslot, by simpa using hname,
            fun q' hle hlt => absurd hlt (by omega)⟩, rfl⟩
      | none =>
          have hmiss : Misses s n path lo (lo + 1) := by
            intro q hle hlt e he hname
            rw [show q = lo by omega] at he
            rw [he] at hfirst
            simp [hname] at hfirst
          rcases ih (lo + 1) with ⟨q, e, hfinds, heq⟩ | ⟨hmiss', heq⟩
          · exact Or.inl ⟨q, e, hmiss.finds hfinds (by omega), heq⟩
          · exact Or.inr ⟨hmiss.append hmiss', heq⟩

theorem lookup_cases (s : FsState) (n : Inode) (path : List UInt8) :
    (∃ q e, Finds s n path 0 1024 q e ∧ lookup s n path = some e) ∨
      (Misses s n path 0 1024 ∧ lookup s n path = none) := by
  unfold lookup
  rw [List.range_eq_range']
  simpa using findSome_cases s n path 1024 0

theorem lookup_of_finds (h : Finds s n path 0 1024 q e) : lookup s n path = some e := by
  rcases lookup_cases s n path with ⟨q', e', hfinds, heq⟩ | ⟨hmiss, -⟩
  · rw [heq, (h.unique hfinds).2]
  · exact absurd h.name_eq (hmiss q (Nat.zero_le _) h.lt e h.slot_eq)

theorem lookup_of_misses (h : Misses s n path 0 1024) : lookup s n path = none := by
  rcases lookup_cases s n path with ⟨q, e, hfinds, -⟩ | ⟨-, heq⟩
  · exact absurd hfinds.name_eq (h q (Nat.zero_le _) hfinds.lt e hfinds.slot_eq)
  · exact heq

theorem lookup_congr (h : ∀ q, slot s' n' q = slot s n q) :
    lookup s' n' path = lookup s n path := by
  unfold lookup
  simp only [h]

/-- A change of the variables that are neither the super block nor the
current directory. -/
theorem modifyGlobals_realizes (h : Realizes m s) (f : Globals → Globals)
    (hsb : ∀ g : Globals, (f g).superblock = g.superblock)
    (hcwd : ∀ g : Globals, (f g).cwdNode = g.cwdNode) :
    Runs (modifyGlobals f) m E fun _ m' =>
      Realizes m' { s with files := (f m.globals).files } := by
  refine (runs_modifyGlobals h.ready.sound f (T := ∅)).mono (fun _ _ he => he) ?_
  rintro _ m' ⟨hev, -, -, hg⟩
  refine h.evolves hev ⟨hev.sound, ?_⟩ ?_ ?_ ?_ rfl
  · rw [hg, hsb]
    exact h.ready.layout
  · rw [hg, hcwd]
    exact h.cwd
  · rw [hg]
  · rw [hg, hsb]
    exact h.counted

theorem print_realizes (h : Realizes m s) (p : Printed) :
    Runs (print p) m E fun _ m' => Realizes m' s := by
  refine (modifyGlobals_realizes h (fun g => { g with console := g.console ++ [p] })
    (fun _ => rfl) fun _ => rfl).mono (fun _ _ he => he) ?_
  intro _ m' h'
  have hsame : { s with files := m.globals.files } = s := by rw [h.files]
  exact hsame ▸ h'

theorem failWith_realizes (h : Realizes m s) (text : String) :
    Runs (failWith text) m E fun _ m' => Realizes m' s :=
  (print_realizes h _).bind fun _ _ h' => runs_pure h'

theorem setFile_realizes (h : Realizes m s) (fd : Nat) (file : Option File) :
    Runs (setFile fd file) m E fun _ m' => Realizes m' { s with files := s.files.set fd file } := by
  refine (modifyGlobals_realizes h (fun g => { g with files := g.files.set fd file })
    (fun _ => rfl) fun _ => rfl).mono (fun _ _ he => he) ?_
  intro _ m' h'
  rw [h.files] at h'
  exact h'

theorem getFile_realizes (h : Realizes m s) (fd : Nat) :
    Runs (getFile fd) m E fun file m' => file = (s.files[fd]?).join ∧ m' = m := by
  refine runs_getGlobals.bind ?_
  rintro _ m ⟨rfl, rfl⟩
  rw [h.files]
  exact runs_pure ⟨rfl, rfl⟩

theorem initFile_realizes (h : Realizes m s) (file : File) :
    Runs (initFile file) m E fun _ m' => ∃ files, Realizes m' { s with files := files } ∧
      (files = s.files ∨
        lookupFile file.inodeIdx s.files = none ∧ files = s.files ++ [some file]) := by
  refine runs_getGlobals.bind ?_
  rintro _ m ⟨rfl, rfl⟩
  dsimp only
  split
  next => exact runs_pure ⟨s.files, h, Or.inl rfl⟩
  next hnone =>
    refine (modifyGlobals_realizes h (fun g => { g with files := g.files ++ [some file] })
      (fun _ => rfl) fun _ => rfl).bind ?_
    intro _ m' h'
    rw [h.files] at h' hnone
    exact runs_pure ⟨_, h', Or.inr ⟨hnone, rfl⟩⟩

end LabKernel.FsView
