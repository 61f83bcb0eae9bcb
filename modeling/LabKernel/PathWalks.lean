import LabKernel.FsView
import LabKernel.SteadyPrograms
import Mathlib.Data.List.Basic

/-!
Walking a path (`fs_cd` and `fs_ls`).

The walk moves the current directory of the process step by step, and puts it
back when a component is missing or no directory.
-/

namespace LabKernel.PathWalks

open LabKernel.BlockCache
open LabKernel.BlockFreeing
open LabKernel.BlockObject
open LabKernel.ByteMemory
open LabKernel.ComposedPrograms
open LabKernel.DirectData
open LabKernel.Directories
open LabKernel.FsCode
open LabKernel.FsLayout
open LabKernel.FsPrimitives
open LabKernel.FsTables
open LabKernel.FsView
open LabKernel.ProgramLogic
open LabKernel.SteadyPrograms

variable {m m' : Machine Bytes Globals} {s : FsState} {path name cur : List UInt8}
  {names : List (List UInt8)} {dir oldCwd ino : UInt32} {n : Inode} {e : DirEntry}
  {E : Failure → Machine Bytes Globals → Prop}

/-- What remains when nothing comes behind the last separator. -/
def trim (cs : List (List UInt8)) : List (List UInt8) :=
  if cs.getLast? = some [] then cs.dropLast else cs

/-- The components of a path: the strings between the `/`.  Nothing comes
behind a `/` at the end. -/
def pieces (path : List UInt8) : List (List UInt8) := trim (path.splitOn 47)

theorem trim_cons {cs : List (List UInt8)} (hne : cs ≠ []) (c : List UInt8) :
    trim (c :: cs) = c :: trim cs := by
  unfold trim
  rw [List.getLast?_cons_of_ne_nil hne, List.dropLast_cons_of_ne_nil hne]
  split
  next => rfl
  next => rfl

theorem splitOn_cons (c : UInt8) (rest : List UInt8) : (c :: rest).splitOn 47 =
    if c = 47 then [] :: rest.splitOn 47 else (rest.splitOn 47).modifyHead (c :: ·) := by
  unfold List.splitOn
  rw [List.splitOnP_cons_eq_if_modifyHead]
  simp only [beq_iff_eq]

theorem components_eq (cur path : List UInt8) :
    components cur path = trim ((path.splitOn 47).modifyHead (cur ++ ·)) := by
  induction path generalizing cur with
  | nil =>
      rw [List.splitOn_nil, components]
      unfold trim
      simp only [List.modifyHead_cons, List.append_nil, List.getLast?_singleton, Option.some.injEq]
      split
      next => rfl
      next => rfl
  | cons c rest ih =>
      rw [components, splitOn_cons]
      split
      next =>
        have hne : rest.splitOn 47 ≠ [] := List.splitOnP_ne_nil _ rest
        rw [ih, List.modifyHead_cons, List.append_nil, trim_cons hne]
        cases rest.splitOn 47 with
        | nil => rfl
        | cons first others => rfl
      next =>
        rw [ih]
        cases rest.splitOn 47 with
        | nil => rfl
        | cons first others => simp [List.modifyHead]

theorem components_eq_pieces (path : List UInt8) : components [] path = pieces path := by
  rw [components_eq, pieces]
  cases path.splitOn 47 with
  | nil => rfl
  | cons first others => rfl

section Observed

variable {δ α : Type} {f : Globals → δ}

/-- No run changes what `f` observes of the variables outside the cache. -/
abbrev Silent (f : Globals → δ) (p : Fs α) : Prop := Steady (fun m => f m.globals) p

theorem silent_openBlock (x : Nat) : Silent f (openBlock x) := by
  intro m
  unfold openBlock
  dsimp only
  split
  next => rfl
  next => rfl

/-- A change of the variables outside the cache that `f` does not see. -/
def Unseen (f : Globals → δ) (g : Globals → Globals) : Prop := ∀ a, f (g a) = f a

theorem silent_composed {p : Fs α} (h : Composed (Unseen f) p) : Silent f p := by
  refine steady_of_composed h silent_openBlock (fun _ _ => rfl) (fun _ _ _ => rfl) (fun b m => ?_)
    fun g hg m => hg m.globals
  unfold Block.update
  dsimp only
  split
  next => rfl
  next => rfl

/-- The variables that a walk does not write. -/
def others (g : Globals) : SuperBlock × Bytes × List (Option File) :=
  (g.superblock, g.catBuffer, g.files)

instance : Printing (Unseen others) where
  printed _ _ := rfl

instance : Moving (Unseen others) where
  moved _ _ := rfl

theorem silent_fsCd (path : List UInt8) : Silent others (fsCd path) :=
  silent_composed (composed_fsCd path)

end Observed

section Idle

variable {α γ : Type} {p : Fs α} {k : α → Fs γ}

/-- No run that returns has written a block. -/
def Idle (p : Fs α) : Prop :=
  ∀ m, Sound m → Runs p m Any fun _ m' => Evolves ∅ ∅ ∅ m m'

theorem idle_pure (a : α) : Idle (pure a) :=
  fun _ h => runs_pure (Evolves.refl h (Finset.Subset.refl _))

theorem idle_bind (hp : Idle p) (hk : ∀ a, Idle (k a)) : Idle (p >>= k) := by
  intro m h
  refine (hp m h).bind fun a m₁ hev₁ => ?_
  exact (hk a m₁ hev₁.sound).mono (fun _ _ he => he) fun _ _ hev₂ => hev₁.trans hev₂

theorem idle_ite {c : Prop} [Decidable c] {q : Fs α} (hp : Idle p) (hq : Idle q) :
    Idle (if c then p else q) := by
  split
  next => exact hp
  next => exact hq

theorem idle_modifyGlobals (g : Globals → Globals) : Idle (modifyGlobals g) :=
  fun _ h => (runs_modifyGlobals h g).mono (fun _ _ he => he) fun _ _ hq => hq.1

theorem idle_open_load {k : Block → Bytes → Fs α} (x : Nat) (hk : ∀ b d, Idle (k b d)) :
    Idle (do let b ← openBlock x; let d ← b.load; k b d) := by
  intro m h
  refine runs_open_load h (T := {x}) (by simp [cacheSize]) (Finset.mem_singleton_self x)
    (fun _ => trivial) fun b m₁ _ _ hev _ => ?_
  refine (hk b _ m₁ hev.sound).mono (fun _ _ he => he) fun _ _ hev₂ => ?_
  exact hev.forget.trans hev₂

theorem idle_getSuperblock : Idle getSuperblock := fun _ h =>
  runs_of_ok rfl (Evolves.refl h (Finset.Subset.refl _))

theorem idle_cwdNode : Idle cwdNode := fun _ h =>
  runs_of_ok rfl (Evolves.refl h (Finset.Subset.refl _))

theorem idle_readInode (ino : UInt32) : Idle (readInode ino) :=
  idle_bind idle_getSuperblock fun _ => idle_open_load _ fun _ _ => idle_pure _

theorem idle_scanBlocks (dir : Inode) (path : List UInt8) (left i freeOffset : Nat) :
    Idle (scanBlocks dir path left i freeOffset) := by
  induction left generalizing i freeOffset with
  | zero => exact idle_pure _
  | succ left ih =>
      refine idle_ite (idle_open_load _ fun b data => ?_) (ih _ _)
      split
      next => exact idle_pure _
      next => exact ih _ _

theorem idle_getInodeByFilename (path : List UInt8) (newInodeIdx : UInt32) :
    Idle (getInodeByFilename path false newInodeIdx) := by
  refine idle_bind idle_cwdNode fun cwd => idle_bind (idle_readInode cwd) fun dir => ?_
  refine idle_bind (idle_scanBlocks dir path _ _ _) fun found => ?_
  split
  next => exact idle_pure _
  next => exact idle_pure _

theorem idle_print (text : Printed) : Idle (print text) := idle_modifyGlobals _

theorem idle_failWith (text : String) : Idle (failWith text) :=
  idle_bind (idle_print _) fun _ => idle_pure _

theorem idle_cdLoop (oldCwd : UInt32) (names : List (List UInt8)) : Idle (cdLoop oldCwd names) := by
  have hback : ∀ text, Idle (do setCwdNode oldCwd; failWith text) := fun text =>
    idle_bind (idle_modifyGlobals _) fun _ => idle_failWith text
  induction names with
  | nil => exact idle_pure _
  | cons name rest ih =>
      refine idle_bind (idle_getInodeByFilename name 0) fun ino => ?_
      refine idle_bind (idle_modifyGlobals _) fun _ => idle_bind idle_cwdNode fun ino => ?_
      refine idle_ite (hback _) (idle_bind (idle_readInode ino) fun n => ?_)
      exact idle_ite (hback _) ih

theorem idle_fsCd (path : List UInt8) : Idle (fsCd path) :=
  idle_bind idle_cwdNode fun _ => idle_cdLoop _ _

end Idle

theorem runs_setCwdNode (ino : UInt32) :
    Runs (setCwdNode ino) m E fun _ m' => m'.globals.cwdNode = ino := runs_of_ok rfl rfl

theorem runs_failWith (text : String) :
    Runs (failWith text) m E fun r m' => r = -1 ∧ m'.globals.cwdNode = m.globals.cwdNode :=
  runs_of_ok rfl ⟨rfl, rfl⟩

theorem cdLoop_restores (oldCwd : UInt32) (names : List (List UInt8)) :
    Runs (cdLoop oldCwd names) m Any fun r m' =>
      r = 0 ∨ r = -1 ∧ m'.globals.cwdNode = oldCwd := by
  have hfail : ∀ (text : String) (m : Machine Bytes Globals),
      Runs (do setCwdNode oldCwd; failWith text) m Any fun r m' =>
        r = 0 ∨ r = -1 ∧ m'.globals.cwdNode = oldCwd := by
    intro text m
    refine (runs_setCwdNode oldCwd).bind fun _ m₁ hcwd => ?_
    refine (runs_failWith text).mono (fun _ _ he => he) ?_
    rintro r m₂ ⟨hr, hsame⟩
    exact Or.inr ⟨hr, hsame.trans hcwd⟩
  induction names generalizing m with
  | nil => exact runs_pure (Or.inl rfl)
  | cons name rest ih =>
      refine (runs_any _ m).bind fun ino m₁ _ => (runs_any _ m₁).bind fun _ m₂ _ => ?_
      refine (runs_any _ m₂).bind fun ino m₃ _ => ?_
      split
      next => exact hfail _ m₃
      next =>
        refine (runs_any _ m₃).bind fun n m₄ _ => ?_
        split
        next => exact hfail _ m₄
        next => exact ih

theorem fsCd_restores (path : List UInt8) :
    Runs (fsCd path) m Any fun r m' =>
      r = 0 ∨ r = -1 ∧ m'.globals.cwdNode = m.globals.cwdNode := by
  refine runs_cwdNode.bind ?_
  rintro oldCwd m ⟨rfl, rfl⟩
  exact cdLoop_restores _ _

theorem fsLs_restores (path : List UInt8) (option : UInt32) :
    Runs (fsLs path option) m Any fun _ m' => m'.globals.cwdNode = m.globals.cwdNode := by
  have hback : ∀ (oldCwd : UInt32) (r : Int) (m : Machine Bytes Globals),
      Runs (do setCwdNode oldCwd; return r) m Any fun _ m' => m'.globals.cwdNode = oldCwd :=
    fun oldCwd r m => runs_of_ok rfl rfl
  refine runs_cwdNode.bind ?_
  rintro oldCwd m ⟨rfl, rfl⟩
  refine (runs_any _ m).bind fun result m₁ _ => ?_
  split
  next => exact hback _ _ m₁
  next =>
    refine (runs_any _ m₁).bind fun ino m₂ _ => (runs_any _ m₂).bind fun n m₃ _ => ?_
    split
    next => exact (runs_any _ m₃).bind fun _ m₄ _ => hback _ _ m₄
    next =>
      refine (runs_any _ m₃).bind fun _ m₄ _ => (runs_any _ m₄).bind fun _ m₅ _ => ?_
      exact (runs_any _ m₅).bind fun _ m₆ _ => hback _ _ m₆

/-- The lookup of one component: a directory with the given name. -/
def enter (s : FsState) (dir : UInt32) (name : List UInt8) : Option UInt32 :=
  (lookup s (s.inode dir.toNat) name).bind fun e =>
    if (s.inode e.inode.toNat).type = 1 then some e.inode else none

def follow (s : FsState) (dir : UInt32) (names : List (List UInt8)) : Option UInt32 :=
  names.foldlM (enter s) dir

/-- The directories on the way have blocks of the data area, with nothing that
is only cached, and name inodes of the table. -/
def Walkable (s : FsState) : UInt32 → List (List UInt8) → Prop
  | _, [] => True
  | dir, name :: rest => dir.toNat < maxInodeNum ∧ HasBlocks s (s.inode dir.toNat) ∧
      ∀ e, lookup s (s.inode dir.toNat) name = some e → e.inode.toNat < maxInodeNum ∧
        ((s.inode e.inode.toNat).type = 1 → Walkable s e.inode rest)

/-- The state with another current directory. -/
def goto (s : FsState) (dir : UInt32) : FsState := { s with cwd := dir }

theorem lookup_goto (s : FsState) (dir : UInt32) (n : Inode) (name : List UInt8) :
    lookup (goto s dir) n name = lookup s n name := lookup_congr fun _ => rfl

/-- No run stops. -/
def Never : Failure → Machine Bytes Globals → Prop := fun _ _ => False

theorem setCwdNode_realizes (h : Realizes m s) (ino : UInt32) :
    Runs (setCwdNode ino) m E fun _ m' => Realizes m' (goto s ino) := by
  refine (runs_modifyGlobals h.ready.sound (fun g => { g with cwdNode := ino })
    (T := ∅)).mono (fun _ _ he => he) ?_
  rintro _ m' ⟨hev, -, -, hg⟩
  refine h.evolves hev ⟨hev.sound, ?_⟩ (by rw [hg]; rfl) ?_ ?_ rfl
  · rw [hg]
    exact h.ready.layout
  · rw [hg]
    exact h.files
  · rw [hg]
    exact h.counted

/-- What a walk that returned has done: it is in the directory that the fold
leads to, or where it was. -/
inductive Walked (s : FsState) (target : Option UInt32) (oldCwd : UInt32) (r : Int)
    (m' : Machine Bytes Globals) : Prop
  | arrived {dir : UInt32} : r = 0 → target = some dir → Realizes m' (goto s dir) →
      Walked s target oldCwd r m'
  | back : r = -1 → target = none → Realizes m' (goto s oldCwd) → Walked s target oldCwd r m'

theorem fail_walked (h : Realizes m (goto s ino)) (oldCwd : UInt32) (text : String) :
    Runs (do setCwdNode oldCwd; failWith text) m Never fun r m' =>
      Walked s none oldCwd r m' := by
  have hset : Runs (setCwdNode oldCwd) m Never fun _ m' => Realizes m' (goto s oldCwd) :=
    setCwdNode_realizes h oldCwd
  refine hset.bind fun _ m₁ h₁ => ?_
  have hrealizes : Runs (failWith text) m₁ Never fun _ m' => Realizes m' (goto s oldCwd) :=
    failWith_realizes h₁ text
  refine ((runs_failWith text).and hrealizes).mono (fun _ _ he => he.1) ?_
  rintro r m₂ ⟨⟨hr, -⟩, h₂⟩
  exact .back hr rfl h₂

theorem follow_cons (s : FsState) (dir : UInt32) (name : List UInt8) (rest : List (List UInt8)) :
    follow s dir (name :: rest) = enter s dir name >>= fun next => follow s next rest :=
  List.foldlM_cons ..

theorem cdLoop_walked (h : Realizes m (goto s dir)) (hwalk : Walkable s dir names) :
    Runs (cdLoop oldCwd names) m Never fun r m' => Walked s (follow s dir names) oldCwd r m' := by
  induction names generalizing m dir with
  | nil => exact runs_pure (.arrived rfl rfl h)
  | cons name rest ih =>
      obtain ⟨hdir, hblocks, hnext⟩ := hwalk
      rw [follow_cons, enter]
      refine (lookup_realizes h hdir hblocks).bind ?_
      rintro ino m₁ ⟨h₁, hfound⟩
      have hset : Runs (setCwdNode ino) m₁ Never fun _ m' => Realizes m' (goto s ino) :=
        setCwdNode_realizes h₁ ino
      refine hset.bind fun _ m₂ h₂ => ?_
      refine runs_cwdNode.bind ?_
      rintro _ m₂ ⟨rfl, rfl⟩
      rw [show m₂.globals.cwdNode = ino from h₂.cwd]
      rcases hfound with ⟨q, e, hfinds, rfl⟩ | ⟨rfl, hmiss⟩
      · have hlookup : lookup s (s.inode dir.toNat) name = some e :=
          (lookup_goto s dir _ name).symm.trans (lookup_of_finds hfinds)
        obtain ⟨hlt, hrest⟩ := hnext e hlookup
        rw [not_isNegative hlt, if_neg Bool.false_ne_true, hlookup, Option.bind_some]
        refine (readInode_realizes h₂ hlt).bind ?_
        rintro _ m₃ ⟨rfl, h₃⟩
        rw [show (goto s e.inode).inode = s.inode from rfl]
        rcases eq_or_ne (s.inode e.inode.toNat).type 1 with htype | htype
        · rw [if_neg (not_not.mpr htype), if_pos htype]
          exact ih h₃ (hrest htype)
        · rw [if_pos htype, if_neg htype]
          exact fail_walked h₃ oldCwd _
      · have hlookup : lookup s (s.inode dir.toNat) name = none :=
          (lookup_goto s dir _ name).symm.trans (lookup_of_misses hmiss)
        rw [if_pos (by decide), hlookup]
        exact fail_walked h₂ oldCwd _

theorem fsCd_walked (h : Realizes m s) {path : List UInt8}
    (hwalk : Walkable s s.cwd (pieces path)) :
    Runs (fsCd path) m Never fun r m' => Walked s (follow s s.cwd (pieces path)) s.cwd r m' := by
  rw [← components_eq_pieces] at hwalk ⊢
  refine runs_cwdNode.bind ?_
  rintro _ m ⟨rfl, rfl⟩
  rw [h.cwd]
  exact cdLoop_walked h hwalk

/-- What `fs_cd` and `fs_ls` do with a path, whatever is on the disk.  A block
with contents that are only cached may lose them to the other blocks. -/
structure Atomic (m : Machine Bytes Globals) (path : List UInt8) : Prop where
  cd : ∀ r m', (fsCd path).run m = (.ok r, m') →
    (r = 0 ∨ r = -1 ∧ m'.globals.cwdNode = m.globals.cwdNode) ∧
      others m'.globals = others m.globals ∧
      (Sound m → ∀ x < maxBlockNum, Settled m x → visible m' x = visible m x)
  walk : ∀ s, Realizes m s → Walkable s s.cwd (pieces path) →
    ∃ r m', (fsCd path).run m = (.ok r, m') ∧ Walked s (follow s s.cwd (pieces path)) s.cwd r m'
  ls : ∀ option r m', (fsLs path option).run m = (.ok r, m') →
    m'.globals.cwdNode = m.globals.cwdNode

theorem paths_atomic (m : Machine Bytes Globals) (path : List UInt8) : Atomic m path := by
  constructor
  · intro r m' hrun
    refine ⟨(fsCd_restores path).ok hrun, ?_, fun h x hx hsettled => ?_⟩
    · have hsilent := silent_fsCd path m
      rw [hrun] at hsilent
      exact hsilent
    · have hev := (idle_fsCd path m h).ok hrun
      exact hev.visible_of_settled hx (Set.notMem_empty x) hsettled
  · exact fun s h hwalk => (fsCd_walked h hwalk).returns fun _ _ he => he
  · exact fun option r m' hrun => (fsLs_restores path option).ok hrun

end LabKernel.PathWalks
