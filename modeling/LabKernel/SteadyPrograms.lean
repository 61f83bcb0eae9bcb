import LabKernel.ComposedPrograms

/-!
What the calls on files never change: the policy of the cache, and the fields
of the super block by which a disk is recognized.
-/

namespace LabKernel.SteadyPrograms

open LabKernel.BlockCache
open LabKernel.BlockObject
open LabKernel.ByteMemory
open LabKernel.ComposedPrograms
open LabKernel.FsCode
open LabKernel.FsLayout
open LabKernel.ProgramLogic

section General

variable {σ ε α γ δ : Type} {f : σ → δ} {p q : Program σ ε α} {k : α → Program σ ε γ}

/-- No run of the program changes what `f` observes. -/
def Steady (f : σ → δ) (p : Program σ ε α) : Prop := ∀ s, f (p.run s).2 = f s

theorem steady_pure (a : α) : Steady f (pure a : Program σ ε α) := fun _ => rfl

theorem steady_fail (e : ε) : Steady f (fail e : Program σ ε α) := fun _ => rfl

theorem steady_bind (hp : Steady f p) (hk : ∀ a, Steady f (k a)) : Steady f (p >>= k) := by
  intro s
  have hfirst := hp s
  rw [run_bind]
  split
  next a s' hrun =>
    rw [hrun] at hfirst
    exact (hk a s').trans hfirst
  next e s' hrun =>
    rw [hrun] at hfirst
    exact hfirst

theorem steady_ite {c : Prop} [Decidable c] (hp : Steady f p) (hq : Steady f q) :
    Steady f (if c then p else q) := by
  split
  next => exact hp
  next => exact hq

theorem Steady.runs {s : σ} {E : ε → σ → Prop} {Q : α → σ → Prop} (h : Steady f p)
    (hrun : Runs p s E Q) : Runs p s E fun a s' => Q a s' ∧ f s' = f s := by
  refine hrun.withRun.mono (fun _ _ he => he) fun a s' ⟨hq, heq⟩ => ⟨hq, ?_⟩
  have := h s
  rwa [heq] at this

end General

/-- The policy of the cache, the magic numbers and the root directory. -/
def fixtures (m : Machine Bytes Globals) : (Bool × Int) × UInt32 × UInt32 × UInt32 :=
  ((m.cache.policyWritethrough, m.cache.policyWritebackInterval), m.globals.superblock.magic0,
    m.globals.superblock.magic1, m.globals.superblock.rootInode)

/-- What the functions below the calls keep of the variables outside the cache. -/
structure Untouched (g g' : Globals) : Prop where
  magic0 : g'.superblock.magic0 = g.superblock.magic0
  magic1 : g'.superblock.magic1 = g.superblock.magic1
  rootInode : g'.superblock.rootInode = g.superblock.rootInode
  console : g'.console = g.console
  catBuffer : g'.catBuffer = g.catBuffer

/-- An observation that the functions on blocks and on the super block leave
alone. -/
class Observed {δ : Type} (f : Machine Bytes Globals → δ) : Prop where
  openBlock : ∀ x, Steady f (openBlock x : Fs Block)
  load : ∀ b, Steady f (Block.load b : Fs Bytes)
  store : ∀ b d, Steady f (Block.store b d : Fs Unit)
  update : ∀ b, Steady f (Block.update b : Fs Unit)
  globals : ∀ g, (∀ a, Untouched a (g a)) → Steady f (modifyGlobals g : Fs Unit)

theorem policy_cacheFind {c c' : Cache Bytes} {x i : Nat} (h : cacheFind c x = some (i, c')) :
    c'.policyWritethrough = c.policyWritethrough ∧
      c'.policyWritebackInterval = c.policyWritebackInterval := by
  unfold cacheFind at h
  split at h
  next =>
    cases h
    exact ⟨rfl, rfl⟩
  next =>
    obtain ⟨disk, -, h⟩ := Option.bind_eq_some_iff.mp h
    obtain ⟨data, -, h⟩ := Option.map_eq_some_iff.mp h
    cases h
    exact ⟨rfl, rfl⟩

theorem fixtures_openBlock (x : Nat) : Steady fixtures (openBlock x : Fs Block) := by
  intro m
  unfold openBlock
  dsimp only
  split
  next hfind =>
    obtain ⟨hthrough, hinterval⟩ := policy_cacheFind hfind
    simp only [fixtures, hthrough, hinterval]
  next => rfl

theorem fixtures_update (b : Block) : Steady fixtures (b.update : Fs Unit) := by
  intro m
  unfold Block.update
  dsimp only
  split
  next cache hupdate =>
    unfold update at hupdate
    dsimp only at hupdate
    split at hupdate
    next =>
      obtain ⟨disk, -, h⟩ := Option.map_eq_some_iff.mp hupdate
      cases h
      rfl
    next =>
      cases hupdate
      rfl
  next => rfl

instance : Observed fixtures where
  openBlock := fixtures_openBlock
  load _ _ := rfl
  store _ _ _ := rfl
  update := fixtures_update
  globals g hg m := by
    obtain ⟨hmagic0, hmagic1, hroot, -, -⟩ := hg m.globals
    simp only [fixtures, modifyGlobals, hmagic0, hmagic1, hroot]

/-- What is on the console. -/
instance : Observed fun m : Machine Bytes Globals => m.globals.console where
  openBlock x m := by
    unfold openBlock
    dsimp only
    split
    next => rfl
    next => rfl
  load _ _ := rfl
  store _ _ _ := rfl
  update b m := by
    unfold Block.update
    dsimp only
    split
    next => rfl
    next => rfl
  globals _ hg m := (hg m.globals).console

/-- The changes of the variables outside the cache that the functions below
the calls make. -/
def Untouching (g : Globals → Globals) : Prop := ∀ a, Untouched a (g a)

instance : Counting Untouching where
  counted _ haccount a :=
    have h := haccount a.superblock
    ⟨h.1, h.2.1, h.2.2, rfl, rfl⟩

instance : Moving Untouching where
  moved _ _ := ⟨rfl, rfl, rfl, rfl, rfl⟩

section Observed

variable {α δ : Type} {f : Machine Bytes Globals → δ}

theorem steady_getGlobals : Steady f (getGlobals : Fs Globals) := fun _ => rfl

theorem steady_getFile (fd : Nat) : Steady f (getFile fd) :=
  steady_bind steady_getGlobals fun _ => steady_pure _

/-- A program composed of steady functions is steady. -/
theorem steady_of_composed {G : (Globals → Globals) → Prop} {p : Fs α} (h : Composed G p)
    (hopen : ∀ x, Steady f (openBlock x : Fs Block))
    (hload : ∀ b, Steady f (Block.load b : Fs Bytes))
    (hstore : ∀ b d, Steady f (Block.store b d : Fs Unit))
    (hupdate : ∀ b, Steady f (Block.update b : Fs Unit))
    (hmodify : ∀ g, G g → Steady f (modifyGlobals g : Fs Unit)) : Steady f p := by
  induction h with
  | pure a => exact steady_pure a
  | fail e => exact steady_fail e
  | bind _ _ hp hk => exact steady_bind hp hk
  | openBlock x => exact hopen x
  | load b => exact hload b
  | store b d => exact hstore b d
  | update b => exact hupdate b
  | observe _ _ hk => exact steady_bind steady_getGlobals hk
  | modify hg => exact hmodify _ hg

variable [Observed f]

theorem steady_composed {p : Fs α} (h : Composed Untouching p) : Steady f p :=
  steady_of_composed h Observed.openBlock Observed.load Observed.store Observed.update
    fun g hg => Observed.globals g hg

theorem steady_setFile (fd : Nat) (file : Option File) : Steady f (setFile fd file) :=
  Observed.globals _ fun _ => ⟨rfl, rfl, rfl, rfl, rfl⟩

theorem steady_initFile (file : File) : Steady f (initFile file) := by
  refine steady_bind steady_getGlobals fun g => ?_
  dsimp only
  split
  next => exact steady_pure _
  next =>
    exact steady_bind (Observed.globals _ fun _ => ⟨rfl, rfl, rfl, rfl, rfl⟩) fun _ =>
      steady_pure _

theorem steady_fileTransfer (isWrite : Bool) (file : File) (buff : Bytes) (length : Nat) :
    Steady f (fileTransfer isWrite file buff length) :=
  steady_composed (composed_fileTransfer isWrite file buff length)

theorem steady_fsFopen (path : List UInt8) (mode : UInt32) : Steady f (fsFopen path mode) := by
  refine steady_bind (steady_composed (composed_getInodeByFilename path true 0)) fun ino => ?_
  refine steady_bind (steady_composed (composed_readInode ino)) fun n => steady_ite (steady_pure _) ?_
  refine steady_ite ?_ (steady_initFile _)
  exact steady_bind (steady_composed (composed_writeInode _ _)) fun _ => steady_initFile _

theorem steady_fsFread (fd : Nat) (buff : Bytes) (length : Nat) :
    Steady f (fsFread fd buff length) := by
  refine steady_bind (steady_getFile fd) fun file => ?_
  split
  next =>
    exact steady_bind (steady_fileTransfer _ _ _ _) fun _ => steady_bind (steady_setFile _ _)
      fun _ => steady_pure _
  next => exact steady_pure _

theorem steady_fsFwrite (fd : Nat) (buff : Bytes) (length : Nat) :
    Steady f (fsFwrite fd buff length) := by
  refine steady_bind (steady_getFile fd) fun file => ?_
  split
  next =>
    exact steady_bind (steady_fileTransfer _ _ _ _) fun _ => steady_bind (steady_setFile _ _)
      fun _ => steady_pure _
  next => exact steady_pure _

theorem steady_fsLseek (fd : Nat) (offset : UInt32) (whence : Int) :
    Steady f (fsLseek fd offset whence) := by
  refine steady_bind (steady_getFile fd) fun file => ?_
  split
  next =>
    split
    next => exact steady_bind (steady_setFile _ _) fun _ => steady_pure _
    next => exact steady_pure _
  next => exact steady_pure _

end Observed

end LabKernel.SteadyPrograms
