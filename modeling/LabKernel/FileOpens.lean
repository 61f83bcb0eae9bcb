import LabKernel.CacheTraffic
import LabKernel.FsPrimitives
import LabKernel.FsRuns

/-!
What `fs_fopen` gives to its caller when several processes share
`File::pool`.

A process that opens a file whose inode number is the key of an object in the
pool gets that object, whatever it was opened for and whatever happened to it
since.  The call keeps its promise exactly if there is no such object or the
object happens to agree with the request.
-/

namespace LabKernel.FileOpens

open LabKernel.BlockCache
open LabKernel.BlockObject
open LabKernel.ByteMemory
open LabKernel.CacheTraffic
open LabKernel.FsCode
open LabKernel.FsLayout
open LabKernel.FsPrimitives
open LabKernel.FsRuns
open LabKernel.ProgramLogic
open LabKernel.TransitionSystem

variable {m m' m₁ : Machine Bytes Globals} {α γ : Type} {p : Fs α} {path : List UInt8}
  {mode ino : UInt32} {n : Inode} {fd : Int} {file : File} {x i : Nat}

/-- Nothing is said of a run that stops. -/
def Stops : Failure → Machine Bytes Globals → Prop := fun _ _ => True

/-- An inode as the cache holds it. -/
def Holds (m : Machine Bytes Globals) (ino : UInt32) (n : Inode) : Prop :=
  ∃ i, lookupFrom m.cache (inodeBlock m.globals.superblock ino) cacheSize 0 = some i ∧
    Inode.ofBytes (m.cache.slots i).data (inodePosition ino) = n

theorem lookupFrom_congr_ids {c c' : Cache Bytes} {left start : Nat}
    (h : ∀ i, (c'.slots i).blockid = (c.slots i).blockid) :
    lookupFrom c' x left start = lookupFrom c x left start := by
  induction left generalizing start with
  | zero => rfl
  | succ left ih => rw [lookupFrom, lookupFrom, h, ih]

theorem selectFrom_lt_cacheSize {c : Cache Bytes} {left start selected : Nat}
    (hstart : start + left ≤ cacheSize) (hselected : selected < cacheSize) :
    selectFrom c left start selected < cacheSize := by
  induction left generalizing start selected with
  | zero => exact hselected
  | succ left ih =>
      rw [selectFrom]
      apply ih (by omega)
      split
      next => omega
      next => exact hselected

theorem lookupFrom_of_only {c : Cache Bytes} {left start : Nat} (hi : (c.slots i).blockid = x)
    (honly : ∀ j < start + left, (c.slots j).blockid = x → j = i) (hle : start ≤ i)
    (hlt : i < start + left) : lookupFrom c x left start = some i := by
  induction left generalizing start with
  | zero => omega
  | succ left ih =>
      rw [lookupFrom]
      split
      next hid => rw [honly start (by omega) hid]
      next hid =>
        have hne : start ≠ i := by
          rintro rfl
          exact hid hi
        exact ih (fun j hj => honly j (by omega)) (by omega) (by omega)

theorem lookupFrom_cacheFind {c c' : Cache Bytes} (h : cacheFind c x = some (i, c')) :
    lookupFrom c' x cacheSize 0 = some i := by
  unfold cacheFind at h
  split at h
  next k hlookup =>
    obtain ⟨rfl, rfl⟩ := Prod.mk.inj (Option.some.inj h)
    rw [← hlookup]
    apply lookupFrom_congr_ids
    intro j
    rcases eq_or_ne j k with rfl | hne
    · simp [Cache.setSlot]
    · simp [Cache.setSlot, hne]
  next hlookup =>
    obtain ⟨disk, -, h⟩ := Option.bind_eq_some_iff.mp h
    obtain ⟨data, -, h⟩ := Option.map_eq_some_iff.mp h
    obtain ⟨rfl, rfl⟩ := Prod.mk.inj h
    have hlt : selectFrom c cacheSize 0 0 < cacheSize :=
      selectFrom_lt_cacheSize (by omega) (by decide)
    apply lookupFrom_of_only
    · simp [Cache.setSlot]
    · intro j hj hid
      by_contra hne
      have hid : (c.slots j).blockid = x := by simpa [Cache.setSlot, hne] using hid
      exact CacheCoherence.lookupFrom_eq_none hlookup (Nat.zero_le j) hj hid
    · exact Nat.zero_le _
    · omega

theorem runs_openBlock_found (m : Machine Bytes Globals) (x : Nat) :
    Runs (openBlock x) m Stops fun b m' =>
      lookupFrom m'.cache x cacheSize 0 = some b.cacheid ∧ m'.globals = m.globals := by
  cases hfind : cacheFind m.cache x with
  | none =>
      have hrun : (openBlock x : Fs Block).run m = (.error .sector, m) := by
        simp only [openBlock, hfind]
      exact runs_of_error hrun trivial
  | some found =>
      obtain ⟨i, c'⟩ := found
      exact runs_of_ok (openBlock_run hfind) ⟨lookupFrom_cacheFind hfind, rfl⟩

theorem runs_update_cache {b : Block} {Q : Machine Bytes Globals → Prop}
    (hQ : ∀ c recycled strayed, BlockCache.update m.cache b.cacheid = some c →
      Q ⟨c, m.globals, recycled, strayed⟩) :
    Runs b.update m Stops fun _ m' => Q m' := by
  cases hc : BlockCache.update m.cache b.cacheid with
  | none =>
      have hrun : b.update.run m =
          (.error .sector, { m with recycled := m.recycled || m.stale b }) := by
        simp only [Block.update, hc]
      exact runs_of_error hrun trivial
  | some c =>
      have hrun : b.update.run m = (.ok (), { m with
          cache := c
          recycled := m.recycled || m.stale b
          strayed := m.strayed || maxBlockNum ≤ b.blockid }) := by
        simp only [Block.update, hc]
      exact runs_of_ok hrun (hQ c _ _ hc)

theorem readInode_holds (m : Machine Bytes Globals) (ino : UInt32) :
    Runs (readInode ino) m Stops fun n m' => Holds m' ino n ∧ m'.globals = m.globals := by
  refine runs_getSuperblock.bind ?_
  rintro _ m ⟨rfl, rfl⟩
  refine (runs_openBlock_found m _).bind ?_
  rintro b m' ⟨hlookup, hg⟩
  rw [← hg] at hlookup
  exact ⟨⟨b.cacheid, hlookup, rfl⟩, hg⟩

theorem ofBytes_copy_toBytes (d : Bytes) (position : Nat) (n : Inode) :
    Inode.ofBytes (copy d position n.toBytes 0 inodeSize) position = n := by
  refine Eq.trans (Inode.ofBytes_congr fun i hi => ?_) (Inode.ofBytes_toBytes n)
  rw [copy_inside (by omega) (by rw [show inodeSize = 64 from rfl]; omega)]
  congr 1
  omega

theorem writeInode_holds (m : Machine Bytes Globals) (ino : UInt32) (n : Inode) :
    Runs (writeInode ino n) m Stops fun _ m' => Holds m' ino n ∧ m'.globals = m.globals := by
  refine runs_getSuperblock.bind ?_
  rintro _ m ⟨rfl, rfl⟩
  refine (runs_openBlock_found m _).bind ?_
  rintro b m₁ ⟨hlookup, hg⟩
  rw [← hg] at hlookup
  set d := copy (m₁.cache.slots b.cacheid).data (inodePosition ino) n.toBytes 0 inodeSize
  have hd : Inode.ofBytes d (inodePosition ino) = n := ofBytes_copy_toBytes ..
  set c := m₁.cache.setData b.cacheid d
  have hlookup₂ : lookupFrom c (inodeBlock m₁.globals.superblock ino) cacheSize 0 =
      some b.cacheid := by
    rw [← hlookup]
    exact lookupFrom_congr_ids fun i => (setData_slot m₁.cache b.cacheid d i).1
  have hdata₂ : (c.slots b.cacheid).data = d :=
    congrArg Slot.data (CacheCoherence.setData_slot_self ..)
  have hupdate : ∀ m₂ : Machine Bytes Globals, m₂.cache = c → m₂.globals = m₁.globals →
      Runs b.update m₂ Stops fun _ m' => Holds m' ino n ∧ m'.globals = m₁.globals := by
    intro m₂ hcache hg₂
    refine runs_update_cache fun c' _ _ hc => ?_
    rw [hcache] at hc
    -- `Block::update` moves no block and changes no contents.
    have hslot : ∀ i, (c'.slots i).blockid = (c.slots i).blockid ∧
        (c'.slots i).data = (c.slots i).data := by
      unfold BlockCache.update at hc
      dsimp only at hc
      split at hc
      next =>
        obtain ⟨disk, -, rfl⟩ := Option.map_eq_some_iff.mp hc
        exact fun i => ⟨rfl, rfl⟩
      next =>
        obtain rfl := Option.some.inj hc
        intro i
        rcases eq_or_ne i b.cacheid with rfl | hne
        · simp [Cache.setSlot]
        · simp [Cache.setSlot, hne]
    refine ⟨⟨b.cacheid, ?_, ?_⟩, hg₂⟩
    · dsimp only
      rw [hg₂]
      exact (lookupFrom_congr_ids fun i => (hslot i).1).trans hlookup₂
    · rw [(hslot b.cacheid).2, hdata₂, hd]
  refine runs_bind (runs_of_ok rfl (runs_bind (runs_of_ok rfl ?_)))
  exact Runs.mono (hupdate _ rfl rfl) (fun _ _ he => he) fun _ _ h => ⟨h.1, h.2.trans hg⟩

theorem Holds.of_globals (h : Holds m ino n) (hcache : m'.cache = m.cache)
    (hsb : m'.globals.superblock = m.globals.superblock) : Holds m' ino n := by
  unfold Holds at h ⊢
  rwa [hcache, hsb]

/-- An inode in the cache is what is read next. -/
theorem Holds.readInode (h : Holds m ino n) : ∃ m', (readInode ino).run m = (.ok n, m') := by
  obtain ⟨i, hlookup, hn⟩ := h
  have hfind : cacheFind m.cache (inodeBlock m.globals.superblock ino) = some (i,
      { m.cache.setSlot i { m.cache.slots i with age := m.cache.age } with
        age := m.cache.age + 1 }) := by
    unfold cacheFind
    rw [hlookup]
  have hsb : getSuperblock.run m = (.ok m.globals.superblock, m) := rfl
  refine ⟨_, (run_bind_ok hsb).trans
    ((run_bind_ok (openBlock_run hfind)).trans (Prod.ext ?_ rfl))⟩
  simp [← hn, Cache.setSlot, run_bind, Block.load]
  rfl

/-- The program does not touch the objects of open files. -/
structure KeepsFiles (p : Fs α) : Prop where
  runs : ∀ m, Runs p m Stops fun _ m' => m'.globals.files = m.globals.files

theorem keepsFiles_pure (a : α) : KeepsFiles (pure a) := ⟨fun _ => runs_pure rfl⟩

theorem keepsFiles_fail (e : Failure) : KeepsFiles (fail e : Fs α) := ⟨fun _ => runs_fail trivial⟩

theorem keepsFiles_bind {f : α → Fs γ} (hp : KeepsFiles p) (hf : ∀ a, KeepsFiles (f a)) :
    KeepsFiles (p >>= f) :=
  ⟨fun m => (hp.runs m).bind fun a m' h' =>
    ((hf a).runs m').mono (fun _ _ he => he) fun _ _ h => h.trans h'⟩

theorem keepsFiles_assert (condition : Bool) (e : Failure) : KeepsFiles (assert condition e) := by
  unfold assert
  split
  next => exact keepsFiles_pure ()
  next => exact keepsFiles_fail e

theorem keepsFiles_doWhen (condition : Bool) {q : Fs Unit} (hq : KeepsFiles q) :
    KeepsFiles (doWhen condition q) := by
  unfold doWhen
  split
  next => exact hq
  next => exact keepsFiles_pure ()

theorem keepsFiles_openBlock (x : Nat) : KeepsFiles (openBlock x) := ⟨fun m =>
  (runs_openBlock_found m x).mono (fun _ _ he => he) fun _ _ h => congrArg Globals.files h.2⟩

theorem keepsFiles_load (b : Block) : KeepsFiles b.load := ⟨fun _ => runs_of_ok rfl rfl⟩

theorem keepsFiles_store (b : Block) (d : Bytes) : KeepsFiles (b.store d) :=
  ⟨fun _ => runs_of_ok rfl rfl⟩

theorem keepsFiles_update (b : Block) : KeepsFiles b.update :=
  ⟨fun _ => runs_update_cache fun _ _ _ _ => rfl⟩

theorem keepsFiles_getSuperblock : KeepsFiles getSuperblock := ⟨fun _ => runs_of_ok rfl rfl⟩

theorem keepsFiles_cwdNode : KeepsFiles cwdNode := ⟨fun _ => runs_of_ok rfl rfl⟩

theorem keepsFiles_modifySuperblock (f : SuperBlock → SuperBlock) :
    KeepsFiles (modifySuperblock f) := ⟨fun _ => runs_of_ok rfl rfl⟩

theorem keepsFiles_readInode (ino : UInt32) : KeepsFiles (readInode ino) := ⟨fun m =>
  (readInode_holds m ino).mono (fun _ _ he => he) fun _ _ h => congrArg Globals.files h.2⟩

theorem keepsFiles_writeInode (ino : UInt32) (n : Inode) : KeepsFiles (writeInode ino n) :=
  ⟨fun m => (writeInode_holds m ino n).mono (fun _ _ he => he) fun _ _ h =>
    congrArg Globals.files h.2⟩

theorem keepsFiles_flushSuperblock : KeepsFiles flushSuperblock := by
  apply keepsFiles_bind (keepsFiles_openBlock 0)
  intro b
  apply keepsFiles_bind keepsFiles_getSuperblock
  intro sb
  apply keepsFiles_bind (keepsFiles_load b)
  intro d
  exact keepsFiles_bind (keepsFiles_store b _) fun _ => keepsFiles_update b

theorem keepsFiles_allocLoop (mapStart : UInt32) (noSpace : Failure)
    (account : UInt32 → SuperBlock → SuperBlock) (left start : Nat) :
    KeepsFiles (allocLoop mapStart noSpace account left start) := by
  induction left generalizing start with
  | zero => exact keepsFiles_fail noSpace
  | succ left ih =>
      rw [allocLoop]
      apply keepsFiles_bind (keepsFiles_openBlock _)
      intro b
      apply keepsFiles_bind (keepsFiles_load b)
      intro d
      split
      next =>
        apply keepsFiles_bind (keepsFiles_store b _)
        intro _
        apply keepsFiles_bind (keepsFiles_update b)
        intro _
        apply keepsFiles_bind (keepsFiles_modifySuperblock _)
        intro _
        exact keepsFiles_bind keepsFiles_flushSuperblock fun _ => keepsFiles_pure _
      next => exact ih (start + 1)

theorem keepsFiles_inodeAlloc : KeepsFiles inodeAlloc :=
  keepsFiles_bind keepsFiles_getSuperblock fun _ => keepsFiles_allocLoop ..

theorem keepsFiles_blockAlloc : KeepsFiles blockAlloc :=
  keepsFiles_bind keepsFiles_getSuperblock fun _ => keepsFiles_allocLoop ..

theorem keepsFiles_assignPointer (reference : Option (Block × Nat)) (blockid : UInt32) :
    KeepsFiles (assignPointer reference blockid) := by
  unfold assignPointer
  split
  next => exact keepsFiles_pure ()
  next b _ => exact keepsFiles_bind (keepsFiles_load b) fun _ => keepsFiles_store b _

theorem keepsFiles_openPointer (reference : Option (Block × Nat)) (blockid : UInt32) :
    KeepsFiles (openPointer reference blockid) := by
  unfold openPointer
  split
  next =>
    apply keepsFiles_bind keepsFiles_blockAlloc
    intro new
    apply keepsFiles_bind (keepsFiles_assignPointer reference new)
    intro _
    apply keepsFiles_bind (keepsFiles_openBlock _)
    intro b
    exact keepsFiles_bind (keepsFiles_store b _) fun _ => keepsFiles_pure _
  next => exact keepsFiles_bind (keepsFiles_openBlock _) fun _ => keepsFiles_pure _

theorem keepsFiles_transfer (isWrite : Bool) (b : Block) (data : Data) (offset length : Nat) :
    KeepsFiles (transfer isWrite b data offset length) := by
  have hload : ∀ data : Data, KeepsFiles data.load := by
    rintro (bytes | block)
    · exact keepsFiles_pure bytes
    · exact keepsFiles_load block
  have hreceive : ∀ (data : Data) bytes, KeepsFiles (data.receive bytes offset length) := by
    rintro (bytes | block) src
    · exact keepsFiles_pure _
    · apply keepsFiles_bind (keepsFiles_load block)
      intro d
      exact keepsFiles_bind (keepsFiles_store block _) fun _ => keepsFiles_pure _
  unfold transfer
  split
  next =>
    apply keepsFiles_bind (hload data)
    intro src
    apply keepsFiles_bind (keepsFiles_load b)
    intro d
    apply keepsFiles_bind (keepsFiles_store b _)
    intro _
    exact keepsFiles_bind (keepsFiles_update b) fun _ => keepsFiles_pure data
  next => exact keepsFiles_bind (keepsFiles_load b) fun bytes => hreceive data bytes

theorem keepsFiles_inodeModifyDataRecur (isWrite : Bool) (depth : Nat)
    (reference : Option (Block × Nat)) (blockid : UInt32) (data : Data) (offset length : Nat) :
    KeepsFiles (inodeModifyDataRecur isWrite depth reference blockid data offset length) := by
  induction depth generalizing reference blockid data offset with
  | zero =>
      apply keepsFiles_bind (keepsFiles_openPointer reference blockid)
      rintro ⟨blockid, new, b⟩
      exact keepsFiles_bind (keepsFiles_transfer ..) fun _ => keepsFiles_pure _
  | succ depth ih =>
      apply keepsFiles_bind (keepsFiles_openPointer reference blockid)
      rintro ⟨blockid, new, b⟩
      apply keepsFiles_bind (keepsFiles_assert _ _)
      intro _
      apply keepsFiles_bind (keepsFiles_load b)
      intro index
      apply keepsFiles_bind (ih ..)
      rintro ⟨_, _, modified⟩
      apply keepsFiles_bind (keepsFiles_doWhen modified (keepsFiles_update b))
      exact fun _ => keepsFiles_pure _

theorem keepsFiles_inodeModifyData (isWrite : Bool) (n : Inode) (buffer : Bytes)
    (offset length : UInt32) : KeepsFiles (inodeModifyData isWrite n buffer offset length) := by
  have hrecur := keepsFiles_inodeModifyDataRecur isWrite
  apply keepsFiles_bind (keepsFiles_assert _ _)
  intro _
  dsimp only
  split
  next => exact keepsFiles_bind (hrecur ..) fun _ => keepsFiles_pure _
  next =>
    split
    next => exact keepsFiles_bind (hrecur ..) fun _ => keepsFiles_pure _
    next =>
      split
      next => exact keepsFiles_bind (hrecur ..) fun _ => keepsFiles_pure _
      next => exact keepsFiles_fail _

theorem keepsFiles_scanBlocks (dir : Inode) (path : List UInt8) (left start freeOffset : Nat) :
    KeepsFiles (scanBlocks dir path left start freeOffset) := by
  induction left generalizing start freeOffset with
  | zero => exact keepsFiles_pure _
  | succ left ih =>
      rw [scanBlocks]
      split
      next =>
        apply keepsFiles_bind (keepsFiles_openBlock _)
        intro b
        apply keepsFiles_bind (keepsFiles_load b)
        intro d
        split
        next => exact keepsFiles_pure _
        next => exact ih ..
      next => exact ih ..

theorem keepsFiles_entryInode (newInodeIdx : UInt32) : KeepsFiles (entryInode newInodeIdx) := by
  unfold entryInode
  split
  next =>
    apply keepsFiles_bind keepsFiles_inodeAlloc
    intro ino
    exact keepsFiles_bind (keepsFiles_writeInode ino _) fun _ => keepsFiles_pure ino
  next => exact keepsFiles_pure newInodeIdx

theorem keepsFiles_getInodeByFilename (path : List UInt8) (create : Bool) (newInodeIdx : UInt32) :
    KeepsFiles (getInodeByFilename path create newInodeIdx) := by
  apply keepsFiles_bind keepsFiles_cwdNode
  intro cwdIno
  apply keepsFiles_bind (keepsFiles_readInode cwdIno)
  intro cwd
  apply keepsFiles_bind (keepsFiles_scanBlocks ..)
  rintro ⟨_ | ino, freeOffset⟩
  · dsimp only
    split
    next =>
      apply keepsFiles_bind (keepsFiles_entryInode newInodeIdx)
      intro ino
      apply keepsFiles_bind (keepsFiles_inodeModifyData ..)
      rintro ⟨n, _, _⟩
      apply keepsFiles_bind keepsFiles_cwdNode
      intro cwdIno
      exact keepsFiles_bind (keepsFiles_writeInode cwdIno _) fun _ => keepsFiles_pure ino
    next => exact keepsFiles_pure minusOne
  · exact keepsFiles_pure ino

/-- The object of `File::pool` behind a handle. -/
def objectOf (m : Machine Bytes Globals) (fd : Int) : Option File :=
  (m.globals.files[fd.toNat]?).join

/-- The inode number that a path names when it is opened, and the inode. -/
def Resolves (m : Machine Bytes Globals) (path : List UInt8) (ino : UInt32) (n : Inode) : Prop :=
  ∃ m₁ m₂, (getInodeByFilename path true 0).run m = (.ok ino, m₁) ∧
    (readInode ino).run m₁ = (.ok n, m₂)

theorem Resolves.unique {ino' : UInt32} {n' : Inode} (h : Resolves m path ino n)
    (h' : Resolves m path ino' n') : ino = ino' ∧ n = n' := by
  obtain ⟨m₁, m₂, hget, hread⟩ := h
  obtain ⟨m₁', m₂', hget', hread'⟩ := h'
  obtain ⟨hino, rfl⟩ := Prod.mk.inj (hget.symm.trans hget')
  obtain rfl := Except.ok.inj hino
  exact ⟨rfl, Except.ok.inj (Prod.mk.inj (hread.symm.trans hread')).1⟩

/-- The inode after the open: an empty one becomes a file. -/
def opened (n : Inode) : Inode := if n.type = 0 then { n with type := 2, linkCnt := 1 } else n

theorem opened_size (n : Inode) : (opened n).size = n.size := by
  unfold opened
  split <;> rfl

theorem opened_pointer (n : Inode) (j : Nat) : (opened n).pointer j = n.pointer j := by
  unfold opened
  split <;> rfl

/-- The object that `File::pool.init` hands out for a new file. -/
def newFile (ino mode : UInt32) (n : Inode) : File := ⟨ino, mode, 0, opened n⟩

/-- What `File::pool.init` does with the pool: an object with the key is handed
out as it is. -/
def Pooled (m m' : Machine Bytes Globals) (file : File) (fd : Int) : Prop :=
  (∃ i : Nat, lookupFile file.inodeIdx m.globals.files = some i ∧ fd = i ∧
      m'.globals.files = m.globals.files) ∨
    (lookupFile file.inodeIdx m.globals.files = none ∧ fd = m.globals.files.length ∧
      m'.globals.files = m.globals.files ++ [some file])

theorem initFile_pooled (m : Machine Bytes Globals) (file : File) :
    Runs (initFile file) m Stops fun fd m' => Pooled m m' file fd ∧ m'.cache = m.cache ∧
      m'.globals.superblock = m.globals.superblock := by
  refine runs_getGlobals.bind ?_
  rintro _ m ⟨rfl, rfl⟩
  dsimp only
  split
  next i hlookup => exact runs_pure ⟨Or.inl ⟨i, hlookup, rfl, rfl⟩, rfl, rfl⟩
  next hlookup =>
    exact runs_bind (runs_of_ok rfl (runs_pure ⟨Or.inr ⟨hlookup, rfl, rfl⟩, rfl, rfl⟩))

theorem fsFopen_pooled (m : Machine Bytes Globals) (path : List UInt8) (mode : UInt32) :
    Runs (fsFopen path mode) m Stops fun fd m' => fd = -1 ∨ ∃ ino n, Resolves m path ino n ∧
      Holds m' ino (opened n) ∧ Pooled m m' (newFile ino mode n) fd := by
  have hget := (keepsFiles_getInodeByFilename path true 0).runs m
  refine hget.withRun.bind ?_
  rintro ino m₁ ⟨hfiles₁, hrun₁⟩
  refine (readInode_holds m₁ ino).withRun.bind ?_
  rintro n m₂ ⟨⟨hholds₂, hg₂⟩, hrun₂⟩
  have hresolves : Resolves m path ino n := ⟨m₁, m₂, hrun₁, hrun₂⟩
  have hfiles₂ : m₂.globals.files = m.globals.files := by rw [hg₂, hfiles₁]
  -- The end of the call, once the inode is in the cache as it is opened.
  have hend : ∀ m₃ : Machine Bytes Globals, m₃.globals.files = m.globals.files →
      Holds m₃ ino (opened n) → Runs (initFile (newFile ino mode n)) m₃ Stops fun fd m' =>
        fd = -1 ∨ ∃ ino n, Resolves m path ino n ∧ Holds m' ino (opened n) ∧
          Pooled m m' (newFile ino mode n) fd := by
    intro m₃ hfiles hholds
    refine (initFile_pooled m₃ _).mono (fun _ _ he => he) ?_
    rintro fd m' ⟨hpooled, hcache, hsb⟩
    refine Or.inr ⟨ino, n, hresolves, hholds.of_globals hcache hsb, ?_⟩
    unfold Pooled at hpooled ⊢
    rwa [hfiles] at hpooled
  split
  next => exact runs_pure (Or.inl rfl)
  next =>
    split
    next hempty =>
      have hopened : { n with type := 2, linkCnt := 1 } = opened n := (if_pos hempty).symm
      dsimp only
      rw [hopened]
      refine (writeInode_holds m₂ ino (opened n)).bind ?_
      rintro _ m₃ ⟨hholds₃, hg₃⟩
      exact hend m₃ (by rw [hg₃, hfiles₂]) hholds₃
    next hused =>
      have hopened : opened n = n := if_neg hused
      rw [← hopened] at hholds₂
      have hlast := hend m₂ hfiles₂ hholds₂
      rwa [newFile, hopened] at hlast

/-- One `fs_fopen` that returned. -/
structure Opened where
  before : Machine Bytes Globals
  after : Machine Bytes Globals
  path : List UInt8
  mode : UInt32
  fd : Int

/-- The handle is what the caller asked for. -/
structure AsRequested (o : Opened) : Prop where
  object : ∃ file, objectOf o.after o.fd = some file ∧ file.filePtr = 0 ∧
    (∃ n, Resolves o.before o.path file.inodeIdx n) ∧
    ∃ n m', (readInode file.inodeIdx).run o.after = (.ok n, m') ∧
      file.inode.size = n.size ∧ ∀ j, file.inode.pointer j = n.pointer j
  fread : ∀ buff length result m', (fsFread o.fd.toNat buff length).run o.after =
    (.ok result, m') → (result.1 = -1 ↔ o.mode &&& oRdonly = 0)
  fwrite : ∀ buff length result m', (fsFwrite o.fd.toNat buff length).run o.after =
    (.ok result, m') → (result = -1 ↔ o.mode &&& oWronly = 0)

/-- An object of the pool serves a request for an inode as a new one would. -/
structure Serves (file : File) (mode : UInt32) (n : Inode) : Prop where
  readable : file.mode &&& oRdonly = 0 ↔ mode &&& oRdonly = 0
  writable : file.mode &&& oWronly = 0 ↔ mode &&& oWronly = 0
  filePtr : file.filePtr = 0
  size : file.inode.size = n.size
  pointer : ∀ j, file.inode.pointer j = n.pointer j

/-- The pool has no object with the inode number of the path, or one that
serves the request. -/
def Unclaimed (m : Machine Bytes Globals) (path : List UInt8) (mode : UInt32) : Prop :=
  ∀ ino n, Resolves m path ino n → ∀ i, lookupFile ino m.globals.files = some i →
    ∀ file, objectOf m i = some file → Serves file mode n

theorem lookupFile_eq_some {files : List (Option File)} (h : lookupFile ino files = some i) :
    ∃ file, files[i]? = some (some file) ∧ file.inodeIdx = ino := by
  obtain ⟨hi, hentry, -⟩ := List.findIdx?_eq_some_iff_getElem.mp h
  cases hfile : files[i] with
  | none => simp [hfile] at hentry
  | some file =>
      refine ⟨file, ?_, by simpa [hfile] using hentry⟩
      rw [List.getElem?_eq_getElem hi, hfile]

theorem runs_getObject (h : objectOf m fd = some file)
    {E : Failure → Machine Bytes Globals → Prop} :
    Runs (getFile fd.toNat) m E fun r m' => r = some file ∧ m' = m :=
  runs_of_ok rfl ⟨h, rfl⟩

theorem fileTransfer_result (m : Machine Bytes Globals) (isWrite : Bool) (file : File)
    (buff : Bytes) (length : Nat) :
    Runs (fileTransfer isWrite file buff length) m Stops fun r _ =>
      (r.2.2 = -1 ↔ file.mode &&& (if isWrite then oWronly else oRdonly) = 0) := by
  have hany : ∀ {α : Type} (p : Fs α) (m : Machine Bytes Globals),
      Runs p m Stops fun _ _ => True := fun p m =>
    (runs_self p m).mono (fun _ _ _ => trivial) fun _ _ _ => trivial
  unfold fileTransfer
  generalize (if isWrite = true then oWronly else oRdonly) = access
  split
  next hmode => exact runs_pure ⟨fun _ => hmode, fun _ => rfl⟩
  next hmode =>
    refine (hany _ m).bind fun r m₁ _ => ?_
    refine (hany _ m₁).bind fun _ m₂ _ => ?_
    refine runs_pure ⟨fun hresult => ?_, fun hzero => absurd hzero hmode⟩
    have : (length : Int) = -1 := hresult
    omega

theorem fsFread_result (h : objectOf m fd = some file) (buff : Bytes) (length : Nat) :
    Runs (fsFread fd.toNat buff length) m Stops fun r _ =>
      (r.1 = -1 ↔ file.mode &&& oRdonly = 0) := by
  refine (runs_getObject h).bind ?_
  rintro _ m' ⟨rfl, rfl⟩
  refine (fileTransfer_result m' false file buff length).bind ?_
  rintro ⟨file', buff', result⟩ m₁ hresult
  exact runs_bind (runs_of_ok rfl (runs_pure hresult))

theorem fsFwrite_result (h : objectOf m fd = some file) (buff : Bytes) (length : Nat) :
    Runs (fsFwrite fd.toNat buff length) m Stops fun r _ =>
      (r = -1 ↔ file.mode &&& oWronly = 0) := by
  refine (runs_getObject h).bind ?_
  rintro _ m' ⟨rfl, rfl⟩
  refine (fileTransfer_result m' true file buff length).bind ?_
  rintro ⟨file', buff', result⟩ m₁ hresult
  exact runs_bind (runs_of_ok rfl (runs_pure hresult))

theorem fileTransfer_zero (m : Machine Bytes Globals) (isWrite : Bool) (file : File)
    (buff : Bytes) :
    Runs (fileTransfer isWrite file buff 0) m (fun _ _ => False) fun _ _ => True := by
  unfold fileTransfer
  generalize (if isWrite = true then oWronly else oRdonly) = access
  split
  next => trivial
  next => trivial

theorem fsFread_zero (h : objectOf m fd = some file) (buff : Bytes) :
    Runs (fsFread fd.toNat buff 0) m (fun _ _ => False) fun _ _ => True := by
  refine (runs_getObject h).bind ?_
  rintro _ m' ⟨rfl, rfl⟩
  refine (fileTransfer_zero m' false file buff).bind ?_
  exact fun _ _ _ => trivial

theorem fsFwrite_zero (h : objectOf m fd = some file) (buff : Bytes) :
    Runs (fsFwrite fd.toNat buff 0) m (fun _ _ => False) fun _ _ => True := by
  refine (runs_getObject h).bind ?_
  rintro _ m' ⟨rfl, rfl⟩
  refine (fileTransfer_zero m' true file buff).bind ?_
  exact fun _ _ _ => trivial

theorem asRequested_iff_serves {o : Opened} (hobject : objectOf o.after o.fd = some file)
    (hresolves : Resolves o.before o.path file.inodeIdx n)
    (hholds : Holds o.after file.inodeIdx (opened n)) : AsRequested o ↔ Serves file o.mode n := by
  obtain ⟨m', hread⟩ := hholds.readInode
  constructor
  · rintro ⟨⟨file', hobject', hptr, -, n', m'', hread', hsize, hpointer⟩, hfread, hfwrite⟩
    obtain rfl := Option.some.inj (hobject.symm.trans hobject')
    obtain ⟨r, m₁, hrun₁, -⟩ := (fsFread_zero hobject zeros).returns fun _ _ => id
    obtain ⟨r', m₂, hrun₂, -⟩ := (fsFwrite_zero hobject zeros).returns fun _ _ => id
    obtain rfl := Except.ok.inj (Prod.mk.inj (hread.symm.trans hread')).1
    refine ⟨?_, ?_, hptr, hsize.trans (opened_size n), fun j => ?_⟩
    · rw [← hfread zeros 0 r m₁ hrun₁]
      exact ((fsFread_result hobject zeros 0).ok hrun₁).symm
    · rw [← hfwrite zeros 0 r' m₂ hrun₂]
      exact ((fsFwrite_result hobject zeros 0).ok hrun₂).symm
    · rw [hpointer, opened_pointer]
  · rintro ⟨hreadable, hwritable, hptr, hsize, hpointer⟩
    refine ⟨⟨file, hobject, hptr, ⟨n, hresolves⟩, opened n, m', hread, ?_, fun j => ?_⟩, ?_, ?_⟩
    · rw [hsize, opened_size]
    · rw [hpointer, opened_pointer]
    · intro buff length result m₁ hrun
      rw [← hreadable]
      exact (fsFread_result hobject buff length).ok hrun
    · intro buff length result m₁ hrun
      rw [← hwritable]
      exact (fsFwrite_result hobject buff length).ok hrun

theorem serves_newFile (ino mode : UInt32) (n : Inode) : Serves (newFile ino mode n) mode n :=
  ⟨Iff.rfl, Iff.rfl, rfl, opened_size n, opened_pointer n⟩

/-- An open keeps its promise exactly if the pool has nothing that stands in
the way. -/
theorem asRequested_iff_unclaimed {o : Opened}
    (hrun : (fsFopen o.path o.mode).run o.before = (.ok o.fd, o.after)) (hfd : 0 ≤ o.fd) :
    AsRequested o ↔ Unclaimed o.before o.path o.mode := by
  obtain hfail | ⟨ino, n, hresolves, hholds, ⟨i, hlookup, hi, hfiles⟩ | ⟨hlookup, hi, hfiles⟩⟩ :=
    (fsFopen_pooled o.before o.path o.mode).ok hrun
  · omega
  · obtain ⟨file, hentry, hidx⟩ := lookupFile_eq_some hlookup
    have hbefore : objectOf o.before i = some file := congrArg Option.join hentry
    have hobject : objectOf o.after o.fd = some file := by
      rw [objectOf, hfiles, hi]
      exact hbefore
    have hidx : file.inodeIdx = ino := hidx
    subst hidx
    rw [asRequested_iff_serves hobject hresolves hholds]
    constructor
    · intro hserves ino' n' hresolves' i' hlookup' file' hobject'
      obtain ⟨rfl, rfl⟩ := hresolves.unique hresolves'
      obtain rfl := Option.some.inj (hlookup.symm.trans hlookup')
      obtain rfl := Option.some.inj (hbefore.symm.trans hobject')
      exact hserves
    · exact fun hunclaimed => hunclaimed _ n hresolves i hlookup file hbefore
  · have hobject : objectOf o.after o.fd = some (newFile ino o.mode n) := by
      rw [objectOf, hfiles, hi]
      simp
    have hserves :=
      (asRequested_iff_serves hobject hresolves hholds).mpr (serves_newFile ino o.mode n)
    refine iff_of_true hserves ?_
    intro ino' n' hresolves' i' hlookup'
    obtain ⟨rfl, rfl⟩ := hresolves.unique hresolves'
    have hnone : lookupFile ino o.before.globals.files = none := hlookup
    rw [hnone] at hlookup'
    cases hlookup'

/-- The file system and its processes. -/
structure World (Process : Type) where
  machine : Machine Bytes Globals
  /-- `cwd_node_idx` of each process. -/
  cwd : Process → UInt32
  /-- The calls of `fs_fopen` so far. -/
  opens : List Opened

inductive Action (Process : Type) where
  /-- A call of a process.  `fs_fclose` stands for the close that destroys the
  object, or the end of the last process that has it open; any other close
  leaves the pool as it is. -/
  | call (p : Process) (op : FsOp)
  /-- A new process starts in the directory of its parent. -/
  | spawn (parent child : Process)
  | traffic (t : Traffic)

variable {Process : Type} [DecidableEq Process] {w w' : World Process}

/-- The machine as a process sees it. -/
def enter (w : World Process) (p : Process) : Machine Bytes Globals :=
  { w.machine with globals := { w.machine.globals with cwdNode := w.cwd p } }

/-- The call of process `p` is over. -/
def leave (w : World Process) (p : Process) (m : Machine Bytes Globals) : World Process :=
  { w with machine := m, cwd := Function.update w.cwd p m.globals.cwdNode }

def callFopen (w : World Process) (p : Process) (path : List UInt8) (mode : UInt32) :
    Option (World Process) :=
  match (fsFopen path mode).run (enter w p) with
  | (.ok fd, m) => some { leave w p m with opens := w.opens ++ [⟨enter w p, m, path, mode, fd⟩] }
  | (.error _, _) => none

def act (w : World Process) : Action Process → Option (World Process)
  | .call p (.fopen path mode) => callFopen w p path mode
  | .call p op => (next (enter w p) op).map (leave w p)
  | .spawn parent child => some { w with cwd := Function.update w.cwd child (w.cwd parent) }
  | .traffic t =>
      match t.program.run w.machine with
      | (.ok _, m) => some { w with machine := m }
      | (.error _, _) => none

/-- A file system that was just formatted, with all processes in its root. -/
def Initial (w : World Process) : Prop :=
  Formatted w.machine ∧ (∀ p, w.cwd p = w.machine.globals.cwdNode) ∧ w.opens = []

def processes (Process : Type) [DecidableEq Process] : System (World Process) (Action Process) :=
  ofFunction Initial act

/-- The recorded calls are calls of `fs_fopen`. -/
def Recorded (w : World Process) : Prop :=
  ∀ o ∈ w.opens, (fsFopen o.path o.mode).run o.before = (.ok o.fd, o.after)

theorem recorded_callFopen {p : Process} {path : List UInt8} {mode : UInt32} (h : Recorded w)
    (hstep : callFopen w p path mode = some w') : Recorded w' := by
  unfold callFopen at hstep
  split at hstep
  next fd m hrun =>
    obtain rfl := Option.some.inj hstep
    intro o ho
    rcases List.mem_append.mp ho with hold | hnew
    · exact h o hold
    · rw [List.mem_singleton.mp hnew]
      dsimp only
      exact hrun
  next => cases hstep

theorem recorded_act {a : Action Process} (h : Recorded w) (hstep : act w a = some w') :
    Recorded w' := by
  have hmap : ∀ (p : Process) (op : FsOp),
      (next (enter w p) op).map (leave w p) = some w' → Recorded w' := by
    intro p op hmap
    obtain ⟨m, -, rfl⟩ := Option.map_eq_some_iff.mp hmap
    exact h
  cases a with
  | call p op =>
      cases op with
      | fopen path mode => exact recorded_callFopen h hstep
      | statfs => exact hmap p .statfs hstep
      | fclose fd => exact hmap p (.fclose fd) hstep
      | _ => exact hmap p _ hstep
  | spawn parent child =>
      obtain rfl := Option.some.inj hstep
      exact h
  | traffic t =>
      rw [act] at hstep
      split at hstep
      next =>
        obtain rfl := Option.some.inj hstep
        exact h
      next => cases hstep

/-- Whatever the processes did, an open that succeeds gives the handle that
was asked for exactly if the pool had nothing that stood in the way. -/
theorem opens_asRequested_iff (h : Reachable (processes Process) w) :
    ∀ o ∈ w.opens, 0 ≤ o.fd → (AsRequested o ↔ Unclaimed o.before o.path o.mode) := by
  have hrecorded : Recorded w := by
    apply h.invariant (P := Recorded)
    · rintro w ⟨-, -, hopens⟩ o ho
      rw [hopens] at ho
      exact absurd ho List.not_mem_nil
    · exact fun w a w' hw _ hstep => recorded_act hw hstep
  exact fun o ho hfd => asRequested_iff_unclaimed (hrecorded o ho) hfd

/-- A blank file system, seen by all processes from its root. -/
def blankWorld : World Nat := ⟨blankFormatted, fun _ => blankFormatted.globals.cwdNode, []⟩

theorem initial_blankWorld : Initial blankWorld :=
  ⟨formatted_blankFormatted, fun _ => rfl, rfl⟩

/-- The world after some actions; the blank one if they are not possible. -/
def worldAfter (actions : List (Action Nat)) : World Nat :=
  (replay act blankWorld actions).getD blankWorld

theorem worldAfter_reachable (actions : List (Action Nat)) :
    Reachable (processes Nat) (worldAfter actions) := by
  have hstart : Reachable (processes Nat) blankWorld := ReachableUnder.start initial_blankWorld
  unfold worldAfter
  cases hreplay : replay act blankWorld actions with
  | none => exact hstart
  | some w => exact reachable_of_replay hstart actions hreplay

/-- The first process to open a file gets what it asked for. -/
theorem firstOpen_asRequested :
    ∃ o ∈ (worldAfter [.call 0 (.fopen [97] oRdwr)]).opens, 0 ≤ o.fd ∧
      (AsRequested o ↔ Unclaimed o.before o.path o.mode) := by
  obtain ⟨w, hw⟩ : ∃ w, w = worldAfter [.call 0 (.fopen [97] oRdwr)] := ⟨_, rfl⟩
  have hopens : w.opens.head?.map Opened.fd = some 0 := by
    rw [hw, worldAfter, blankWorld, blankFormatted_eq]
    decide +kernel
  obtain ⟨o, ho, hfd⟩ := Option.map_eq_some_iff.mp hopens
  have hmem : o ∈ w.opens := List.mem_of_mem_head? ho
  have hreachable : Reachable (processes Nat) w := hw ▸ worldAfter_reachable _
  rw [← hw]
  exact ⟨o, hmem, hfd.ge, opens_asRequested_iff hreachable o hmem hfd.ge⟩

/-- One process opens a file for reading, and another opens it for writing. -/
def sharedOpens : List (Action Nat) :=
  [.call 0 (.fopen [97] oRdonly), .call 1 (.fopen [97] oWronly)]

/-- The second process gets the object of the first, which it cannot write. -/
theorem sharedOpens_not_asRequested : ∃ w, Reachable (processes Nat) w ∧
    ∃ o ∈ w.opens, 0 ≤ o.fd ∧ o.path = [97] ∧ o.mode = oWronly ∧ ¬AsRequested o := by
  obtain ⟨w, hw⟩ : ∃ w, w = worldAfter sharedOpens := ⟨_, rfl⟩
  have hlast : w.opens.getLast?.map (fun o => (o.fd, o.path, o.mode,
      returned ((fsFwrite 0 zeros 0).run o.after).1)) = some (0, [97], oWronly, some (-1)) := by
    rw [hw, worldAfter, blankWorld, blankFormatted_eq]
    decide +kernel
  obtain ⟨o, ho, hfacts⟩ := Option.map_eq_some_iff.mp hlast
  simp only [Prod.mk.injEq] at hfacts
  obtain ⟨hfd, hpath, hmode, hreturned⟩ := hfacts
  refine ⟨w, hw ▸ worldAfter_reachable _, o, List.mem_of_getLast? ho, hfd.ge, hpath, hmode, ?_⟩
  intro hrequested
  have hrun := run_eq_of_returned hreturned
  have hfwrite := hrequested.fwrite zeros 0 (-1)
  rw [hfd, hmode] at hfwrite
  exact absurd ((hfwrite _ hrun).mp rfl) (by decide)

end LabKernel.FileOpens
