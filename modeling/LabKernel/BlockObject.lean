import LabKernel.CacheRecency
import LabKernel.ProgramLogic

/-!
Programs that work on blocks through `Block` objects, and the rules by which
the effect of such a program on the contents of the blocks is derived.

A `Block` object is a slot of the cache together with the id it was
constructed with.  The object has no pin on its slot; the flag `recycled` of
the machine records that some object was used after its slot had been given
to another block.

The sector number of an id past the end of the disk can wrap around to one on
the disk, and such a block passes for one of the disk.  The flag `strayed`
records that one was written.
-/

namespace LabKernel.BlockObject

open LabKernel.BlockCache
open LabKernel.CacheCoherence
open LabKernel.CacheRecency
open LabKernel.ProgramLogic

variable {β σ : Type}

/-- The assertions of the file system that can fail. -/
inductive Failure where
  /-- `read_block_direct` or `write_block_direct` outside the disk. -/
  | sector
  /-- `inode_alloc`: no space for inode. -/
  | noInode
  /-- `block_alloc`: no space for block. -/
  | noBlock
  /-- `inode_free` or `block_free` of a number that is not allocated. -/
  | notAllocated
  /-- `inode_modify_data` across the end of a block. -/
  | crossesBlock
  /-- `remove_inode_by_filename`: no such file. -/
  | noSuchFile
  /-- An index tree deeper than the code supports. -/
  | depth
  deriving DecidableEq, Repr

/-- The block cache, the other variables of the program, and the marks that a
recycled slot was used and that a block past the end of the disk was
written. -/
structure Machine (β σ : Type) where
  cache : Cache β
  globals : σ
  recycled : Bool
  strayed : Bool

abbrev BlockProgram (β σ α : Type) : Type := Program (Machine β σ) Failure α

structure Block where
  cacheid : Nat
  blockid : Nat
  deriving DecidableEq, Repr

/-- The constructor of `Block`. -/
def openBlock (blockid : Nat) : BlockProgram β σ Block := ⟨fun m =>
  match cacheFind m.cache blockid with
  | some (cacheid, cache) => (.ok ⟨cacheid, blockid⟩, { m with cache := cache })
  | none => (.error .sector, m)⟩

/-- The slot of a block object holds another block. -/
def Machine.stale (m : Machine β σ) (b : Block) : Bool :=
  (m.cache.slots b.cacheid).blockid ≠ b.blockid

/-- Read through the `data` pointer. -/
def Block.load (b : Block) : BlockProgram β σ β := ⟨fun m =>
  (.ok (m.cache.slots b.cacheid).data, { m with recycled := m.recycled || m.stale b })⟩

/-- Write through the `data` pointer. -/
def Block.store (b : Block) (data : β) : BlockProgram β σ Unit := ⟨fun m =>
  (.ok (), { m with
    cache := m.cache.setData b.cacheid data
    recycled := m.recycled || m.stale b })⟩

/-- `Block::update`. -/
def Block.update (b : Block) : BlockProgram β σ Unit := ⟨fun m =>
  match BlockCache.update m.cache b.cacheid with
  | some cache => (.ok (), { m with
      cache := cache
      recycled := m.recycled || m.stale b
      strayed := m.strayed || maxBlockNum ≤ b.blockid })
  | none => (.error .sector, { m with recycled := m.recycled || m.stale b })⟩

def getGlobals : BlockProgram β σ σ := ⟨fun m => (.ok m.globals, m)⟩

def modifyGlobals (f : σ → σ) : BlockProgram β σ Unit := ⟨fun m =>
  (.ok (), { m with globals := f m.globals })⟩

/-- What a block shows when it is looked up next. -/
def visible (m : Machine β σ) (b : Nat) : β :=
  match lookupFrom m.cache b cacheSize 0 with
  | some i => (m.cache.slots i).data
  | none => m.cache.disk (sector b)

/-- What a block shows once it has lost its slot. -/
def settled (m : Machine β σ) (b : Nat) : β :=
  match lookupFrom m.cache b cacheSize 0 with
  | some i => if (m.cache.slots i).dirty then (m.cache.slots i).data else m.cache.disk (sector b)
  | none => m.cache.disk (sector b)

/-- Losing its slot does not change what the block shows. -/
def Settled (m : Machine β σ) (b : Nat) : Prop := visible m b = settled m b

/-- The ages are those that the operations lead to, the blocks in the slots
passed the assertion, and no recycled slot was used so far. -/
structure Tracked (m : Machine β σ) : Prop where
  aged : Aged m.cache
  sector_lt : ∀ k < cacheSize, sector (m.cache.slots k).blockid < blockEnd / sectorSize
  recycled : m.recycled = false

/-- The states of the cache that its operations lead to, with no recycled
slot used and no block past the end of the disk written so far. -/
structure Sound (m : Machine β σ) : Prop extends Tracked m where
  coherent : Coherent m.cache (visible m) (settled m)
  strayed : m.strayed = false

/-- A block object whose slot is safe while only blocks of `T` are opened. -/
def Fresh (T : Finset Nat) (m : Machine β σ) (b : Block) : Prop :=
  Recent T m.cache b.cacheid b.blockid

variable {m m' m'' : Machine β σ} {T T' T'' : Finset Nat} {W W' : Set Nat} {b : Block} {x : Nat}
  {v s : Nat → β} {E : Failure → Machine β σ → Prop}

theorem Fresh.not_stale (h : Fresh T m b) : m.stale b = false := by
  simp only [Machine.stale, h.blockid, ne_eq, not_true_eq_false, decide_false]

theorem Fresh.mono (h : Fresh T m b) (hT : T ⊆ T') : Fresh T' m b where
  slot_lt := h.slot_lt
  blockid := h.blockid
  held := h.held
  mem := hT h.mem
  younger j hj hage := hT (h.younger j hj hage)

theorem Tracked.recycled_or (h : Tracked m) (hb : Fresh T m b) :
    (m.recycled || m.stale b) = m.recycled := by
  rw [hb.not_stale, h.recycled]
  rfl

theorem Tracked.fresh_sector_lt (h : Tracked m) (hb : Fresh T m b) :
    sector b.blockid < blockEnd / sectorSize :=
  hb.blockid ▸ h.sector_lt b.cacheid hb.slot_lt

/-- Only a block id so large that its sector wraps around passes the assertion
past the end of the disk. -/
theorem lt_of_sector_lt (hx : x < 2 ^ 28) (h : sector x < blockEnd / sectorSize) :
    x < maxBlockNum := by
  simp only [sector, blockEnd, blockStart, sectorSize, maxBlockNum, blockSize] at h ⊢
  omega

theorem Tracked.fresh_lt (h : Tracked m) (hb : Fresh T m b) (hx : b.blockid < 2 ^ 28) :
    b.blockid < maxBlockNum :=
  lt_of_sector_lt hx (h.fresh_sector_lt hb)

/-- A fresh block object is on the slot that a look-up of its block finds. -/
theorem Tracked.data_eq (h : Tracked m) (hb : Fresh T m b) :
    (m.cache.slots b.cacheid).data = visible m b.blockid := by
  unfold visible
  split
  next i hlookup =>
    obtain ⟨-, hi, hid, hfirst⟩ := lookupFrom_eq_some hlookup
    have hi' : i < cacheSize := by omega
    by_cases hheld : (m.cache.slots i).age < 0
    · have hlt := h.aged.first b.cacheid hb.slot_lt i hi' hb.held hheld
        (hb.blockid.trans (hid.symm.trans (h.aged.free i hi' hheld)))
      exact absurd hb.blockid (hfirst _ (Nat.zero_le _) hlt)
    · rw [h.aged.unique b.cacheid hb.slot_lt i hi' hb.held (not_lt.mp hheld)
        (hb.blockid.trans hid.symm)]
  next hlookup =>
    have := hb.slot_lt
    exact absurd hb.blockid (lookupFrom_eq_none hlookup (Nat.zero_le _) (by omega))

theorem mayShow_visible (m : Machine β σ) (x : Nat) : MayShow m.cache x (visible m x) := by
  unfold visible
  split
  next i hlookup =>
    obtain ⟨-, hi, hid, -⟩ := lookupFrom_eq_some hlookup
    exact .held i (by omega) hid
  next hlookup =>
    refine .disk fun k hk hid => ?_
    exact absurd hid (lookupFrom_eq_none hlookup (Nat.zero_le _) (by omega))

theorem visible_eq_of_coherent (h : Coherent m.cache v s) (hx : x < maxBlockNum) :
    visible m x = v x ∧ settled m x = s x := by
  unfold visible settled
  split
  next i hlookup =>
    obtain ⟨-, hi, rfl, -⟩ := lookupFrom_eq_some hlookup
    have hi' : i < cacheSize := by omega
    refine ⟨h.data_eq i hi' hx, ?_⟩
    split
    next hd => rw [h.data_eq i hi' hx, h.dirty_settled i hi' hd]
    next hd => exact h.clean_settled i hi' hx (Bool.not_eq_true _ ▸ hd)
  next hlookup =>
    have habsent := h.absent x hx fun i hi => lookupFrom_eq_none hlookup (Nat.zero_le _) (by omega)
    exact ⟨habsent.1.trans habsent.2.symm, habsent.1⟩

theorem coherent_visible (h : Coherent m.cache v s) :
    Coherent m.cache (visible m) (settled m) where
  unique := h.unique
  data_eq i hi hid := by
    rw [(visible_eq_of_coherent h hid).1]
    exact h.data_eq i hi hid
  dirty_lt := h.dirty_lt
  dirty_settled i hi hd := by
    have hlt := visible_eq_of_coherent h (h.dirty_lt i hi hd)
    rw [hlt.1, hlt.2]
    exact h.dirty_settled i hi hd
  clean_settled i hi hid hd := by
    rw [(visible_eq_of_coherent h hid).2]
    exact h.clean_settled i hi hid hd
  absent x hx habsent := by
    rw [(visible_eq_of_coherent h hx).1, (visible_eq_of_coherent h hx).2]
    exact h.absent x hx habsent

/-- What a program that writes only blocks of `W` leaves unchanged whatever
the blocks are.  The block objects that were safe for `T` are safe for `T'`
afterwards, which has the blocks of `T` and those the program opened. -/
structure Tracks (T T' : Finset Nat) (W : Set Nat) (m m' : Machine β σ) : Prop where
  tracked : Tracked m'
  fresh : ∀ b, Fresh T m b → Fresh T' m' b
  visible_eq : ∀ b, Fresh T m b → b.blockid ∉ W → visible m' b.blockid = visible m b.blockid
  mayShow : ∀ x d, (∀ w ∈ W, sector w ≠ sector x) → MayShow m'.cache x d → MayShow m.cache x d
  strayed : m.strayed = true → m'.strayed = true

namespace Tracks

theorem refl (h : Tracked m) (hT : T ⊆ T') : Tracks T T' W m m where
  tracked := h
  fresh _ hb := hb.mono hT
  visible_eq _ _ _ := rfl
  mayShow _ _ _ hd := hd
  strayed h := h

theorem trans (h : Tracks T T' W m m') (h' : Tracks T' T'' W m' m'') :
    Tracks T T'' W m m'' where
  tracked := h'.tracked
  fresh b hb := h'.fresh b (h.fresh b hb)
  visible_eq b hb hW := (h'.visible_eq b (h.fresh b hb) hW).trans (h.visible_eq b hb hW)
  mayShow x d hW hd := h.mayShow x d hW (h'.mayShow x d hW hd)
  strayed hm := h'.strayed (h.strayed hm)

theorem mono (h : Tracks T T' W m m') (hW : W ⊆ W') : Tracks T T' W' m m' where
  tracked := h.tracked
  fresh := h.fresh
  visible_eq b hb hx' := h.visible_eq b hb fun hmem => hx' (hW hmem)
  mayShow x d hx' := h.mayShow x d fun w hw => hx' w (hW hw)
  strayed := h.strayed

theorem forget (h : Tracks T T' W m m') : Tracks ∅ ∅ W m m' where
  tracked := h.tracked
  fresh _ hb := absurd hb.mem (Finset.notMem_empty _)
  visible_eq _ hb := absurd hb.mem (Finset.notMem_empty _)
  mayShow := h.mayShow
  strayed := h.strayed

end Tracks

/-- What a program that writes only the blocks `W` of the disk leaves
unchanged. -/
structure Evolves (T T' : Finset Nat) (W : Set Nat) (m m' : Machine β σ) : Prop
    extends Tracks T T' W m m' where
  sound : Sound m'
  settled_eq : ∀ x < maxBlockNum, x ∉ W → settled m' x = settled m x
  visible_or : ∀ x < maxBlockNum, x ∉ W → visible m' x = visible m x ∨ visible m' x = settled m x

namespace Evolves

theorem refl (h : Sound m) (hT : T ⊆ T') : Evolves T T' W m m where
  toTracks := .refl h.toTracked hT
  sound := h
  settled_eq _ _ _ := rfl
  visible_or _ _ _ := Or.inl rfl

theorem trans (h : Evolves T T' W m m') (h' : Evolves T' T'' W m' m'') :
    Evolves T T'' W m m'' where
  toTracks := h.toTracks.trans h'.toTracks
  sound := h'.sound
  settled_eq x hx hW := (h'.settled_eq x hx hW).trans (h.settled_eq x hx hW)
  visible_or x hx hW := by
    rw [← h.settled_eq x hx hW]
    rcases h'.visible_or x hx hW with heq | heq
    · rw [heq, h.settled_eq x hx hW]
      exact h.visible_or x hx hW
    · exact Or.inr heq

theorem mono (h : Evolves T T' W m m') (hW : W ⊆ W') : Evolves T T' W' m m' where
  toTracks := h.toTracks.mono hW
  sound := h.sound
  settled_eq x hx hx' := h.settled_eq x hx fun hmem => hx' (hW hmem)
  visible_or x hx hx' := h.visible_or x hx fun hmem => hx' (hW hmem)

/-- A settled block keeps showing the same contents. -/
theorem visible_of_settled (h : Evolves T T' W m m') (hx : x < maxBlockNum) (hW : x ∉ W)
    (hs : Settled m x) : visible m' x = visible m x := by
  rcases h.visible_or x hx hW with heq | heq
  · exact heq
  · rw [heq, hs]

theorem settled_of_settled (h : Evolves T T' W m m') (hx : x < maxBlockNum) (hW : x ∉ W)
    (hs : Settled m x) : Settled m' x := by
  unfold Settled
  rw [h.visible_of_settled hx hW hs, h.settled_eq x hx hW]
  exact hs

theorem forget (h : Evolves T T' W m m') : Evolves ∅ ∅ W m m' where
  toTracks := h.toTracks.forget
  sound := h.sound
  settled_eq := h.settled_eq
  visible_or := h.visible_or

end Evolves

/-- What the block shows does not depend on further blocks of `T` being
opened. -/
def Stable (T : Finset Nat) (m : Machine β σ) (x : Nat) : Prop :=
  Settled m x ∨ ∃ b, b.blockid = x ∧ Fresh T m b

theorem Stable.mono (h : Stable T m x) (hT : T ⊆ T') : Stable T' m x := by
  rcases h with hs | ⟨b, hid, hfresh⟩
  · exact Or.inl hs
  · exact Or.inr ⟨b, hid, hfresh.mono hT⟩

theorem Stable.evolves (h : Stable T m x) (hev : Evolves T T' W m m') (hx : x < maxBlockNum)
    (hW : x ∉ W) : visible m' x = visible m x ∧ Stable T' m' x := by
  rcases h with hs | ⟨b, rfl, hfresh⟩
  · exact ⟨hev.visible_of_settled hx hW hs, Or.inl (hev.settled_of_settled hx hW hs)⟩
  · exact ⟨hev.visible_eq b hfresh hW, Or.inr ⟨b, rfl, hev.fresh b hfresh⟩⟩

theorem tracked_globals (h : Tracked m) (g : σ) : Tracks T T W m { m with globals := g } where
  tracked := ⟨h.aged, h.sector_lt, h.recycled⟩
  fresh _ hb := hb
  visible_eq _ _ _ := rfl
  mayShow _ _ _ hd := by
    cases hd with
    | held k hk hid => exact .held (c := m.cache) k hk hid
    | flush k hk hdirty hsector => exact .flush (c := m.cache) k hk hdirty hsector
    | disk hclean => exact .disk (c := m.cache) hclean
  strayed hm := hm

theorem tracks_touched (h : Tracked m) {k : Nat} (hk : k < cacheSize)
    (hfirst : ∀ j < k, (m.cache.slots j).blockid ≠ (m.cache.slots k).blockid)
    (hmem : (m.cache.slots k).blockid ∈ T) :
    Tracks T T W m { m with cache := touched m.cache k } := by
  set m' : Machine β σ := { m with cache := touched m.cache k } with hm'
  have hslot : ∀ j, (m'.cache.slots j).blockid = (m.cache.slots j).blockid ∧
      (m'.cache.slots j).data = (m.cache.slots j).data ∧
      (m'.cache.slots j).dirty = (m.cache.slots j).dirty := by
    intro j
    by_cases hj : j = k
    · subst hj
      simp [hm', touched, Cache.setSlot]
    · simp [hm', touched, Cache.setSlot, Function.update_of_ne hj]
  have htracked : Tracked m' := ⟨aged_touched h.aged hk hfirst,
    fun j hj => (hslot j).1 ▸ h.sector_lt j hj, h.recycled⟩
  have hfresh : ∀ b, Fresh T m b → Fresh T m' b := fun _ hb => recent_touched hb h.aged hk hmem
  refine ⟨htracked, hfresh, ?_, ?_, fun hm => hm⟩
  · intro b hb _
    rw [← htracked.data_eq (hfresh b hb), ← h.data_eq hb, (hslot b.cacheid).2.1]
  · intro x d _ hd
    cases hd with
    | held j hj hid =>
        rw [(hslot j).2.1]
        exact .held j hj ((hslot j).1 ▸ hid)
    | flush j hj hdirty hsector =>
        rw [(hslot j).2.1]
        exact .flush j hj ((hslot j).2.2 ▸ hdirty) ((hslot j).1 ▸ hsector)
    | disk hclean =>
        exact .disk (c := m.cache) fun j hj hid => (hslot j).2.2 ▸ hclean j hj ((hslot j).1.trans hid)

theorem mayShow_flushed {k : Nat} (hk : k < cacheSize)
    (hclean : ∀ j < cacheSize, j ≠ k → (m.cache.slots j).blockid = x →
      (m.cache.slots j).dirty = false) :
    MayShow m.cache x (flushed m.cache k (sector x)) := by
  unfold flushed
  split
  next hd =>
    by_cases hsector : sector (m.cache.slots k).blockid = sector x
    · rw [hsector, Function.update_self]
      exact .flush k hk hd hsector
    · rw [Function.update_of_ne (Ne.symm hsector)]
      refine .disk fun j hj hid => hclean j hj ?_ hid
      rintro rfl
      exact hsector (congrArg sector hid)
  next hd =>
    refine .disk fun j hj hid => ?_
    by_cases hjk : j = k
    · subst hjk
      exact Bool.not_eq_true _ ▸ hd
    · exact hclean j hj hjk hid

theorem tracks_replaced (h : Tracked m) (hT : T.card ≤ cacheSize) (hmem : x ∈ T)
    (hsector : sector x < blockEnd / sectorSize)
    (habsent : ∀ j < cacheSize, (m.cache.slots j).blockid ≠ x) {k : Nat} (hk : k < cacheSize)
    (holdest : ∀ j < cacheSize, (m.cache.slots k).age ≤ (m.cache.slots j).age) :
    Tracks T T W m { m with cache := replaced m.cache (flushed m.cache k) x k } := by
  set m' : Machine β σ := { m with cache := replaced m.cache (flushed m.cache k) x k } with hm'
  have hself : m'.cache.slots k = ⟨flushed m.cache k (sector x), x, false, m.cache.age⟩ :=
    replaced_slot_self ..
  have hother : ∀ j ≠ k, m'.cache.slots j = m.cache.slots j :=
    fun j hj => replaced_slot_of_ne _ _ _ hj
  have htracked : Tracked m' := by
    refine ⟨aged_replaced h.aged _ habsent, fun j hj => ?_, h.recycled⟩
    by_cases hjk : j = k
    · subst hjk
      rw [hself]
      exact hsector
    · rw [hother j hjk]
      exact h.sector_lt j hj
  have hne : ∀ b, Fresh T m b → b.cacheid ≠ k := fun b hb heqk =>
    not_recent_oldest hT h.aged hmem habsent holdest (b := b.blockid) (heqk ▸ hb)
  have hfresh : ∀ b, Fresh T m b → Fresh T m' b := by
    intro b hb
    refine recent_of_newest hb (hne b hb) ?_ hother
    rw [hself]
    exact hmem
  refine ⟨htracked, hfresh, ?_, ?_, fun hm => hm⟩
  · intro b hb _
    rw [← htracked.data_eq (hfresh b hb), ← h.data_eq hb, hother _ (hne b hb)]
  · intro y d _ hd
    cases hd with
    | held j hj hid =>
        by_cases hjk : j = k
        · subst hjk
          rw [hself] at hid ⊢
          subst hid
          exact mayShow_flushed hj fun i hi _ hiy => absurd hiy (habsent i hi)
        · rw [hother j hjk] at hid ⊢
          exact .held j hj hid
    | flush j hj hdirty hy =>
        by_cases hjk : j = k
        · subst hjk
          rw [hself] at hdirty
          cases hdirty
        · rw [hother j hjk] at hdirty hy ⊢
          exact .flush j hj hdirty hy
    | disk hclean =>
        refine mayShow_flushed hk fun j hj hjk hid => ?_
        rw [← hother j hjk] at hid ⊢
        exact hclean j hj hid

theorem openBlock_run {k : Nat} {c' : Cache β} (hfind : cacheFind m.cache x = some (k, c')) :
    (openBlock x : BlockProgram β σ Block).run m = (.ok ⟨k, x⟩, { m with cache := c' }) := by
  simp only [openBlock, hfind]

theorem Tracked.find_cases (h : Tracked m) (x : Nat) :
    (∃ k < cacheSize, (m.cache.slots k).blockid = x ∧
      (∀ j < k, (m.cache.slots j).blockid ≠ x) ∧
      cacheFind m.cache x = some (k, touched m.cache k)) ∨
    ((∀ k < cacheSize, (m.cache.slots k).blockid ≠ x) ∧ sector x < blockEnd / sectorSize ∧
      ∃ k < cacheSize, (∀ j < cacheSize, (m.cache.slots k).age ≤ (m.cache.slots j).age) ∧
        cacheFind m.cache x = some (k, replaced m.cache (flushed m.cache k) x k)) ∨
    (cacheFind m.cache x = none ∧ ¬sector x < blockEnd / sectorSize) := by
  refine (cacheFind_cases m.cache x).imp_right (Or.imp_right fun hfind => ⟨hfind.1, ?_⟩)
  intro hx
  obtain ⟨k, hk, -, hfail⟩ := hfind.2 hx
  exact hfail (h.sector_lt k hk)

/-- Opening a block of `T`. -/
theorem Tracked.runs_openBlock (h : Tracked m) (hT : T.card ≤ cacheSize) (hmem : x ∈ T)
    (hE : ¬sector x < blockEnd / sectorSize → E .sector m) :
    Runs (openBlock x) m E fun b m' =>
      b.blockid = x ∧ Fresh T m' b ∧ Tracks T T ∅ m m' ∧ m'.globals = m.globals := by
  rcases h.find_cases x with
    ⟨k, hk, hid, hfirst, hfind⟩ | ⟨habsent, hx, k, hk, holdest, hfind⟩ | ⟨hfind, hx⟩
  · refine runs_of_ok (openBlock_run hfind) ⟨rfl, ?_, ?_, rfl⟩
    · exact recent_newest h.aged hk (by rw [touched_slot_self])
        (by rw [touched_slot_self]; exact hid) hmem fun _ hj => touched_slot_of_ne _ hj
    · exact tracks_touched h hk (hid.symm ▸ hfirst) (hid.symm ▸ hmem)
  · refine runs_of_ok (openBlock_run hfind)
      ⟨rfl, ?_, tracks_replaced h hT hmem hx habsent hk holdest, rfl⟩
    exact recent_newest h.aged hk (by rw [replaced_slot_self])
      (by rw [replaced_slot_self]) hmem fun _ hj => replaced_slot_of_ne _ _ _ hj
  · exact runs_of_error (by simp only [openBlock, hfind]) (hE hx)

theorem load_run (h : Tracked m) (hb : Fresh T m b) :
    (b.load : BlockProgram β σ β).run m = (.ok (visible m b.blockid), m) := by
  simp only [Block.load, h.recycled_or hb, h.data_eq hb]

theorem Tracked.runs_load (h : Tracked m) (hb : Fresh T m b) :
    Runs b.load m E fun d m' => d = visible m b.blockid ∧ m' = m :=
  runs_of_ok (load_run h hb) ⟨rfl, rfl⟩

/-- `Block block(x);` followed by a read of the block. -/
theorem Tracked.runs_open_load {α : Type} {Q : α → Machine β σ → Prop}
    {k : Block → β → BlockProgram β σ α} (h : Tracked m) (hT : T.card ≤ cacheSize)
    (hmem : x ∈ T) (hE : ¬sector x < blockEnd / sectorSize → E .sector m)
    (hk : ∀ b d m', b.blockid = x → MayShow m.cache x d → Fresh T m' b → Tracks T T ∅ m m' →
      m'.globals = m.globals → Runs (k b d) m' E Q) :
    Runs (do let b ← openBlock x; let d ← b.load; k b d) m E Q := by
  refine (h.runs_openBlock hT hmem hE).bind ?_
  rintro b m₁ ⟨hid, hfresh, htracks, hg⟩
  refine (htracks.tracked.runs_load hfresh).bind ?_
  rintro d m₁ ⟨rfl, rfl⟩
  rw [hid]
  exact hk b _ m₁ hid (htracks.mayShow x _ (fun _ hw => absurd hw (Set.notMem_empty _))
    (mayShow_visible m₁ x)) hfresh htracks hg

theorem aged_of_same {c c' : Cache β} (h : Aged c) (hage : c'.age = c.age)
    (hslot : ∀ k, (c'.slots k).blockid = (c.slots k).blockid ∧
      (c'.slots k).age = (c.slots k).age) : Aged c' where
  free := by simpa only [hslot] using h.free
  young := by simpa only [hslot, hage] using h.young
  distinct := by simpa only [hslot] using h.distinct
  unique := by simpa only [hslot] using h.unique
  first := by simpa only [hslot] using h.first
  counter := hage.symm ▸ h.counter

theorem recent_of_same {c c' : Cache β} {i : Nat} (h : Recent T c i x)
    (hslot : ∀ k, (c'.slots k).blockid = (c.slots k).blockid ∧
      (c'.slots k).age = (c.slots k).age) : Recent T c' i x where
  slot_lt := h.slot_lt
  blockid := (hslot i).1.trans h.blockid
  held := (hslot i).2 ▸ h.held
  mem := h.mem
  younger j hj := by
    simp only [hslot]
    exact h.younger j hj

/-- A step that moves no block and changes only the slot and the sector of
`b`. -/
theorem tracks_write (h : Tracked m) (hb : Fresh T m b) (hage : m'.cache.age = m.cache.age)
    (hslot : ∀ k, (m'.cache.slots k).blockid = (m.cache.slots k).blockid ∧
      (m'.cache.slots k).age = (m.cache.slots k).age)
    (hother : ∀ k ≠ b.cacheid, m'.cache.slots k = m.cache.slots k)
    (hdisk : ∀ x, sector b.blockid ≠ x → m'.cache.disk x = m.cache.disk x)
    (hrecycled : m'.recycled = m.recycled) (hstrayed : m.strayed = true → m'.strayed = true) :
    Tracks T T {b.blockid} m m' := by
  have htracked : Tracked m' :=
    ⟨aged_of_same h.aged hage hslot, fun k hk => (hslot k).1 ▸ h.sector_lt k hk,
      hrecycled.trans h.recycled⟩
  have hfresh : ∀ b', Fresh T m b' → Fresh T m' b' := fun _ hb' => recent_of_same hb' hslot
  refine ⟨htracked, hfresh, ?_, ?_, hstrayed⟩
  · intro b' hb' hne
    have hcacheid : b'.cacheid ≠ b.cacheid := by
      intro heq
      have hid := hb'.blockid
      rw [heq, hb.blockid] at hid
      exact hne hid.symm
    rw [← htracked.data_eq (hfresh b' hb'), ← h.data_eq hb', hother _ hcacheid]
  · intro x d hW hd
    have hsector : sector b.blockid ≠ sector x := hW _ rfl
    have hne : ∀ k, sector (m.cache.slots k).blockid = sector x → k ≠ b.cacheid := by
      rintro k hk rfl
      exact hsector (hb.blockid ▸ hk)
    cases hd with
    | held k hk hid =>
        rw [(hslot k).1] at hid
        rw [hother k (hne k (congrArg sector hid))]
        exact .held k hk hid
    | flush k hk hdirty hx =>
        rw [(hslot k).1] at hx
        rw [hother k (hne k hx)] at hdirty ⊢
        exact .flush k hk hdirty hx
    | disk hclean =>
        rw [hdisk _ hsector]
        refine .disk fun k hk hid => ?_
        rw [← hother k (hne k (congrArg sector hid))]
        exact hclean k hk ((hslot k).1.trans hid)

theorem setData_slot (c : Cache β) (i : Nat) (d : β) (k : Nat) :
    ((c.setData i d).slots k).blockid = (c.slots k).blockid ∧
      ((c.setData i d).slots k).age = (c.slots k).age := by
  by_cases hki : k = i
  · subst hki
    simp [setData_slot_self]
  · simp [setData_slot_of_ne c d hki]

theorem store_run (h : Tracked m) (hb : Fresh T m b) (d : β) :
    (b.store d : BlockProgram β σ Unit).run m
      = (.ok (), { m with cache := m.cache.setData b.cacheid d }) := by
  simp only [Block.store, h.recycled_or hb]

theorem tracks_store (h : Tracked m) (hb : Fresh T m b) (d : β) :
    Tracks T T {b.blockid} m { m with cache := m.cache.setData b.cacheid d } :=
  tracks_write h hb rfl (setData_slot _ _ d) (fun _ hk => setData_slot_of_ne _ d hk)
    (fun _ _ => rfl) rfl id

theorem Tracked.runs_store (h : Tracked m) (hb : Fresh T m b) (d : β) :
    Runs (b.store d) m E fun _ m' =>
      Tracks T T {b.blockid} m m' ∧ visible m' b.blockid = d ∧ m'.globals = m.globals := by
  have htracks := tracks_store h hb d
  refine runs_of_ok (store_run h hb d) ⟨htracks, ?_, rfl⟩
  rw [← htracks.tracked.data_eq (htracks.fresh b hb)]
  exact congrArg Slot.data (setData_slot_self ..)

/-- The cache after `Block::update`. -/
def updated (c : Cache β) (cacheid : Nat) : Cache β :=
  if c.policyWritethrough then writtenOut c cacheid else marked c cacheid true

theorem updated_age (c : Cache β) (cacheid : Nat) : (updated c cacheid).age = c.age := by
  unfold updated
  split <;> rfl

theorem updated_slot (c : Cache β) (cacheid k : Nat) :
    ((updated c cacheid).slots k).blockid = (c.slots k).blockid ∧
      ((updated c cacheid).slots k).data = (c.slots k).data ∧
      ((updated c cacheid).slots k).age = (c.slots k).age := by
  unfold updated
  split
  next => exact ⟨rfl, rfl, rfl⟩
  next => exact marked_slot _ _ _ k

/-- The machine after `Block::update`. -/
def Machine.updated (m : Machine β σ) (b : Block) : Machine β σ :=
  { m with
    cache := BlockObject.updated m.cache b.cacheid
    strayed := m.strayed || maxBlockNum ≤ b.blockid }

theorem tracks_update (h : Tracked m) (hb : Fresh T m b) :
    Tracks T T {b.blockid} m (m.updated b) := by
  refine tracks_write h hb (updated_age ..)
    (fun k => ⟨(updated_slot _ _ k).1, (updated_slot _ _ k).2.2⟩) ?_ ?_ rfl ?_
  · intro k hk
    change (updated m.cache b.cacheid).slots k = _
    unfold updated
    split
    next => rfl
    next => exact marked_slot_of_ne _ _ hk
  · intro x hx
    change (updated m.cache b.cacheid).disk x = _
    unfold updated
    split
    next => exact Function.update_of_ne (hb.blockid ▸ hx.symm) _ _
    next => rfl
  · intro hm
    simp only [Machine.updated, hm, Bool.true_or]

theorem update_run (h : Tracked m) (hb : Fresh T m b) :
    (b.update : BlockProgram β σ Unit).run m = (.ok (), m.updated b) := by
  have hsector := h.sector_lt b.cacheid hb.slot_lt
  have hrecycled := h.recycled_or hb
  by_cases hpolicy : m.cache.policyWritethrough = true
  · simp only [Block.update, BlockCache.update, hpolicy, if_true, writeBlockDirect,
      if_pos hsector, Option.map_some, hrecycled, Machine.updated, updated, writtenOut]
  · simp only [Block.update, BlockCache.update, if_neg hpolicy, hrecycled, Machine.updated,
      updated, marked]

theorem Tracked.runs_update (h : Tracked m) (hb : Fresh T m b) :
    Runs b.update m E fun _ m' =>
      Tracks T T {b.blockid} m m' ∧ visible m' b.blockid = visible m b.blockid ∧
        (maxBlockNum ≤ b.blockid → m'.strayed = true) ∧ m'.globals = m.globals := by
  have htracks := tracks_update h hb
  refine runs_of_ok (update_run h hb) ⟨htracks, ?_, ?_, rfl⟩
  · rw [← htracks.tracked.data_eq (htracks.fresh b hb), ← h.data_eq hb]
    exact (updated_slot _ _ _).2.1
  · intro hstray
    simp only [Machine.updated, hstray, decide_true, Bool.or_true]

theorem Tracked.runs_store_update {α : Type} {Q : α → Machine β σ → Prop}
    {k : BlockProgram β σ α} {d : β} (h : Tracked m) (hb : Fresh T m b)
    (hk : ∀ m', Tracks T T {b.blockid} m m' → visible m' b.blockid = d →
      m'.globals = m.globals → Runs k m' E Q) :
    Runs (do b.store d; b.update; k) m E Q := by
  refine (h.runs_store hb d).bind ?_
  rintro _ m₁ ⟨htracks₁, hv₁, hg₁⟩
  refine (htracks₁.tracked.runs_update (htracks₁.fresh b hb)).bind ?_
  rintro _ m₂ ⟨htracks₂, hv₂, -, hg₂⟩
  exact hk m₂ (htracks₁.trans htracks₂) (hv₂.trans hv₁) (hg₂.trans hg₁)

theorem runs_getGlobals :
    Runs (getGlobals : BlockProgram β σ σ) m E fun g m' => g = m.globals ∧ m' = m :=
  runs_of_ok rfl ⟨rfl, rfl⟩

theorem Tracked.runs_modifyGlobals (h : Tracked m) (f : σ → σ) :
    Runs (modifyGlobals f) m E fun _ m' =>
      Tracks T T ∅ m m' ∧ visible m' = visible m ∧ settled m' = settled m ∧
        m'.globals = f m.globals :=
  runs_of_ok rfl ⟨tracked_globals h _, rfl, rfl, rfl⟩

theorem sound_of_coherent (h : Tracked m) (hcoherent : Coherent m.cache v s)
    (hstrayed : m.strayed = false) : Sound m :=
  ⟨h, coherent_visible hcoherent, hstrayed⟩

/-- A change of the variables outside the cache. -/
theorem evolves_globals (h : Sound m) (g : σ) : Evolves T T W m { m with globals := g } where
  toTracks := tracked_globals h.toTracked g
  sound := ⟨⟨h.aged, h.sector_lt, h.recycled⟩, h.coherent, h.strayed⟩
  settled_eq _ _ _ := rfl
  visible_or _ _ _ := Or.inl rfl

theorem visible_touched (h : Sound m) (k : Nat) (hx : x < maxBlockNum) :
    visible { m with cache := touched m.cache k } x = visible m x ∧
      settled { m with cache := touched m.cache k } x = settled m x :=
  visible_eq_of_coherent (m := { m with cache := touched m.cache k })
    (coherent_touched h.coherent k) hx

theorem evolves_touched (h : Sound m) {k : Nat} (hk : k < cacheSize)
    (hfirst : ∀ j < k, (m.cache.slots j).blockid ≠ (m.cache.slots k).blockid)
    (hmem : (m.cache.slots k).blockid ∈ T) :
    Evolves T T W m { m with cache := touched m.cache k } := by
  have htracks := tracks_touched (W := W) h.toTracked hk hfirst hmem
  exact ⟨htracks, sound_of_coherent htracks.tracked (coherent_touched h.coherent k) h.strayed,
    fun x hx _ => (visible_touched h k hx).2, fun x hx _ => Or.inl (visible_touched h k hx).1⟩

theorem visible_replaced (h : Sound m)
    (habsent : ∀ j < cacheSize, (m.cache.slots j).blockid ≠ x) {k y : Nat} (hk : k < cacheSize)
    (hy : y < maxBlockNum) :
    visible { m with cache := replaced m.cache (flushed m.cache k) x k } y =
        Function.update (visible m) (m.cache.slots k).blockid
          (settled m (m.cache.slots k).blockid) y ∧
      settled { m with cache := replaced m.cache (flushed m.cache k) x k } y = settled m y :=
  visible_eq_of_coherent (m := { m with cache := replaced m.cache (flushed m.cache k) x k })
    (coherent_replaced h.coherent habsent hk) hy

theorem evolves_replaced (h : Sound m) (hT : T.card ≤ cacheSize) (hmem : x ∈ T)
    (hsector : sector x < blockEnd / sectorSize)
    (habsent : ∀ j < cacheSize, (m.cache.slots j).blockid ≠ x) {k : Nat}
    (hk : k < cacheSize)
    (holdest : ∀ j < cacheSize, (m.cache.slots k).age ≤ (m.cache.slots j).age) :
    Evolves T T W m { m with cache := replaced m.cache (flushed m.cache k) x k } := by
  have htracks := tracks_replaced (W := W) h.toTracked hT hmem hsector habsent hk holdest
  have hcoherent := coherent_replaced h.coherent habsent hk
  refine ⟨htracks, sound_of_coherent htracks.tracked hcoherent h.strayed,
    fun y hy _ => (visible_replaced h habsent hk hy).2, ?_⟩
  intro y hy _
  rw [(visible_replaced h habsent hk hy).1]
  by_cases hyk : y = (m.cache.slots k).blockid
  · subst hyk
    rw [Function.update_self]
    exact Or.inr rfl
  · rw [Function.update_of_ne hyk]
    exact Or.inl rfl

/-- Opening a block of `T`. -/
theorem runs_openBlock (h : Sound m) (hT : T.card ≤ cacheSize) (hmem : x ∈ T)
    (hE : maxBlockNum ≤ x → E .sector m) :
    Runs (openBlock x) m E fun b m' =>
      b.blockid = x ∧ Fresh T m' b ∧ Evolves T T ∅ m m' ∧ m'.globals = m.globals := by
  rcases h.find_cases x with
    ⟨k, hk, hid, hfirst, hfind⟩ | ⟨habsent, hx, k, hk, holdest, hfind⟩ | ⟨hfind, hx⟩
  · refine runs_of_ok (openBlock_run hfind) ⟨rfl, ?_, ?_, rfl⟩
    · exact recent_newest h.aged hk (by rw [touched_slot_self])
        (by rw [touched_slot_self]; exact hid) hmem fun _ hj => touched_slot_of_ne _ hj
    · exact evolves_touched h hk (hid.symm ▸ hfirst) (hid.symm ▸ hmem)
  · refine runs_of_ok (openBlock_run hfind)
      ⟨rfl, ?_, evolves_replaced h hT hmem hx habsent hk holdest, rfl⟩
    exact recent_newest h.aged hk (by rw [replaced_slot_self])
      (by rw [replaced_slot_self]) hmem fun _ hj => replaced_slot_of_ne _ _ _ hj
  · exact runs_of_error (by simp only [openBlock, hfind])
      (hE (not_lt.mp fun hlt => hx (sector_lt hlt)))

theorem runs_load (h : Sound m) (hb : Fresh T m b) :
    Runs b.load m E fun d m' => d = visible m b.blockid ∧ m' = m :=
  h.toTracked.runs_load hb

/-- A step that changes the contents of the blocks of `W` and moves no
block. -/
theorem evolves_write (htracks : Tracks T T W m m') (hcoherent : Coherent m'.cache v s)
    (hstrayed : m'.strayed = false) (hv : ∀ y ∉ W, v y = visible m y)
    (hs : ∀ y ∉ W, s y = settled m y) : Evolves T T W m m' := by
  have heq := fun y hy => visible_eq_of_coherent (x := y) hcoherent hy
  refine ⟨htracks, sound_of_coherent htracks.tracked hcoherent hstrayed, ?_, ?_⟩
  · intro y hy hW
    rw [(heq y hy).2]
    exact hs y hW
  · intro y hy hW
    rw [(heq y hy).1]
    exact Or.inl (hv y hW)

theorem visible_setData (h : Sound m) (hb : Fresh T m b) (hlt : b.blockid < maxBlockNum) (d : β)
    (hx : x < maxBlockNum) :
    visible { m with cache := m.cache.setData b.cacheid d } x =
        Function.update (visible m) b.blockid d x ∧
      settled { m with cache := m.cache.setData b.cacheid d } x =
        (if (m.cache.slots b.cacheid).dirty then Function.update (settled m) b.blockid d
          else settled m) x :=
  visible_eq_of_coherent (m := { m with cache := m.cache.setData b.cacheid d })
    (coherent_setData h.coherent hb.slot_lt hb.blockid hlt d) hx

theorem runs_store (h : Sound m) (hb : Fresh T m b) (d : β) :
    Runs (b.store d) m E fun _ m' =>
      Evolves T T {b.blockid} m m' ∧ visible m' b.blockid = d ∧ m'.globals = m.globals := by
  have htracks := tracks_store h.toTracked hb d
  have hstore := (h.toTracked.runs_store (E := E) hb d).ok (store_run h.toTracked hb d)
  refine runs_of_ok (store_run h.toTracked hb d) ⟨?_, hstore.2.1, rfl⟩
  by_cases hlt : b.blockid < maxBlockNum
  · refine evolves_write htracks (coherent_setData h.coherent hb.slot_lt hb.blockid hlt d)
      h.strayed (fun y hy => Function.update_of_ne hy ..) fun y hy => ?_
    split
    next => exact Function.update_of_ne hy ..
    next => rfl
  · exact evolves_write htracks
      (coherent_setData_stray h.coherent (hb.blockid.symm ▸ not_lt.mp hlt) d) h.strayed
      (fun _ _ => rfl) fun _ _ => rfl

theorem visible_updated (h : Sound m) (hb : Fresh T m b) (hlt : b.blockid < maxBlockNum)
    (hx : x < maxBlockNum) :
    visible (m.updated b) x = visible m x ∧
      settled (m.updated b) x = Function.update (settled m) b.blockid (visible m b.blockid) x :=
  visible_eq_of_coherent (m := m.updated b)
    (coherent_update h.coherent hb.slot_lt hb.blockid hlt) hx

theorem runs_update (h : Sound m) (hb : Fresh T m b) (hlt : b.blockid < maxBlockNum) :
    Runs b.update m E fun _ m' =>
      Evolves T T {b.blockid} m m' ∧ visible m' b.blockid = visible m b.blockid ∧
        Settled m' b.blockid ∧ m'.globals = m.globals := by
  have hcoherent : Coherent (m.updated b).cache _ _ :=
    coherent_update h.coherent hb.slot_lt hb.blockid hlt
  have hstrayed : (m.updated b).strayed = false := by
    simp only [Machine.updated, h.strayed, not_le.mpr hlt, decide_false, Bool.or_false]
  have heq := visible_updated h hb hlt hlt
  refine runs_of_ok (update_run h.toTracked hb) ⟨evolves_write (tracks_update h.toTracked hb) hcoherent hstrayed
    (fun _ _ => rfl) (fun y hy => Function.update_of_ne hy ..), heq.1, ?_, rfl⟩
  exact heq.1.trans (heq.2.trans (Function.update_self ..)).symm

/-- `block.data = d; block.update();` -/
theorem runs_store_update {α : Type} {Q : α → Machine β σ → Prop} {k : BlockProgram β σ α} {d : β}
    (h : Sound m) (hb : Fresh T m b) (hlt : b.blockid < maxBlockNum)
    (hk : ∀ m', Evolves T T {b.blockid} m m' → visible m' b.blockid = d →
      Settled m' b.blockid → m'.globals = m.globals → Runs k m' E Q) :
    Runs (do b.store d; b.update; k) m E Q := by
  refine (runs_store h hb d).bind ?_
  rintro _ m₁ ⟨hev₁, hv₁, hg₁⟩
  refine (runs_update hev₁.sound (hev₁.fresh b hb) hlt).bind ?_
  rintro _ m₂ ⟨hev₂, hv₂, hs₂, hg₂⟩
  exact hk m₂ (hev₁.trans hev₂) (hv₂.trans hv₁) hs₂ (hg₂.trans hg₁)

/-- `Block block(x);` followed by a read of the block. -/
theorem runs_open_load {α : Type} {Q : α → Machine β σ → Prop} {k : Block → β → BlockProgram β σ α}
    (h : Sound m) (hT : T.card ≤ cacheSize) (hmem : x ∈ T) (hE : maxBlockNum ≤ x → E .sector m)
    (hk : ∀ b m', b.blockid = x → Fresh T m' b → Evolves T T ∅ m m' →
      m'.globals = m.globals → Runs (k b (visible m' x)) m' E Q) :
    Runs (do let b ← openBlock x; let d ← b.load; k b d) m E Q := by
  refine (runs_openBlock h hT hmem hE).bind ?_
  rintro b m₁ ⟨hid, hfresh, hev₁, hg₁⟩
  refine (runs_load hev₁.sound hfresh).bind ?_
  rintro d m₁ ⟨rfl, rfl⟩
  rw [hid]
  exact hk b m₁ hid hfresh hev₁ hg₁

theorem runs_modifyGlobals (h : Sound m) (f : σ → σ) :
    Runs (modifyGlobals f) m E fun _ m' =>
      Evolves T T ∅ m m' ∧ visible m' = visible m ∧ settled m' = settled m ∧
        m'.globals = f m.globals :=
  runs_of_ok rfl ⟨evolves_globals h _, rfl, rfl, rfl⟩

end LabKernel.BlockObject
