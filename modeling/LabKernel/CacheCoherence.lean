import Mathlib.Algebra.Order.Ring.Int
import Mathlib.Tactic.Set
import LabKernel.BlockCache

/-!
The relation between the block cache and the contents of the blocks.

Every block has a visible contents, what a `Block` of its id shows, and a
settled contents, what it will show once its slot has been given to another
block.  The two differ for a block that was written through `data` and not
yet followed by `update`.
-/

namespace LabKernel.CacheCoherence

open LabKernel.BlockCache

variable {β : Type*} {c c' : Cache β} {visible settled : Nat → β} {b i : Nat}

/-- The block id of a slot that holds no block. -/
def freeId : Nat := 2 ^ 32 - 1

theorem sector_eq (hb : b < maxBlockNum) : sector b = 262144 + b * 8 := by
  simp only [maxBlockNum, blockEnd, blockStart, blockSize] at hb
  simp only [sector, blockStart, sectorSize]
  omega

theorem sector_lt (hb : b < maxBlockNum) : sector b < blockEnd / sectorSize := by
  rw [sector_eq hb]
  simp only [maxBlockNum, blockEnd, blockStart, blockSize] at hb
  simp only [blockEnd, sectorSize]
  omega

theorem sector_inj {b' : Nat} (hb : b < maxBlockNum) (hb' : b' < maxBlockNum) :
    sector b = sector b' ↔ b = b' := by
  rw [sector_eq hb, sector_eq hb']
  omega

theorem ne_freeId (hb : b < maxBlockNum) : b ≠ freeId := by
  simp only [maxBlockNum, blockEnd, blockStart, blockSize] at hb
  simp only [freeId]
  omega

theorem lookupFrom_eq_some {left start : Nat} (h : lookupFrom c b left start = some i) :
    start ≤ i ∧ i < start + left ∧ (c.slots i).blockid = b ∧
      ∀ j, start ≤ j → j < i → (c.slots j).blockid ≠ b := by
  induction left generalizing start with
  | zero => simp [lookupFrom] at h
  | succ left ih =>
      simp only [lookupFrom] at h
      split at h
      next hid =>
        obtain rfl := Option.some.inj h
        exact ⟨le_refl _, by omega, hid, fun j hj hlt => absurd hj (by omega)⟩
      next hne =>
        obtain ⟨hle, hlt, hid, hfirst⟩ := ih h
        refine ⟨by omega, by omega, hid, fun j hj hji => ?_⟩
        rcases Nat.eq_or_lt_of_le hj with rfl | hj
        · exact hne
        · exact hfirst j hj hji

theorem lookupFrom_eq_none {left start : Nat} (h : lookupFrom c b left start = none)
    (hstart : start ≤ i) (hi : i < start + left) : (c.slots i).blockid ≠ b := by
  induction left generalizing start with
  | zero => omega
  | succ left ih =>
      simp only [lookupFrom] at h
      split at h
      next => cases h
      next hid =>
        rcases Nat.eq_or_lt_of_le hstart with rfl | hlt
        · exact hid
        · exact ih h hlt (by omega)

theorem selectFrom_lt {left start selected bound : Nat} (hselected : selected < bound)
    (hstart : start + left ≤ bound) : selectFrom c left start selected < bound := by
  induction left generalizing start selected with
  | zero => exact hselected
  | succ left ih =>
      simp only [selectFrom]
      refine ih ?_ (by omega)
      split <;> omega

theorem selectFrom_age_le_selected (left start selected : Nat) :
    (c.slots (selectFrom c left start selected)).age ≤ (c.slots selected).age := by
  induction left generalizing start selected with
  | zero => exact le_refl _
  | succ left ih =>
      simp only [selectFrom]
      refine (ih _ _).trans ?_
      split
      next h => exact h.le
      next => exact le_refl _

theorem selectFrom_age_le {left start selected : Nat} (hstart : start ≤ i)
    (hi : i < start + left) :
    (c.slots (selectFrom c left start selected)).age ≤ (c.slots i).age := by
  induction left generalizing start selected with
  | zero => omega
  | succ left ih =>
      simp only [selectFrom]
      rcases Nat.eq_or_lt_of_le hstart with rfl | hlt
      · refine (selectFrom_age_le_selected _ _ _).trans ?_
        split
        next => exact le_refl _
        next h => exact not_lt.mp h
      · exact ih hlt (by omega)

/-- The state after a hit in slot `i`. -/
def touched (c : Cache β) (i : Nat) : Cache β :=
  { c.setSlot i { c.slots i with age := c.age } with age := c.age + 1 }

/-- The state after block `b` took the place of the contents of slot `i`,
`disk` being the disk after the flush of that slot. -/
def replaced (c : Cache β) (disk : Nat → β) (b i : Nat) : Cache β :=
  { c.setSlot i ⟨disk (sector b), b, false, c.age⟩ with disk := disk, age := c.age + 1 }

/-- The disk after the flush of a slot that is about to be reused. -/
def flushed (c : Cache β) (i : Nat) : Nat → β :=
  if (c.slots i).dirty then Function.update c.disk (sector (c.slots i).blockid) (c.slots i).data
  else c.disk

/-- Everything `cache_find` can do: a hit in the first slot that holds the
block, a miss that gives the block the oldest slot, or a failed assertion.
The assertion fails for the block itself or for a dirty slot that was written
for a block outside the disk. -/
theorem cacheFind_cases (c : Cache β) (b : Nat) :
    (∃ k < cacheSize, (c.slots k).blockid = b ∧ (∀ j < k, (c.slots j).blockid ≠ b) ∧
      cacheFind c b = some (k, touched c k)) ∨
    ((∀ k < cacheSize, (c.slots k).blockid ≠ b) ∧ sector b < blockEnd / sectorSize ∧
      ∃ k < cacheSize, (∀ j < cacheSize, (c.slots k).age ≤ (c.slots j).age) ∧
        cacheFind c b = some (k, replaced c (flushed c k) b k)) ∨
    (cacheFind c b = none ∧ (sector b < blockEnd / sectorSize → ∃ k < cacheSize,
      (c.slots k).dirty = true ∧ ¬sector (c.slots k).blockid < blockEnd / sectorSize)) := by
  cases hlookup : lookupFrom c b cacheSize 0 with
  | some k =>
      obtain ⟨-, hk, hid, hfirst⟩ := lookupFrom_eq_some hlookup
      left
      exact ⟨k, by omega, hid, fun j hj => hfirst j (Nat.zero_le _) hj,
        by simp only [cacheFind, hlookup, touched]⟩
  | none =>
      right
      have hselected : selectFrom c cacheSize 0 0 < cacheSize :=
        selectFrom_lt (by decide) (by omega)
      have habsent : ∀ k < cacheSize, (c.slots k).blockid ≠ b :=
        fun k hk => lookupFrom_eq_none hlookup (Nat.zero_le _) (by omega)
      simp only [cacheFind, hlookup, writeBlockDirect, readBlockDirect]
      by_cases hflush : (c.slots (selectFrom c cacheSize 0 0)).dirty = true ∧
          ¬sector (c.slots (selectFrom c cacheSize 0 0)).blockid < blockEnd / sectorSize
      · right
        rw [if_pos hflush.1, if_neg hflush.2]
        exact ⟨rfl, fun _ => ⟨_, hselected, hflush⟩⟩
      by_cases hb : sector b < blockEnd / sectorSize
      · left
        refine ⟨habsent, hb, _, hselected,
          fun j hj => selectFrom_age_le (Nat.zero_le _) (by omega), ?_⟩
        simp only [flushed, replaced, if_pos hb]
        split
        next hd =>
          have hpass : sector (c.slots (selectFrom c cacheSize 0 0)).blockid <
              blockEnd / sectorSize := by
            by_contra hfail
            exact hflush ⟨hd, hfail⟩
          simp only [if_pos hpass, Option.bind_some, Option.map_some]
        next => simp only [Option.bind_some, Option.map_some]
      · right
        refine ⟨?_, fun hb' => absurd hb' hb⟩
        simp only [if_neg hb, Option.map_none, Option.bind_fun_none]

/-- The cache and the disk together hold the blocks with the given visible
and settled contents.  A slot may also hold an id past the end of the disk,
whose sector number wraps around: such a slot says nothing as long as it is
not dirty. -/
structure Coherent (c : Cache β) (visible settled : Nat → β) : Prop where
  unique : ∀ i < cacheSize, ∀ j < cacheSize, (c.slots i).blockid < maxBlockNum →
    (c.slots i).blockid = (c.slots j).blockid → i = j
  data_eq : ∀ i < cacheSize, (c.slots i).blockid < maxBlockNum →
    (c.slots i).data = visible (c.slots i).blockid
  dirty_lt : ∀ i < cacheSize, (c.slots i).dirty = true → (c.slots i).blockid < maxBlockNum
  dirty_settled : ∀ i < cacheSize, (c.slots i).dirty = true →
    settled (c.slots i).blockid = visible (c.slots i).blockid
  clean_settled : ∀ i < cacheSize, (c.slots i).blockid < maxBlockNum →
    (c.slots i).dirty = false → c.disk (sector (c.slots i).blockid) = settled (c.slots i).blockid
  absent : ∀ b < maxBlockNum, (∀ i < cacheSize, (c.slots i).blockid ≠ b) →
    c.disk (sector b) = settled b ∧ visible b = settled b

namespace Coherent

/-- What the disk holds for a block that was just given up is its settled
contents. -/
theorem flushed_sector (h : Coherent c visible settled) (hi : i < cacheSize)
    (hid : (c.slots i).blockid < maxBlockNum) :
    flushed c i (sector (c.slots i).blockid) = settled (c.slots i).blockid := by
  unfold flushed
  split
  next hd => rw [Function.update_self, h.data_eq i hi hid, h.dirty_settled i hi hd]
  next hd => exact h.clean_settled i hi hid (Bool.not_eq_true _ ▸ hd)

theorem flushed_sector_of_ne (h : Coherent c visible settled) (hi : i < cacheSize)
    (hb : b < maxBlockNum) (hid : (c.slots i).blockid ≠ b) :
    flushed c i (sector b) = c.disk (sector b) := by
  unfold flushed
  split
  next hd =>
    rw [Function.update_of_ne]
    exact fun heq => hid ((sector_inj hb (h.dirty_lt i hi hd)).mp heq).symm
  next => rfl

end Coherent

theorem coherent_touched (h : Coherent c visible settled) (i : Nat) :
    Coherent (touched c i) visible settled := by
  have hslot : ∀ j, ((touched c i).slots j).blockid = (c.slots j).blockid ∧
      ((touched c i).slots j).data = (c.slots j).data ∧
      ((touched c i).slots j).dirty = (c.slots j).dirty := by
    intro j
    by_cases hj : j = i
    · subst hj
      simp [touched, Cache.setSlot]
    · simp [touched, Cache.setSlot, Function.update_of_ne hj]
  constructor
  all_goals simp only [hslot]
  · exact h.unique
  · exact h.data_eq
  · exact h.dirty_lt
  · exact h.dirty_settled
  · exact h.clean_settled
  · exact h.absent

theorem replaced_slot_self (c : Cache β) (disk : Nat → β) (b i : Nat) :
    (replaced c disk b i).slots i = ⟨disk (sector b), b, false, c.age⟩ := by
  simp [replaced, Cache.setSlot]

theorem replaced_slot_of_ne (c : Cache β) (disk : Nat → β) (b : Nat) {i j : Nat} (hj : j ≠ i) :
    (replaced c disk b i).slots j = c.slots j := by
  simp [replaced, Cache.setSlot, Function.update_of_ne hj]

theorem coherent_replaced (h : Coherent c visible settled)
    (habsent : ∀ k < cacheSize, (c.slots k).blockid ≠ b) (hi : i < cacheSize) :
    Coherent (replaced c (flushed c i) b i)
      (Function.update visible (c.slots i).blockid (settled (c.slots i).blockid)) settled := by
  set old := (c.slots i).blockid with hold
  have hvisible : ∀ k < cacheSize, k ≠ i → (c.slots k).blockid < maxBlockNum →
      Function.update visible old (settled old) (c.slots k).blockid
        = visible (c.slots k).blockid := by
    intro k hk hki hid
    rw [Function.update_of_ne]
    exact fun heq => hki (h.unique k hk i hi hid heq)
  have hdisk : b < maxBlockNum → flushed c i (sector b) = settled b := by
    intro hb
    rw [h.flushed_sector_of_ne hi hb (habsent i hi)]
    exact (h.absent b hb habsent).1
  refine ⟨?_, ?_, ?_, ?_, ?_, ?_⟩
  · intro k hk j hj hid heq
    by_cases hki : k = i <;> by_cases hji : j = i
    · rw [hki, hji]
    · subst hki
      rw [replaced_slot_self, replaced_slot_of_ne _ _ _ hji] at heq
      exact absurd heq.symm (habsent j hj)
    · subst hji
      rw [replaced_slot_self, replaced_slot_of_ne _ _ _ hki] at heq
      exact absurd heq (habsent k hk)
    · rw [replaced_slot_of_ne _ _ _ hki, replaced_slot_of_ne _ _ _ hji] at heq
      rw [replaced_slot_of_ne _ _ _ hki] at hid
      exact h.unique k hk j hj hid heq
  · intro k hk hid
    by_cases hki : k = i
    · subst hki
      rw [replaced_slot_self] at hid ⊢
      simp only [hdisk hid]
      rw [Function.update_of_ne (habsent k hk).symm]
      exact (h.absent b hid habsent).2.symm
    · rw [replaced_slot_of_ne _ _ _ hki] at hid ⊢
      rw [hvisible k hk hki hid]
      exact h.data_eq k hk hid
  · intro k hk hd
    by_cases hki : k = i
    · subst hki
      rw [replaced_slot_self] at hd
      cases hd
    · rw [replaced_slot_of_ne _ _ _ hki] at hd ⊢
      exact h.dirty_lt k hk hd
  · intro k hk hd
    by_cases hki : k = i
    · subst hki
      rw [replaced_slot_self] at hd
      cases hd
    · rw [replaced_slot_of_ne _ _ _ hki] at hd ⊢
      rw [hvisible k hk hki (h.dirty_lt k hk hd)]
      exact h.dirty_settled k hk hd
  · intro k hk hid hd
    by_cases hki : k = i
    · subst hki
      rw [replaced_slot_self] at hid ⊢
      exact hdisk hid
    · rw [replaced_slot_of_ne _ _ _ hki] at hid hd ⊢
      change flushed c i (sector (c.slots k).blockid) = _
      rw [h.flushed_sector_of_ne hi hid fun heq => hki (h.unique k hk i hi hid heq.symm)]
      exact h.clean_settled k hk hid hd
  · intro b' hb' habsent'
    change flushed c i (sector b') = _ ∧ _
    by_cases hold' : b' = old
    · subst hold'
      rw [Function.update_self]
      exact ⟨h.flushed_sector hi hb', rfl⟩
    · have habsent'' : ∀ k < cacheSize, (c.slots k).blockid ≠ b' := by
        intro k hk
        by_cases hki : k = i
        · subst hki
          exact fun heq => hold' heq.symm
        · have := habsent' k hk
          rwa [replaced_slot_of_ne _ _ _ hki] at this
      rw [h.flushed_sector_of_ne hi hb' (Ne.symm hold'), Function.update_of_ne hold']
      exact h.absent b' hb' habsent''

theorem setData_slot_self (c : Cache β) (i : Nat) (d : β) :
    (c.setData i d).slots i = { c.slots i with data := d } := by
  simp [Cache.setData, Cache.setSlot]

theorem setData_slot_of_ne (c : Cache β) (d : β) {i j : Nat} (hj : j ≠ i) :
    (c.setData i d).slots j = c.slots j := by
  simp [Cache.setData, Cache.setSlot, Function.update_of_ne hj]

/-- Writing through `data` changes the visible contents; it changes the
settled contents too when the slot is already dirty. -/
theorem coherent_setData (h : Coherent c visible settled) (hi : i < cacheSize)
    (hid : (c.slots i).blockid = b) (hb : b < maxBlockNum) (d : β) :
    Coherent (c.setData i d) (Function.update visible b d)
      (if (c.slots i).dirty then Function.update settled b d else settled) := by
  subst hid
  have hother : ∀ k < cacheSize, k ≠ i → (c.slots k).blockid < maxBlockNum →
      (c.slots k).blockid ≠ (c.slots i).blockid :=
    fun k hk hki hid heq => hki (h.unique k hk i hi hid heq)
  have hslot : ∀ k, ((c.setData i d).slots k).blockid = (c.slots k).blockid ∧
      ((c.setData i d).slots k).dirty = (c.slots k).dirty := by
    intro k
    by_cases hki : k = i
    · subst hki
      simp [setData_slot_self]
    · simp [setData_slot_of_ne c d hki]
  have hsettled : ∀ b' ≠ (c.slots i).blockid,
      (if (c.slots i).dirty then Function.update settled (c.slots i).blockid d else settled) b'
        = settled b' := by
    intro b' hb'
    split
    next => rw [Function.update_of_ne hb']
    next => rfl
  constructor
  all_goals simp only [hslot]
  · exact h.unique
  · intro k hk hid
    by_cases hki : k = i
    · subst hki
      rw [setData_slot_self, Function.update_self]
    · rw [setData_slot_of_ne c d hki, Function.update_of_ne (hother k hk hki hid)]
      exact h.data_eq k hk hid
  · exact h.dirty_lt
  · intro k hk hd
    by_cases hki : k = i
    · subst hki
      rw [if_pos hd, Function.update_self, Function.update_self]
    · have hne := hother k hk hki (h.dirty_lt k hk hd)
      rw [hsettled _ hne, Function.update_of_ne hne]
      exact h.dirty_settled k hk hd
  · intro k hk hid hd
    by_cases hki : k = i
    · subst hki
      rw [if_neg (by simp [hd])]
      exact h.clean_settled k hk hid hd
    · rw [hsettled _ (hother k hk hki hid)]
      exact h.clean_settled k hk hid hd
  · intro b' hb' habsent
    have hne : b' ≠ (c.slots i).blockid := (habsent i hi).symm
    rw [hsettled _ hne, Function.update_of_ne hne]
    exact h.absent b' hb' habsent

theorem coherent_setData_stray (h : Coherent c visible settled)
    (hid : maxBlockNum ≤ (c.slots i).blockid) (d : β) :
    Coherent (c.setData i d) visible settled := by
  have hslot : ∀ k, ((c.setData i d).slots k).blockid = (c.slots k).blockid ∧
      ((c.setData i d).slots k).dirty = (c.slots k).dirty := by
    intro k
    by_cases hki : k = i
    · subst hki
      simp [setData_slot_self]
    · simp [setData_slot_of_ne c d hki]
  constructor
  all_goals simp only [hslot]
  · exact h.unique
  · intro k hk hlt
    rw [setData_slot_of_ne c d (by rintro rfl; omega)]
    exact h.data_eq k hk hlt
  · exact h.dirty_lt
  · exact h.dirty_settled
  · exact h.clean_settled
  · exact h.absent

/-- The state after the data of slot `i` went to the disk. -/
def writtenOut (c : Cache β) (i : Nat) : Cache β :=
  { c with disk := Function.update c.disk (sector (c.slots i).blockid) (c.slots i).data }

theorem coherent_writtenOut (h : Coherent c visible settled) (hi : i < cacheSize)
    (hid : (c.slots i).blockid = b) (hb : b < maxBlockNum) :
    Coherent (writtenOut c i) visible (Function.update settled b (visible b)) := by
  subst hid
  have hother : ∀ k < cacheSize, k ≠ i → (c.slots k).blockid < maxBlockNum →
      (c.slots k).blockid ≠ (c.slots i).blockid :=
    fun k hk hki hid heq => hki (h.unique k hk i hi hid heq)
  refine ⟨h.unique, h.data_eq, h.dirty_lt, ?_, ?_, ?_⟩
  · intro k hk hd
    by_cases hki : k = i
    · subst hki
      exact Function.update_self ..
    · exact (Function.update_of_ne (hother k hk hki (h.dirty_lt k hk hd)) _ _).trans
        (h.dirty_settled k hk hd)
  · intro k hk hid hd
    by_cases hki : k = i
    · subst hki
      simp only [writtenOut, Function.update_self]
      exact h.data_eq k hk hid
    · have hne := hother k hk hki hid
      have hsector := mt (sector_inj (b := (c.slots k).blockid) hid hb).mp hne
      exact (Function.update_of_ne hsector _ _).trans
        ((h.clean_settled k hk hid hd).trans (Function.update_of_ne hne _ _).symm)
  · intro b' hb' habsent
    have hne : b' ≠ (c.slots i).blockid := (habsent i hi).symm
    have hsector := mt (sector_inj hb' hb).mp hne
    simp only [writtenOut, Function.update_of_ne hsector, Function.update_of_ne hne]
    exact h.absent b' hb' habsent

/-- The state after a write to `cache_dirty[i]`. -/
def marked (c : Cache β) (i : Nat) (dirty : Bool) : Cache β :=
  c.setSlot i { c.slots i with dirty := dirty }

theorem marked_slot_self (c : Cache β) (i : Nat) (dirty : Bool) :
    (marked c i dirty).slots i = { c.slots i with dirty := dirty } := by
  simp [marked, Cache.setSlot]

theorem marked_slot_of_ne (c : Cache β) (dirty : Bool) {i j : Nat} (hj : j ≠ i) :
    (marked c i dirty).slots j = c.slots j := by
  simp [marked, Cache.setSlot, Function.update_of_ne hj]

theorem marked_slot (c : Cache β) (i : Nat) (dirty : Bool) (k : Nat) :
    ((marked c i dirty).slots k).blockid = (c.slots k).blockid ∧
      ((marked c i dirty).slots k).data = (c.slots k).data ∧
      ((marked c i dirty).slots k).age = (c.slots k).age := by
  by_cases hki : k = i
  · subst hki
    simp [marked_slot_self]
  · simp [marked_slot_of_ne c dirty hki]

theorem coherent_marked_dirty (h : Coherent c visible settled) (hi : i < cacheSize)
    (hid : (c.slots i).blockid = b) (hb : b < maxBlockNum) :
    Coherent (marked c i true) visible (Function.update settled b (visible b)) := by
  subst hid
  have hother : ∀ k < cacheSize, k ≠ i → (c.slots k).blockid < maxBlockNum →
      (c.slots k).blockid ≠ (c.slots i).blockid :=
    fun k hk hki hid heq => hki (h.unique k hk i hi hid heq)
  constructor
  all_goals simp only [marked_slot]
  · exact h.unique
  · exact h.data_eq
  · intro k hk hd
    by_cases hki : k = i
    · subst hki
      exact hb
    · rw [marked_slot_of_ne c _ hki] at hd
      exact h.dirty_lt k hk hd
  · intro k hk hd
    by_cases hki : k = i
    · subst hki
      rw [Function.update_self]
    · rw [marked_slot_of_ne c _ hki] at hd
      rw [Function.update_of_ne (hother k hk hki (h.dirty_lt k hk hd))]
      exact h.dirty_settled k hk hd
  · intro k hk hid hd
    by_cases hki : k = i
    · subst hki
      rw [marked_slot_self] at hd
      cases hd
    · rw [marked_slot_of_ne c _ hki] at hd
      rw [Function.update_of_ne (hother k hk hki hid)]
      exact h.clean_settled k hk hid hd
  · intro b' hb' habsent
    rw [Function.update_of_ne (habsent i hi).symm]
    exact h.absent b' hb' habsent

theorem coherent_marked_clean (h : Coherent c visible settled)
    (hdisk : c.disk (sector (c.slots i).blockid) = settled (c.slots i).blockid) :
    Coherent (marked c i false) visible settled := by
  have hdirty : ∀ k, ((marked c i false).slots k).dirty = true → (c.slots k).dirty = true := by
    intro k hd
    by_cases hki : k = i
    · subst hki
      rw [marked_slot_self] at hd
      cases hd
    · rwa [marked_slot_of_ne c _ hki] at hd
  constructor
  all_goals simp only [marked_slot]
  · exact h.unique
  · exact h.data_eq
  · exact fun k hk hd => h.dirty_lt k hk (hdirty k hd)
  · exact fun k hk hd => h.dirty_settled k hk (hdirty k hd)
  · intro k hk hid hd
    by_cases hki : k = i
    · subst hki
      exact hdisk
    · rw [marked_slot_of_ne c _ hki] at hd
      exact h.clean_settled k hk hid hd
  · exact h.absent

theorem update_eq (hb : (c.slots i).blockid < maxBlockNum) :
    update c i = some (if c.policyWritethrough then writtenOut c i else marked c i true) := by
  cases hpolicy : c.policyWritethrough
  · simp [update, hpolicy, marked]
  · simp [update, hpolicy, writtenOut, writeBlockDirect, sector_lt hb]

theorem coherent_update (h : Coherent c visible settled) (hi : i < cacheSize)
    (hid : (c.slots i).blockid = b) (hb : b < maxBlockNum) :
    Coherent (if c.policyWritethrough then writtenOut c i else marked c i true)
      visible (Function.update settled b (visible b)) := by
  split
  next => exact coherent_writtenOut h hi hid hb
  next => exact coherent_marked_dirty h hi hid hb

/-- What a block can show while nothing is written to its sector: the data of
its slot, the data of a dirty slot with the same sector once that was
flushed, and what is on the disk. -/
inductive MayShow (c : Cache β) (x : Nat) : β → Prop
  | held (k : Nat) (hk : k < cacheSize) (hid : (c.slots k).blockid = x) :
      MayShow c x (c.slots k).data
  | flush (k : Nat) (hk : k < cacheSize) (hd : (c.slots k).dirty = true)
      (hsector : sector (c.slots k).blockid = sector x) : MayShow c x (c.slots k).data
  | disk (hclean : ∀ k < cacheSize, (c.slots k).blockid = x → (c.slots k).dirty = false) :
      MayShow c x (c.disk (sector x))

/-- What `cache_writeback` leaves alone: everything but the disk and the
dirty marks, and what the blocks can show. -/
structure SameBlocks (c c' : Cache β) : Prop where
  age : c'.age = c.age
  policyWritethrough : c'.policyWritethrough = c.policyWritethrough
  slot : ∀ i, (c'.slots i).blockid = (c.slots i).blockid ∧
    (c'.slots i).data = (c.slots i).data ∧ (c'.slots i).age = (c.slots i).age
  mayShow : ∀ x d, MayShow c' x d → MayShow c x d

theorem SameBlocks.refl (c : Cache β) : SameBlocks c c :=
  ⟨rfl, rfl, fun _ => ⟨rfl, rfl, rfl⟩, fun _ _ hd => hd⟩

theorem SameBlocks.trans {c'' : Cache β} (h : SameBlocks c c') (h' : SameBlocks c' c'') :
    SameBlocks c c'' where
  age := h'.age.trans h.age
  policyWritethrough := h'.policyWritethrough.trans h.policyWritethrough
  slot i := ⟨(h'.slot i).1.trans (h.slot i).1, (h'.slot i).2.1.trans (h.slot i).2.1,
    (h'.slot i).2.2.trans (h.slot i).2.2⟩
  mayShow x d hd := h.mayShow x d (h'.mayShow x d hd)

theorem sameBlocks_cleaned (hi : i < cacheSize) (hd : (c.slots i).dirty = true) :
    SameBlocks c (marked (writtenOut c i) i false) := by
  have hslot := marked_slot (writtenOut c i) i false
  have hdirty : ∀ k, ((marked (writtenOut c i) i false).slots k).dirty = true →
      (c.slots k).dirty = true := by
    intro k hk
    rcases eq_or_ne k i with rfl | hne
    · exact hd
    · rwa [marked_slot_of_ne _ _ hne] at hk
  refine ⟨rfl, rfl, hslot, fun x d hshow => ?_⟩
  cases hshow with
  | held k hk hid =>
      rw [(hslot k).2.1]
      exact .held k hk ((hslot k).1 ▸ hid)
  | flush k hk hkd hsector =>
      rw [(hslot k).2.1]
      exact .flush k hk (hdirty k hkd) ((hslot k).1 ▸ hsector)
  | disk hclean =>
      change MayShow c x (Function.update c.disk (sector (c.slots i).blockid) (c.slots i).data
        (sector x))
      by_cases hsector : sector (c.slots i).blockid = sector x
      · rw [hsector, Function.update_self]
        exact .flush i hi hd hsector
      · rw [Function.update_of_ne (Ne.symm hsector)]
        refine .disk fun k hk hid => ?_
        have hne : k ≠ i := by
          rintro rfl
          exact hsector (congrArg sector hid)
        have := hclean k hk ((hslot k).1.trans hid)
        rwa [marked_slot_of_ne _ _ hne] at this

theorem writebackFrom_succ (h : Coherent c visible settled) (left : Nat) {start : Nat}
    (hstart : start < cacheSize) :
    ∃ middle, writebackFrom c (left + 1) start = writebackFrom middle left (start + 1) ∧
      Coherent middle visible settled ∧ SameBlocks c middle ∧
      (middle.slots start).dirty = false ∧
      ∀ k ≠ start, (middle.slots k).dirty = (c.slots k).dirty := by
  by_cases hd : (c.slots start).dirty = true
  · have hb := h.dirty_lt start hstart hd
    refine ⟨marked (writtenOut c start) start false, ?_, ?_, sameBlocks_cleaned hstart hd, ?_, ?_⟩
    · simp only [writebackFrom, hd, if_true, writeBlockDirect, if_pos (sector_lt hb),
        Option.bind_some]
      rfl
    · have hout := coherent_writtenOut h hstart rfl hb
      rw [← h.dirty_settled start hstart hd, Function.update_eq_self] at hout
      refine coherent_marked_clean hout ?_
      simp only [writtenOut, Function.update_self]
      rw [h.data_eq start hstart hb, h.dirty_settled start hstart hd]
    · rw [marked_slot_self]
    · intro k hk
      rw [marked_slot_of_ne _ _ hk]
      rfl
  · refine ⟨c, by simp only [writebackFrom, if_neg hd], h, .refl c,
      Bool.not_eq_true _ ▸ hd, fun _ _ => rfl⟩

theorem writebackFrom_spec {left start : Nat} (h : Coherent c visible settled)
    (hleft : start + left = cacheSize) :
    ∃ c', writebackFrom c left start = some c' ∧ Coherent c' visible settled ∧
      SameBlocks c c' ∧ (∀ i < start, (c'.slots i).dirty = (c.slots i).dirty) ∧
      ∀ i < cacheSize, start ≤ i → (c'.slots i).dirty = false := by
  induction left generalizing c start with
  | zero =>
      exact ⟨c, rfl, h, .refl c, fun _ _ => rfl,
        fun k hk hle => absurd hk (by omega)⟩
  | succ left ih =>
      obtain ⟨middle, hround, hmiddle, hsame, hclean, hothers⟩ :=
        writebackFrom_succ h left (show start < cacheSize by omega)
      obtain ⟨c', hrun, hc', hsame', hbefore, hafter⟩ :=
        ih hmiddle (show start + 1 + left = cacheSize by omega)
      refine ⟨c', hround.trans hrun, hc', hsame.trans hsame', ?_, ?_⟩
      · intro k hk
        rw [hbefore k (by omega), hothers k (by omega)]
      · intro k hk hle
        rcases Nat.eq_or_lt_of_le hle with rfl | hlt
        · rw [hbefore _ (by omega), hclean]
        · exact hafter k hk hlt

theorem cacheWriteback_spec (h : Coherent c visible settled) :
    ∃ c', cacheWriteback c = some c' ∧ Coherent c' visible settled ∧ SameBlocks c c' ∧
      ∀ i < cacheSize, (c'.slots i).dirty = false := by
  obtain ⟨c', hrun, hc', hsame, -, hafter⟩ :=
    writebackFrom_spec h (show 0 + cacheSize = cacheSize by omega)
  exact ⟨c', hrun, hc', hsame, fun k hk => hafter k hk (Nat.zero_le _)⟩

/-- Right after `cache_init` every block shows the contents of the disk. -/
theorem coherent_cacheInit (c : Cache β) :
    Coherent (cacheInit c) (fun b => c.disk (sector b)) fun b => c.disk (sector b) where
  unique _ _ _ _ hid := absurd rfl (ne_freeId hid)
  data_eq _ _ hid := absurd rfl (ne_freeId hid)
  dirty_lt _ _ hd := by cases hd
  dirty_settled _ _ hd := by cases hd
  clean_settled _ _ _ _ := rfl
  absent _ _ _ := ⟨rfl, rfl⟩

end LabKernel.CacheCoherence
