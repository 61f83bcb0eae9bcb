import LabKernel.CacheCoherence

/-!
The block cache is transparent: a sequence of reads, modifications, timer
flushes and changes of policy behaves as on a plain array of blocks.
-/

namespace LabKernel.CacheTransparency

open LabKernel.BlockCache
open LabKernel.CacheCoherence

variable {β : Type*}

/-- The operations on the cache, each executed without interruption. -/
inductive Op (β : Type*) where
  /-- Construct `Block(b)` and read its data. -/
  | read (b : Nat)
  /-- Construct `Block(b)`, change its data and call `update`. -/
  | modify (b : Nat) (change : β → β)
  | scanTimer (now later : Int)
  | setPolicy (policySeconds : Int)

def Op.Valid : Op β → Prop
  | .read b => b < maxBlockNum
  | .modify b _ => b < maxBlockNum
  | .scanTimer _ _ => True
  | .setPolicy _ => True

/-- One operation on the cache, with the value it returns if it is a read. -/
def step (c : Cache β) : Op β → Option (Cache β × List β)
  | .read b =>
      (cacheFind c b).map fun found => (found.2, [(found.2.slots found.1).data])
  | .modify b change =>
      (cacheFind c b).bind fun found =>
        (update (found.2.setData found.1 (change (found.2.slots found.1).data)) found.1).map
          fun c' => (c', [])
  | .scanTimer now later => (cacheScanTimer c now later).map fun c' => (c', [])
  | .setPolicy policySeconds => (cacheSetPolicy c policySeconds).map fun c' => (c', [])

/-- A sequence of operations, with the values returned by its reads. -/
def run (c : Cache β) : List (Op β) → Option (Cache β × List β)
  | [] => some (c, [])
  | op :: rest =>
      (step c op).bind fun first =>
        (run first.1 rest).map fun last => (last.1, first.2 ++ last.2)

/-- The contents of the blocks after an operation. -/
def Op.apply (contents : Nat → β) : Op β → Nat → β
  | .modify b change => Function.update contents b (change (contents b))
  | _ => contents

/-- What a read operation returns. -/
def Op.result (contents : Nat → β) : Op β → List β
  | .read b => [contents b]
  | _ => []

/-- The contents of the blocks left by a sequence of operations. -/
def contentsAfter (contents : Nat → β) : List (Op β) → Nat → β
  | [] => contents
  | op :: rest => contentsAfter (op.apply contents) rest

/-- The values returned by the reads of a sequence of operations. -/
def results (contents : Nat → β) : List (Op β) → List β
  | [] => []
  | op :: rest => op.result contents ++ results (op.apply contents) rest

/-- The contents of the blocks as the disk has them. -/
def diskContents (c : Cache β) : Nat → β := fun b => c.disk (sector b)

/-- The cache presents the array `contents`; its slots hold blocks of the
disk, and under write-through none of them is dirty. -/
structure Presents (c : Cache β) (contents : Nat → β) : Prop where
  coherent : Coherent c contents contents
  clean : c.policyWritethrough = true → ∀ i < cacheSize, (c.slots i).dirty = false
  held_lt : ∀ i < cacheSize, (c.slots i).blockid ≠ freeId → (c.slots i).blockid < maxBlockNum

variable {c : Cache β} {contents : Nat → β} {b : Nat}

theorem presents_cacheInit (c : Cache β) : Presents (cacheInit c) (diskContents c) :=
  ⟨coherent_cacheInit c, fun _ _ _ => rfl, fun _ _ hid => absurd rfl hid⟩

theorem cacheFind_presents (h : Presents c contents) (hb : b < maxBlockNum) :
    ∃ i c', cacheFind c b = some (i, c') ∧ i < cacheSize ∧ (c'.slots i).blockid = b ∧
      Presents c' contents := by
  rcases cacheFind_cases c b with
    ⟨k, hk, hid, -, hfind⟩ | ⟨habsent, -, k, hk, -, hfind⟩ | ⟨-, hfails⟩
  · have hslot : ∀ j, ((touched c k).slots j).blockid = (c.slots j).blockid ∧
        ((touched c k).slots j).dirty = (c.slots j).dirty := by
      intro j
      by_cases hjk : j = k
      · subst hjk
        simp [touched, Cache.setSlot]
      · simp [touched, Cache.setSlot, Function.update_of_ne hjk]
    refine ⟨k, _, hfind, hk, (hslot k).1.trans hid, coherent_touched h.coherent k, ?_, ?_⟩
    · simp only [hslot]
      exact h.clean
    · simp only [hslot]
      exact h.held_lt
  · refine ⟨k, _, hfind, hk, by rw [replaced_slot_self], ?_, ?_, ?_⟩
    · have hreplaced := coherent_replaced h.coherent habsent hk
      rwa [Function.update_eq_self] at hreplaced
    · intro hpolicy j hj
      by_cases hjk : j = k
      · subst hjk
        rw [replaced_slot_self]
      · rw [replaced_slot_of_ne _ _ _ hjk]
        exact h.clean hpolicy j hj
    · intro j hj hid
      by_cases hjk : j = k
      · subst hjk
        rw [replaced_slot_self]
        exact hb
      · rw [replaced_slot_of_ne _ _ _ hjk] at hid ⊢
        exact h.held_lt j hj hid
  · obtain ⟨k, hk, hd, hfail⟩ := hfails (sector_lt hb)
    exact absurd (sector_lt (h.coherent.dirty_lt k hk hd)) hfail

/-- Changing a block through its slot and calling `update` changes the array
at that block. -/
theorem setData_update_presents {i : Nat} (h : Presents c contents) (hi : i < cacheSize)
    (hid : (c.slots i).blockid = b) (hb : b < maxBlockNum) (d : β) :
    ∃ c', update (c.setData i d) i = some c' ∧
      Presents c' (Function.update contents b d) := by
  have hdata := coherent_setData h.coherent hi hid hb d
  have hid' : ((c.setData i d).slots i).blockid = b := by rw [setData_slot_self]; exact hid
  have hsettled : Function.update
      (if (c.slots i).dirty then Function.update contents b d else contents) b d
        = Function.update contents b d := by
    split
    next => exact Function.update_idem ..
    next => rfl
  have hslot : ∀ j, ((c.setData i d).slots j).blockid = (c.slots j).blockid ∧
      ((c.setData i d).slots j).dirty = (c.slots j).dirty := by
    intro j
    by_cases hji : j = i
    · subst hji
      simp [setData_slot_self]
    · simp [setData_slot_of_ne c d hji]
  refine ⟨_, update_eq (hid'.symm ▸ hb), ?_, ?_, ?_⟩
  · have hupdate := coherent_update hdata hi hid' hb
    rwa [Function.update_self, hsettled] at hupdate
  · split
    next => exact fun hpolicy j hj => (hslot j).2.trans (h.clean hpolicy j hj)
    next hpolicy => exact fun htrue => absurd htrue hpolicy
  · split
    next => exact fun j hj hid => (hslot j).1 ▸ h.held_lt j hj ((hslot j).1 ▸ hid)
    next =>
      simp only [marked_slot, hslot]
      exact h.held_lt

theorem writeback_presents (h : Presents c contents) (through : Bool) (interval last : Int) :
    ∃ c', cacheWriteback
        { c with
          policyWritethrough := through
          policyWritebackInterval := interval
          lastTime := last } = some c' ∧ Presents c' contents := by
  obtain ⟨c', hrun, hc', hsame, hclean⟩ := cacheWriteback_spec
    (c := { c with
      policyWritethrough := through
      policyWritebackInterval := interval
      lastTime := last }) { h.coherent with }
  refine ⟨c', hrun, hc', fun _ => hclean, ?_⟩
  simp only [(hsame.slot _).1]
  exact h.held_lt

theorem scanTimer_presents (h : Presents c contents) (now later : Int) :
    ∃ c', cacheScanTimer c now later = some c' ∧ Presents c' contents := by
  unfold cacheScanTimer
  split
  next => exact ⟨c, rfl, h⟩
  next =>
    split
    next => exact writeback_presents h c.policyWritethrough c.policyWritebackInterval later
    next => exact ⟨c, rfl, h⟩

theorem setPolicy_presents (h : Presents c contents) (policySeconds : Int) :
    ∃ c', cacheSetPolicy c policySeconds = some c' ∧ Presents c' contents := by
  unfold cacheSetPolicy
  split
  next => exact writeback_presents h true 0 c.lastTime
  next =>
    split
    next => exact ⟨_, rfl, { h.coherent with }, fun hpolicy => Bool.noConfusion hpolicy, h.held_lt⟩
    next => exact ⟨c, rfl, h⟩

theorem step_presents (h : Presents c contents) (op : Op β) (hop : op.Valid) :
    ∃ c', step c op = some (c', op.result contents) ∧ Presents c' (op.apply contents) := by
  cases op with
  | read b =>
      obtain ⟨i, c', hfind, hi, hid, hc'⟩ := cacheFind_presents h hop
      refine ⟨c', ?_, hc'⟩
      simp only [step, hfind, Option.map_some, Op.result,
        hc'.coherent.data_eq i hi (hid.symm ▸ hop), hid]
  | modify b change =>
      obtain ⟨i, c', hfind, hi, hid, hc'⟩ := cacheFind_presents h hop
      have hdata := hc'.coherent.data_eq i hi (hid.symm ▸ hop)
      rw [hid] at hdata
      obtain ⟨c'', hupdate, hc''⟩ :=
        setData_update_presents hc' hi hid hop (change (contents b))
      refine ⟨c'', ?_, hc''⟩
      simp only [step, hfind, Option.bind_some, hdata, hupdate, Option.map_some, Op.result]
  | scanTimer now later =>
      obtain ⟨c', hrun, hc'⟩ := scanTimer_presents h now later
      exact ⟨c', by simp only [step, hrun, Option.map_some, Op.result], hc'⟩
  | setPolicy policySeconds =>
      obtain ⟨c', hrun, hc'⟩ := setPolicy_presents h policySeconds
      exact ⟨c', by simp only [step, hrun, Option.map_some, Op.result], hc'⟩

theorem run_presents (h : Presents c contents) (ops : List (Op β)) (hops : ∀ op ∈ ops, op.Valid) :
    ∃ c', run c ops = some (c', results contents ops) ∧
      Presents c' (contentsAfter contents ops) := by
  induction ops generalizing c contents with
  | nil => exact ⟨c, rfl, h⟩
  | cons op rest ih =>
      obtain ⟨middle, hstep, hmiddle⟩ := step_presents h op (hops op (by simp))
      obtain ⟨c', hrun, hc'⟩ := ih hmiddle fun op' hop' => hops op' (by simp [hop'])
      refine ⟨c', ?_, hc'⟩
      simp only [run, hstep, Option.bind_some, hrun, Option.map_some, results]

theorem Presents.disk_eq (h : Presents c contents) (hpolicy : c.policyWritethrough = true)
    (hb : b < maxBlockNum) : c.disk (sector b) = contents b := by
  by_cases hheld : ∃ i < cacheSize, (c.slots i).blockid = b
  · obtain ⟨i, hi, rfl⟩ := hheld
    exact h.coherent.clean_settled i hi hb (h.clean hpolicy i hi)
  · push Not at hheld
    exact (h.coherent.absent b hb hheld).1

/-- No two slots hold the same block. -/
def NoDuplicates (c : Cache β) : Prop :=
  ∀ i < cacheSize, ∀ j < cacheSize, (c.slots i).blockid ≠ freeId →
    (c.slots i).blockid = (c.slots j).blockid → i = j

/-- The slots that hold a block and are not dirty agree with the disk. -/
def CleanSlotsOnDisk (c : Cache β) : Prop :=
  ∀ i < cacheSize, (c.slots i).blockid ≠ freeId → (c.slots i).dirty = false →
    (c.slots i).data = c.disk (sector (c.slots i).blockid)

/-- Every sequence of operations on the cache runs without a failed
assertion, its reads return what they return on the array of blocks, and the
cache is left consistent with the disk. -/
theorem cache_transparent (c : Cache β) (ops : List (Op β)) (hops : ∀ op ∈ ops, op.Valid) :
    ∃ c', run (cacheInit c) ops = some (c', results (diskContents c) ops) ∧
      NoDuplicates c' ∧ CleanSlotsOnDisk c' ∧
      (c'.policyWritethrough = true → ∀ b < maxBlockNum,
        c'.disk (sector b) = contentsAfter (diskContents c) ops b) := by
  obtain ⟨c', hrun, hc'⟩ := run_presents (presents_cacheInit c) ops hops
  refine ⟨c', hrun, fun i hi j hj hid => hc'.coherent.unique i hi j hj (hc'.held_lt i hi hid), ?_,
    fun hpolicy b hb => hc'.disk_eq hpolicy hb⟩
  intro i hi hid hd
  have hlt := hc'.held_lt i hi hid
  rw [hc'.coherent.data_eq i hi hlt, hc'.coherent.clean_settled i hi hlt hd]

/-- A disk whose blocks hold their own first sector, with nothing cached. -/
def numbered : Cache Nat where
  age := 0
  slots := fun _ => ⟨0, 0, false, 0⟩
  policyWritethrough := false
  policyWritebackInterval := 0
  lastTime := 0
  disk := fun sector => sector

theorem cache_transparent_numbered :
    ∃ c', run (cacheInit numbered)
        [.setPolicy 5, .modify 3 (· + 1), .setPolicy (-1), .read 3, .read 4]
        = some (c', [262169, 262176]) ∧
      NoDuplicates c' ∧ CleanSlotsOnDisk c' ∧
      (c'.policyWritethrough = true → ∀ b < maxBlockNum,
        c'.disk (sector b) = contentsAfter (diskContents numbered)
          [.setPolicy 5, .modify 3 (· + 1), .setPolicy (-1), .read 3, .read 4] b) :=
  cache_transparent numbered
    [.setPolicy 5, .modify 3 (· + 1), .setPolicy (-1), .read 3, .read 4]
    (by simp [Op.Valid, maxBlockNum, blockEnd, blockStart, blockSize])

end LabKernel.CacheTransparency
