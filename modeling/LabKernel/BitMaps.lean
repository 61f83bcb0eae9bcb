import LabKernel.Formatting

/-!
The bit maps of a formatted disk while numbers are taken and given back: the
hint at the first free number never hides a free one, the super block counts
what is taken, and block 0 holds a copy of it.
-/

namespace LabKernel.BitMaps

open LabKernel.BlockCache
open LabKernel.BlockFreeing
open LabKernel.BlockObject
open LabKernel.BlockOwnership
open LabKernel.ByteMemory
open LabKernel.CallSafety
open LabKernel.DirectData
open LabKernel.Formatting
open LabKernel.FsCode
open LabKernel.FsLayout
open LabKernel.FsPrimitives
open LabKernel.FsRuns
open LabKernel.FsTables
open LabKernel.ProgramLogic
open LabKernel.TransitionSystem

/-- The numbers taken from a map. -/
def taken (used : Nat → Bool) (size : Nat) : Finset Nat :=
  (Finset.range size).filter fun n => used n = true

/-- What the super block knows about a map.  The search starts at the block
with the hint, so all numbers in the blocks before that one are taken. -/
structure Tally (used : Nat → Bool) (size : Nat) (freeMin allocated : UInt32) : Prop where
  freeMin : ∀ n < freeMin.toNat / 32768 * 32768, n < size → used n = true
  allocated : allocated.toNat = (taken used size).card

variable {used : Nat → Bool} {size : Nat} {n freeMin allocated : UInt32}

theorem mem_taken {k : Nat} : k ∈ taken used size ↔ k < size ∧ used k = true := by
  rw [taken, Finset.mem_filter, Finset.mem_range]

theorem card_taken_le (used : Nat → Bool) (size : Nat) : (taken used size).card ≤ size :=
  (Finset.card_filter_le _ _).trans_eq (Finset.card_range size)

theorem taken_update_true {k : Nat} (hk : k < size) :
    taken (Function.update used k true) size = insert k (taken used size) := by
  ext x
  rw [Finset.mem_insert, mem_taken, mem_taken, Function.update_apply]
  split
  next heq => simp only [heq, hk, and_self, true_or]
  next hne => simp only [hne, false_or]

theorem taken_update_false (k : Nat) :
    taken (Function.update used k false) size = (taken used size).erase k := by
  ext x
  rw [Finset.mem_erase, mem_taken, mem_taken, Function.update_apply]
  split
  next heq => simp only [heq, Bool.false_eq_true, and_false, ne_eq, not_true_eq_false, false_and]
  next hne => simp only [hne, ne_eq, not_false_eq_true, true_and]

theorem Tally.take (h : Tally used size freeMin allocated) (hsize : size < 2 ^ 32)
    (hn : n.toNat < size) (hfree : used n.toNat = false) (hleast : ∀ k < n.toNat, used k = true) :
    Tally (Function.update used n.toNat true) size (n + 1) (allocated + 1) := by
  have hnot : n.toNat ∉ taken used size := fun hmem => by
    rw [(mem_taken.mp hmem).2] at hfree
    cases hfree
  have hcard : (taken (Function.update used n.toNat true) size).card =
      (taken used size).card + 1 := by
    rw [taken_update_true hn, Finset.card_insert_of_notMem hnot]
  have hle := card_taken_le (Function.update used n.toNat true) size
  refine ⟨fun k hk _ => ?_, ?_⟩
  · have hlt : k < n.toNat + 1 := by
      rw [UInt32.toNat_add, show (1 : UInt32).toNat = 1 from rfl, Nat.mod_eq_of_lt (by omega)] at hk
      omega
    rw [Function.update_apply]
    split
    next => rfl
    next hne => exact hleast k (by omega)
  · rw [UInt32.toNat_add, h.allocated, show (1 : UInt32).toNat = 1 from rfl,
      Nat.mod_eq_of_lt (by omega), hcard]

theorem Tally.give (h : Tally used size freeMin allocated) (hsize : size < 2 ^ 32)
    (hn : n.toNat < size) (hused : used n.toNat = true) :
    Tally (Function.update used n.toNat false) size (if n < freeMin then n else freeMin)
      (allocated - 1) := by
  have hmem : n.toNat ∈ taken used size := mem_taken.mpr ⟨hn, hused⟩
  have hpos := Finset.card_pos.mpr ⟨_, hmem⟩
  refine ⟨fun k hk hlt => ?_, ?_⟩
  · have hbelow : k < freeMin.toNat / 32768 * 32768 ∧ k ≠ n.toNat := by
      split at hk
      next hless =>
        rw [UInt32.lt_iff_toNat_lt] at hless
        omega
      next hnot =>
        rw [UInt32.lt_iff_toNat_lt] at hnot
        omega
    rw [Function.update_of_ne hbelow.2]
    exact h.freeMin k hbelow.1 hlt
  · have hle := card_taken_le used size
    rw [UInt32.toNat_sub, h.allocated, show (1 : UInt32).toNat = 1 from rfl, taken_update_false,
      Finset.card_erase_of_mem hmem]
    omega

theorem bit_of_and_one_shiftLeft_ne {d : Bytes} {j k : Nat} (hk : k < 8)
    (hne : d j &&& 1 <<< UInt8.ofNat k ≠ 0) : bit d (8 * j + k) = true := by
  rw [bit_of_and_ne_zero hk]
  exact decide_eq_true hne

theorem bit_of_eq_ones {d : Bytes} {j k : Nat} (hk : k < 8) (hj : d j = 0xff) :
    bit d (8 * j + k) = true := by
  have hall : ∀ k < 8, (0xff : UInt8).toNat.testBit k = true := by decide
  rw [bit, show (8 * j + k) / 8 = j by omega, show (8 * j + k) % 8 = k by omega, hj]
  exact hall k hk

/-- The bits of a byte before the one that was found are set, and all of them
if none was. -/
theorem findClearBit_before {byte : UInt8} {left start k : Nat} (hstart : start ≤ k)
    (hk : ∀ k', findClearBit byte left start = some k' → k < k') (hlt : k < start + left) :
    byte &&& 1 <<< UInt8.ofNat k ≠ 0 := by
  induction left generalizing start with
  | zero => omega
  | succ left ih =>
      simp only [findClearBit] at hk
      split at hk
      next => exact absurd (hk start rfl) (not_lt.mpr hstart)
      next hne =>
        rcases eq_or_ne k start with rfl | hkne
        · exact hne
        · exact ih (by omega) hk (by omega)

theorem findClear_before {data : Bytes} {left start b : Nat} (hstart : 8 * start ≤ b)
    (hb : ∀ j k, findClear data left start = some (j, k) → b < 8 * j + k)
    (hlt : b < 8 * (start + left)) : bit data b = true := by
  induction left generalizing start with
  | zero => omega
  | succ left ih =>
      have hsplit : b = 8 * (b / 8) + b % 8 := by omega
      simp only [findClear] at hb
      rcases eq_or_ne (b / 8) start with hj | hj
      · rw [hsplit, hj]
        split at hb
        next =>
          refine bit_of_and_one_shiftLeft_ne (by omega) ?_
          refine findClearBit_before (Nat.zero_le _) (fun k' hfind => ?_)
            (show b % 8 < 0 + 8 by omega)
          have := hb start k' (by rw [hfind])
          omega
        next heq => exact bit_of_eq_ones (by omega) (not_not.mp heq)
      · refine ih (show 8 * (start + 1) ≤ b by omega) (fun j k hfind => ?_) (by omega)
        split at hb
        next =>
          split at hb
          next k' hbit =>
            have := hb start k' rfl
            have := findClearBit_eq_some hbit
            omega
          next => exact hb j k hfind
        next => exact hb j k hfind

variable {m m' : Machine Bytes Globals} {s s' : FsState} {T : Finset Nat}
  {E : Failure → Machine Bytes Globals → Prop}

/-- Block 0 holds the super block in memory. -/
def Copied (m : Machine Bytes Globals) : Prop :=
  ∀ i < superBlockSize, visible m 0 i = m.globals.superblock.toBytes i

theorem flushSuperblock_copied (h : Tracked m) (hT : T.card ≤ cacheSize) (h0 : 0 ∈ T) :
    Runs flushSuperblock m E fun _ m' => Copied m' ∧ m'.globals = m.globals := by
  refine (h.runs_openBlock hT h0 fun hsector => absurd (by decide) hsector).bind ?_
  rintro block m₁ ⟨hid, hfresh, htracks₁, hg₁⟩
  refine runs_getSuperblock.bind ?_
  rintro sb m₁ ⟨rfl, rfl⟩
  refine (htracks₁.tracked.runs_load hfresh).bind ?_
  rintro data m₁ ⟨rfl, rfl⟩
  refine (htracks₁.tracked.runs_store hfresh _).bind ?_
  rintro _ m₂ ⟨htracks₂, hv₂, hg₂⟩
  refine (htracks₂.tracked.runs_update (htracks₂.fresh _ hfresh)).mono (fun _ _ he => he) ?_
  rintro _ m₃ ⟨-, hv₃, -, hg₃⟩
  rw [hid] at hv₂ hv₃
  refine ⟨fun i hi => ?_, by rw [hg₃, hg₂, hg₁]⟩
  rw [hv₃, hv₂, hg₃, hg₂, copy_inside (Nat.zero_le i) (by omega), Nat.zero_add, Nat.sub_zero]

/-- The bit of a number in the map that starts at block `start`. -/
def mapBit (m : Machine Bytes Globals) (start b : Nat) : Bool :=
  bit (visible m (start + b / 32768)) (b % 32768)

theorem allocLoop_least {mapStart : UInt32} {noSpace : Failure}
    {account : UInt32 → SuperBlock → SuperBlock} {left i : Nat} (h : Sound m)
    (hT : T.card ≤ cacheSize) (h0 : 0 ∈ T)
    (hmem : ∀ i', i ≤ i' → i' < i + left → mapStart.toNat + i' < maxBlockNum ∧
      mapStart.toNat + i' ∈ T ∧ Settled m (mapStart.toNat + i')) :
    Runs (allocLoop mapStart noSpace account left i) m
      (fun _ _ => ∀ b, i * 32768 ≤ b → b < (i + left) * 32768 →
        mapBit m mapStart.toNat b = true)
      fun n m' => Copied m' ∧ n.toNat < (i + left) * 32768 ∧
        ∀ b, i * 32768 ≤ b → b < n.toNat → mapBit m mapStart.toNat b = true := by
  have hbits : bitsPerBlock = 32768 := by decide
  have hblock : blockSize = 4096 := rfl
  induction left generalizing i m with
  | zero => exact runs_fail fun b hb hb' => by omega
  | succ left ih =>
      obtain ⟨hlt, hfirst, hs⟩ := hmem i (le_refl _) (by omega)
      have hsmall : (mapStart + UInt32.ofNat i).toNat = mapStart.toNat + i := by
        rw [maxBlockNum_eq] at hlt
        exact toNat_add_ofNat (by omega)
      simp only [allocLoop, hsmall]
      refine runs_open_load h hT hfirst (fun hle => absurd hle (not_le.mpr hlt))
        fun block m₁ hid hfresh hev hg => ?_
      rw [hev.visible_of_settled hlt (Set.notMem_empty _) hs]
      -- The numbers of this block that come before the one that is found.
      have hbefore : ∀ b, b / 32768 = i → (∀ j k, findClear (visible m (mapStart.toNat + i))
          blockSize 0 = some (j, k) → b % 32768 < 8 * j + k) →
          mapBit m mapStart.toNat b = true := by
        intro b hb hfind
        rw [mapBit, hb]
        exact findClear_before (Nat.zero_le _) hfind (by omega)
      split
      next j k hfind =>
        refine runs_store_update hev.sound hfresh (hid ▸ hlt) fun m₂ hev₂ _ _ _ => ?_
        refine (runs_modifyGlobals hev₂.sound _ (T := T)).bind ?_
        rintro _ m₃ ⟨hev₃, -, -, -⟩
        refine (flushSuperblock_copied hev₃.tracked hT h0).bind ?_
        rintro _ m₄ ⟨hcopied, -⟩
        have hle : (UInt32.ofNat (i * bitsPerBlock + j * 8 + k)).toNat ≤ i * 32768 + j * 8 + k := by
          rw [hbits, UInt32.toNat_ofNat']
          exact Nat.mod_le _ _
        have := findClear_eq_some hfind
        refine runs_pure ⟨hcopied, by omega, fun b hb hb' => ?_⟩
        refine hbefore b (by omega) fun j' k' hfind' => ?_
        rw [hfind] at hfind'
        cases hfind'
        omega
      next hnone =>
        have hkeep : ∀ b, (i + 1) * 32768 ≤ b → b < (i + 1 + left) * 32768 →
            mapBit m₁ mapStart.toNat b = mapBit m mapStart.toNat b := by
          intro b hb hb'
          obtain ⟨hlt', -, hs'⟩ := hmem (b / 32768) (by omega) (by omega)
          rw [mapBit, mapBit, hev.visible_of_settled hlt' (Set.notMem_empty _) hs']
        have hhere : ∀ b, i * 32768 ≤ b → b < (i + 1) * 32768 →
            mapBit m mapStart.toNat b = true := by
          intro b hb hb'
          refine hbefore b (by omega) fun j k hfind => ?_
          rw [hnone] at hfind
          cases hfind
        have hsum : i + (left + 1) = i + 1 + left := by omega
        rw [hsum]
        refine (ih hev.sound fun i' hi hi' => ?_).mono ?_ ?_
        · obtain ⟨hlt', hmem', hs'⟩ := hmem i' (by omega) (by omega)
          exact ⟨hlt', hmem', hev.settled_of_settled hlt' (Set.notMem_empty _) hs'⟩
        · intro _ _ hall b hb hb'
          rcases Nat.lt_or_ge b ((i + 1) * 32768) with hnear | hfar
          · exact hhere b hb hnear
          · rw [← hkeep b hfar hb']
            exact hall b hfar hb'
        · rintro n m' ⟨hcopied, hn, hall⟩
          refine ⟨hcopied, hn, fun b hb hb' => ?_⟩
          rcases Nat.lt_or_ge b ((i + 1) * 32768) with hnear | hfar
          · exact hhere b hb hnear
          · rw [← hkeep b hfar (hb'.trans hn)]
            exact hall b hfar hb'

/-- The super block knows how much of the tables is taken. -/
structure Tallied (sb : SuperBlock) (s : FsState) : Prop where
  blocks : Tally s.blockUsed maxBlockNum sb.blockFreeMin sb.blockAllocated
  inodes : Tally s.inodeUsed maxInodeNum sb.inodeFreeMin sb.inodeAllocated

theorem blockAlloc_least (h : Realizes m s) (ht : Tallied m.globals.superblock s) :
    Runs blockAlloc m (fun _ _ => ∀ b < maxBlockNum, s.blockUsed b = true) fun n m' =>
      Copied m' ∧ ∀ b < n.toNat, b < maxBlockNum → s.blockUsed b = true := by
  have hbits : bitsPerBlock = 32768 := by decide
  have hstart : (2 : UInt32).toNat = 2 := rfl
  have hmax := maxBlockNum_eq
  refine runs_getSuperblock.bind ?_
  rintro sb m ⟨rfl, rfl⟩
  simp only [h.ready.layout.blockMapStartBlock, h.ready.layout.blockMapSize, hbits,
    show (98304 : UInt32).toNat / 32768 = 3 by decide]
  have hhint := ht.blocks.freeMin
  set first := m.globals.superblock.blockFreeMin.toNat / 32768
  have hbit : ∀ b < maxBlockNum, mapBit m (2 : UInt32).toNat b = s.blockUsed b := h.blockUsed
  refine (allocLoop_least h.ready.sound (T := blockMapArea) (by decide) (by decide) ?_).mono ?_ ?_
  · intro i hi hi'
    rw [hstart]
    have hcases : i = 0 ∨ i = 1 ∨ i = 2 := by omega
    refine ⟨by omega, ?_, h.settled _ (by omega)⟩
    rcases hcases with rfl | rfl | rfl <;> decide
  · intro _ _ hall b hb
    rcases Nat.lt_or_ge b (first * 32768) with hbelow | habove
    · exact hhint b hbelow hb
    · rw [← hbit b hb]
      exact hall b habove (by omega)
  · rintro n m' ⟨hcopied, hn, hall⟩
    refine ⟨hcopied, fun b hb hlt => ?_⟩
    rcases Nat.lt_or_ge b (first * 32768) with hbelow | habove
    · exact hhint b hbelow hlt
    · rw [← hbit b hlt]
      exact hall b habove hb

theorem inodeAlloc_least (h : Realizes m s) (ht : Tallied m.globals.superblock s) :
    Runs inodeAlloc m (fun _ _ => ∀ k < maxInodeNum, s.inodeUsed k = true) fun n m' =>
      Copied m' ∧ ∀ k < n.toNat, k < maxInodeNum → s.inodeUsed k = true := by
  have hbits : bitsPerBlock = 32768 := by decide
  have hstart : (1 : UInt32).toNat = 1 := rfl
  have hmax := maxInodeNum_eq
  refine runs_getSuperblock.bind ?_
  rintro sb m ⟨rfl, rfl⟩
  simp only [h.ready.layout.inodeMapStartBlock, h.ready.layout.inodeMapSize, hbits,
    show (32768 : UInt32).toNat / 32768 = 1 by decide]
  have hhint := ht.inodes.freeMin
  set first := m.globals.superblock.inodeFreeMin.toNat / 32768
  have hbit : ∀ k < maxInodeNum, mapBit m (1 : UInt32).toNat k = s.inodeUsed k := by
    intro k hk
    rw [hmax] at hk
    rw [← h.inodeUsed k (by omega), mapBit, inodeBit, hstart, Nat.div_eq_of_lt hk,
      Nat.mod_eq_of_lt hk]
  refine (allocLoop_least h.ready.sound (T := inodeMapArea) (by decide) (by decide) ?_).mono ?_ ?_
  · intro i hi hi'
    rw [hstart, show i = 0 by omega]
    exact ⟨by decide, by decide, h.settled 1 (by omega)⟩
  · intro _ _ hall k hk
    rcases Nat.lt_or_ge k (first * 32768) with hbelow | habove
    · exact hhint k hbelow hk
    · rw [← hbit k hk]
      exact hall k habove (by omega)
  · rintro n m' ⟨hcopied, -, hall⟩
    refine ⟨hcopied, fun k hk hlt => ?_⟩
    rcases Nat.lt_or_ge k (first * 32768) with hbelow | habove
    · exact hhint k hbelow hlt
    · rw [← hbit k hlt]
      exact hall k habove hk

/-- A machine with its tables between two calls. -/
structure Accounted (m : Machine Bytes Globals) (s : FsState) : Prop where
  realizes : Realizes m s
  tallied : Tallied m.globals.superblock s
  copied : Copied m

theorem blockAlloc_accounted (h : Realizes m s) (ht : Tallied m.globals.superblock s) :
    Runs blockAlloc m (fun e _ => e = .noBlock ∧ ∀ b < maxBlockNum, s.blockUsed b = true)
      fun n m' => n.toNat < maxBlockNum ∧ s.blockUsed n.toNat = false ∧
        (∀ b < n.toNat, s.blockUsed b = true) ∧
        m'.globals.superblock = countBlock n m.globals.superblock ∧
        Accounted m' (s.setBlockUsed n.toNat true) := by
  have hsub := Finset.Subset.refl blockMapArea
  refine (((blockAlloc_realizes h (by decide) hsub).and (runs_blockAlloc h.ready (by decide)
    hsub)).and (blockAlloc_least h ht)).mono ?_ ?_
  · rintro e m' ⟨⟨-, he, -⟩, hall⟩
    exact ⟨he, hall⟩
  · rintro n m' ⟨⟨⟨hn, hfree, h', -⟩, -, -, -, hg⟩, hcopied, hleast⟩
    have hleast' : ∀ b < n.toNat, s.blockUsed b = true := fun b hb => hleast b hb (hb.trans hn)
    have hsb : m'.globals.superblock = countBlock n m.globals.superblock := by rw [hg]
    refine ⟨hn, hfree, hleast', hsb, h', ?_, hcopied⟩
    rw [hsb]
    exact ⟨ht.blocks.take (by decide) hn hfree hleast', ht.inodes⟩

theorem inodeAlloc_accounted (h : Realizes m s) (ht : Tallied m.globals.superblock s) :
    Runs inodeAlloc m (fun e _ => e = .noInode ∧ ∀ k < maxInodeNum, s.inodeUsed k = true)
      fun n m' => n.toNat < maxInodeNum ∧ s.inodeUsed n.toNat = false ∧
        (∀ k < n.toNat, s.inodeUsed k = true) ∧
        Accounted m' (s.setInodeUsed n.toNat true) := by
  have hsub := Finset.Subset.refl inodeMapArea
  refine (((inodeAlloc_realizes h).and (runs_inodeAlloc h.ready (by decide) hsub)).and
    (inodeAlloc_least h ht)).mono ?_ ?_
  · rintro e m' ⟨⟨-, he, -⟩, hall⟩
    exact ⟨he, hall⟩
  · rintro n m' ⟨⟨⟨hn, hfree, h'⟩, -, -, -, hg⟩, hcopied, hleast⟩
    have hleast' : ∀ k < n.toNat, s.inodeUsed k = true := fun k hk => hleast k hk (hk.trans hn)
    refine ⟨hn, hfree, hleast', h', ?_, hcopied⟩
    rw [hg]
    exact ⟨ht.blocks, ht.inodes.take (by decide) hn hfree hleast'⟩

theorem freeNumber_copied {mapStart number : UInt32} {limit : Nat}
    {account : UInt32 → SuperBlock → SuperBlock} (h : Tracked m) :
    Runs (freeNumber mapStart limit account number) m Any fun _ m' => Copied m' := by
  unfold freeNumber
  refine runs_bind (runs_assert (fun _ => trivial) fun _ => ?_)
  extract_lets i j k
  have hcard : ({0, (mapStart + UInt32.ofNat i).toNat} : Finset Nat).card ≤ cacheSize :=
    Finset.card_le_two.trans (by decide)
  refine h.runs_open_load hcard (Finset.mem_insert_of_mem (Finset.mem_singleton_self _))
    (fun _ => trivial) fun block _ m₁ _ _ hfresh htracks₁ _ => ?_
  refine runs_bind (runs_assert (fun _ => trivial) fun _ => ?_)
  refine htracks₁.tracked.runs_store_update hfresh fun m₂ htracks₂ _ _ => ?_
  refine (htracks₂.tracked.runs_modifyGlobals _
    (T := {0, (mapStart + UInt32.ofNat i).toNat})).bind ?_
  rintro _ m₃ ⟨htracks₃, -⟩
  exact (flushSuperblock_copied htracks₃.tracked hcard (Finset.mem_insert_self _ _)).mono
    (fun _ _ he => he) fun _ _ hq => hq.1

theorem blockFree_accounted (h : Accounted m s) (hn : n.toNat < maxBlockNum)
    (hused : s.blockUsed n.toNat = true) :
    Runs (blockFree n) m (fun _ _ => False) fun _ m' =>
      Accounted m' (s.setBlockUsed n.toNat false) := by
  have hsub := Finset.Subset.refl blockMapArea
  have hcopied : Runs (blockFree n) m Any fun _ m' => Copied m' := by
    refine runs_getSuperblock.bind ?_
    rintro sb m ⟨rfl, rfl⟩
    exact freeNumber_copied h.realizes.ready.sound.toTracked
  refine (((blockFree_realizes (E := fun _ _ => False) h.realizes (by decide) hsub hn hused).and
    (runs_blockFree h.realizes.ready (by decide) hsub)).and hcopied).mono
    (fun _ _ he => he.1.1) ?_
  rintro _ m' ⟨⟨⟨h', -⟩, -, -, -, hg⟩, hcopied⟩
  refine ⟨h', ?_, hcopied⟩
  rw [hg]
  exact ⟨h.tallied.blocks.give (by decide) hn hused, h.tallied.inodes⟩

theorem inodeFree_accounted (h : Accounted m s) (hn : n.toNat < maxInodeNum)
    (hused : s.inodeUsed n.toNat = true) :
    Runs (inodeFree n) m (fun _ _ => False) fun _ m' =>
      Accounted m' (s.setInodeUsed n.toNat false) := by
  have hsub := Finset.Subset.refl inodeMapArea
  have hcopied : Runs (inodeFree n) m Any fun _ m' => Copied m' := by
    refine runs_getSuperblock.bind ?_
    rintro sb m ⟨rfl, rfl⟩
    exact freeNumber_copied h.realizes.ready.sound.toTracked
  refine (((inodeFree_realizes (E := fun _ _ => False) h.realizes hn hused).and
    (runs_inodeFree h.realizes.ready (by decide) hsub)).and hcopied).mono
    (fun _ _ he => he.1.1) ?_
  rintro _ m' ⟨⟨h', -, -, -, hg⟩, hcopied⟩
  refine ⟨h', ?_, hcopied⟩
  rw [hg]
  exact ⟨h.tallied.blocks, h.tallied.inodes.give (by decide) hn hused⟩

theorem Copied.of_visible (h : Copied m) (hv : visible m' 0 = visible m 0)
    (hg : m'.globals = m.globals) : Copied m' := by
  intro i hi
  rw [hv, hg]
  exact h i hi

theorem Accounted.write {T' : Finset Nat} {x : Nat} (h : Accounted m s) (hx : 517 ≤ x)
    (hev : Evolves T T' {x} m m') (hg : m'.globals = m.globals) :
    Accounted m' (s.setData x none) := by
  have hzero : (0 : Nat) ∉ ({x} : Set Nat) := by
    rintro rfl
    omega
  refine ⟨h.realizes.write hx hev hg (by rintro d ⟨⟩), ?_, ?_⟩
  · rw [hg]
    exact ⟨h.tallied.blocks, h.tallied.inodes⟩
  · exact h.copied.of_visible
      (hev.visible_of_settled (by decide) hzero (h.realizes.settled 0 (by omega))) hg

theorem firstTransfer_accounted {buffer : Bytes} (h : Accounted m s) (htables : TablesUsed s) :
    Runs (inodeModifyData true emptyRoot buffer 0 (UInt32.ofNat (2 * dirEntrySize))) m Any
      fun _ m' => ∃ (n : UInt32) (s' : FsState), s.blockUsed n.toNat = false ∧
        (∀ b < n.toNat, s.blockUsed b = true) ∧ Accounted m' s' ∧
        s'.blockUsed = Function.update s.blockUsed n.toNat true ∧ s'.inodeUsed = s.inodeUsed := by
  unfold inodeModifyData
  refine runs_bind (runs_assert (fun _ => trivial) fun _ => ?_)
  extract_lets grows inode o
  rw [dif_pos (show o < l0Bound by decide)]
  extract_lets i
  have hpointer : inode.dataDirect i = 0 := rfl
  rw [hpointer, inodeModifyDataRecur, openPointer, if_pos rfl]
  refine Runs.bind (Q := fun _ m' => ∃ (n : UInt32) (s' : FsState), s.blockUsed n.toNat = false ∧
    (∀ b < n.toNat, s.blockUsed b = true) ∧ Accounted m' s' ∧
    s'.blockUsed = Function.update s.blockUsed n.toNat true ∧ s'.inodeUsed = s.inodeUsed) ?_
    fun _ _ hq => runs_pure hq
  refine Runs.bind (Q := fun r m' => Accounted m' ((s.setBlockUsed r.1.toNat true).setData
    r.1.toNat none) ∧ s.blockUsed r.1.toNat = false ∧ (∀ b < r.1.toNat, s.blockUsed b = true) ∧
    IsData r.1 ∧ r.2.2.blockid = r.1.toNat ∧ Fresh {r.1.toNat} m' r.2.2) ?_ ?_
  · refine ((blockAlloc_accounted h.realizes h.tallied).mono
      (fun e m' _ => show Any e m' from trivial) fun _ _ hq => hq).bind ?_
    rintro n m₁ ⟨hn, hfree, hleast, -, h₁⟩
    have hdata : 517 ≤ n.toNat := by
      by_contra hlt
      rw [htables _ (not_le.mp hlt)] at hfree
      cases hfree
    refine Runs.bind (runs_pure (Q := fun _ m' => m' = m₁) rfl) ?_
    rintro _ _ rfl
    refine (runs_openBlock h₁.realizes.ready.sound (T := {n.toNat}) (by simp [cacheSize])
      (Finset.mem_singleton_self _) fun hle => absurd hle (not_le.mpr hn)).bind ?_
    rintro block m₂ ⟨hid, hfresh, hev₂, hg₂⟩
    refine (runs_store hev₂.sound hfresh zeros).bind ?_
    rintro _ m₃ ⟨hev₃, -, hg₃⟩
    rw [hid] at hev₃
    exact runs_pure ⟨h₁.write hdata ((hev₂.mono (Set.empty_subset _)).trans hev₃) (hg₃.trans hg₂),
      hfree, hleast, ⟨hdata, hn⟩, hid, hev₃.fresh _ hfresh⟩
  · rintro ⟨n, new, block⟩ m₁ ⟨h₁, hfree, hleast, ⟨hdata, hlt⟩, hid, hfresh⟩
    simp only at h₁ hfree hleast hdata hlt hid hfresh
    refine Runs.bind (Q := fun _ m' => Accounted m' (((s.setBlockUsed n.toNat true).setData
      n.toNat none).setData n.toNat none)) ?_ fun _ _ hq =>
      runs_pure ⟨n, _, hfree, hleast, hq, rfl, rfl⟩
    refine Runs.bind (runs_pure (Q := fun _ m' => m' = m₁) rfl) ?_
    rintro _ _ rfl
    refine (runs_load h₁.realizes.ready.sound hfresh).bind ?_
    rintro _ m₁ ⟨rfl, rfl⟩
    refine runs_store_update h₁.realizes.ready.sound hfresh (hid ▸ hlt) fun m₂ hev₂ _ _ hg₂ => ?_
    rw [hid] at hev₂
    exact runs_pure (h₁.write hdata hev₂ hg₂)

theorem writeInode_accounted {ino : UInt32} {inode : Inode} (h : Accounted m s)
    (hino : ino.toNat < maxInodeNum) :
    Runs (writeInode ino inode) m E fun _ m' => Accounted m' (s.setInode ino.toNat inode) := by
  have hmax : 517 < maxBlockNum := by decide
  have hlt := inodeBlock_lt hino
  refine ((writeInode_realizes (E := E) h.realizes hino).and (runs_writeInode (E := E)
    h.realizes.ready (T := {5 + ino.toNat / 64}) (by simp [cacheSize])
    (Finset.mem_singleton_self _) fun hle => absurd hle (by omega))).mono (fun _ _ he => he.1) ?_
  rintro _ m' ⟨h', hev, hg, -⟩
  have hzero : (0 : Nat) ∉ ({5 + ino.toNat / 64} : Set Nat) := by
    simp only [Set.mem_singleton_iff]
    omega
  refine ⟨h', ?_, ?_⟩
  · rw [hg]
    exact ⟨h.tallied.blocks, h.tallied.inodes⟩
  · exact h.copied.of_visible
      (hev.visible_of_settled (by decide) hzero (h.realizes.settled 0 (by omega))) hg

/-- The tables of a new file system: the root directory has inode 0 and the
first data block. -/
structure New (s : FsState) : Prop where
  blockUsed : ∀ b, s.blockUsed b = decide (b ≤ 517)
  inodeUsed : ∀ k, s.inodeUsed k = decide (k = 0)

theorem makeRoot_accounted (h : Realizes m s) (ht : Tallied m.globals.superblock s)
    (hblocks : ∀ b, s.blockUsed b = decide (b < 517)) (hinodes : ∀ k, s.inodeUsed k = false) :
    Runs makeRoot m Any fun _ m' => ∃ s', Accounted m' s' ∧ New s' := by
  have halloc : Runs inodeAlloc m Any fun ino m' =>
      ino = 0 ∧ Accounted m' (s.setInodeUsed 0 true) := by
    refine (inodeAlloc_accounted h ht).mono (fun _ _ _ => trivial) ?_
    rintro ino m' ⟨-, -, hleast, h'⟩
    have hzero : ino = 0 := by
      refine UInt32.toNat_inj.mp (Nat.eq_zero_of_not_pos fun hpos => ?_)
      have hused := hleast 0 hpos
      rw [hinodes 0] at hused
      cases hused
    rw [hzero] at h'
    exact ⟨hzero, h'⟩
  refine halloc.bind ?_
  rintro root m₁ ⟨rfl, h₁⟩
  refine (runs_modifyGlobals h₁.realizes.ready.sound _ (T := ∅)).bind ?_
  rintro _ m₂ ⟨hev₂, -, -, hg₂⟩
  refine (runs_modifyGlobals hev₂.sound _ (T := ∅)).bind ?_
  rintro _ m₃ ⟨hev₃, -, -, hg₃⟩
  have hg : m₃.globals = { m₁.globals with
      superblock := { m₁.globals.superblock with rootInode := 0 }, cwdNode := 0 } := by
    rw [hg₃, hg₂]
  set s₀ : FsState := { s.setInodeUsed 0 true with cwd := 0 } with hs₀
  have h₃ : Realizes m₃ s₀ := by
    have hlayout := h₁.realizes.ready.layout
    refine h₁.realizes.evolves (hev₂.trans hev₃) ⟨hev₃.sound, ?_⟩ ?_ ?_ ?_ rfl
    · rw [hg]
      exact ⟨hlayout.1, hlayout.2, hlayout.3, hlayout.4, hlayout.5, hlayout.6⟩
    · rw [hg]
    · rw [hg]
      exact h₁.realizes.files
    · rw [hg]
      exact ⟨h₁.realizes.counted.blocks, h₁.realizes.counted.inodes⟩
  have ht₃ : Tallied m₃.globals.superblock s₀ := by
    rw [hg]
    exact ⟨h₁.tallied.blocks, h₁.tallied.inodes⟩
  refine ((flushSuperblock_realizes (E := Any) h₃).and (flushSuperblock_copied (E := Any)
    h₃.ready.sound.toTracked (T := {0}) (by decide) (by decide))).mono (fun _ _ he => he.1)
    (fun _ _ hq => hq) |>.bind ?_
  rintro _ m₄ ⟨h₄, hcopied, hg₄⟩
  have haccounted : Accounted m₄ s₀ := ⟨h₄, by rw [hg₄]; exact ht₃, hcopied⟩
  have htables : TablesUsed s₀ := fun x hx => (hblocks x).trans (decide_eq_true hx)
  refine (firstTransfer_accounted haccounted htables).bind ?_
  rintro ⟨inode, _, _⟩ m₅ ⟨n, s₅, hfree, hleast, h₅, hused, hinodes₅⟩
  refine (writeInode_accounted h₅ (by decide)).bind ?_
  intro _ m₆ h₆
  -- The first free block is the one after the tables.
  have hn : n.toNat = 517 := by
    have hge := of_decide_eq_false ((hblocks n.toNat).symm.trans hfree)
    by_contra hne
    have hlt := of_decide_eq_true ((hblocks 517).symm.trans (hleast 517 (by omega)))
    omega
  refine runs_pure ⟨_, h₆, fun b => ?_, fun k => ?_⟩
  · rw [FsState.setInode_blockUsed, hused, hn, Function.update_apply]
    split
    next heq => rw [heq, decide_eq_true (le_refl _)]
    next hne =>
      refine (hblocks b).trans ?_
      rw [decide_eq_decide]
      omega
  · rw [FsState.setInode_inodeUsed, hinodes₅]
    show Function.update s.inodeUsed 0 true k = _
    rw [Function.update_apply]
    split
    next heq => rw [decide_eq_true heq]
    next hne => rw [decide_eq_false hne, hinodes]

theorem tally_cleared {size : Nat} (first freeMin : UInt32)
    (hfirst : first.toNat ≤ size) (hfreeMin : freeMin.toNat < 32768) :
    Tally (fun n => decide (n < first.toNat)) size freeMin first := by
  refine ⟨fun n hn _ => ?_, ?_⟩
  · rw [Nat.div_eq_of_lt hfreeMin] at hn
    omega
  · have heq : taken (fun n => decide (n < first.toNat)) size = Finset.range first.toNat := by
      ext n
      rw [mem_taken, Finset.mem_range, decide_eq_true_eq]
      omega
    rw [heq, Finset.card_range]

theorem formatted_accounted (h : Formatted m) : ∃ s, Accounted m s ∧ New s := by
  obtain ⟨c, g, hage, hrun⟩ := h
  have hmkfs : Runs fsMkfs (boot c g) Any fun _ m' => ∃ s, Accounted m' s ∧ New s := by
    refine runs_fsMkfs (tablesSettled_boot g hage) fun m' h' _ hg => ?_
    refine makeRoot_accounted h' ?_ (fun _ => rfl) fun _ => rfl
    rw [hg]
    exact ⟨tally_cleared 517 518 (by decide) (by decide), tally_cleared 0 0 (by decide) (by decide)⟩
  exact hmkfs.ok hrun

/-- The machine and the numbers returned so far that were not given back. -/
structure State where
  machine : Machine Bytes Globals
  blocks : Finset Nat
  inodes : Finset Nat

inductive Action where
  | blockAlloc
  | inodeAlloc
  | blockFree (blockid : UInt32)
  | inodeFree (ino : UInt32)
  deriving DecidableEq

/-- The state after the call returned; `none` if an assertion failed, and for
a number that is not there to be given back. -/
def next (s : State) : Action → Option State
  | .blockAlloc =>
      match blockAlloc.run s.machine with
      | (.ok n, m) => some { s with machine := m, blocks := insert n.toNat s.blocks }
      | (.error _, _) => none
  | .inodeAlloc =>
      match inodeAlloc.run s.machine with
      | (.ok n, m) => some { s with machine := m, inodes := insert n.toNat s.inodes }
      | (.error _, _) => none
  | .blockFree n =>
      if n.toNat ∈ s.blocks then
        match (blockFree n).run s.machine with
        | (.ok _, m) => some { s with machine := m, blocks := s.blocks.erase n.toNat }
        | (.error _, _) => none
      else none
  | .inodeFree n =>
      if n.toNat ∈ s.inodes then
        match (inodeFree n).run s.machine with
        | (.ok _, m) => some { s with machine := m, inodes := s.inodes.erase n.toNat }
        | (.error _, _) => none
      else none

/-- `fs_mkfs` has taken the first inode and the first data block. -/
def begun (m : Machine Bytes Globals) : State := ⟨m, {517}, {0}⟩

/-- Runs that start with `fs_mkfs`, on whatever disk. -/
def system : System State Action := ofFunction (fun s => ∃ m, Formatted m ∧ s = begun m) next

/-- What holds between the calls. -/
structure Inv (s : State) (f : FsState) : Prop where
  accounted : Accounted s.machine f
  blocks : ∀ b, f.blockUsed b = true ↔ b < 517 ∨ b ∈ s.blocks
  blocks_lt : ∀ b ∈ s.blocks, 517 ≤ b ∧ b < maxBlockNum
  inodes : ∀ k, f.inodeUsed k = true ↔ k ∈ s.inodes
  inodes_lt : ∀ k ∈ s.inodes, k < maxInodeNum

theorem inv_begun (h : Formatted m) : ∃ f, Inv (begun m) f := by
  obtain ⟨f, haccounted, hnew⟩ := formatted_accounted h
  refine ⟨f, haccounted, fun b => ?_, fun b hb => ?_, fun k => ?_, fun k hk => ?_⟩
  · rw [hnew.blockUsed, decide_eq_true_eq, begun, Finset.mem_singleton]
    omega
  · rw [Finset.mem_singleton.mp hb]
    decide
  · rw [hnew.inodeUsed, decide_eq_true_eq, begun, Finset.mem_singleton]
  · rw [Finset.mem_singleton.mp hk]
    decide

variable {st st' : State} {f : FsState}

theorem update_true_iff {used : Nat → Bool} {a b : Nat} :
    Function.update used a true b = true ↔ b = a ∨ used b = true := by
  rw [Function.update_apply]
  split
  next heq => simp only [heq, true_or]
  next hne => simp only [hne, false_or]

theorem update_false_iff {used : Nat → Bool} {a b : Nat} :
    Function.update used a false b = true ↔ b ≠ a ∧ used b = true := by
  rw [Function.update_apply]
  split
  next heq => simp only [heq, Bool.false_eq_true, ne_eq, not_true_eq_false, false_and]
  next hne => simp only [hne, ne_eq, not_false_eq_true, true_and]

theorem Inv.blockAlloc (h : Inv st f) (hn : n.toNat < maxBlockNum)
    (hfree : f.blockUsed n.toNat = false) (h' : Accounted m (f.setBlockUsed n.toNat true)) :
    Inv { st with machine := m, blocks := insert n.toNat st.blocks }
      (f.setBlockUsed n.toNat true) := by
  refine ⟨h', fun b => ?_, fun b hb => ?_, h.inodes, h.inodes_lt⟩
  · rw [FsState.setBlockUsed_blockUsed, update_true_iff, h.blocks b, Finset.mem_insert]
    exact or_left_comm
  · rcases Finset.mem_insert.mp hb with rfl | hb
    · refine ⟨?_, hn⟩
      by_contra hlt
      rw [(h.blocks n.toNat).mpr (Or.inl (not_le.mp hlt))] at hfree
      cases hfree
    · exact h.blocks_lt b hb

theorem Inv.inodeAlloc (h : Inv st f) (hn : n.toNat < maxInodeNum)
    (h' : Accounted m (f.setInodeUsed n.toNat true)) :
    Inv { st with machine := m, inodes := insert n.toNat st.inodes }
      (f.setInodeUsed n.toNat true) := by
  refine ⟨h', h.blocks, h.blocks_lt, fun k => ?_, fun k hk => ?_⟩
  · rw [FsState.setInodeUsed_inodeUsed, update_true_iff, h.inodes k, Finset.mem_insert]
  · rcases Finset.mem_insert.mp hk with rfl | hk
    · exact hn
    · exact h.inodes_lt k hk

theorem Inv.blockFree (h : Inv st f) (hn : n.toNat ∈ st.blocks)
    (h' : Accounted m (f.setBlockUsed n.toNat false)) :
    Inv { st with machine := m, blocks := st.blocks.erase n.toNat }
      (f.setBlockUsed n.toNat false) := by
  refine ⟨h', fun b => ?_, fun b hb => h.blocks_lt b (Finset.mem_of_mem_erase hb), h.inodes,
    h.inodes_lt⟩
  have hge := (h.blocks_lt n.toNat hn).1
  rw [FsState.setBlockUsed_blockUsed, update_false_iff, h.blocks b, Finset.mem_erase]
  constructor
  · rintro ⟨hne, hlt | hb⟩
    · exact Or.inl hlt
    · exact Or.inr ⟨hne, hb⟩
  · rintro (hlt | ⟨hne, hb⟩)
    · exact ⟨by omega, Or.inl hlt⟩
    · exact ⟨hne, Or.inr hb⟩

theorem Inv.inodeFree (h : Inv st f) (h' : Accounted m (f.setInodeUsed n.toNat false)) :
    Inv { st with machine := m, inodes := st.inodes.erase n.toNat }
      (f.setInodeUsed n.toNat false) := by
  refine ⟨h', h.blocks, h.blocks_lt, fun k => ?_, fun k hk =>
    h.inodes_lt k (Finset.mem_of_mem_erase hk)⟩
  rw [FsState.setInodeUsed_inodeUsed, update_false_iff, h.inodes k, Finset.mem_erase]

theorem inv_step {a : Action} (h : ∃ f, Inv st f) (hstep : next st a = some st') :
    ∃ f, Inv st' f := by
  obtain ⟨f, h⟩ := h
  have haccounted := h.accounted
  cases a with
  | blockAlloc =>
      simp only [next] at hstep
      split at hstep
      next n m hrun =>
        obtain rfl := Option.some.inj hstep
        obtain ⟨hn, hfree, -, -, h'⟩ :=
          (blockAlloc_accounted haccounted.realizes haccounted.tallied).ok hrun
        exact ⟨_, h.blockAlloc hn hfree h'⟩
      next => cases hstep
  | inodeAlloc =>
      simp only [next] at hstep
      split at hstep
      next n m hrun =>
        obtain rfl := Option.some.inj hstep
        obtain ⟨hn, -, -, h'⟩ :=
          (inodeAlloc_accounted haccounted.realizes haccounted.tallied).ok hrun
        exact ⟨_, h.inodeAlloc hn h'⟩
      next => cases hstep
  | blockFree n =>
      simp only [next] at hstep
      split at hstep
      next hmem =>
        split at hstep
        next m hrun =>
          obtain rfl := Option.some.inj hstep
          have h' := (blockFree_accounted haccounted (h.blocks_lt _ hmem).2
            ((h.blocks _).mpr (Or.inr hmem))).ok hrun
          exact ⟨_, h.blockFree hmem h'⟩
        next => cases hstep
      next => cases hstep
  | inodeFree n =>
      simp only [next] at hstep
      split at hstep
      next hmem =>
        split at hstep
        next m hrun =>
          obtain rfl := Option.some.inj hstep
          have h' := (inodeFree_accounted haccounted (h.inodes_lt _ hmem)
            ((h.inodes _).mpr hmem)).ok hrun
          exact ⟨_, h.inodeFree h'⟩
        next => cases hstep
      next => cases hstep

theorem inv_of_reachable (h : Reachable system st) : ∃ f, Inv st f := by
  refine ReachableUnder.invariant (P := fun st => ∃ f, Inv st f) ?_
    (fun _ _ _ hinv _ hstep => inv_step hinv hstep) h
  rintro _ ⟨m, hm, rfl⟩
  exact inv_begun hm

def freeBlocks (m : Machine Bytes Globals) : Set Nat :=
  {b | b < maxBlockNum ∧ blockBit m b = false}

def freeInodes (m : Machine Bytes Globals) : Set Nat :=
  {k | k < maxInodeNum ∧ inodeBit m k = false}

/-- The super block agrees with the maps, and each of the functions does what
it is for when it is called next. -/
structure Consistent (s : State) : Prop where
  blockAllocated : s.machine.globals.superblock.blockAllocated.toNat =
    (taken (blockBit s.machine) maxBlockNum).card
  inodeAllocated : s.machine.globals.superblock.inodeAllocated.toNat =
    (taken (inodeBit s.machine) maxInodeNum).card
  copied : ∀ i < superBlockSize, visible s.machine 0 i = s.machine.globals.superblock.toBytes i ∧
    settled s.machine 0 i = s.machine.globals.superblock.toBytes i
  blockAlloc : Runs blockAlloc s.machine
    (fun e _ => e = .noBlock ∧ ∀ b < maxBlockNum, blockBit s.machine b = true)
    fun n _ => IsLeast (freeBlocks s.machine) n.toNat ∧
      s.machine.globals.superblock.blockStartBlock ≤ n ∧ n.toNat ∉ s.blocks
  inodeAlloc : Runs inodeAlloc s.machine
    (fun e _ => e = .noInode ∧ ∀ k < maxInodeNum, inodeBit s.machine k = true)
    fun n _ => IsLeast (freeInodes s.machine) n.toNat ∧ n.toNat ∉ s.inodes
  blockFree : ∀ n : UInt32, n.toNat ∈ s.blocks →
    Runs (blockFree n) s.machine (fun _ _ => False) fun _ _ => True
  inodeFree : ∀ n : UInt32, n.toNat ∈ s.inodes →
    Runs (inodeFree n) s.machine (fun _ _ => False) fun _ _ => True

theorem taken_congr {used' : Nat → Bool} (h : ∀ b < size, used b = used' b) :
    taken used size = taken used' size := by
  ext b
  rw [mem_taken, mem_taken]
  exact and_congr_right fun hb => by rw [h b hb]

theorem isLeast_of_before {bits : Nat → Bool} {a : Nat} (ha : a < size) (hfree : used a = false)
    (hbefore : ∀ b < a, used b = true) (hbits : ∀ b < size, bits b = used b) :
    IsLeast {b | b < size ∧ bits b = false} a := by
  refine ⟨⟨ha, (hbits a ha).trans hfree⟩, fun b hb => ?_⟩
  by_contra hlt
  have hset := (hbits b hb.1).trans (hbefore b (not_le.mp hlt))
  rw [hb.2] at hset
  cases hset

theorem consistent_of_inv (h : Inv st f) : Consistent st := by
  have haccounted := h.accounted
  have hrealizes := haccounted.realizes
  refine ⟨?_, ?_, fun i hi => ?_, ?_, ?_, fun n hn => ?_, fun n hn => ?_⟩
  · rw [taken_congr hrealizes.blockUsed]
    exact haccounted.tallied.blocks.allocated
  · rw [taken_congr hrealizes.inodeUsed]
    exact haccounted.tallied.inodes.allocated
  · rw [← hrealizes.settled 0 (by omega), and_self]
    exact haccounted.copied i hi
  · refine (blockAlloc_accounted hrealizes haccounted.tallied).mono ?_ ?_
    · rintro e _ ⟨he, hall⟩
      exact ⟨he, fun b hb => (hrealizes.blockUsed b hb).trans (hall b hb)⟩
    · rintro n m ⟨hn, hfree, hleast, -⟩
      have hnot : ¬(n.toNat < 517 ∨ n.toNat ∈ st.blocks) := fun hmem => by
        rw [(h.blocks _).mpr hmem] at hfree
        cases hfree
      refine ⟨isLeast_of_before hn hfree hleast hrealizes.blockUsed, ?_, fun hmem =>
        hnot (Or.inr hmem)⟩
      rw [hrealizes.ready.layout.blockStartBlock, UInt32.le_iff_toNat_le]
      exact not_lt.mp fun hlt => hnot (Or.inl hlt)
  · refine (inodeAlloc_accounted hrealizes haccounted.tallied).mono ?_ ?_
    · rintro e _ ⟨he, hall⟩
      exact ⟨he, fun k hk => (hrealizes.inodeUsed k hk).trans (hall k hk)⟩
    · rintro n m ⟨hn, hfree, hleast, -⟩
      refine ⟨isLeast_of_before hn hfree hleast hrealizes.inodeUsed, fun hmem => ?_⟩
      rw [(h.inodes _).mpr hmem] at hfree
      cases hfree
  · exact (blockFree_accounted haccounted (h.blocks_lt _ hn).2
      ((h.blocks _).mpr (Or.inr hn))).mono (fun _ _ he => he) fun _ _ _ => trivial
  · exact (inodeFree_accounted haccounted (h.inodes_lt _ hn) ((h.inodes _).mpr hn)).mono
      (fun _ _ he => he) fun _ _ _ => trivial

theorem maps_consistent {s : State} (h : Reachable system s) : Consistent s := by
  obtain ⟨f, hinv⟩ := inv_of_reachable h
  exact consistent_of_inv hinv

/-- The block of the root directory is given back and taken again. -/
def retaken : State :=
  permittedState (fun _ _ => True) next (begun blankFormatted)
    [.blockAlloc, .inodeAlloc, .blockFree 517, .blockAlloc]

theorem retaken_consistent : retaken.blocks = {517, 518} ∧ retaken.inodes = {0, 1} ∧
    Consistent retaken := by
  have hmaps : retaken.blocks = {517, 518} ∧ retaken.inodes = {0, 1} := by
    rw [retaken, blankFormatted_eq]
    decide +kernel
  refine ⟨hmaps.1, hmaps.2, maps_consistent ?_⟩
  exact permittedState_reachableUnder ⟨_, formatted_blankFormatted, rfl⟩ _

end LabKernel.BitMaps
