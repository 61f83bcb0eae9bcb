import Mathlib.Data.Finset.Card
import Mathlib.Data.Finset.Range
import LabKernel.CacheCoherence

/-!
Least-recently-used replacement keeps the blocks that were used recently.

A slot is recent with respect to a set `T` of block ids when it holds a block
of `T` and all the slots used after it hold blocks of `T`.  While only blocks
of `T` are looked up, and `T` has at most as many elements as the cache has
slots, a recent slot is never given to another block.
-/

namespace LabKernel.CacheRecency

open LabKernel.BlockCache
open LabKernel.CacheCoherence

variable {β : Type*} {c : Cache β} {T : Finset Nat} {b i : Nat}

/-- The slots that were used have distinct readings of the counter for their
ages and distinct block ids; the free ones are older than all of them.  The
id of a free slot is past the end of the disk, but its sector number wraps
around like that of any other id, so that a slot can be used for it: one that
was comes before the free slots. -/
structure Aged (c : Cache β) : Prop where
  free : ∀ i < cacheSize, (c.slots i).age < 0 → (c.slots i).blockid = freeId
  young : ∀ i < cacheSize, (c.slots i).age < c.age
  distinct : ∀ i < cacheSize, ∀ j < cacheSize, 0 ≤ (c.slots i).age →
    (c.slots i).age = (c.slots j).age → i = j
  unique : ∀ i < cacheSize, ∀ j < cacheSize, 0 ≤ (c.slots i).age → 0 ≤ (c.slots j).age →
    (c.slots i).blockid = (c.slots j).blockid → i = j
  first : ∀ i < cacheSize, ∀ j < cacheSize, 0 ≤ (c.slots i).age → (c.slots j).age < 0 →
    (c.slots i).blockid = freeId → i < j
  counter : 0 ≤ c.age

/-- Slot `i` holds block `b` of `T` and was followed only by blocks of `T`. -/
structure Recent (T : Finset Nat) (c : Cache β) (i b : Nat) : Prop where
  slot_lt : i < cacheSize
  blockid : (c.slots i).blockid = b
  held : 0 ≤ (c.slots i).age
  mem : b ∈ T
  younger : ∀ j < cacheSize, (c.slots i).age < (c.slots j).age → (c.slots j).blockid ∈ T

theorem touched_slot_self (c : Cache β) (i : Nat) :
    (touched c i).slots i = { c.slots i with age := c.age } := by
  simp [touched, Cache.setSlot]

theorem touched_slot_of_ne (c : Cache β) {i j : Nat} (hj : j ≠ i) :
    (touched c i).slots j = c.slots j := by
  simp [touched, Cache.setSlot, Function.update_of_ne hj]

/-- Giving slot `i` the current age and the block `b` keeps the ages
consistent when no other used slot has that id and no free slot comes before
it. -/
theorem aged_of_newest (h : Aged c) {c' : Cache β} (hage : c'.age = c.age + 1)
    (hself : (c'.slots i).age = c.age) (hid : (c'.slots i).blockid = b)
    (hfirst : ∀ j < cacheSize, j ≠ i → (c.slots j).blockid = b → (c.slots j).age < 0 ∧ i < j)
    (hother : ∀ j ≠ i, c'.slots j = c.slots j) : Aged c' where
  free j hj hfree := by
    have := h.counter
    by_cases hji : j = i
    · subst hji
      omega
    · rw [hother j hji] at hfree ⊢
      exact h.free j hj hfree
  young j hj := by
    by_cases hji : j = i
    · subst hji
      omega
    · rw [hother j hji]
      have := h.young j hj
      omega
  distinct j hj k hk hheld heq := by
    by_cases hji : j = i <;> by_cases hki : k = i
    · rw [hji, hki]
    · subst hji
      rw [hother k hki] at heq
      have := h.young k hk
      omega
    · subst hki
      rw [hother j hji] at heq
      have := h.young j hj
      omega
    · rw [hother j hji] at hheld heq
      rw [hother k hki] at heq
      exact h.distinct j hj k hk hheld heq
  unique j hj k hk hheldj hheldk heq := by
    by_cases hji : j = i <;> by_cases hki : k = i
    · rw [hji, hki]
    · subst hji
      rw [hother k hki] at hheldk heq
      have := (hfirst k hk hki (heq.symm.trans hid)).1
      omega
    · subst hki
      rw [hother j hji] at hheldj heq
      have := (hfirst j hj hji (heq.trans hid)).1
      omega
    · rw [hother j hji] at hheldj heq
      rw [hother k hki] at hheldk heq
      exact h.unique j hj k hk hheldj hheldk heq
  first j hj k hk hheld hfree heq := by
    have := h.counter
    have hki : k ≠ i := by
      rintro rfl
      omega
    rw [hother k hki] at hfree
    by_cases hji : j = i
    · subst hji
      exact (hfirst k hk hki ((h.free k hk hfree).trans (heq.symm.trans hid))).2
    · rw [hother j hji] at hheld heq
      exact h.first j hj k hk hheld hfree heq
  counter := by
    have := h.counter
    omega

theorem aged_touched (h : Aged c) (hi : i < cacheSize)
    (hfirst : ∀ j < i, (c.slots j).blockid ≠ (c.slots i).blockid) : Aged (touched c i) := by
  refine aged_of_newest (i := i) h rfl (by rw [touched_slot_self]) rfl ?_
    fun _ hj => touched_slot_of_ne c hj
  rw [touched_slot_self]
  intro j hj hji hid
  have hlt : i < j := by
    by_contra hle
    exact hfirst j (by omega) hid
  refine ⟨?_, hlt⟩
  by_contra hheld
  by_cases hfree : (c.slots i).age < 0
  · have := h.first j hj i hi (by omega) hfree (hid.trans (h.free i hi hfree))
    omega
  · exact hji (h.unique j hj i hi (by omega) (by omega) hid)

theorem aged_replaced (h : Aged c) (disk : Nat → β)
    (habsent : ∀ k < cacheSize, (c.slots k).blockid ≠ b) : Aged (replaced c disk b i) :=
  aged_of_newest h rfl (by rw [replaced_slot_self]) (by rw [replaced_slot_self])
    (fun j hj _ hid => absurd hid (habsent j hj)) fun _ hj => replaced_slot_of_ne c disk b hj

theorem recent_newest (h : Aged c) {c' : Cache β} (hi : i < cacheSize)
    (hself : (c'.slots i).age = c.age) (hid : (c'.slots i).blockid = b) (hmem : b ∈ T)
    (hother : ∀ j ≠ i, c'.slots j = c.slots j) : Recent T c' i b where
  slot_lt := hi
  blockid := hid
  held := hself ▸ h.counter
  mem := hmem
  younger j hj hyounger := by
    exfalso
    have hji : j ≠ i := by
      rintro rfl
      omega
    rw [hother j hji] at hyounger
    have := h.young j hj
    omega

theorem recent_of_newest {c' : Cache β} {k : Nat} (h : Recent T c i b) (hik : i ≠ k)
    (hmem : (c'.slots k).blockid ∈ T) (hother : ∀ j ≠ k, c'.slots j = c.slots j) :
    Recent T c' i b where
  slot_lt := h.slot_lt
  blockid := by rw [hother i hik]; exact h.blockid
  held := by rw [hother i hik]; exact h.held
  mem := h.mem
  younger j hj hyounger := by
    by_cases hjk : j = k
    · subst hjk
      exact hmem
    · rw [hother i hik, hother j hjk] at hyounger
      rw [hother j hjk]
      exact h.younger j hj hyounger

theorem recent_touched {k : Nat} (h : Recent T c i b) (haged : Aged c) (hk : k < cacheSize)
    (hmem : (c.slots k).blockid ∈ T) : Recent T (touched c k) i b := by
  by_cases hik : i = k
  · subst hik
    exact recent_newest haged hk (by rw [touched_slot_self])
      (by rw [touched_slot_self]; exact h.blockid) h.mem fun _ hj => touched_slot_of_ne c hj
  · refine recent_of_newest h hik ?_ fun _ hj => touched_slot_of_ne c hj
    rw [touched_slot_self]
    exact hmem

/-- The slot with the least age is not recent as long as a block of `T` is
missing from the cache. -/
theorem not_recent_oldest {k x : Nat} (hT : T.card ≤ cacheSize) (haged : Aged c)
    (hoccupied : x ∈ T) (habsent : ∀ j < cacheSize, (c.slots j).blockid ≠ x)
    (holdest : ∀ j < cacheSize, (c.slots k).age ≤ (c.slots j).age) : ¬Recent T c k b := by
  intro h
  have hheld : ∀ j < cacheSize, 0 ≤ (c.slots j).age := fun j hj => h.held.trans (holdest j hj)
  have hall : ∀ j < cacheSize, (c.slots j).blockid ∈ T := by
    intro j hj
    by_cases hjk : j = k
    · subst hjk
      rw [h.blockid]
      exact h.mem
    · refine h.younger j hj (lt_of_le_of_ne (holdest j hj) fun heq => hjk ?_)
      exact (haged.distinct k h.slot_lt j hj h.held heq).symm
  -- The 64 slots hold 64 blocks of `T`, none of which is `x`.
  have hsubset : (Finset.range cacheSize).image (fun j => (c.slots j).blockid) ⊆ T.erase x := by
    intro y hy
    obtain ⟨j, hj, rfl⟩ := Finset.mem_image.mp hy
    have hj' := Finset.mem_range.mp hj
    exact Finset.mem_erase.mpr ⟨habsent j hj', hall j hj'⟩
  have hcard := Finset.card_le_card hsubset
  rw [Finset.card_image_of_injOn, Finset.card_range, Finset.card_erase_of_mem hoccupied] at hcard
  · have : 0 < T.card := Finset.card_pos.mpr ⟨x, hoccupied⟩
    omega
  · intro j hj k hk heq
    have hj' := Finset.mem_range.mp (Finset.mem_coe.mp hj)
    have hk' := Finset.mem_range.mp (Finset.mem_coe.mp hk)
    exact haged.unique j hj' k hk' (hheld j hj') (hheld k hk') heq

end LabKernel.CacheRecency
