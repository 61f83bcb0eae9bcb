import Mathlib.Logic.Function.Basic
import LabKernel.Rounding

/-!
`BuddyPool` of `kalloc.cpp`.

The array `longest` has `2 * capacity - 1` entries, the nodes of a complete
binary tree in heap order; an entry `l > 0` says that the largest free block
below the node has `2 ^ (l - 1)` units, and `0` that there is none.  Entries
are bytes and never exceed `caplog`, which is at most 63 for the capacities in
use.  A failed assertion is `none`.
-/

namespace LabKernel.BuddyPool

open LabKernel.Rounding

/-- `caplog`. -/
def caplog (capacity : Nat) : Nat := log2 capacity + 1

/-- First loop of `init`, counting down from `2 * capacity - 2`. -/
def initLeaves (capacity : Nat) (longest : Nat → Nat) : Nat → Nat → Nat
  | 0 => longest
  | i + 1 =>
      if i + 1 > capacity - 2 then
        initLeaves capacity (Function.update longest (i + 1) 1) i
      else longest

/-- Second loop of `init`, counting down to `1`. -/
def initParents (longest : Nat → Nat) : Nat → Nat → Nat
  | 0 => longest
  | i + 1 => initParents (Function.update longest ((i + 1 - 1) / 2) (longest (i + 1) + 1)) i

/-- `BuddyPool::init` on an array with arbitrary contents. -/
def init (capacity : Nat) (longest : Nat → Nat) : Nat → Nat :=
  initParents (initLeaves capacity longest (2 * capacity - 2)) (2 * capacity - 2)

/-- The test of `alloc` by which it goes to the left child. -/
def choosesLeft (longest : Nat → Nat) (size index : Nat) : Prop :=
  longest (index * 2 + 2) < size ∨
    (size ≤ longest (index * 2 + 1) ∧ longest (index * 2 + 1) ≤ longest (index * 2 + 2))

instance (longest : Nat → Nat) (size index : Nat) :
    Decidable (choosesLeft longest size index) :=
  inferInstanceAs (Decidable (_ ∨ _))

/-- The descent of `alloc`: from a node of level `nodesize` at `index` to the
level and index of the chosen node. -/
def descend (longest : Nat → Nat) (size : Nat) : Nat → Nat → Nat × Nat
  | 0, index => (0, index)
  | nodesize + 1, index =>
      if nodesize + 1 > size then
        if choosesLeft longest size index then
          descend longest size nodesize (index * 2 + 1)
        else
          descend longest size nodesize (index * 2 + 2)
      else (nodesize + 1, index)

/-- The climb of `alloc`; every round at least halves `index`. -/
def allocClimb : Nat → (Nat → Nat) → Nat → Nat → Nat
  | 0, longest, _ => longest
  | fuel + 1, longest, index =>
      if index = 0 then
        longest
      else
        let parent := (index - 1) / 2
        allocClimb fuel
          (Function.update longest parent
            (max (longest (parent * 2 + 1)) (longest (parent * 2 + 2)))) parent

/-- `BuddyPool::alloc`. -/
def alloc (capacity : Nat) (longest : Nat → Nat) (size : Nat) :
    Option (Nat × (Nat → Nat)) :=
  let size := if size = 0 then 1 else size
  let size := log2 size + 1
  if longest 0 ≥ size then
    let found := descend longest size (caplog capacity) 0
    let nodesize := found.1
    let index := found.2
    let offset := (index + 1) * 2 ^ (nodesize - 1) - capacity
    some (offset, allocClimb index (Function.update longest index 0) index)
  else none

/-- The first loop of `free`: up to the first node with entry `0`, together
with its level; `none` when the root is passed. -/
def findUsed : Nat → (Nat → Nat) → Nat → Nat → Option (Nat × Nat)
  | 0, _, _, _ => none
  | fuel + 1, longest, index, nodesize =>
      if longest index = 0 then
        some (index, nodesize)
      else if index = 0 then
        none
      else findUsed fuel longest ((index - 1) / 2) (nodesize + 1)

/-- The second loop of `free`. -/
def freeClimb : Nat → (Nat → Nat) → Nat → Nat → Nat → Nat
  | 0, longest, _, _ => longest
  | fuel + 1, longest, index, nodesize =>
      if index = 0 then
        longest
      else
        let parent := (index - 1) / 2
        let nodesize := nodesize + 1
        let ll := longest (parent * 2 + 1)
        let rl := longest (parent * 2 + 2)
        let merged := if ll + 1 = nodesize ∧ rl + 1 = nodesize then nodesize else max ll rl
        freeClimb fuel (Function.update longest parent merged) parent nodesize

/-- `BuddyPool::free`. -/
def free (capacity : Nat) (longest : Nat → Nat) (offset : Nat) : Option (Nat → Nat) :=
  if offset < capacity then
    let leaf := offset + capacity - 1
    (findUsed (leaf + 1) longest leaf 1).map fun found =>
      let index := found.1
      let nodesize := found.2
      freeClimb index (Function.update longest index nodesize) index nodesize
  else none

theorem half_lt {index : Nat} (h : index ≠ 0) : (index - 1) / 2 < index := by omega

theorem allocClimb_fuel (fuel : Nat) (longest : Nat → Nat) (index : Nat) (h : index ≤ fuel) :
    allocClimb fuel longest index = allocClimb index longest index := by
  induction index using Nat.strong_induction_on generalizing fuel longest with
  | _ index ih =>
      rcases Nat.eq_zero_or_pos index with rfl | hpos
      · cases fuel <;> simp [allocClimb]
      · obtain ⟨fuel, rfl⟩ : ∃ m, fuel = m + 1 := ⟨fuel - 1, by omega⟩
        obtain ⟨i, rfl⟩ : ∃ i, index = i + 1 := ⟨index - 1, by omega⟩
        simp only [allocClimb, Nat.add_one_ne_zero, if_false]
        rw [ih _ (half_lt (by omega)) fuel _ (by omega),
          ih _ (half_lt (by omega)) i _ (by omega)]

theorem allocClimb_step (longest : Nat → Nat) {index : Nat} (h : index ≠ 0) :
    allocClimb index longest index =
      let parent := (index - 1) / 2
      allocClimb parent (Function.update longest parent
        (max (longest (parent * 2 + 1)) (longest (parent * 2 + 2)))) parent := by
  obtain ⟨i, rfl⟩ : ∃ i, index = i + 1 := ⟨index - 1, by omega⟩
  simp only [allocClimb, Nat.add_one_ne_zero, if_false]
  exact allocClimb_fuel _ _ _ (by omega)

theorem freeClimb_fuel (fuel : Nat) (longest : Nat → Nat) (index nodesize : Nat)
    (h : index ≤ fuel) :
    freeClimb fuel longest index nodesize = freeClimb index longest index nodesize := by
  induction index using Nat.strong_induction_on generalizing fuel longest nodesize with
  | _ index ih =>
      rcases Nat.eq_zero_or_pos index with rfl | hpos
      · cases fuel <;> simp [freeClimb]
      · obtain ⟨fuel, rfl⟩ : ∃ m, fuel = m + 1 := ⟨fuel - 1, by omega⟩
        obtain ⟨i, rfl⟩ : ∃ i, index = i + 1 := ⟨index - 1, by omega⟩
        simp only [freeClimb, Nat.add_one_ne_zero, if_false]
        rw [ih _ (half_lt (by omega)) fuel _ _ (by omega),
          ih _ (half_lt (by omega)) i _ _ (by omega)]

theorem freeClimb_step (longest : Nat → Nat) {index : Nat} (nodesize : Nat) (h : index ≠ 0) :
    freeClimb index longest index nodesize =
      let parent := (index - 1) / 2
      let ll := longest (parent * 2 + 1)
      let rl := longest (parent * 2 + 2)
      freeClimb parent (Function.update longest parent
        (if ll + 1 = nodesize + 1 ∧ rl + 1 = nodesize + 1 then nodesize + 1
          else max ll rl)) parent (nodesize + 1) := by
  obtain ⟨i, rfl⟩ : ∃ i, index = i + 1 := ⟨index - 1, by omega⟩
  simp only [freeClimb, Nat.add_one_ne_zero, if_false]
  exact freeClimb_fuel _ _ _ _ (by omega)

theorem findUsed_fuel (fuel : Nat) (longest : Nat → Nat) (index nodesize : Nat)
    (h : index < fuel) :
    findUsed fuel longest index nodesize = findUsed (index + 1) longest index nodesize := by
  induction index using Nat.strong_induction_on generalizing fuel nodesize with
  | _ index ih =>
      obtain ⟨fuel, rfl⟩ : ∃ m, fuel = m + 1 := ⟨fuel - 1, by omega⟩
      simp only [findUsed]
      split
      · rfl
      · split
        · rfl
        · next hne =>
            rw [ih _ (half_lt hne) fuel _ (by omega), ih _ (half_lt hne) index _ (by omega)]

theorem findUsed_step {longest : Nat → Nat} {index : Nat} (nodesize : Nat)
    (hindex : index ≠ 0) (hentry : longest index ≠ 0) :
    findUsed (index + 1) longest index nodesize =
      findUsed ((index - 1) / 2 + 1) longest ((index - 1) / 2) (nodesize + 1) := by
  simp only [findUsed, hentry, hindex, if_false]
  exact findUsed_fuel _ _ _ _ (by omega)

end LabKernel.BuddyPool
