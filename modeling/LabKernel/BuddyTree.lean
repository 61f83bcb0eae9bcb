import Mathlib.Data.List.Pairwise
import Mathlib.Data.List.Perm.Basic
import Mathlib.Data.Nat.Basic
import Mathlib.Tactic.NormNum
import Mathlib.Tactic.Ring

/-!
Binary buddy allocation over an abstract tree.

A tree of height `k` stands for `2 ^ k` units.  A free or used leaf may sit at
any height; a used leaf is one allocated block.  Offsets are relative to the
first unit of the tree.  The operations descend and merge as a buddy allocator
does, and their effect is stated on the list of blocks in use.
-/

namespace LabKernel.BuddyTree

inductive Buddy : Nat → Type
  | free {k : Nat} : Buddy k
  | used {k : Nat} : Buddy k
  | node {k : Nat} (left right : Buddy k) : Buddy (k + 1)
  deriving DecidableEq

/-- One more than the height of the largest free leaf, and `0` without one. -/
def Buddy.largest : {k : Nat} → Buddy k → Nat
  | k, .free => k + 1
  | _, .used => 0
  | _, .node left right => max left.largest right.largest

/-- The blocks in use, as offsets and lengths, for a tree that starts at
`base`. -/
def Buddy.blocks : {k : Nat} → Buddy k → Nat → List (Nat × Nat)
  | _, .free, _ => []
  | k, .used, base => [(base, 2 ^ k)]
  | _, .node (k := k) left right, base =>
      left.blocks base ++ right.blocks (base + 2 ^ k)

/-- The number of units outside every block. -/
def Buddy.freeUnits : {k : Nat} → Buddy k → Nat
  | k, .free => 2 ^ k
  | _, .used => 0
  | _, .node left right => left.freeUnits + right.freeUnits

/-- The two halves of a tree that is not one used block. -/
def Buddy.split {k : Nat} : Buddy (k + 1) → Buddy k × Buddy k
  | .free => (.free, .free)
  | .used => (.used, .used)
  | .node left right => (left, right)

/-- Two halves as one tree; two free halves merge. -/
def Buddy.join {k : Nat} (left right : Buddy k) : Buddy (k + 1) :=
  match left, right with
  | .free, .free => .free
  | left, right => .node left right

/-- Whether best fit looks for a block of height `s` in the left half. -/
def goesLeft (s left right : Nat) : Prop :=
  right < s + 1 ∨ (s + 1 ≤ left ∧ left ≤ right)

instance (s left right : Nat) : Decidable (goesLeft s left right) :=
  inferInstanceAs (Decidable (_ ∨ _))

/-- Allocate a block of height `s`; returns the offset of the block. -/
def Buddy.alloc (s : Nat) : (k : Nat) → Buddy k → Buddy k × Nat
  | 0, _ => (.used, 0)
  | k + 1, t =>
      if k + 1 ≤ s then
        (.used, 0)
      else if goesLeft s t.split.1.largest t.split.2.largest then
        let result := alloc s k t.split.1
        (.node result.1 t.split.2, result.2)
      else
        let result := alloc s k t.split.2
        (.node t.split.1 result.1, 2 ^ k + result.2)

/-- Release the block that contains the unit at offset `o`, if there is one. -/
def Buddy.release : {k : Nat} → Buddy k → Nat → Option (Buddy k)
  | _, .free, _ => none
  | _, .used, _ => some .free
  | _, .node (k := k) left right, o =>
      if o < 2 ^ k then
        (left.release o).map fun left' => left'.join right
      else
        (right.release (o - 2 ^ k)).map fun right' => left.join right'

/-- The unit at `u` belongs to the block `b`. -/
def InBlock (u : Nat) (b : Nat × Nat) : Prop := b.1 ≤ u ∧ u < b.1 + b.2

/-- Two blocks have no unit in common. -/
def Apart (a b : Nat × Nat) : Prop := a.1 + a.2 ≤ b.1 ∨ b.1 + b.2 ≤ a.1

theorem Apart.symm {a b : Nat × Nat} (h : Apart a b) : Apart b a := Or.symm h

theorem apart_iff {a b : Nat × Nat} (ha : 0 < a.2) (hb : 0 < b.2) :
    Apart a b ↔ ∀ u, InBlock u a → ¬ InBlock u b := by
  constructor
  · intro h u hua hub
    simp only [Apart, InBlock] at *
    omega
  · intro h
    have hfirst := h a.1
    have hsecond := h b.1
    simp only [Apart, InBlock] at *
    omega

theorem largest_le {k : Nat} (t : Buddy k) : t.largest ≤ k + 1 := by
  induction t with
  | free => exact le_rfl
  | used => exact Nat.zero_le _
  | node left right ihLeft ihRight =>
      simp only [Buddy.largest]
      omega

theorem eq_free_of_largest {k : Nat} (t : Buddy k) (h : t.largest = k + 1) : t = .free := by
  cases t with
  | free => rfl
  | used => simp [Buddy.largest] at h
  | node left right =>
      have hleft := largest_le left
      have hright := largest_le right
      simp only [Buddy.largest] at h
      omega

theorem mem_blocks {k : Nat} {t : Buddy k} {base : Nat} {b : Nat × Nat}
    (h : b ∈ t.blocks base) :
    base ≤ b.1 ∧ b.1 + b.2 ≤ base + 2 ^ k ∧ ∃ e ≤ k, b.2 = 2 ^ e ∧ 2 ^ e ∣ b.1 - base := by
  induction t generalizing base with
  | free => simp [Buddy.blocks] at h
  | used =>
      simp only [Buddy.blocks, List.mem_singleton] at h
      subst h
      exact ⟨le_rfl, le_rfl, _, le_rfl, rfl, by simp⟩
  | node left right ihLeft ihRight =>
      rename_i k
      rw [pow_succ]
      simp only [Buddy.blocks, List.mem_append] at h
      rcases h with h | h
      · obtain ⟨hlow, hhigh, e, he, hsize, hdvd⟩ := ihLeft h
        exact ⟨hlow, by omega, e, by omega, hsize, hdvd⟩
      · obtain ⟨hlow, hhigh, e, he, hsize, hdvd⟩ := ihRight h
        refine ⟨by omega, by omega, e, by omega, hsize, ?_⟩
        have hsum : b.1 - base = (b.1 - (base + 2 ^ k)) + 2 ^ k := by omega
        rw [hsum]
        exact Nat.dvd_add hdvd (pow_dvd_pow 2 he)

theorem blocks_pairwise {k : Nat} (t : Buddy k) (base : Nat) :
    (t.blocks base).Pairwise Apart := by
  induction t generalizing base with
  | free => exact List.Pairwise.nil
  | used => exact List.pairwise_singleton _ _
  | node left right ihLeft ihRight =>
      rename_i k
      simp only [Buddy.blocks, List.pairwise_append]
      refine ⟨ihLeft base, ihRight (base + 2 ^ k), ?_⟩
      intro a ha b hb
      have hleft := mem_blocks ha
      have hright := mem_blocks hb
      exact Or.inl (by omega)

theorem blocks_split {k : Nat} (t : Buddy (k + 1)) (ht : t ≠ .used) (base : Nat) :
    t.blocks base = t.split.1.blocks base ++ t.split.2.blocks (base + 2 ^ k) := by
  cases t with
  | free => rfl
  | used => exact absurd rfl ht
  | node left right => rfl

theorem blocks_join {k : Nat} (left right : Buddy k) (base : Nat) :
    (left.join right).blocks base = left.blocks base ++ right.blocks (base + 2 ^ k) := by
  cases left <;> cases right <;> simp [Buddy.join, Buddy.blocks]

theorem largest_split {k : Nat} {t : Buddy (k + 1)} {s : Nat} (hs : s < k + 1)
    (ht : s + 1 ≤ t.largest) :
    s + 1 ≤ t.split.1.largest ∨ s + 1 ≤ t.split.2.largest := by
  cases t with
  | free => exact Or.inl (by simp only [Buddy.split, Buddy.largest]; omega)
  | used => simp [Buddy.largest] at ht
  | node left right =>
      simp only [Buddy.largest] at ht
      simp only [Buddy.split]
      omega

theorem ne_used_of_largest {k s : Nat} {t : Buddy k} (h : s + 1 ≤ t.largest) : t ≠ .used := by
  rintro rfl
  simp [Buddy.largest] at h

theorem largest_of_goesLeft {s left right : Nat} (h : s + 1 ≤ left ∨ s + 1 ≤ right) :
    (goesLeft s left right → s + 1 ≤ left) ∧ (¬ goesLeft s left right → s + 1 ≤ right) := by
  simp only [goesLeft]
  omega

/-- Induction over the recursion of `alloc` on a tree with room: the leaf that
becomes the block, a step to the left and a step to the right. -/
theorem alloc_induction {s : Nat} {motive : (k : Nat) → Buddy k → Buddy k → Nat → Prop}
    (leaf : motive s .free .used 0)
    (left : ∀ k (t : Buddy (k + 1)) (child : Buddy k) (o : Nat), t ≠ .used →
      s ≤ k → s + 1 ≤ t.split.1.largest →
      goesLeft s t.split.1.largest t.split.2.largest →
      motive k t.split.1 child o → motive (k + 1) t (.node child t.split.2) o)
    (right : ∀ k (t : Buddy (k + 1)) (child : Buddy k) (o : Nat), t ≠ .used →
      s ≤ k → s + 1 ≤ t.split.2.largest →
      ¬ goesLeft s t.split.1.largest t.split.2.largest →
      motive k t.split.2 child o → motive (k + 1) t (.node t.split.1 child) (2 ^ k + o))
    {k : Nat} (t : Buddy k) (ht : s + 1 ≤ t.largest) :
    motive k t (Buddy.alloc s k t).1 (Buddy.alloc s k t).2 := by
  induction k with
  | zero =>
      have hle := largest_le t
      have hzero : s = 0 := by omega
      subst hzero
      rw [eq_free_of_largest t (by omega)]
      exact leaf
  | succ k ih =>
      have hle := largest_le t
      rw [Buddy.alloc]
      split
      · next hfits =>
          have heq : k + 1 = s := by omega
          subst heq
          rw [eq_free_of_largest t (by omega)]
          exact leaf
      · next hsmall =>
          have hroom := largest_of_goesLeft (largest_split (by omega) ht)
          split
          · next hgo =>
              exact left k t _ _ (ne_used_of_largest ht) (by omega) (hroom.1 hgo) hgo
                (ih t.split.1 (hroom.1 hgo))
          · next hgo =>
              exact right k t _ _ (ne_used_of_largest ht) (by omega) (hroom.2 hgo) hgo
                (ih t.split.2 (hroom.2 hgo))

/-- Allocation adds exactly the block it returns. -/
theorem blocks_alloc {s k : Nat} (t : Buddy k) (ht : s + 1 ≤ t.largest) (base : Nat) :
    ((Buddy.alloc s k t).1.blocks base).Perm
      ((base + (Buddy.alloc s k t).2, 2 ^ s) :: t.blocks base) := by
  refine alloc_induction (motive := fun k t t' o => ∀ base,
    (t'.blocks base).Perm ((base + o, 2 ^ s) :: t.blocks base)) ?_ ?_ ?_ t ht base
  · intro base
    simp [Buddy.blocks]
  · intro k t child o hused _ _ _ ih base
    rw [blocks_split t hused]
    exact (ih base).append_right _
  · intro k t child o hused _ _ _ ih base
    rw [blocks_split t hused, ← Nat.add_assoc]
    exact ((ih (base + 2 ^ k)).append_left _).trans List.perm_middle

theorem alloc_free_offset (s k : Nat) : (Buddy.alloc s k .free).2 = 0 := by
  induction k with
  | zero => rfl
  | succ k ih =>
      have hgo : s < k + 1 → goesLeft s (k + 1) (k + 1) := by
        intro hs
        exact Or.inr ⟨by omega, le_rfl⟩
      rw [Buddy.alloc]
      split
      · rfl
      · next hs => simp [Buddy.split, Buddy.largest, hgo (by omega), ih]

theorem freeUnits_split {k : Nat} (t : Buddy (k + 1)) (ht : t ≠ .used) :
    t.freeUnits = t.split.1.freeUnits + t.split.2.freeUnits := by
  cases t with
  | free => simp only [Buddy.freeUnits, Buddy.split, pow_succ]; omega
  | used => exact absurd rfl ht
  | node left right => rfl

theorem freeUnits_alloc {s k : Nat} (t : Buddy k) (ht : s + 1 ≤ t.largest) :
    (Buddy.alloc s k t).1.freeUnits + 2 ^ s = t.freeUnits := by
  refine alloc_induction (motive := fun k t t' o => t'.freeUnits + 2 ^ s = t.freeUnits)
    ?_ ?_ ?_ t ht
  · simp [Buddy.freeUnits]
  · intro k t child o hused _ _ _ ih
    rw [freeUnits_split t hused, ← ih]
    simp only [Buddy.freeUnits]
    omega
  · intro k t child o hused _ _ _ ih
    rw [freeUnits_split t hused, ← ih]
    simp only [Buddy.freeUnits]
    omega

theorem largest_pos_iff {k : Nat} (t : Buddy k) : 0 < t.largest ↔ 0 < t.freeUnits := by
  induction t with
  | free => simp [Buddy.largest, Buddy.freeUnits]
  | used => simp [Buddy.largest, Buddy.freeUnits]
  | node left right ihLeft ihRight =>
      simp only [Buddy.largest, Buddy.freeUnits]
      omega

theorem release_eq_some {k : Nat} (t : Buddy k) (base o : Nat) (b : Nat × Nat)
    (hb : b ∈ t.blocks base) (ho : InBlock (base + o) b) :
    ∃ t', t.release o = some t' ∧ (t.blocks base).Perm (b :: t'.blocks base) := by
  induction t generalizing base o with
  | free => simp [Buddy.blocks] at hb
  | used =>
      simp only [Buddy.blocks, List.mem_singleton] at hb
      exact ⟨.free, rfl, by simp [Buddy.blocks, hb]⟩
  | node left right ihLeft ihRight =>
      rename_i k
      simp only [Buddy.blocks, List.mem_append] at hb
      simp only [Buddy.release]
      rcases hb with hb | hb
      · have hrange := mem_blocks hb
        have hlt : o < 2 ^ k := by
          simp only [InBlock] at ho
          omega
        obtain ⟨left', hleft, hperm⟩ := ihLeft base o hb ho
        refine ⟨left'.join right, by simp [hlt, hleft], ?_⟩
        rw [blocks_join]
        exact hperm.append_right _
      · have hrange := mem_blocks hb
        have hge : ¬ o < 2 ^ k := by
          simp only [InBlock] at ho
          omega
        have hsum : base + 2 ^ k + (o - 2 ^ k) = base + o := by omega
        obtain ⟨right', hright, hperm⟩ := ihRight (base + 2 ^ k) (o - 2 ^ k) hb (by rwa [hsum])
        refine ⟨left.join right', by simp [hge, hright], ?_⟩
        rw [blocks_join]
        exact (hperm.append_left _).trans List.perm_middle

theorem release_eq_none {k : Nat} (t : Buddy k) (base o : Nat) (ho : o < 2 ^ k)
    (h : ∀ b ∈ t.blocks base, ¬ InBlock (base + o) b) : t.release o = none := by
  induction t generalizing base o with
  | free => rfl
  | used =>
      exact absurd ⟨Nat.le_add_right _ _, by omega⟩ (h _ (List.mem_singleton_self _))
  | node left right ihLeft ihRight =>
      rename_i k
      simp only [Buddy.blocks, List.mem_append] at h
      simp only [Buddy.release]
      split
      · next hlt =>
          rw [ihLeft base o hlt fun b hb => h b (Or.inl hb)]
          rfl
      · next hge =>
          have hsum : base + 2 ^ k + (o - 2 ^ k) = base + o := by omega
          rw [pow_succ] at ho
          rw [ihRight (base + 2 ^ k) (o - 2 ^ k) (by omega) fun b hb => by
            rw [hsum]
            exact h b (Or.inr hb)]
          rfl

end LabKernel.BuddyTree
