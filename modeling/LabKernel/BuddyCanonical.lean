import LabKernel.BuddyTree
import Mathlib.Order.Bounds.Basic

/-!
Buddy trees in which no two free halves are left unmerged.

Such a tree is determined by its blocks, and it has room for a block exactly
when the blocks in use leave an aligned range of that size free.
-/

namespace LabKernel.BuddyTree

/-- No node has two free halves. -/
def Buddy.Canonical : {k : Nat} → Buddy k → Prop
  | _, .free => True
  | _, .used => True
  | _, .node left right =>
      ¬(left = .free ∧ right = .free) ∧ left.Canonical ∧ right.Canonical

variable {k s e : Nat} {t t' : Buddy k} {base : Nat} {b : Nat × Nat}

theorem canonical_split {t : Buddy (k + 1)} (h : t.Canonical) :
    t.split.1.Canonical ∧ t.split.2.Canonical := by
  cases t with
  | free => exact ⟨trivial, trivial⟩
  | used => exact ⟨trivial, trivial⟩
  | node left right => exact h.2

theorem join_cases (left right : Buddy k) :
    left.join right = .free ∨
      ¬(left = .free ∧ right = .free) ∧ left.join right = .node left right := by
  cases left <;> cases right <;> simp [Buddy.join]

theorem canonical_join {left right : Buddy k} (hleft : left.Canonical) (hright : right.Canonical) :
    (left.join right).Canonical := by
  rcases join_cases left right with hfree | ⟨hboth, hnode⟩
  · rw [hfree]
    trivial
  · rw [hnode]
    exact ⟨hboth, hleft, hright⟩

theorem blocks_pos (h : b ∈ t.blocks base) : 0 < b.2 := by
  obtain ⟨-, -, e, -, hsize, -⟩ := mem_blocks h
  rw [hsize]
  exact Nat.two_pow_pos e

theorem canonical_alloc (t : Buddy k) (ht : s + 1 ≤ t.largest) (hcanonical : t.Canonical) :
    (Buddy.alloc s k t).1.Canonical := by
  refine (alloc_induction (s := s)
    (motive := fun k t t' _ => t.Canonical → t' ≠ .free ∧ t'.Canonical) ?_ ?_ ?_ t ht hcanonical).2
  · exact fun _ => ⟨nofun, trivial⟩
  · intro k t child o _ _ _ _ ih h
    obtain ⟨hchild, hcanonical⟩ := ih (canonical_split h).1
    exact ⟨nofun, fun hboth => hchild hboth.1, hcanonical, (canonical_split h).2⟩
  · intro k t child o _ _ _ _ ih h
    obtain ⟨hchild, hcanonical⟩ := ih (canonical_split h).2
    exact ⟨nofun, fun hboth => hchild hboth.2, (canonical_split h).1, hcanonical⟩

theorem canonical_release {o : Nat} (h : t.Canonical) (hrelease : t.release o = some t') :
    t'.Canonical := by
  induction t generalizing o with
  | free => cases hrelease
  | used =>
      cases hrelease
      trivial
  | node left right ihLeft ihRight =>
      rw [Buddy.release] at hrelease
      split at hrelease
      next =>
        obtain ⟨left', hleft, rfl⟩ := Option.map_eq_some_iff.mp hrelease
        exact canonical_join (ihLeft h.2.1 hleft) h.2.2
      next =>
        obtain ⟨right', hright, rfl⟩ := Option.map_eq_some_iff.mp hrelease
        exact canonical_join h.2.1 (ihRight h.2.2 hright)

theorem eq_free_of_blocks (h : t.Canonical) (hblocks : ∀ b, b ∉ t.blocks base) : t = .free := by
  induction t generalizing base with
  | free => rfl
  | used => exact absurd (List.mem_singleton_self _) (hblocks _)
  | node left right ihLeft ihRight =>
      have hleft := ihLeft h.2.1 fun b hb => hblocks b (List.mem_append_left _ hb)
      have hright := ihRight h.2.2 fun b hb => hblocks b (List.mem_append_right _ hb)
      exact absurd ⟨hleft, hright⟩ h.1

theorem blocks_left_iff {left right : Buddy k} (b : Nat × Nat) :
    b ∈ left.blocks base ↔ b ∈ (Buddy.node left right).blocks base ∧ b.1 < base + 2 ^ k := by
  rw [Buddy.blocks, List.mem_append]
  constructor
  · intro hb
    have hpos := blocks_pos hb
    have hrange := mem_blocks hb
    exact ⟨Or.inl hb, by omega⟩
  · rintro ⟨hb | hb, hlt⟩
    · exact hb
    · have hrange := mem_blocks hb
      omega

theorem blocks_right_iff {left right : Buddy k} (b : Nat × Nat) :
    b ∈ right.blocks (base + 2 ^ k) ↔
      b ∈ (Buddy.node left right).blocks base ∧ base + 2 ^ k ≤ b.1 := by
  rw [Buddy.blocks, List.mem_append]
  constructor
  · intro hb
    exact ⟨Or.inr hb, (mem_blocks hb).1⟩
  · rintro ⟨hb | hb, hle⟩
    · have hpos := blocks_pos hb
      have hrange := mem_blocks hb
      omega
    · exact hb

theorem not_mem_node {left right : Buddy k} :
    (base, 2 ^ (k + 1)) ∉ (Buddy.node left right).blocks base := by
  intro hb
  have hpos := Nat.two_pow_pos k
  rw [Buddy.blocks, List.mem_append, pow_succ] at hb
  rcases hb with hb | hb
  · have hrange := mem_blocks hb
    omega
  · have hrange := mem_blocks hb
    omega

theorem canonical_unique (h : t.Canonical) (h' : t'.Canonical)
    (hblocks : ∀ b, b ∈ t.blocks base ↔ b ∈ t'.blocks base) : t = t' := by
  induction t generalizing base with
  | free =>
      have hnone : ∀ b, b ∉ t'.blocks base := fun b hb =>
        List.not_mem_nil ((hblocks b).mpr hb)
      exact (eq_free_of_blocks h' hnone).symm
  | used =>
      rename_i k
      have hmem := (hblocks (base, 2 ^ k)).mp (List.mem_singleton_self _)
      cases t' with
      | free => exact absurd hmem List.not_mem_nil
      | used => rfl
      | node left right => exact absurd hmem not_mem_node
  | node left right ihLeft ihRight =>
      cases t' with
      | free =>
          have hnone : ∀ b, b ∉ (Buddy.node left right).blocks base := fun b hb =>
            List.not_mem_nil ((hblocks b).mp hb)
          exact eq_free_of_blocks h hnone
      | used => exact absurd ((hblocks _).mpr (List.mem_singleton_self _)) not_mem_node
      | node left' right' =>
          have hleft : ∀ b, b ∈ left.blocks base ↔ b ∈ left'.blocks base := fun b =>
            (blocks_left_iff b).trans ((and_congr_left' (hblocks b)).trans (blocks_left_iff b).symm)
          have hright : ∀ b, b ∈ right.blocks _ ↔ b ∈ right'.blocks _ := fun b =>
            (blocks_right_iff b).trans
              ((and_congr_left' (hblocks b)).trans (blocks_right_iff b).symm)
          rw [ihLeft h.2.1 h'.2.1 hleft, ihRight h.2.2 h'.2.2 hright]

/-- The range of `2 ^ e` units from `o` on is aligned, lies in a pool of `2 ^ k`
units and has no unit in a block. -/
structure Vacant (blocks : List (Nat × Nat)) (k e o : Nat) : Prop where
  dvd : 2 ^ e ∣ o
  le : o + 2 ^ e ≤ 2 ^ k
  outside : ∀ u, InBlock u (o, 2 ^ e) → ∀ b ∈ blocks, ¬InBlock u b

theorem blocks_shift (t : Buddy k) (base shift : Nat) :
    t.blocks (base + shift) = (t.blocks base).map fun b => (b.1 + shift, b.2) := by
  induction t generalizing base with
  | free => rfl
  | used => rfl
  | node left right ihLeft ihRight =>
      rw [Buddy.blocks, Buddy.blocks, List.map_append, ihLeft, Nat.add_right_comm, ihRight]

theorem vacant_alloc (t : Buddy k) (ht : e + 1 ≤ t.largest) :
    Vacant (t.blocks 0) k e (Buddy.alloc e k t).2 := by
  have hblocks := blocks_alloc t ht 0
  rw [Nat.zero_add] at hblocks
  obtain ⟨-, hinside, d, -, hsize, hdvd⟩ := mem_blocks (hblocks.mem_iff.mpr List.mem_cons_self)
  have hapart := (hblocks.pairwise_iff Apart.symm).mp (blocks_pairwise _ 0)
  refine ⟨?_, by simpa using hinside, fun u hu b hb hub => ?_⟩
  · rw [← hsize] at hdvd
    simpa using hdvd
  · have hab := (List.pairwise_cons.mp hapart).1 b hb
    simp only [Apart, InBlock] at *
    omega

theorem dvd_half {o : Nat} (hdvd : 2 ^ e ∣ o) (he : e ≤ k) (hlt : o < 2 ^ k) :
    o + 2 ^ e ≤ 2 ^ k := by
  obtain ⟨c, rfl⟩ := hdvd
  obtain ⟨d, hd⟩ := pow_dvd_pow 2 he
  rw [hd] at hlt ⊢
  have hcd := Nat.lt_of_mul_lt_mul_left hlt
  calc 2 ^ e * c + 2 ^ e = 2 ^ e * (c + 1) := by ring
    _ ≤ 2 ^ e * d := Nat.mul_le_mul_left _ hcd

theorem room_of_vacant {o : Nat} (h : t.Canonical) (hv : Vacant (t.blocks 0) k e o) :
    e + 1 ≤ t.largest := by
  have hpos := Nat.two_pow_pos e
  induction t generalizing o with
  | free =>
      rename_i k
      rw [Buddy.largest]
      have hle : 2 ^ e ≤ 2 ^ k := by
        have := hv.le
        omega
      have := (Nat.pow_le_pow_iff_right (by norm_num)).mp hle
      omega
  | used =>
      rename_i k
      have hle := hv.le
      refine absurd ?_ (hv.outside o ⟨le_refl _, ?_⟩ _ (List.mem_singleton_self _))
      · exact ⟨Nat.zero_le _, by simp only; omega⟩
      · simp only
        omega
  | node left right ihLeft ihRight =>
      rename_i k
      obtain ⟨hdvd, hle, houtside⟩ := hv
      rw [Buddy.largest]
      rcases Nat.lt_or_ge k e with hbig | hsmall
      · -- The whole pool is free, so it would have been merged.
        have hpow : 2 ^ (k + 1) ≤ 2 ^ e := Nat.pow_le_pow_right (by norm_num) hbig
        have hfree : Buddy.node left right = .free := by
          have hnone : ∀ b, b ∉ (Buddy.node left right).blocks 0 := ?_
          · exact eq_free_of_blocks h hnone
          intro b hb
          have hrange := mem_blocks hb
          have hb2 := blocks_pos hb
          refine houtside b.1 ⟨by omega, by simp only; omega⟩ b hb ⟨le_refl _, by omega⟩
        cases hfree
      · rcases Nat.lt_or_ge o (2 ^ k) with hlt | hge
        · have hroom := ihLeft (o := o) h.2.1 ⟨hdvd, dvd_half hdvd hsmall hlt, fun u hu b hb =>
            houtside u hu b (List.mem_append_left _ hb)⟩
          omega
        · have hroom := ihRight (o := o - 2 ^ k) h.2.2 ⟨Nat.dvd_sub hdvd (pow_dvd_pow 2 hsmall), by
            rw [pow_succ] at hle
            omega, fun u hu b hb hub => by
            have hright : (b.1 + 2 ^ k, b.2) ∈ right.blocks (0 + 2 ^ k) := by
              rw [blocks_shift]
              exact List.mem_map_of_mem hb
            refine houtside (u + 2 ^ k) ?_ _ (List.mem_append_right _ hright) ?_
            · simp only [InBlock] at *
              omega
            · simp only [InBlock] at *
              omega⟩
          omega

theorem room_iff_vacant (h : t.Canonical) :
    e + 1 ≤ t.largest ↔ ∃ o, Vacant (t.blocks 0) k e o :=
  ⟨fun hroom => ⟨_, vacant_alloc t hroom⟩, fun ⟨_, hv⟩ => room_of_vacant h hv⟩

theorem largest_isGreatest (h : t.Canonical) (he : t.largest = e + 1) :
    IsGreatest {e | ∃ o, Vacant (t.blocks 0) k e o} e := by
  refine ⟨(room_iff_vacant h).mp (by omega), fun e' he' => ?_⟩
  have := (room_iff_vacant h).mpr he'
  omega

theorem largest_eq_zero_iff (h : t.Canonical) :
    t.largest = 0 ↔ ∀ u < 2 ^ k, ∃ b ∈ t.blocks 0, InBlock u b := by
  constructor
  · intro hzero u hu
    by_contra hnone
    have hvacant : Vacant (t.blocks 0) k 0 u := by
      refine ⟨by simp, by rwa [pow_zero], fun v hv b hb hvb => hnone ⟨b, hb, ?_⟩⟩
      simp only [InBlock, pow_zero] at hv
      rwa [show u = v by omega]
    have hroom := room_of_vacant h hvacant
    omega
  · intro hall
    by_contra hne
    obtain ⟨-, hle, houtside⟩ := vacant_alloc (e := 0) t (by omega)
    simp only [pow_zero] at hle houtside
    obtain ⟨b, hb, hub⟩ := hall (Buddy.alloc 0 k t).2 (by omega)
    exact houtside _ ⟨le_refl _, by simp⟩ b hb hub

end LabKernel.BuddyTree
