import LabKernel.BuddyCanonical
import LabKernel.BuddyRefinement
import LabKernel.TransitionSystem

/-!
Runs of one `BuddyPool`: arbitrary interleavings of allocations and of
releases of blocks in use.
-/

namespace LabKernel.BuddySafety

open LabKernel.BuddyTree
open LabKernel.BuddyRefinement
open LabKernel.TransitionSystem

/-- The array of a pool together with the blocks handed out and not yet
released, as offsets and lengths in units. -/
structure Pool where
  longest : Nat → Nat
  live : List (Nat × Nat)

inductive Action where
  | alloc (size : Nat)
  | free (offset : Nat)

/-- The sizes the pool is asked for: `0` or a 64-bit power of two. -/
def IsRequest (s : Nat) : Prop := s = 0 ∨ ∃ e < 64, s = 2 ^ e

def Step (capacity : Nat) (p : Pool) : Action → Pool → Prop
  | .alloc s, p' => IsRequest s ∧ ∃ o longest,
      BuddyPool.alloc capacity p.longest s = some (o, longest) ∧
        p' = ⟨longest, (o, max s 1) :: p.live⟩
  | .free o, p' => ∃ u, (o, u) ∈ p.live ∧ ∃ longest,
      BuddyPool.free capacity p.longest o = some longest ∧
        p' = ⟨longest, p.live.erase (o, u)⟩

/-- All runs of a pool that starts with `BuddyPool::init` on arbitrary
memory. -/
def system (capacity : Nat) : System Pool Action where
  start p := ∃ memory, p = ⟨BuddyPool.init capacity memory, []⟩
  step := Step capacity

theorem reachable_init (capacity : Nat) (memory : Nat → Nat) :
    Reachable (system capacity) ⟨BuddyPool.init capacity memory, []⟩ :=
  ReachableUnder.start ⟨memory, rfl⟩

/-- The array represents a tree whose used leaves are the live blocks. -/
def Inv {n : Nat} (p : Pool) (t : Buddy n) : Prop :=
  Repr p.longest 0 t ∧ p.live.Perm (t.blocks 0)

theorem isUnits_of_isRequest {s : Nat} (h : IsRequest s) : ∃ e, IsUnits s e := by
  rcases h with rfl | ⟨e, he, rfl⟩
  · exact ⟨0, by simp [IsUnits]⟩
  · exact ⟨e, by simpa [IsUnits] using ⟨Nat.one_le_two_pow, he⟩⟩

/-- A successful `alloc` finds room in the tree and returns the offset the
tree gives. -/
theorem alloc_inv {n s e o : Nat} {f g : Nat → Nat} {t : Buddy n} (hn : n < 64)
    (hs : IsUnits s e) (hf : Repr f 0 t) (h : BuddyPool.alloc (2 ^ n) f s = some (o, g)) :
    e + 1 ≤ t.largest ∧ o = (Buddy.alloc e n t).2 ∧ Repr g 0 (Buddy.alloc e n t).1 := by
  have hrefines := alloc_refines hn hs hf
  split at hrefines
  · next hroom =>
      obtain ⟨g', halloc, hrepr⟩ := hrefines
      rw [h, Option.some.injEq, Prod.mk.injEq] at halloc
      exact ⟨hroom, halloc.1, halloc.2 ▸ hrepr⟩
  · rw [h] at hrefines
    simp at hrefines

/-- Releasing a live block by any of its units succeeds and removes exactly
this block. -/
theorem free_live {n : Nat} {p : Pool} {t : Buddy n} (hinv : Inv p t) {b : Nat × Nat}
    (hb : b ∈ p.live) {o : Nat} (ho : InBlock o b) :
    ∃ (t' : Buddy n) (g : Nat → Nat), t.release o = some t' ∧
      BuddyPool.free (2 ^ n) p.longest o = some g ∧ Inv ⟨g, p.live.erase b⟩ t' := by
  obtain ⟨hrepr, hperm⟩ := hinv
  have hmem : b ∈ t.blocks 0 := hperm.mem_iff.mp hb
  have hrange := mem_blocks hmem
  obtain ⟨t', hrelease, hblocks⟩ := release_eq_some t 0 o b hmem (by simpa using ho)
  have hfree := free_refines (o := o) (by simp only [InBlock] at ho; omega) hrepr
  rw [hrelease] at hfree
  obtain ⟨g, hg, hrepr'⟩ := hfree
  refine ⟨t', g, hrelease, hg, hrepr', ?_⟩
  exact List.Perm.cons_inv ((List.perm_cons_erase hb).symm.trans (hperm.trans hblocks))

theorem inBlock_start {n : Nat} {t : Buddy n} {base : Nat} {b : Nat × Nat}
    (hb : b ∈ t.blocks base) : InBlock b.1 b := by
  obtain ⟨-, -, e, -, hsize, -⟩ := mem_blocks hb
  refine ⟨le_rfl, ?_⟩
  have := Nat.two_pow_pos e
  omega

theorem inv_step {n : Nat} (hn : n < 64) {p p' : Pool} {a : Action}
    (hinv : ∃ t : Buddy n, Inv p t ∧ t.Canonical) (hstep : Step (2 ^ n) p a p') :
    ∃ t : Buddy n, Inv p' t ∧ t.Canonical := by
  obtain ⟨t, ⟨hrepr, hperm⟩, hcanonical⟩ := hinv
  cases a with
  | alloc s =>
      obtain ⟨hrequest, o, g, halloc, rfl⟩ := hstep
      obtain ⟨e, hs⟩ := isUnits_of_isRequest hrequest
      obtain ⟨hroom, rfl, hrepr'⟩ := alloc_inv hn hs hrepr halloc
      refine ⟨_, ⟨hrepr', ?_⟩, canonical_alloc t hroom hcanonical⟩
      have hblocks := blocks_alloc t hroom 0
      rw [Nat.zero_add, ← hs.1] at hblocks
      exact (hperm.cons _).trans hblocks.symm
  | free o =>
      obtain ⟨u, hlive, g, hfree, rfl⟩ := hstep
      obtain ⟨t', g', hrelease, hfree', hinv'⟩ :=
        free_live ⟨hrepr, hperm⟩ hlive (inBlock_start (hperm.mem_iff.mp hlive))
      rw [hfree, Option.some.injEq] at hfree'
      exact ⟨t', hfree' ▸ hinv', canonical_release hcanonical hrelease⟩

theorem inv_of_reachable {n : Nat} (hlow : 1 ≤ n) (hhigh : n ≤ 62) {p : Pool}
    (hp : Reachable (system (2 ^ n)) p) : ∃ t : Buddy n, Inv p t ∧ t.Canonical := by
  refine ReachableUnder.invariant (P := fun p => ∃ t : Buddy n, Inv p t ∧ t.Canonical) ?_ ?_ hp
  · rintro _ ⟨memory, rfl⟩
    exact ⟨.free, ⟨init_refines n hlow memory, by simp [Buddy.blocks]⟩, trivial⟩
  · intro p a p' hinv _ hstep
    exact inv_step (by omega) hinv hstep

/-- Every block handed out is aligned to its size, lies inside the pool and
shares no unit with a live block, and a live block can always be released. -/
theorem pool_safe (n : Nat) (hlow : 1 ≤ n) (hhigh : n ≤ 62) (p : Pool)
    (hp : Reachable (system (2 ^ n)) p) :
    (∀ s o g, IsRequest s → BuddyPool.alloc (2 ^ n) p.longest s = some (o, g) →
      max s 1 ∣ o ∧ o + max s 1 ≤ 2 ^ n ∧
        ∀ b ∈ p.live, ∀ u, InBlock u (o, max s 1) → ¬ InBlock u b) ∧
    ∀ b ∈ p.live, BuddyPool.free (2 ^ n) p.longest b.1 ≠ none := by
  obtain ⟨t, ⟨hrepr, hperm⟩, -⟩ := inv_of_reachable hlow hhigh hp
  constructor
  · intro s o g hrequest halloc
    obtain ⟨e, hs⟩ := isUnits_of_isRequest hrequest
    obtain ⟨hroom, rfl, -⟩ := alloc_inv (by omega) hs hrepr halloc
    have hblocks := blocks_alloc t hroom 0
    rw [Nat.zero_add] at hblocks
    have hnew := mem_blocks (hblocks.mem_iff.mpr List.mem_cons_self)
    obtain ⟨-, hinside, d, -, hsize, hdvd⟩ := hnew
    rw [hs.1]
    refine ⟨?_, by simpa using hinside, ?_⟩
    · rw [← hsize] at hdvd
      simpa using hdvd
    · intro b hb u hu hub
      have hapart := (hblocks.pairwise_iff Apart.symm).mp (blocks_pairwise _ 0)
      have := (List.pairwise_cons.mp hapart).1 b (hperm.mem_iff.mp hb)
      simp only [Apart, InBlock] at *
      omega
  · intro b hb
    obtain ⟨_, g, -, hfree, -⟩ :=
      free_live ⟨hrepr, hperm⟩ hb (inBlock_start (hperm.mem_iff.mp hb))
    simp [hfree]

/-- A pool of four units of which the first is in use. -/
def oneUsed : Pool :=
  ⟨((BuddyPool.alloc 4 (BuddyPool.init 4 fun _ => 0) 1).getD (0, fun _ => 0)).2, [(0, 1)]⟩

theorem oneUsed_reachable : Reachable (system (2 ^ 2)) oneUsed := by
  have hstart : Reachable (system (2 ^ 2)) ⟨BuddyPool.init (2 ^ 2) fun _ => 0, []⟩ :=
    ReachableUnder.start ⟨_, rfl⟩
  refine ReachableUnder.step (a := .alloc 1) hstart trivial ?_
  exact ⟨Or.inr ⟨0, by norm_num, rfl⟩, 0, oneUsed.longest, rfl, rfl⟩

theorem pool_safe_oneUsed :
    (∃ g, BuddyPool.alloc 4 oneUsed.longest 2 = some (2, g) ∧
      ∀ u, InBlock u (2, 2) → ¬ InBlock u (0, 1)) ∧
    BuddyPool.free 4 oneUsed.longest 0 ≠ none := by
  obtain ⟨halloc, hfree⟩ := pool_safe 2 (by norm_num) (by norm_num) oneUsed oneUsed_reachable
  refine ⟨⟨_, rfl, ?_⟩, hfree (0, 1) (by simp [oneUsed])⟩
  exact (halloc 2 2 _ (Or.inr ⟨1, by norm_num, rfl⟩) rfl).2.2 (0, 1) (by simp [oneUsed])

end LabKernel.BuddySafety
