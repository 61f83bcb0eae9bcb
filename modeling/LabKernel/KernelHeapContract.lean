import LabKernel.KernelHeap

/-!
What callers of `kalloc` and `kfree` may rely on, and what they may not:
`kalloc` hands out aligned, disjoint blocks of the right region, while `kfree`
gives no memory back.
-/

namespace LabKernel.KernelHeapContract

open LabKernel.Rounding
open LabKernel.BuddyTree
open LabKernel.BuddyRefinement
open LabKernel.KernelHeap
open LabKernel.TransitionSystem

/-- The sizes of the contract. -/
def SizeAllowed (_ : Run) : Action → Prop
  | .kalloc size => 1 ≤ size ∧ size ≤ 2 ^ 63
  | .kfree _ => True

/-- What the block of one successful `kalloc(size)` satisfies. -/
structure Contract (live : List Grant) (g : Grant) : Prop where
  size_le : g.size ≤ blockLength g.size
  small_region : ceilPower2 g.size ≤ 1024 →
    smallBegin ≤ g.range.1 ∧ g.range.1 + g.range.2 ≤ smallEnd
  page_region : 1024 < ceilPower2 g.size →
    pageStart ≤ g.range.1 ∧ g.range.1 + g.range.2 ≤ pageEnd
  aligned : ceilPower2 g.size ∣ g.range.1
  page_aligned : 1024 < ceilPower2 g.size → 4096 ∣ g.range.1
  disjoint : ∀ other ∈ live, ∀ u, InBlock u g.range → ¬ InBlock u other.range

/-- `kfree` finds the pool that produced the pointer and passes its
assertion. -/
def Routed (heap : Heap) (g : Grant) : Prop :=
  (kva2pa g.ptr < pageStart ↔ ceilPower2 g.size ≤ 1024) ∧ kfree heap g.ptr ≠ none

theorem allocatorOf_page {size : Nat} (h : 1024 < ceilPower2 size) :
    allocatorOf size = pagePool := by
  simp [allocatorOf, h]

theorem allocatorOf_small {size : Nat} (h : ceilPower2 size ≤ 1024) :
    allocatorOf size = smallPool := by
  simp [allocatorOf, h]

theorem placed_small_region {trees : Trees} {g : Grant} (h : Placed trees g)
    (hsmall : ceilPower2 g.size ≤ 1024) :
    smallBegin ≤ g.range.1 ∧ g.range.1 + g.range.2 ≤ smallEnd := by
  obtain ⟨o, haddr, hmem, -⟩ := h
  have hrange := (mem_blocks hmem).2.1
  simp only [Grant.range, blockLength, haddr, allocatorOf_small hsmall, smallPool, smallBegin,
    smallEnd]
  omega

theorem placed_page_region {trees : Trees} {g : Grant} (h : Placed trees g)
    (hpage : 1024 < ceilPower2 g.size) :
    pageStart ≤ g.range.1 ∧ g.range.1 + g.range.2 ≤ pageEnd := by
  obtain ⟨o, haddr, hmem, hbeyond⟩ := h
  have hrange := (mem_blocks hmem).2.1
  have hprefix := hbeyond hpage
  simp only [Grant.range, blockLength, haddr, allocatorOf_page hpage, pagePool, pageBegin,
    pageStart, pageEnd]
  omega

theorem placed_routed {trees : Trees} {g : Grant} (heap : Heap) (h : Placed trees g) :
    Routed heap g := by
  rcases Nat.lt_or_ge 1024 (ceilPower2 g.size) with hpage | hsmall
  · have hregion := (placed_page_region h hpage).1
    obtain ⟨o, haddr, hmem, -⟩ := h
    have hrange := (mem_blocks hmem).2.1
    simp only [Grant.range] at hregion
    rw [allocatorOf_page hpage] at haddr
    refine ⟨by omega, ?_⟩
    have hoffset : (kva2pa g.ptr + 2 ^ 64 - pagePool.memStart) % 2 ^ 64 % pagePool.batchSize
        = 0 := by
      simp only [haddr, pagePool, pageBegin]
      omega
    simp only [kfree, Nat.not_lt.mpr hregion, if_false, Allocator.free, hoffset, if_true]
    simp
  · have hregion := (placed_small_region h hsmall).2
    have hlt : kva2pa g.ptr < pageStart := by
      have hpos := blockUnits_pos g.size
      simp only [Grant.range, blockLength, allocatorOf_small hsmall, smallPool, smallEnd]
        at hregion
      simp only [pageStart]
      omega
    obtain ⟨o, haddr, hmem, -⟩ := h
    have hrange := (mem_blocks hmem).2.1
    rw [allocatorOf_small hsmall] at haddr
    refine ⟨by omega, ?_⟩
    have hoffset : (kva2pa g.ptr + 2 ^ 64 - smallPool.memStart) % 2 ^ 64 % smallPool.batchSize
        = 0 := by
      simp only [haddr, smallPool, smallBegin]
      omega
    simp only [kfree, hlt, Allocator.free, hoffset, if_true]
    simp

theorem disjoint_scaled {start batch u : Nat} {a b : Nat × Nat} (h : Apart a b)
    (ha : InBlock u (start + a.1 * batch, a.2 * batch)) :
    ¬ InBlock u (start + b.1 * batch, b.2 * batch) := by
  intro hb
  simp only [InBlock, Apart] at *
  rcases h with h | h
  · have := Nat.mul_le_mul_right batch h
    rw [Nat.add_mul] at this
    omega
  · have := Nat.mul_le_mul_right batch h
    rw [Nat.add_mul] at this
    omega

theorem served_disjoint_same {heap heap' : Heap} {trees trees' : Trees}
    {size ptr o u : Nat} {other : Grant} (hserved : Served heap heap' trees trees' size ptr o)
    (hother : Placed trees other)
    (hsame : 1024 < ceilPower2 other.size ↔ 1024 < ceilPower2 size)
    (hu : InBlock u (Grant.mk ptr size).range) : ¬ InBlock u other.range := by
  obtain ⟨o', haddr, hmem, -⟩ := hother
  have htree : trees.of other.size = trees.of size := by simp only [Trees.of, gt_iff_lt, hsame]
  have halloc : allocatorOf other.size = allocatorOf size := by
    simp only [allocatorOf, gt_iff_lt, hsame]
  rw [htree] at hmem
  simp only [Grant.range, blockLength, haddr, hserved.addr, halloc] at hu ⊢
  exact disjoint_scaled (a := (o, blockUnits size)) (b := (o', blockUnits other.size))
    (hserved.apart hmem) hu

theorem served_disjoint {heap heap' : Heap} {issued : List Grant} {trees trees' : Trees}
    {size ptr o u : Nat} {other : Grant} (hserved : Served heap heap' trees trees' size ptr o)
    (hinv : Inv heap issued trees) (hother : Placed trees other)
    (hu : InBlock u (Grant.mk ptr size).range) : ¬ InBlock u other.range := by
  have hplaced := hserved.placed hinv
  rcases Nat.lt_or_ge 1024 (ceilPower2 size) with hpage | hsmall <;>
    rcases Nat.lt_or_ge 1024 (ceilPower2 other.size) with hpage' | hsmall'
  · exact served_disjoint_same hserved hother (by omega) hu
  · have hfirst := placed_page_region hplaced hpage
    have hsecond := placed_small_region hother hsmall'
    simp only [InBlock, pageStart, smallEnd] at *
    omega
  · have hfirst := placed_small_region hplaced hsmall
    have hsecond := placed_page_region hother hpage'
    simp only [InBlock, pageStart, smallEnd] at *
    omega
  · exact served_disjoint_same hserved hother (by omega) hu

theorem blockLength_pow {size e b : Nat} (he : ceilPower2 size = 2 ^ e)
    (hb : (allocatorOf size).batchSize = 2 ^ b) : blockLength size = 2 ^ max e b := by
  simp only [blockLength, blockUnits, he, hb]
  rcases Nat.lt_or_ge e b with hlt | hge
  · rw [Nat.div_eq_of_lt (Nat.pow_lt_pow_right (by norm_num) hlt), max_eq_right hlt.le]
    simp
  · rw [Nat.pow_div hge (by norm_num), max_eq_left Nat.one_le_two_pow, max_eq_left hge,
      ← pow_add, Nat.sub_add_cancel hge]

/-- The address is a multiple of the rounded size: so are the start of the
pool, up to the largest block, and the offset of the block. -/
theorem placed_aligned {trees : Trees} {g : Grant} {e : Nat} (h : Placed trees g)
    (he : ceilPower2 g.size = 2 ^ e) : 2 ^ e ∣ g.range.1 := by
  obtain ⟨b, hb⟩ := batchSize_allocatorOf g.size
  obtain ⟨o, haddr, hmem, -⟩ := h
  obtain ⟨-, -, d, hd, hunits, hdvd⟩ := mem_blocks hmem
  simp only [Nat.sub_zero] at hunits hdvd
  have hlength := blockLength_pow he hb
  have hoffset : 2 ^ e ∣ o * (allocatorOf g.size).batchSize := by
    have hlengthDvd : blockLength g.size ∣ o * (allocatorOf g.size).batchSize := by
      refine Nat.mul_dvd_mul_right ?_ _
      rwa [hunits]
    exact (pow_dvd_pow 2 (le_max_left e b)).trans (hlength ▸ hlengthDvd)
  have hstart : 2 ^ e ∣ (allocatorOf g.size).memStart := by
    rcases Nat.lt_or_ge 1024 (ceilPower2 g.size) with hpage | hsmall
    · have hbits : e ≤ 28 := by
        rw [allocatorOf_page hpage] at hb
        have hbatch : b = 12 := Nat.pow_right_injective le_rfl (hb.symm.trans (by decide))
        have hsum : 2 ^ max e 12 = 2 ^ d * 2 ^ 12 := by
          rw [← hbatch, ← hlength, blockLength, hunits, allocatorOf_page hpage, hb]
        rw [← pow_add] at hsum
        have := Nat.pow_right_injective le_rfl hsum
        omega
      rw [allocatorOf_page hpage]
      exact (pow_dvd_pow 2 hbits).trans (by decide)
    · have hbits : e ≤ 10 := by
        rw [he] at hsmall
        exact (Nat.pow_le_pow_iff_right (by norm_num)).mp (hsmall.trans (by decide))
      rw [allocatorOf_small hsmall]
      exact (pow_dvd_pow 2 hbits).trans (by decide)
  simp only [Grant.range, haddr]
  exact Nat.dvd_add hstart hoffset

theorem contract_of_served {heap heap' : Heap} {issued live : List Grant}
    {trees trees' : Trees} {size ptr o : Nat} (hlow : 1 ≤ size) (hhigh : size ≤ 2 ^ 63)
    (hserved : Served heap heap' trees trees' size ptr o) (hinv : Inv heap issued trees)
    (hlive : ∀ g ∈ live, g ∈ issued) : Contract live ⟨ptr, size⟩ := by
  obtain ⟨e, -, hceil, hle, -⟩ := ceilPower2_spec size hlow hhigh
  obtain ⟨b, hb⟩ := batchSize_allocatorOf size
  have hplaced := hserved.placed hinv
  refine ⟨?_, placed_small_region hplaced, placed_page_region hplaced, ?_, ?_, ?_⟩
  · rw [blockLength_pow hceil hb]
    exact hle.trans (Nat.pow_le_pow_right (by norm_num) (le_max_left e b))
  · rw [hceil]
    exact placed_aligned hplaced hceil
  · intro hpage
    simp only [Grant.range, hserved.addr, allocatorOf_page hpage, pagePool, pageBegin]
    omega
  · intro other hother u hu
    exact served_disjoint hserved hinv (hinv.placed other (hlive other hother)) hu

theorem live_subset_issued {allowed : Run → Action → Prop} {r : Run}
    (h : ReachableUnder system allowed r) : ∀ g ∈ r.live, g ∈ r.issued := by
  refine ReachableUnder.invariant (P := fun r => ∀ g ∈ r.live, g ∈ r.issued) ?_ ?_ h
  · rintro r ⟨memory, -, -, hlive⟩ g hg
    simp [hlive] at hg
  · intro r a r' hsub _ hstep g hg
    cases a with
    | kalloc size =>
        obtain ⟨-, ptr, heap, -, rfl⟩ := hstep
        rcases List.mem_cons.mp hg with rfl | hold
        · exact List.mem_cons_self
        · exact List.mem_cons_of_mem _ (hsub g hold)
    | kfree ptr =>
        obtain ⟨-, heap, -, rfl⟩ := hstep
        exact hsub g (List.mem_filter.mp hg).1

/-- The contract of `kalloc` in every run with sizes from `1` to `2 ^ 63`, and
the routing of every pointer given to `kfree`. -/
theorem kalloc_contract (r : Run) (h : ReachableUnder system SizeAllowed r) :
    (∀ size ptr heap, 1 ≤ size → size ≤ 2 ^ 63 → kalloc r.heap size = some (ptr, heap) →
      Contract r.live ⟨ptr, size⟩ ∧ Routed heap ⟨ptr, size⟩) ∧
    ∀ g ∈ r.issued, Routed r.heap g := by
  obtain ⟨trees, hinv⟩ := inv_of_reachable h
  constructor
  · intro size ptr heap hlow hhigh halloc
    obtain ⟨trees', o, hserved⟩ := kalloc_served (by omega) hinv halloc
    exact ⟨contract_of_served hlow hhigh hserved hinv (live_subset_issued h),
      placed_routed heap (hserved.placed hinv)⟩
  · intro g hg
    exact placed_routed r.heap (hinv.placed g hg)

theorem kalloc_isSome_iff {heap : Heap} {issued : List Grant} {trees : Trees} {size e : Nat}
    (hinv : Inv heap issued trees)
    (hunits : IsUnits (ceilPower2 size / (allocatorOf size).batchSize) e) :
    (kalloc heap size).isSome = true ↔ e + 1 ≤ (trees.of size).largest := by
  have hrefines := alloc_refines (by norm_num) hunits (hinv.poolOf size)
  rw [kalloc_eq, Option.isSome_map]
  split at hrefines
  · next hroom =>
      obtain ⟨g, halloc, -⟩ := hrefines
      simp only [halloc, Option.isSome_some, hroom]
  · next hfull =>
      simp only [hrefines, Option.isSome_none, Bool.false_eq_true, hfull]

theorem initKernelHeap_succeeds (memory : Heap) : ∃ heap, initKernelHeap memory = some heap := by
  have hne : pageStart - pageBegin ≠ 0 := by norm_num [pageStart, pageBegin]
  have hunits : IsUnits (2 ^ 12) 12 := ⟨by norm_num, by norm_num⟩
  have hrefines := alloc_refines (by norm_num) hunits
    (init_refines 16 (by norm_num) memory.kpage)
  rw [if_pos (by simp [Buddy.largest]), alloc_free_offset] at hrefines
  obtain ⟨pool, halloc, -⟩ := hrefines
  have hpage : pagePool.init memory.kpage (pageStart - pageBegin) = some pool := by
    rw [Allocator.init, if_pos hne, reservedUnits, capacity_pagePool, halloc, Option.bind_some,
      if_pos rfl]
  have hsmall : smallPool.init memory.ksmall 0 =
      some (BuddyPool.init smallPool.capacity memory.ksmall) := by
    rw [Allocator.init, if_neg (by simp)]
  exact ⟨_, by rw [initKernelHeap, hpage, hsmall, Option.bind_some, Option.map_some]⟩

/-- A request for one unit of the pool that serves `size`. -/
def unitSize (size : Nat) : Nat := if 1024 < ceilPower2 size then 4096 else 1

theorem ceilPower2_unitSize (size : Nat) : ceilPower2 (unitSize size) = unitSize size := by
  unfold unitSize
  split
  · exact ceilPower2_of_le (e := 11) (by norm_num) (by norm_num) (by norm_num)
  · exact ceilPower2_one

theorem unitSize_pool (size : Nat) :
    1024 < ceilPower2 (unitSize size) ↔ 1024 < ceilPower2 size := by
  rw [ceilPower2_unitSize]
  unfold unitSize
  split <;> omega

theorem of_unitSize (trees : Trees) (size : Nat) :
    trees.of (unitSize size) = trees.of size := by
  simp only [Trees.of, gt_iff_lt, unitSize_pool]

theorem isUnits_unitSize (size : Nat) :
    IsUnits (ceilPower2 (unitSize size) / (allocatorOf (unitSize size)).batchSize) 0 := by
  have halloc : allocatorOf (unitSize size) = allocatorOf size := by
    simp only [allocatorOf, gt_iff_lt, unitSize_pool]
  rw [ceilPower2_unitSize, halloc]
  unfold unitSize allocatorOf
  split <;> norm_num [IsUnits, pagePool, smallPool]

theorem blockUnits_unitSize (size : Nat) : blockUnits (unitSize size) = 1 :=
  (isUnits_unitSize size).1

theorem unitSize_lt (size : Nat) : unitSize size < 2 ^ 64 := by
  unfold unitSize
  split <;> norm_num

/-- Serve a list of requests. -/
def kallocAll (heap : Heap) : List Nat → Option Heap
  | [] => some heap
  | size :: rest => (kalloc heap size).bind fun result => kallocAll result.2 rest

/-- Exactly the same sequences of requests succeed from both heaps. -/
def SameRequests (heap heap' : Heap) : Prop :=
  ∀ sizes : List Nat, (∀ size ∈ sizes, size < 2 ^ 64) →
    ((kallocAll heap sizes).isSome = true ↔ (kallocAll heap' sizes).isSome = true)

/-- Allocate and release one block `rounds` times. -/
def churn (heap : Heap) (size : Nat) : Nat → Option Heap
  | 0 => some heap
  | rounds + 1 => (kalloc heap size).bind fun result =>
      (kfree result.2 result.1).bind fun heap' => churn heap' size rounds

theorem kallocAll_units {heap : Heap} {issued : List Grant} {trees : Trees} (size m : Nat)
    (hinv : Inv heap issued trees) :
    (kallocAll heap (List.replicate m (unitSize size))).isSome = true ↔
      m ≤ (trees.of size).freeUnits := by
  induction m generalizing heap issued trees with
  | zero => simp [kallocAll]
  | succ m ih =>
      have hiff := kalloc_isSome_iff hinv (isUnits_unitSize size)
      have hpos := largest_pos_iff (trees.of size)
      rw [of_unitSize] at hiff
      rw [List.replicate_succ, kallocAll]
      rcases halloc : kalloc heap (unitSize size) with _ | ⟨ptr, heap'⟩
      · simp only [halloc, Option.isSome_none, Bool.false_eq_true, false_iff] at hiff
        simp only [Option.bind_none, Option.isSome_none, Bool.false_eq_true, false_iff]
        omega
      · obtain ⟨trees', o, hserved⟩ := kalloc_served (unitSize_lt size) hinv halloc
        have hfree := hserved.freeUnits
        rw [of_unitSize, of_unitSize, blockUnits_unitSize] at hfree
        simp only [Option.bind_some]
        rw [ih (hserved.inv hinv)]
        omega

/-- A served request leaves fewer free units behind, and `kfree` does not
bring them back. -/
theorem not_sameRequests {heap heap₁ heap₂ : Heap} {issued : List Grant} {trees : Trees}
    {size ptr : Nat} (hinv : Inv heap issued trees) (hsize : size < 2 ^ 64)
    (halloc : kalloc heap size = some (ptr, heap₁)) (hfree : kfree heap₁ ptr = some heap₂) :
    ¬ SameRequests heap heap₂ := by
  obtain ⟨trees', o, hserved⟩ := kalloc_served hsize hinv halloc
  rw [kfree_eq_self hfree]
  intro hsame
  have hunits : ∀ s ∈ List.replicate (trees.of size).freeUnits (unitSize size), s < 2 ^ 64 := by
    intro s hs
    rw [List.eq_of_mem_replicate hs]
    exact unitSize_lt size
  have hsome := (hsame _ hunits).mp ((kallocAll_units size _ hinv).mpr le_rfl)
  have hle := (kallocAll_units size _ (hserved.inv hinv)).mp hsome
  have hless := hserved.freeUnits
  have hpos := blockUnits_pos size
  omega

theorem churn_eq_none {heap : Heap} {issued : List Grant} {trees : Trees} {size : Nat}
    (hsize : size < 2 ^ 64) (rounds : Nat) (hrounds : (trees.of size).freeUnits < rounds)
    (hinv : Inv heap issued trees) : churn heap size rounds = none := by
  induction rounds generalizing heap issued trees with
  | zero => omega
  | succ rounds ih =>
      rw [churn]
      rcases halloc : kalloc heap size with _ | ⟨ptr, heap'⟩
      · rw [Option.bind_none]
      · obtain ⟨trees', o, hserved⟩ := kalloc_served hsize hinv halloc
        have hless := hserved.freeUnits
        have hpos := blockUnits_pos size
        rw [Option.bind_some]
        rcases hfree : kfree heap' ptr with _ | heap''
        · rw [Option.bind_none]
        · rw [Option.bind_some, kfree_eq_self hfree]
          exact ih (by omega) (hserved.inv hinv)

/-- The heap right after boot. -/
def AtBoot (r : Run) : Prop :=
  initKernelHeap ⟨fun _ => 0, fun _ => 0⟩ = some r.heap ∧ r.issued = [] ∧ r.live = []

theorem exists_atBoot : ∃ r, AtBoot r := by
  obtain ⟨heap, hheap⟩ := initKernelHeap_succeeds ⟨fun _ => 0, fun _ => 0⟩
  exact ⟨⟨heap, [], []⟩, hheap, rfl, rfl⟩

theorem AtBoot.reachable {allowed : Run → Action → Prop} {r : Run} (h : AtBoot r) :
    ReachableUnder system allowed r :=
  ReachableUnder.start ⟨_, h⟩

theorem unitSize_zero : unitSize 0 = 1 := by simp [unitSize, ceilPower2_zero]

theorem serves_byte {heap : Heap} {issued : List Grant} {trees : Trees}
    (hinv : Inv heap issued trees) (hfree : 0 < (trees.of 1).freeUnits) :
    ∃ ptr heap₁ heap₂, kalloc heap 1 = some (ptr, heap₁) ∧ kfree heap₁ ptr = some heap₂ := by
  have hunits := isUnits_unitSize 0
  rw [unitSize_zero] at hunits
  have hroom : 0 + 1 ≤ (trees.of 1).largest := (largest_pos_iff _).mpr hfree
  obtain ⟨⟨ptr, heap₁⟩, halloc⟩ :=
    Option.isSome_iff_exists.mp ((kalloc_isSome_iff hinv hunits).mpr hroom)
  obtain ⟨trees', o, hserved⟩ := kalloc_served (by norm_num) hinv halloc
  have hrouted := (placed_routed heap₁ (hserved.placed hinv)).2
  obtain ⟨heap₂, hfree⟩ := Option.ne_none_iff_exists'.mp hrouted
  exact ⟨ptr, heap₁, heap₂, halloc, hfree⟩

theorem freeUnits_atBoot (t : Buddy 16) : ((Trees.mk .free t).of 1).freeUnits = 2 ^ 16 := by
  simp [Trees.of, ceilPower2_one, Buddy.freeUnits]

theorem AtBoot.serves {r : Run} (h : AtBoot r) : ∃ ptr heap₁ heap₂,
    kalloc r.heap 1 = some (ptr, heap₁) ∧ kfree heap₁ ptr = some heap₂ := by
  obtain ⟨t, hinv⟩ := initKernelHeap_inv h.1
  exact serves_byte hinv (by rw [freeUnits_atBoot]; norm_num)

/-- In every reachable heap and for every size that can be served, a
`kalloc` followed by the `kfree` of its result loses requests that could be
served before, and repeating the pair reaches the failing assertion. -/
theorem kfree_releases_nothing (r : Run) (h : Reachable system r) (size ptr : Nat)
    (heap₁ heap₂ : Heap) (hsize : size < 2 ^ 64)
    (halloc : kalloc r.heap size = some (ptr, heap₁)) (hfree : kfree heap₁ ptr = some heap₂) :
    ¬ SameRequests r.heap heap₂ ∧ ∃ rounds, churn r.heap size rounds = none := by
  obtain ⟨trees, hinv⟩ := inv_of_reachable h
  exact ⟨not_sameRequests hinv hsize halloc hfree,
    _, churn_eq_none hsize _ (Nat.lt_succ_self _) hinv⟩

theorem kfree_releases_nothing_atBoot : ∃ r ptr heap₁ heap₂, AtBoot r ∧
    kalloc r.heap 1 = some (ptr, heap₁) ∧ kfree heap₁ ptr = some heap₂ ∧
      ¬ SameRequests r.heap heap₂ ∧ ∃ rounds, churn r.heap 1 rounds = none := by
  obtain ⟨r, hboot⟩ := exists_atBoot
  obtain ⟨ptr, heap₁, heap₂, halloc, hfree⟩ := hboot.serves
  exact ⟨r, ptr, heap₁, heap₂, hboot, halloc, hfree,
    kfree_releases_nothing r hboot.reachable 1 ptr heap₁ heap₂ (by norm_num) halloc hfree⟩

theorem kfree_loses_block_atBoot :
    ¬ ∀ r size ptr heap₁ heap₂, Reachable system r → size < 2 ^ 64 →
      kalloc r.heap size = some (ptr, heap₁) → kfree heap₁ ptr = some heap₂ →
        SameRequests r.heap heap₂ := by
  intro hall
  obtain ⟨r, hboot⟩ := exists_atBoot
  obtain ⟨ptr, heap₁, heap₂, halloc, hfree⟩ := hboot.serves
  obtain ⟨t, hinv⟩ := initKernelHeap_inv hboot.1
  exact not_sameRequests hinv (by norm_num) halloc hfree
    (hall r 1 ptr heap₁ heap₂ hboot.reachable (by norm_num) halloc hfree)

/-- A second block of one byte, while the first is live. -/
theorem kalloc_contract_secondByte : ∃ r other ptr heap, ReachableUnder system SizeAllowed r ∧
    r.live = [other] ∧ kalloc r.heap 1 = some (ptr, heap) ∧ Contract [other] ⟨ptr, 1⟩ ∧
      Routed heap ⟨ptr, 1⟩ := by
  obtain ⟨r, hboot⟩ := exists_atBoot
  obtain ⟨t, hinv⟩ := initKernelHeap_inv hboot.1
  obtain ⟨first, heap₁, -, halloc, -⟩ := hboot.serves
  let r₁ : Run := ⟨heap₁, ⟨first, 1⟩ :: r.issued, ⟨first, 1⟩ :: r.live⟩
  have hr₁ : ReachableUnder system SizeAllowed r₁ :=
    hboot.reachable.step (show SizeAllowed r (.kalloc 1) from ⟨le_rfl, by norm_num⟩)
      ⟨by norm_num, first, heap₁, halloc, rfl⟩
  have hlive : r₁.live = [⟨first, 1⟩] := by rw [← hboot.2.2]
  obtain ⟨trees', o, hserved⟩ := kalloc_served (by norm_num) hinv halloc
  have hfree : 0 < (trees'.of 1).freeUnits := by
    have hless := hserved.freeUnits
    have hunit := blockUnits_unitSize 0
    rw [unitSize_zero] at hunit
    rw [freeUnits_atBoot, hunit] at hless
    omega
  obtain ⟨ptr, heap₂, -, hsecond, -⟩ := serves_byte (hserved.inv hinv) hfree
  have hcontract := (kalloc_contract r₁ hr₁).1 1 ptr heap₂ le_rfl (by norm_num) hsecond
  rw [hlive] at hcontract
  exact ⟨r₁, ⟨first, 1⟩, ptr, heap₂, hr₁, hlive, hsecond, hcontract⟩

end LabKernel.KernelHeapContract
