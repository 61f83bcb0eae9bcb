import LabKernel.BuddySafety

/-!
The kernel heap of `kalloc.cpp`: two instances of `Allocator` over buddy
pools, chosen by the rounded size on allocation and by the address on release.
-/

namespace LabKernel.KernelHeap

open LabKernel.Rounding
open LabKernel.BuddyTree
open LabKernel.BuddyRefinement
open LabKernel.TransitionSystem

/-- The parameters of the class template `Allocator`. -/
structure Allocator where
  batchSize : Nat
  memStart : Nat
  memEnd : Nat

def Allocator.capacity (a : Allocator) : Nat := (a.memEnd - a.memStart) / a.batchSize

/-- `Allocator::init(used)`. -/
def Allocator.init (a : Allocator) (memory : Nat → Nat) (used : Nat) : Option (Nat → Nat) :=
  let pool := BuddyPool.init a.capacity memory
  if used ≠ 0 then
    (BuddyPool.alloc a.capacity pool (ceilPower2 used / a.batchSize)).bind fun result =>
      if result.1 = 0 then some result.2 else none
  else some pool

/-- `Allocator::alloc`. -/
def Allocator.alloc (a : Allocator) (pool : Nat → Nat) (size : Nat) :
    Option (Nat × (Nat → Nat)) :=
  (BuddyPool.alloc a.capacity pool (size / a.batchSize)).map fun result =>
    (a.memStart + result.1 * a.batchSize, result.2)

/-- `Allocator::free`: the unit offset is computed and then dropped. -/
def Allocator.free (a : Allocator) (pool : Nat → Nat) (ptr : Nat) : Option (Nat → Nat) :=
  let offset := (ptr + 2 ^ 64 - a.memStart) % 2 ^ 64
  if offset % a.batchSize = 0 then some pool else none

def smallBegin : Nat := 0x50800000
def smallEnd : Nat := 0x51000000
def pageStart : Nat := 0x51000000
def pageBegin : Nat := 0x50000000
def pageEnd : Nat := 0x60000000

/-- `SMALL_POOL`. -/
def smallPool : Allocator := ⟨128, smallBegin, smallEnd⟩

/-- `PAGE_POOL`. -/
def pagePool : Allocator := ⟨4096, pageBegin, pageEnd⟩

def kernelMask : Nat := 0xffffffc000000000

def kva2pa (kva : Nat) : Nat := (kva + 2 ^ 64 - kernelMask) % 2 ^ 64

def pa2kva (pa : Nat) : Nat := (pa + kernelMask) % 2 ^ 64

/-- The arrays of `ksmall` and `kpage`. -/
structure Heap where
  ksmall : Nat → Nat
  kpage : Nat → Nat

/-- `init_kernel_heap` on arbitrary memory. -/
def initKernelHeap (memory : Heap) : Option Heap :=
  (smallPool.init memory.ksmall 0).bind fun ksmall =>
    (pagePool.init memory.kpage (pageStart - pageBegin)).map fun kpage => ⟨ksmall, kpage⟩

def kalloc (heap : Heap) (size : Nat) : Option (Nat × Heap) :=
  let size := ceilPower2 size
  if size > 1024 then
    (pagePool.alloc heap.kpage size).map fun result =>
      (pa2kva result.1, { heap with kpage := result.2 })
  else
    (smallPool.alloc heap.ksmall size).map fun result =>
      (pa2kva result.1, { heap with ksmall := result.2 })

def kfree (heap : Heap) (ptr : Nat) : Option Heap :=
  let ptr := kva2pa ptr
  if ptr < pageStart then
    (smallPool.free heap.ksmall ptr).map fun ksmall => { heap with ksmall := ksmall }
  else
    (pagePool.free heap.kpage ptr).map fun kpage => { heap with kpage := kpage }

/-- The pool that serves a request. -/
def allocatorOf (size : Nat) : Allocator :=
  if ceilPower2 size > 1024 then pagePool else smallPool

/-- The number of units of the block that serves a request. -/
def blockUnits (size : Nat) : Nat := max (ceilPower2 size / (allocatorOf size).batchSize) 1

/-- The length in bytes of the block that serves a request. -/
def blockLength (size : Nat) : Nat := blockUnits size * (allocatorOf size).batchSize

/-- A pointer returned by `kalloc` together with the size asked for. -/
structure Grant where
  ptr : Nat
  size : Nat

/-- The physical range of the block behind a pointer. -/
def Grant.range (g : Grant) : Nat × Nat := (kva2pa g.ptr, blockLength g.size)

/-- The heap, every pointer returned so far, and those of them not yet passed
to `kfree`. -/
structure Run where
  heap : Heap
  issued : List Grant
  live : List Grant

inductive Action where
  | kalloc (size : Nat)
  | kfree (ptr : Nat)

def Step (r : Run) : Action → Run → Prop
  | .kalloc size, r' => size < 2 ^ 64 ∧ ∃ ptr heap,
      kalloc r.heap size = some (ptr, heap) ∧
        r' = ⟨heap, ⟨ptr, size⟩ :: r.issued, ⟨ptr, size⟩ :: r.live⟩
  | .kfree ptr, r' => (∃ g ∈ r.issued, g.ptr = ptr) ∧ ∃ heap,
      kfree r.heap ptr = some heap ∧
        r' = ⟨heap, r.issued, r.live.filter fun g => g.ptr ≠ ptr⟩

/-- All runs of the heap after `init_kernel_heap`. -/
def system : System Run Action where
  start r := ∃ memory, initKernelHeap memory = some r.heap ∧ r.issued = [] ∧ r.live = []
  step := Step

theorem kva2pa_pa2kva (pa : Nat) (h : pa < 2 ^ 64) : kva2pa (pa2kva pa) = pa := by
  simp only [kva2pa, pa2kva, kernelMask]
  omega

theorem capacity_smallPool : smallPool.capacity = 2 ^ 16 := by decide

theorem capacity_pagePool : pagePool.capacity = 2 ^ 16 := by decide

theorem batchSize_allocatorOf (size : Nat) : ∃ b, (allocatorOf size).batchSize = 2 ^ b := by
  unfold allocatorOf
  split
  · exact ⟨12, by decide⟩
  · exact ⟨7, by decide⟩

theorem pow_div_units (e b : Nat) (he : e ≤ 63) : IsUnits (2 ^ e / 2 ^ b) (e - b) := by
  refine ⟨?_, by omega⟩
  rcases Nat.lt_or_ge e b with hlt | hge
  · rw [Nat.div_eq_of_lt (Nat.pow_lt_pow_right (by norm_num) hlt), Nat.sub_eq_zero_of_le hlt.le]
    rfl
  · rw [Nat.pow_div hge (by norm_num)]
    exact max_eq_left Nat.one_le_two_pow

theorem isUnits_request (size : Nat) (hsize : size < 2 ^ 64) :
    ∃ e, IsUnits (ceilPower2 size / (allocatorOf size).batchSize) e := by
  obtain ⟨b, hb⟩ := batchSize_allocatorOf size
  rw [hb]
  rcases ceilPower2_cases size hsize with hzero | ⟨e, he, hpow⟩
  · exact ⟨0, by simp [IsUnits, hzero]⟩
  · exact ⟨e - b, hpow ▸ pow_div_units e b he⟩

/-- The array that serves a request. -/
def Heap.poolOf (heap : Heap) (size : Nat) : Nat → Nat :=
  if ceilPower2 size > 1024 then heap.kpage else heap.ksmall

/-- The heap after its pool for `size` was changed. -/
def Heap.setPool (heap : Heap) (size : Nat) (pool : Nat → Nat) : Heap :=
  if ceilPower2 size > 1024 then { heap with kpage := pool } else { heap with ksmall := pool }

theorem kalloc_eq (heap : Heap) (size : Nat) :
    kalloc heap size =
      (BuddyPool.alloc (2 ^ 16) (heap.poolOf size)
        (ceilPower2 size / (allocatorOf size).batchSize)).map fun result =>
        (pa2kva ((allocatorOf size).memStart + result.1 * (allocatorOf size).batchSize),
          heap.setPool size result.2) := by
  simp only [kalloc, Heap.poolOf, Heap.setPool, Allocator.alloc]
  split
  · next hpage => simp [allocatorOf, hpage, capacity_pagePool, Function.comp_def]
  · next hsmall => simp [allocatorOf, hsmall, capacity_smallPool, Function.comp_def]

theorem kfree_eq_self {heap heap' : Heap} {ptr : Nat} (h : kfree heap ptr = some heap') :
    heap' = heap := by
  simp only [kfree, Allocator.free] at h
  split at h <;> split at h <;> simp only [Option.map_some, Option.map_none, Option.some.injEq,
    reduceCtorEq] at h <;> exact h.symm

/-- The trees behind the two pools. -/
structure Trees where
  small : Buddy 16
  page : Buddy 16

def Trees.of (trees : Trees) (size : Nat) : Buddy 16 :=
  if ceilPower2 size > 1024 then trees.page else trees.small

def Trees.set (trees : Trees) (size : Nat) (t : Buddy 16) : Trees :=
  if ceilPower2 size > 1024 then { trees with page := t } else { trees with small := t }

/-- The pointer stands for a used leaf of the tree of its pool, in the page
pool for one behind the reserved prefix. -/
def Placed (trees : Trees) (g : Grant) : Prop :=
  ∃ o, kva2pa g.ptr = (allocatorOf g.size).memStart + o * (allocatorOf g.size).batchSize ∧
    (o, blockUnits g.size) ∈ (trees.of g.size).blocks 0 ∧
      (1024 < ceilPower2 g.size → 2 ^ 12 ≤ o)

/-- The pools represent trees in which every pointer ever returned is still a
used leaf, and so is the prefix reserved at boot, at the start of the page
pool. -/
structure Inv (heap : Heap) (issued : List Grant) (trees : Trees) : Prop where
  small : Repr heap.ksmall 0 trees.small
  page : Repr heap.kpage 0 trees.page
  reserved : (0, 2 ^ 12) ∈ trees.page.blocks 0
  placed : ∀ g ∈ issued, Placed trees g

theorem Inv.poolOf {heap : Heap} {issued : List Grant} {trees : Trees}
    (h : Inv heap issued trees) (size : Nat) : Repr (heap.poolOf size) 0 (trees.of size) := by
  unfold Heap.poolOf Trees.of
  split
  · exact h.page
  · exact h.small

/-- What one successful `kalloc` did to the trees: the new leaf `(o, units)`
was free and the pointer is its address. -/
structure Served (heap heap' : Heap) (trees trees' : Trees) (size ptr o : Nat) : Prop where
  small : Repr heap'.ksmall 0 trees'.small
  page : Repr heap'.kpage 0 trees'.page
  leaf : ((trees'.of size).blocks 0).Perm ((o, blockUnits size) :: (trees.of size).blocks 0)
  small_mono : trees.small.blocks 0 ⊆ trees'.small.blocks 0
  page_mono : trees.page.blocks 0 ⊆ trees'.page.blocks 0
  freeUnits : (trees'.of size).freeUnits + blockUnits size = (trees.of size).freeUnits
  addr : kva2pa ptr = (allocatorOf size).memStart + o * (allocatorOf size).batchSize

theorem addr_lt {size o u : Nat} (h : o + u ≤ 2 ^ 16) :
    (allocatorOf size).memStart + o * (allocatorOf size).batchSize < 2 ^ 64 := by
  unfold allocatorOf
  split
  · simp only [pagePool, pageBegin]
    omega
  · simp only [smallPool, smallBegin]
    omega

theorem Trees.of_set (trees : Trees) (size : Nat) (t : Buddy 16) :
    (trees.set size t).of size = t := by
  unfold Trees.set Trees.of
  split <;> rfl

theorem kalloc_served {heap heap' : Heap} {issued : List Grant} {trees : Trees}
    {size ptr : Nat} (hsize : size < 2 ^ 64) (hinv : Inv heap issued trees)
    (h : kalloc heap size = some (ptr, heap')) :
    ∃ trees' o, Served heap heap' trees trees' size ptr o := by
  obtain ⟨e, hunits⟩ := isUnits_request size hsize
  rw [kalloc_eq, Option.map_eq_some_iff] at h
  obtain ⟨⟨o, pool⟩, halloc, hresult⟩ := h
  simp only [Prod.mk.injEq] at hresult
  obtain ⟨rfl, rfl⟩ := hresult
  obtain ⟨hroom, rfl, hrepr⟩ := BuddySafety.alloc_inv (by norm_num) hunits (hinv.poolOf size) halloc
  have hperm := blocks_alloc (trees.of size) hroom 0
  rw [Nat.zero_add, ← hunits.1] at hperm
  have hfree := freeUnits_alloc (trees.of size) hroom
  rw [← hunits.1] at hfree
  have hmono : (trees.of size).blocks 0 ⊆ (Buddy.alloc e 16 (trees.of size)).1.blocks 0 :=
    fun b hb => hperm.mem_iff.mpr (List.mem_cons_of_mem _ hb)
  have hrange := mem_blocks (hperm.mem_iff.mpr List.mem_cons_self)
  refine ⟨trees.set size (Buddy.alloc e 16 (trees.of size)).1, _, ?_, ?_, ?_, ?_, ?_, ?_,
    kva2pa_pa2kva _ (addr_lt (by simpa using hrange.2.1))⟩
  · unfold Heap.setPool Trees.set
    split
    · exact hinv.small
    · exact hrepr
  · unfold Heap.setPool Trees.set
    split
    · exact hrepr
    · exact hinv.page
  · rw [Trees.of_set]
    exact hperm
  · unfold Trees.set
    split
    · exact fun _ hb => hb
    · next hsmall => simpa [Trees.of, hsmall] using hmono
  · unfold Trees.set
    split
    · next hpage => simpa [Trees.of, hpage] using hmono
    · exact fun _ hb => hb
  · rw [Trees.of_set]
    exact hfree

theorem Served.apart {heap heap' : Heap} {trees trees' : Trees} {size ptr o : Nat}
    (h : Served heap heap' trees trees' size ptr o) {b : Nat × Nat}
    (hb : b ∈ (trees.of size).blocks 0) : Apart (o, blockUnits size) b := by
  have hapart := (h.leaf.pairwise_iff Apart.symm).mp (blocks_pairwise _ 0)
  exact (List.pairwise_cons.mp hapart).1 b hb

theorem blockUnits_pos (size : Nat) : 0 < blockUnits size := by
  simp only [blockUnits]
  omega

theorem Served.placed {heap heap' : Heap} {issued : List Grant} {trees trees' : Trees}
    {size ptr o : Nat} (h : Served heap heap' trees trees' size ptr o)
    (hinv : Inv heap issued trees) : Placed trees' ⟨ptr, size⟩ := by
  refine ⟨o, h.addr, h.leaf.mem_iff.mpr List.mem_cons_self, ?_⟩
  intro hpage
  have hreserved : (0, 2 ^ 12) ∈ (trees.of size).blocks 0 := by
    simpa only [Trees.of, gt_iff_lt, hpage, if_true] using hinv.reserved
  have hapart := h.apart hreserved
  have hpos := blockUnits_pos size
  simp only [Apart] at hapart
  omega

theorem Served.of_mono {heap heap' : Heap} {trees trees' : Trees} {size ptr o : Nat}
    (h : Served heap heap' trees trees' size ptr o) (size' : Nat) :
    (trees.of size').blocks 0 ⊆ (trees'.of size').blocks 0 := by
  unfold Trees.of
  split
  · exact h.page_mono
  · exact h.small_mono

theorem Served.inv {heap heap' : Heap} {issued : List Grant} {trees trees' : Trees}
    {size ptr o : Nat} (h : Served heap heap' trees trees' size ptr o)
    (hinv : Inv heap issued trees) : Inv heap' (⟨ptr, size⟩ :: issued) trees' := by
  refine ⟨h.small, h.page, h.page_mono hinv.reserved, ?_⟩
  intro g hg
  rcases List.mem_cons.mp hg with rfl | hold
  · exact h.placed hinv
  · obtain ⟨o', haddr, hmem, hbeyond⟩ := hinv.placed g hold
    exact ⟨o', haddr, h.of_mono g.size hmem, hbeyond⟩

theorem alloc_fresh {n e o : Nat} {memory pool : Nat → Nat} (hlow : 1 ≤ n) (hhigh : n < 64)
    (he : e < 64)
    (h : BuddyPool.alloc (2 ^ n) (BuddyPool.init (2 ^ n) memory) (2 ^ e) = some (o, pool)) :
    ∃ t : Buddy n, Repr pool 0 t ∧ (o, 2 ^ e) ∈ t.blocks 0 := by
  have hunits : IsUnits (2 ^ e) e := ⟨max_eq_left Nat.one_le_two_pow, he⟩
  obtain ⟨hroom, hoffset, hrepr⟩ :=
    BuddySafety.alloc_inv hhigh hunits (init_refines n hlow memory) h
  have hperm := blocks_alloc (Buddy.free : Buddy n) hroom 0
  rw [← hoffset, Nat.zero_add] at hperm
  exact ⟨_, hrepr, hperm.mem_iff.mpr List.mem_cons_self⟩

theorem reservedUnits : ceilPower2 (pageStart - pageBegin) / pagePool.batchSize = 2 ^ 12 := by
  have hsize : pageStart - pageBegin = 2 ^ 24 := by norm_num [pageStart, pageBegin]
  have hceil : ceilPower2 (2 ^ 24) = 2 ^ 24 :=
    ceilPower2_of_le (e := 23) (by norm_num) (by norm_num) (by norm_num)
  rw [hsize, hceil]
  norm_num [pagePool]

theorem pagePool_init_inv {memory kpage : Nat → Nat}
    (h : pagePool.init memory (pageStart - pageBegin) = some kpage) :
    ∃ t : Buddy 16, Repr kpage 0 t ∧ (0, 2 ^ 12) ∈ t.blocks 0 := by
  have hne : pageStart - pageBegin ≠ 0 := by norm_num [pageStart, pageBegin]
  rw [Allocator.init, if_pos hne, Option.bind_eq_some_iff, reservedUnits,
    capacity_pagePool] at h
  obtain ⟨⟨o, pool⟩, halloc, hzero⟩ := h
  rw [Option.ite_none_right_eq_some] at hzero
  obtain ⟨ho, hpool⟩ := hzero
  have hfresh := alloc_fresh (by norm_num) (by norm_num) (by norm_num) halloc
  rwa [show o = 0 from ho, show pool = kpage from Option.some.inj hpool] at hfresh

theorem initKernelHeap_inv {memory heap : Heap} (h : initKernelHeap memory = some heap) :
    ∃ t, Inv heap [] ⟨.free, t⟩ := by
  rw [initKernelHeap, Option.bind_eq_some_iff] at h
  obtain ⟨ksmall, hsmall, hpage⟩ := h
  rw [Option.map_eq_some_iff] at hpage
  obtain ⟨kpage, hpage, hheap⟩ := hpage
  rw [Allocator.init, if_neg (by simp), capacity_smallPool] at hsmall
  obtain ⟨t, hrepr, hmem⟩ := pagePool_init_inv hpage
  have hfresh : Repr ksmall 0 (Buddy.free : Buddy 16) := by
    rw [← Option.some.inj hsmall]
    exact init_refines 16 (by norm_num) memory.ksmall
  subst hheap
  exact ⟨t, hfresh, hrepr, hmem, by simp⟩

theorem inv_step {r r' : Run} {a : Action} (hinv : ∃ trees, Inv r.heap r.issued trees)
    (hstep : Step r a r') : ∃ trees, Inv r'.heap r'.issued trees := by
  obtain ⟨trees, hinv⟩ := hinv
  cases a with
  | kalloc size =>
      obtain ⟨hsize, ptr, heap, halloc, rfl⟩ := hstep
      obtain ⟨trees', o, hserved⟩ := kalloc_served hsize hinv halloc
      exact ⟨trees', hserved.inv hinv⟩
  | kfree ptr =>
      obtain ⟨-, heap, hfree, rfl⟩ := hstep
      rw [kfree_eq_self hfree]
      exact ⟨trees, hinv⟩

theorem inv_of_reachable {allowed : Run → Action → Prop} {r : Run}
    (h : ReachableUnder system allowed r) : ∃ trees, Inv r.heap r.issued trees := by
  refine ReachableUnder.invariant (P := fun r => ∃ trees, Inv r.heap r.issued trees) ?_ ?_ h
  · rintro r ⟨memory, hheap, hissued, -⟩
    rw [hissued]
    obtain ⟨t, hinv⟩ := initKernelHeap_inv hheap
    exact ⟨_, hinv⟩
  · intro r a r' hinv _ hstep
    exact inv_step hinv hstep

end LabKernel.KernelHeap
