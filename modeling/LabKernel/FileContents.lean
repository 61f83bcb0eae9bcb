import LabKernel.CalmMachines

/-!
What is read from an open file is what was written to it, as long as all
transfers stay in the part of the file that the direct pointers of its inode
cover.

A block that is read before it is written is filled with zeros in the cache
only.  The blocks of such a file, the bit map and the inode are few enough
to stay in the cache together, so these zeros are not lost.
-/

namespace LabKernel.FileContents

open LabKernel.BlockCache
open LabKernel.BlockObject
open LabKernel.ByteMemory
open LabKernel.CallSafety
open LabKernel.CalmMachines
open LabKernel.FsCode
open LabKernel.FsLayout
open LabKernel.FsPrimitives
open LabKernel.FsRuns
open LabKernel.ProgramLogic

variable {m m' : Machine Bytes Globals} {T T' : Finset Nat} {W : Set Nat} {ino : UInt32}
  {pointers : Fin 8 → UInt32} {contents : Nat → UInt8}

/-- The blocks that transfers to and from the direct part of a file open. -/
def fileArea (ino : UInt32) (pointers : Fin 8 → UInt32) : Finset Nat :=
  insert (5 + ino.toNat / 64) blockMapArea ∪ Finset.univ.image fun i => (pointers i).toNat

theorem card_fileArea_le (ino : UInt32) (pointers : Fin 8 → UInt32) :
    (fileArea ino pointers).card ≤ 13 := by
  have himage : (Finset.univ.image fun i => (pointers i).toNat).card ≤ 8 :=
    Finset.card_image_le.trans (by simp)
  have hinsert := Finset.card_insert_le (5 + ino.toNat / 64) blockMapArea
  have hfour : blockMapArea.card = 4 := by decide
  have hunion := Finset.card_union_le (insert (5 + ino.toNat / 64) blockMapArea)
    (Finset.univ.image fun i => (pointers i).toNat)
  unfold fileArea
  omega

theorem blockMapArea_subset_fileArea : blockMapArea ⊆ fileArea ino pointers :=
  (Finset.subset_insert _ _).trans Finset.subset_union_left

theorem inodeBlock_mem_fileArea : 5 + ino.toNat / 64 ∈ fileArea ino pointers :=
  Finset.mem_union_left _ (Finset.mem_insert_self _ _)

theorem pointer_mem_fileArea (i : Fin 8) : (pointers i).toNat ∈ fileArea ino pointers :=
  Finset.mem_union_right _ (Finset.mem_image.mpr ⟨i, Finset.mem_univ i, rfl⟩)

theorem fileArea_subset_update {i : Fin 8} (hi : pointers i = 0) (id : UInt32) :
    fileArea ino pointers ⊆ fileArea ino (Function.update pointers i id) := by
  refine Finset.union_subset Finset.subset_union_left ?_
  intro x hx
  obtain ⟨j, -, rfl⟩ := Finset.mem_image.mp hx
  by_cases hji : j = i
  · subst hji
    rw [hi]
    exact blockMapArea_subset_fileArea (by decide)
  · have := @pointer_mem_fileArea ino (Function.update pointers i id) j
    rwa [Function.update_of_ne hji] at this

/-- The direct pointers of inode `ino` lead to blocks of its own. -/
structure Owns (m : Machine Bytes Globals) (ino : UInt32) (pointers : Fin 8 → UInt32) : Prop where
  ready : Ready m
  ino_lt : ino.toNat < maxInodeNum
  range : ∀ i, pointers i ≠ 0 → 517 ≤ (pointers i).toNat ∧ (pointers i).toNat < maxBlockNum
  inj : ∀ i j, pointers i ≠ 0 → pointers i = pointers j → i = j
  stable : ∀ i, pointers i ≠ 0 → Stable (fileArea ino pointers) m (pointers i).toNat
  marked_meta : ∀ n < 517, Marked m n
  marked : ∀ i, pointers i ≠ 0 → Marked m (pointers i).toNat

/-- The blocks behind the direct pointers show the given contents of a file. -/
def Shows (m : Machine Bytes Globals) (pointers : Fin 8 → UInt32) (contents : Bytes) : Prop :=
  ∀ i : Fin 8, ∀ o < 4096, contents (4096 * i + o) =
    if pointers i = 0 then 0 else visible m (pointers i).toNat o

/-- A step that does not write the bit map. -/
theorem Owns.evolves (h : Owns m ino pointers)
    (hev : Evolves (fileArea ino pointers) (fileArea ino pointers) W m m') (h' : Ready m')
    (hmap : ∀ x ∈ W, x < 2 ∨ 5 ≤ x)
    (hown : ∀ x ∈ W, Stable (fileArea ino pointers) m' x ∨ x < 517) : Owns m' ino pointers where
  ready := h'
  ino_lt := h.ino_lt
  range := h.range
  inj := h.inj
  stable i hi := by
    by_cases hmem : (pointers i).toNat ∈ W
    · refine (hown _ hmem).resolve_right ?_
      have := (h.range i hi).1
      omega
    · exact ((h.stable i hi).evolves hev (h.range i hi).2 hmem).2
  marked_meta n hn := by
    refine (h.marked_meta n hn).evolves hev (by rw [maxBlockNum_eq]; omega) fun hmem => ?_
    have := hmap _ hmem
    omega
  marked i hi := (h.marked i hi).evolves hev (h.range i hi).2 fun hmem => by
    have := hmap _ hmem
    have := (h.range i hi).2
    rw [maxBlockNum_eq] at this
    omega

/-- A step that does not write the blocks of the file. -/
theorem Shows.evolves (h : Shows m pointers contents) (howns : Owns m ino pointers)
    (hev : Evolves (fileArea ino pointers) T' W m m') (hW : ∀ x ∈ W, x < 517) :
    Shows m' pointers contents := by
  intro i o ho
  rw [h i o ho]
  by_cases hi : pointers i = 0
  · rw [if_pos hi, if_pos hi]
  · rw [if_neg hi, if_neg hi]
    have hnot : (pointers i).toNat ∉ W := fun hmem => by
      have := hW _ hmem
      have := (howns.range i hi).1
      omega
    rw [((howns.stable i hi).evolves hev (howns.range i hi).2 hnot).1]

theorem Owns.update (h : Owns m ino pointers) {i : Fin 8} {n : UInt32} (h' : Ready m')
    (hn : 517 ≤ n.toNat) (hlt : n.toNat < maxBlockNum)
    (hne : ∀ j, pointers j ≠ 0 → pointers j ≠ n)
    (hstable : ∀ j, pointers j ≠ 0 →
      Stable (fileArea ino (Function.update pointers i n)) m' (pointers j).toNat)
    (hnstable : Stable (fileArea ino (Function.update pointers i n)) m' n.toNat)
    (hmarked : ∀ x < maxBlockNum, Marked m x ∨ x = n.toNat → Marked m' x) :
    Owns m' ino (Function.update pointers i n) := by
  have hother : ∀ j, Function.update pointers i n j ≠ 0 → j ≠ i → pointers j ≠ 0 := by
    intro j hj hji
    rwa [Function.update_of_ne hji] at hj
  refine ⟨h', h.ino_lt, ?_, ?_, ?_, ?_, ?_⟩
  · intro j hj
    by_cases hji : j = i
    · rw [hji, Function.update_self]
      exact ⟨hn, hlt⟩
    · rw [Function.update_of_ne hji]
      exact h.range j (hother j hj hji)
  · intro j k hj hjk
    by_cases hji : j = i
    · by_cases hki : k = i
      · rw [hji, hki]
      · rw [hji, Function.update_self, Function.update_of_ne hki] at hjk
        refine absurd hjk.symm (hne k fun hzero => ?_)
        rw [hjk, hzero] at hn
        exact absurd hn (by decide)
    · by_cases hki : k = i
      · rw [hki, Function.update_self, Function.update_of_ne hji] at hjk
        exact absurd hjk (hne j (hother j hj hji))
      · rw [Function.update_of_ne hji, Function.update_of_ne hki] at hjk
        exact h.inj j k (hother j hj hji) hjk
  · intro j hj
    by_cases hji : j = i
    · rw [hji, Function.update_self]
      exact hnstable
    · rw [Function.update_of_ne hji]
      exact hstable j (hother j hj hji)
  · exact fun x hx => hmarked x (by rw [maxBlockNum_eq]; omega) (Or.inl (h.marked_meta x hx))
  · intro j hj
    by_cases hji : j = i
    · rw [hji, Function.update_self]
      exact hmarked _ hlt (Or.inr rfl)
    · rw [Function.update_of_ne hji]
      exact hmarked _ (h.range j (hother j hj hji)).2 (Or.inl (h.marked j (hother j hj hji)))

/-- The block behind pointer `i` is open, and it was allocated if need be. -/
structure Opened (m m' : Machine Bytes Globals) (ino : UInt32) (pointers : Fin 8 → UInt32)
    (i : Fin 8) (id : UInt32) (block : Block) (contents : Bytes) : Prop where
  ne_zero : id ≠ 0
  owns : Owns m' ino (Function.update pointers i id)
  shows : Shows m' (Function.update pointers i id) contents
  blockid : block.blockid = id.toNat
  fresh : Fresh (fileArea ino (Function.update pointers i id)) m' block
  files : m'.globals.files = m.globals.files

theorem card_fileArea_le_cacheSize : (fileArea ino pointers).card ≤ cacheSize :=
  (card_fileArea_le ino pointers).trans (by decide)

theorem runs_openNew (h : Owns m ino pointers) (hshows : Shows m pointers contents) (i : Fin 8)
    (hi : pointers i = 0) :
    Runs (openPointer none (pointers i)) m (fun e _ => e = .noBlock)
      fun r m' => Opened m m' ino pointers i r.1 r.2.2 contents := by
  rw [openPointer, if_pos hi]
  refine ((runs_blockAlloc h.ready (T := fileArea ino pointers) card_fileArea_le_cacheSize
    blockMapArea_subset_fileArea).mono (fun _ _ he => he.1) fun _ _ hq => hq).bind ?_
  rintro n m₁ ⟨hlt, hev₁, htook, hg₁⟩
  have hclear := htook.not_marked
  have hn : 517 ≤ n.toNat := by
    by_contra hsmall
    exact hclear (h.marked_meta _ (by omega))
  have hne : ∀ j, pointers j ≠ 0 → pointers j ≠ n := by
    rintro j hj rfl
    exact hclear (h.marked j hj)
  set T := fileArea ino (Function.update pointers i n) with hT
  have hsub : fileArea ino pointers ⊆ T := fileArea_subset_update hi n
  have hmem : n.toNat ∈ T := by
    have := @pointer_mem_fileArea ino (Function.update pointers i n) i
    rwa [Function.update_self] at this
  refine Runs.bind (runs_pure (Q := fun _ m' => m' = m₁) rfl) ?_
  rintro _ _ rfl
  refine (runs_openBlock (x := n.toNat) (T := T) hev₁.sound card_fileArea_le_cacheSize hmem
    fun hle => absurd hle (by omega)).bind ?_
  rintro block m₂ ⟨hid, hfresh, hev₂, hg₂⟩
  refine (runs_store hev₂.sound hfresh zeros).bind ?_
  rintro _ m₃ ⟨hev₃, hv₃, hg₃⟩
  rw [hid] at hev₃ hv₃
  have hfresh₃ := hev₃.fresh _ hfresh
  have hn4 : n.toNat ∉ ({0, 2 + n.toNat / 32768} : Set Nat) := by
    rw [maxBlockNum_eq] at hlt
    simp
    omega
  have hev : Evolves (fileArea ino pointers) T {0, 2 + n.toNat / 32768, n.toNat} m m₃ := by
    refine (hev₁.mono ?_).trans ((Evolves.refl hev₁.sound hsub).trans
      ((hev₂.mono (Set.empty_subset _)).trans (hev₃.mono ?_)))
    · intro x hx
      rcases hx with hx | hx
      · exact Or.inl hx
      · exact Or.inr (Or.inl hx)
    · intro x hx
      exact Or.inr (Or.inr hx)
  have hready : Ready m₃ := ⟨hev₃.sound, by rw [hg₃, hg₂, hg₁]; exact h.ready.layout.countBlock n⟩
  have hout : ∀ j, pointers j ≠ 0 →
      (pointers j).toNat ∉ ({0, 2 + n.toNat / 32768, n.toNat} : Set Nat) := by
    intro j hj hmem
    have hrange := (h.range j hj).1
    have hneq : (pointers j).toNat ≠ n.toNat := fun heq => hne j hj (UInt32.toNat_inj.mp heq)
    rw [maxBlockNum_eq] at hlt
    simp at hmem
    omega
  have hstable : ∀ j, pointers j ≠ 0 →
      visible m₃ (pointers j).toNat = visible m (pointers j).toNat ∧
      Stable T m₃ (pointers j).toNat := fun j hj =>
    (h.stable j hj).evolves hev (h.range j hj).2 (hout j hj)
  refine runs_pure ⟨fun hzero => ?_, h.update hready hn hlt hne (fun j hj => (hstable j hj).2)
    (Or.inr ⟨block, hid, hfresh₃⟩) ?_, ?_, hid, hfresh₃, by rw [hg₃, hg₂, hg₁]⟩
  · rw [show n = 0 from hzero] at hn
    exact absurd hn (by decide)
  · intro x hx hmarked
    have hbelow : 2 + x / 32768 ∉ ({n.toNat} : Set Nat) := by
      rw [maxBlockNum_eq] at hx
      simp
      omega
    exact ((marked_of_took hx hev₁ htook hmarked).evolves hev₂ hx (Set.notMem_empty _)).evolves hev₃
      hx hbelow
  · intro j o ho
    rw [hshows j o ho]
    by_cases hji : j = i
    · rw [hji, hi, if_pos rfl, Function.update_self, hv₃]
      exact (ite_self _).symm
    · rw [Function.update_of_ne hji]
      by_cases hj : pointers j = 0
      · rw [if_pos hj, if_pos hj]
      · rw [if_neg hj, if_neg hj, (hstable j hj).1]

theorem runs_openOld (h : Owns m ino pointers) (hshows : Shows m pointers contents) (i : Fin 8)
    (hi : pointers i ≠ 0) :
    Runs (openPointer none (pointers i)) m (fun e _ => e = .noBlock)
      fun r m' => Opened m m' ino pointers i r.1 r.2.2 contents := by
  rw [openPointer, if_neg hi]
  refine (runs_openBlock h.ready.sound (T := fileArea ino pointers) card_fileArea_le_cacheSize
    (pointer_mem_fileArea i) fun hle => absurd hle (not_le.mpr (h.range i hi).2)).bind ?_
  rintro block m₁ ⟨hid, hfresh, hev, hg⟩
  have hsame : Function.update pointers i (pointers i) = pointers :=
    Function.update_eq_self i pointers
  refine runs_pure ⟨hi, ?_, ?_, hid, ?_, by rw [hg]⟩
  · rw [hsame]
    exact h.evolves hev ⟨hev.sound, hg.symm ▸ h.ready.layout⟩
      (fun _ hx => absurd hx (Set.notMem_empty _)) fun _ hx => absurd hx (Set.notMem_empty _)
  · rw [hsame]
    exact hshows.evolves h hev fun _ hx => absurd hx (Set.notMem_empty _)
  · rw [hsame]
    exact hfresh

theorem runs_openPointer (h : Owns m ino pointers) (hshows : Shows m pointers contents)
    (i : Fin 8) :
    Runs (openPointer none (pointers i)) m (fun e _ => e = .noBlock)
      fun r m' => Opened m m' ino pointers i r.1 r.2.2 contents := by
  by_cases hi : pointers i = 0
  · exact runs_openNew h hshows i hi
  · exact runs_openOld h hshows i hi

/-- The contents of the file and the buffer after `length` bytes were
transferred between position `position` of the file and position `done` of
the buffer. -/
def transferred (isWrite : Bool) (contents : Bytes) (position : Nat) (buff : Bytes)
    (done length : Nat) : Bytes × Bytes :=
  if isWrite then (copy contents position buff done length, buff)
  else (contents, copy buff done contents position length)

theorem copy_copy (d : Bytes) (position : Nat) (src : Bytes) (start length length' : Nat) :
    copy (copy d position src start length) (position + length) src (start + length) length' =
      copy d position src start (length + length') := by
  funext i
  unfold copy
  by_cases hfirst : position + length ≤ i ∧ i < position + length + length'
  · rw [if_pos hfirst, if_pos (by omega)]
    congr 1
    omega
  · rw [if_neg hfirst]
    by_cases hsecond : position ≤ i ∧ i < position + length
    · rw [if_pos hsecond, if_pos (by omega)]
    · rw [if_neg hsecond, if_neg (by omega)]

theorem transferred_transferred (isWrite : Bool) (contents : Bytes) (position : Nat)
    (buff : Bytes) (done length length' : Nat) :
    transferred isWrite (transferred isWrite contents position buff done length).1
      (position + length) (transferred isWrite contents position buff done length).2
      (done + length) length' =
      transferred isWrite contents position buff done (length + length') := by
  cases isWrite with
  | false =>
      exact congrArg (Prod.mk contents) (copy_copy buff done contents position length length')
  | true =>
      exact congrArg (fun c => (c, buff)) (copy_copy contents position buff done length length')

theorem transferred_zero (isWrite : Bool) (contents : Bytes) (position : Nat) (buff : Bytes)
    (done : Nat) : transferred isWrite contents position buff done 0 = (contents, buff) := by
  have hcopy : ∀ (d : Bytes) (a : Nat) (src : Bytes) (b : Nat), copy d a src b 0 = d :=
    fun d a src b => funext fun i => copy_outside (by omega)
  unfold transferred
  split
  · rw [hcopy]
  · rw [hcopy]

theorem runs_transfer_write {i : Fin 8} {block : Block} {offset length : Nat} {src : Bytes}
    (h : Owns m ino pointers) (hshows : Shows m pointers contents) (hi : pointers i ≠ 0)
    (hid : block.blockid = (pointers i).toNat) (hfresh : Fresh (fileArea ino pointers) m block)
    (hfit : offset + length ≤ 4096) {E : Failure → Machine Bytes Globals → Prop} :
    Runs (transfer true block (.buffer src) offset length) m E fun data m' =>
      data = .buffer src ∧ Owns m' ino pointers ∧
        Shows m' pointers (copy contents (4096 * i + offset) src 0 length) ∧
        m'.globals = m.globals := by
  refine Runs.bind (runs_pure (Q := fun d m' => d = src ∧ m' = m) ⟨rfl, rfl⟩) ?_
  rintro _ m ⟨rfl, rfl⟩
  refine (runs_load h.ready.sound hfresh).bind ?_
  rintro _ m ⟨rfl, rfl⟩
  have hrange := h.range i hi
  refine runs_store_update h.ready.sound hfresh (hid ▸ hrange.2) fun m' hev hv hs hg => ?_
  rw [hid] at hev hv hs
  refine runs_pure ⟨rfl, h.evolves hev ⟨hev.sound, hg.symm ▸ h.ready.layout⟩ ?_ ?_, ?_, hg⟩
  · rintro x rfl
    exact Or.inr (by omega)
  · rintro x rfl
    exact Or.inl (Or.inl hs)
  · intro j o ho
    by_cases hji : j = i
    · subst hji
      rw [if_neg hi, hv]
      unfold copy
      by_cases hin : offset ≤ o ∧ o < offset + length
      · rw [if_pos hin, if_pos (by omega)]
        congr 1
        omega
      · rw [if_neg hin, if_neg (by omega), hshows j o ho, if_neg hi]
    · have hne : (j : Nat) ≠ i := fun heq => hji (Fin.ext heq)
      rw [copy_outside (by omega), hshows j o ho]
      by_cases hj : pointers j = 0
      · rw [if_pos hj, if_pos hj]
      · have hout : (pointers j).toNat ∉ ({(pointers i).toNat} : Set Nat) := fun hmem =>
          hji (h.inj j i hj (UInt32.toNat_inj.mp hmem))
        rw [if_neg hj, if_neg hj, ((h.stable j hj).evolves hev (h.range j hj).2 hout).1]

theorem runs_transfer_read {i : Fin 8} {block : Block} {offset length : Nat} {bytes : Bytes}
    (h : Owns m ino pointers) (hshows : Shows m pointers contents) (hi : pointers i ≠ 0)
    (hid : block.blockid = (pointers i).toNat) (hfresh : Fresh (fileArea ino pointers) m block)
    (hfit : offset + length ≤ 4096) {E : Failure → Machine Bytes Globals → Prop} :
    Runs (transfer false block (.buffer bytes) offset length) m E fun data m' =>
      data = .buffer (copy bytes 0 contents (4096 * i + offset) length) ∧ m' = m := by
  refine (runs_load h.ready.sound hfresh).bind ?_
  rintro _ m ⟨rfl, rfl⟩
  refine runs_pure ⟨congrArg Data.buffer ?_, rfl⟩
  funext k
  unfold copy
  by_cases hin : 0 ≤ k ∧ k < 0 + length
  · rw [if_pos hin, if_pos hin, hid, show 4096 * (i : Nat) + offset + (k - 0) =
      4096 * i + (offset + (k - 0)) by omega, hshows i _ (by omega), if_neg hi]
  · rw [if_neg hin, if_neg hin]

theorem runs_transfer_direct {i : Fin 8} {isWrite : Bool} {buffer : Bytes} {offset length : Nat}
    (h : Owns m ino pointers) (hshows : Shows m pointers contents)
    (hfit : offset + length ≤ 4096) :
    Runs (inodeModifyDataRecur isWrite 0 none (pointers i) (.buffer buffer) offset length) m
      (fun e _ => e = .noBlock) fun r m' =>
      Owns m' ino (Function.update pointers i r.1) ∧
        Shows m' (Function.update pointers i r.1)
          (transferred isWrite contents (4096 * i + offset) buffer 0 length).1 ∧
        r.2.1 = .buffer (transferred isWrite contents (4096 * i + offset) buffer 0 length).2 ∧
        m'.globals.files = m.globals.files := by
  refine (runs_openPointer h hshows i).bind ?_
  rintro ⟨id, new, block⟩ m₁ ⟨hid0, howns, hshows₁, hid, hfresh, hfiles⟩
  have hi : Function.update pointers i id i ≠ 0 := by rwa [Function.update_self]
  have hid' : block.blockid = (Function.update pointers i id i).toNat := by
    rwa [Function.update_self]
  cases isWrite with
  | false =>
      refine (runs_transfer_read howns hshows₁ hi hid' hfresh hfit).bind ?_
      rintro _ m₁ ⟨rfl, rfl⟩
      exact runs_pure ⟨howns, hshows₁, rfl, hfiles⟩
  | true =>
      refine (runs_transfer_write howns hshows₁ hi hid' hfresh hfit).bind ?_
      rintro _ m₂ ⟨rfl, howns₂, hshows₂, hg⟩
      exact runs_pure ⟨howns₂, hshows₂, rfl, by rw [hg]; exact hfiles⟩

theorem runs_inodeModifyData {isWrite : Bool} {inode : Inode} {buffer : Bytes}
    {offset length : UInt32} (h : Owns m ino inode.dataDirect)
    (hshows : Shows m inode.dataDirect contents)
    (hfit : offset.toNat % 4096 + length.toNat ≤ 4096) (hlt : offset.toNat < 32768) :
    Runs (inodeModifyData isWrite inode buffer offset length) m (fun e _ => e = .noBlock)
      fun r m' =>
      Owns m' ino r.1.dataDirect ∧
        Shows m' r.1.dataDirect
          (transferred isWrite contents offset.toNat buffer 0 length.toNat).1 ∧
        r.2.1 = (transferred isWrite contents offset.toNat buffer 0 length.toNat).2 ∧
        m'.globals.files = m.globals.files := by
  have hblock : blockSize = 4096 := rfl
  unfold inodeModifyData
  refine runs_bind (runs_assert (fun hfalse => absurd hfalse ?_) fun _ => ?_)
  · simpa [hblock] using hfit
  extract_lets grows inode' o
  have hsame : inode'.dataDirect = inode.dataDirect := by
    simp only [inode']
    split <;> rfl
  have ho : o < l0Bound := hlt
  rw [dif_pos ho]
  extract_lets i
  have hposition : 4096 * (i : Nat) + offset.toNat % 4096 = offset.toNat := Nat.div_add_mod ..
  rw [hsame]
  refine (runs_transfer_direct h hshows hfit).bind ?_
  rintro ⟨id, data, modified⟩ m₁ ⟨howns, hshows₁, hdata, hfiles⟩
  rw [hposition] at hshows₁ hdata
  refine runs_pure ⟨?_, ?_, ?_, hfiles⟩
  · simpa only [hsame] using howns
  · simpa only [hsame] using hshows₁
  · simp only at hdata
    rw [hdata, Data.bytes]

/-- The object of an open file and the machine agree on the blocks of the
file, which show the given contents. -/
structure Backs (m : Machine Bytes Globals) (file : File) (contents : Bytes) : Prop where
  owns : Owns m file.inodeIdx file.inode.dataDirect
  shows : Shows m file.inode.dataDirect contents

/-- What a transfer does to the object of the file. -/
structure Moved (file file' : File) (length : Nat) : Prop where
  inodeIdx : file'.inodeIdx = file.inodeIdx
  mode : file'.mode = file.mode
  filePtr : file'.filePtr.toNat = file.filePtr.toNat + length

theorem Moved.trans {file file' file'' : File} {length length' : Nat}
    (h : Moved file file' length) (h' : Moved file' file'' length') :
    Moved file file'' (length + length') :=
  ⟨h'.inodeIdx.trans h.inodeIdx, h'.mode.trans h.mode, by rw [h'.filePtr, h.filePtr, Nat.add_assoc]⟩

theorem transferred_shift (isWrite : Bool) (contents : Bytes) (position : Nat) (buff : Bytes)
    (done length : Nat) :
    (transferred isWrite contents position (fun i => buff (done + i)) 0 length).1 =
        (transferred isWrite contents position buff done length).1 ∧
      copy buff done (transferred isWrite contents position (fun i => buff (done + i)) 0 length).2
        0 length = (transferred isWrite contents position buff done length).2 := by
  have hcases : ∀ i, (done ≤ i ∧ i < done + length) ∨ (i < done ∨ done + length ≤ i) := by omega
  cases isWrite with
  | false =>
      refine ⟨rfl, funext fun i => ?_⟩
      simp only [transferred, Bool.false_eq_true, if_false]
      rcases hcases i with ⟨hle, hlt⟩ | hout
      · rw [copy_inside hle hlt, copy_inside (by omega) (by omega), copy_inside hle hlt]
        congr 1
        omega
      · rw [copy_outside hout, copy_outside hout]
  | true =>
      refine ⟨funext fun i => ?_, funext fun i => ?_⟩
      · simp only [transferred, if_true]
        unfold copy
        simp only [Nat.zero_add]
      · simp only [transferred, if_true]
        rcases hcases i with ⟨hle, hlt⟩ | hout
        · rw [copy_inside hle hlt]
          exact congrArg buff (by omega)
        · rw [copy_outside hout]

theorem runs_fileRound {isWrite : Bool} {file : File} {buff : Bytes} {done length : Nat}
    (h : Backs m file contents) (hfit : file.filePtr.toNat + length ≤ 32768) (hpos : 0 < length) :
    Runs (fileRound isWrite file buff done length) m (fun e _ => e = .noBlock) fun r m' =>
      0 < r.2.2.2 ∧ r.2.2.2 ≤ length ∧ Moved file r.1 r.2.2.2 ∧
        Backs m' r.1 (transferred isWrite contents file.filePtr.toNat buff done r.2.2.2).1 ∧
        r.2.1 = (transferred isWrite contents file.filePtr.toNat buff done r.2.2.2).2 ∧
        m'.globals.files = m.globals.files := by
  have hblock : blockSize = 4096 := rfl
  unfold fileRound
  extract_lets size
  have hsize : size = min (4096 - file.filePtr.toNat % 4096) length := rfl
  have hsmall : (UInt32.ofNat size).toNat = size := by
    rw [UInt32.toNat_ofNat']
    omega
  refine (runs_inodeModifyData h.owns h.shows (by omega) (by omega)).bind ?_
  rintro ⟨inode, bytes, modified⟩ m₁ ⟨howns, hshows, hbytes, hfiles⟩
  obtain ⟨hcontents, hbuff⟩ :=
    transferred_shift isWrite contents file.filePtr.toNat buff done size
  rw [hsmall] at hshows hbytes
  refine runs_pure ⟨show 0 < size by omega, show size ≤ length by omega, ⟨rfl, rfl, ?_⟩,
    ⟨howns, ?_⟩, ?_, hfiles⟩
  · exact toNat_add_ofNat (show file.filePtr.toNat + size < 2 ^ 32 by omega)
  · rw [← hcontents]
    exact hshows
  · simp only at hbytes ⊢
    rw [hbytes, hbuff]

theorem runs_fileLoop {isWrite : Bool} {left : Nat} {file : File} {buff : Bytes}
    {done length : Nat} {modified : Bool} (h : Backs m file contents)
    (hfit : 0 < length → file.filePtr.toNat + length ≤ 32768) (hleft : length ≤ left) :
    Runs (fileLoop isWrite left file buff done length modified) m (fun e _ => e = .noBlock)
      fun r m' =>
      Moved file r.1 length ∧
        Backs m' r.1 (transferred isWrite contents file.filePtr.toNat buff done length).1 ∧
        r.2.1 = (transferred isWrite contents file.filePtr.toNat buff done length).2 ∧
        m'.globals.files = m.globals.files := by
  induction left generalizing file buff done length modified contents m with
  | zero =>
      obtain rfl : length = 0 := by omega
      simp only [transferred_zero]
      exact runs_pure ⟨⟨rfl, rfl, rfl⟩, h, rfl, rfl⟩
  | succ left ih =>
      rw [fileLoop]
      by_cases hzero : length = 0
      · subst hzero
        simp only [transferred_zero, if_true]
        exact runs_pure ⟨⟨rfl, rfl, rfl⟩, h, rfl, rfl⟩
      · rw [if_neg hzero]
        refine (runs_fileRound h (hfit (by omega)) (by omega)).bind ?_
        rintro ⟨file₁, buff₁, modified₁, size⟩ m₁ ⟨hsize, hle, hmoved, hbacks, hbuff, hfiles⟩
        simp only at hsize hle hmoved hbacks hbuff hfiles ⊢
        subst hbuff
        refine (ih hbacks (fun hpos => ?_) (by omega)).mono (fun _ _ he => he) ?_
        · have := hfit (by omega)
          rw [hmoved.filePtr]
          omega
        · rintro ⟨file₂, buff₂, modified₂⟩ m₂ ⟨hmoved₂, hbacks₂, hbuff₂, hfiles₂⟩
          rw [hmoved.filePtr, transferred_transferred,
            show size + (length - size) = length by omega] at hbacks₂ hbuff₂
          have hall := hmoved.trans hmoved₂
          rw [show size + (length - size) = length by omega] at hall
          exact ⟨hall, hbacks₂, hbuff₂, hfiles₂.trans hfiles⟩

theorem mode_and_ne_zero {file : File} (h : file.mode = oRdwr) (isWrite : Bool) :
    file.mode &&& (if isWrite then oWronly else oRdonly) ≠ 0 := by
  rw [h]
  cases isWrite <;> decide

theorem runs_fileTransfer {isWrite : Bool} {file : File} {buff : Bytes} {length : Nat}
    (h : Backs m file contents) (hmode : file.mode = oRdwr)
    (hfit : 0 < length → file.filePtr.toNat + length ≤ 32768) :
    Runs (fileTransfer isWrite file buff length) m (fun e _ => e = .noBlock) fun r m' =>
      Moved file r.1 length ∧
        Backs m' r.1 (transferred isWrite contents file.filePtr.toNat buff 0 length).1 ∧
        r.2.1 = (transferred isWrite contents file.filePtr.toNat buff 0 length).2 ∧
        m'.globals.files = m.globals.files := by
  rw [fileTransfer, if_neg (mode_and_ne_zero hmode isWrite)]
  refine (runs_fileLoop h hfit (le_refl _)).bind ?_
  rintro ⟨file₁, buff₁, modified⟩ m₁ ⟨hmoved, hbacks, hbuff, hfiles⟩
  simp only at hmoved hbacks hbuff hfiles ⊢
  have hino : 5 + file₁.inodeIdx.toNat / 64 < 517 := by
    have hlt := hbacks.owns.ino_lt
    rw [show maxInodeNum = 32768 by decide] at hlt
    omega
  refine Runs.bind (Q := fun _ m' => Backs m' file₁
    (transferred isWrite contents file.filePtr.toNat buff 0 length).1 ∧
    m'.globals.files = m₁.globals.files) ?_ ?_
  · cases modified with
    | false => exact runs_pure ⟨hbacks, rfl⟩
    | true =>
        refine (runs_writeInode hbacks.owns.ready card_fileArea_le_cacheSize
          (@inodeBlock_mem_fileArea _ file₁.inode.dataDirect) fun hle => ?_).mono
          (fun _ _ he => he) ?_
        · rw [maxBlockNum_eq] at hle
          omega
        · rintro _ m₂ ⟨hev, hg, -, -, -⟩
          refine ⟨⟨hbacks.owns.evolves hev ⟨hev.sound, hg.symm ▸ hbacks.owns.ready.layout⟩ ?_ ?_,
            hbacks.shows.evolves hbacks.owns hev ?_⟩, by rw [hg]⟩
          · rintro x rfl
            exact Or.inr (by omega)
          · rintro x rfl
            exact Or.inr hino
          · rintro x rfl
            exact hino
  · rintro _ m₂ ⟨hbacks₂, hfiles₂⟩
    exact runs_pure ⟨hmoved, hbacks₂, hbuff, hfiles₂.trans hfiles⟩

/-- The calls on an open file. -/
inductive FileOp where
  | seek (offset : Fin (2 ^ 31))
  | write (data : Bytes) (length : Nat)
  | read (buff : Bytes) (length : Nat)

/-- Run the calls on handle `fd`; the results are the buffers that the reads
leave. -/
def runFile (fd : Nat) : List FileOp → Fs (List Bytes)
  | [] => return []
  | .seek offset :: ops => do
      let _ ← fsLseek fd (UInt32.ofNat offset) seekSet
      runFile fd ops
  | .write data length :: ops => do
      let _ ← fsFwrite fd data length
      runFile fd ops
  | .read buff length :: ops => do
      let (_, buff) ← fsFread fd buff length
      return buff :: (← runFile fd ops)

/-- A call of `fs_fwrite` at a position of the file. -/
structure Write where
  position : Nat
  data : Bytes
  length : Nat

/-- The byte most recently written at position `p` by the writes, the last
one first, to a file with the given initial contents. -/
def mostRecent (initial : Bytes) : List Write → Bytes
  | [], p => initial p
  | w :: earlier, p =>
      if w.position ≤ p ∧ p < w.position + w.length then w.data (p - w.position)
      else mostRecent initial earlier p

/-- The buffers that the reads should leave, after the given writes. -/
def expected (initial : Bytes) : List Write → Nat → List FileOp → List Bytes
  | _, _, [] => []
  | writes, _, .seek offset :: ops => expected initial writes offset ops
  | writes, position, .write data length :: ops =>
      expected initial (⟨position, data, length⟩ :: writes) (position + length) ops
  | writes, position, .read buff length :: ops =>
      (fun i => if i < length then mostRecent initial writes (position + i) else buff i) ::
        expected initial writes (position + length) ops

/-- All bytes transferred lie in the part that the direct pointers cover. -/
def DirectOnly : Nat → List FileOp → Prop
  | _, [] => True
  | _, .seek offset :: ops => DirectOnly offset ops
  | position, .write _ length :: ops =>
      (0 < length → position + length ≤ l0Bound) ∧ DirectOnly (position + length) ops
  | position, .read _ length :: ops =>
      (0 < length → position + length ≤ l0Bound) ∧ DirectOnly (position + length) ops

theorem mostRecent_cons (initial : Bytes) (w : Write) (earlier : List Write) :
    mostRecent initial (w :: earlier) =
      (transferred true (mostRecent initial earlier) w.position w.data 0 w.length).1 := by
  funext p
  simp only [mostRecent, transferred, if_true]
  unfold copy
  rw [Nat.zero_add]

/-- The handle `fd` is an open file with mode `O_RDWR`, whose blocks show the
given contents. -/
structure IsOpen (m : Machine Bytes Globals) (fd : Nat) (file : File) (contents : Bytes) :
    Prop where
  file_eq : m.globals.files[fd]? = some (some file)
  mode : file.mode = oRdwr
  backs : Backs m file contents

theorem runs_getFile {file : File} {fd : Nat} (h : m.globals.files[fd]? = some (some file))
    {E : Failure → Machine Bytes Globals → Prop} :
    Runs (getFile fd) m E fun r m' => r = some file ∧ m' = m :=
  runs_of_ok rfl ⟨by rw [h]; rfl, rfl⟩

theorem runs_setFile {file file' : File} {fd : Nat}
    (h : m.globals.files[fd]? = some (some file)) (hbacks : Backs m file' contents)
    (hmode : file'.mode = oRdwr) {E : Failure → Machine Bytes Globals → Prop} :
    Runs (setFile fd (some file')) m E fun _ m' => IsOpen m' fd file' contents := by
  refine (runs_modifyGlobals hbacks.owns.ready.sound _
    (T := fileArea file'.inodeIdx file'.inode.dataDirect)).mono (fun _ _ he => he) ?_
  rintro _ m' ⟨hev, -, -, hg⟩
  refine ⟨?_, hmode, hbacks.owns.evolves hev ⟨hev.sound, ?_⟩
    (fun _ hx => absurd hx (Set.notMem_empty _)) fun _ hx => absurd hx (Set.notMem_empty _),
    hbacks.shows.evolves hbacks.owns hev fun _ hx => absurd hx (Set.notMem_empty _)⟩
  · rw [hg]
    obtain ⟨hlt, -⟩ := List.getElem?_eq_some_iff.mp h
    simp [hlt]
  · rw [hg]
    exact hbacks.owns.ready.layout

theorem runs_fsLseek {fd : Nat} {file : File} {offset : Fin (2 ^ 31)}
    (h : IsOpen m fd file contents) {E : Failure → Machine Bytes Globals → Prop} :
    Runs (fsLseek fd (UInt32.ofNat offset) seekSet) m E fun _ m' =>
      ∃ file', IsOpen m' fd file' contents ∧ file'.filePtr.toNat = offset := by
  refine (runs_getFile h.file_eq).bind ?_
  rintro _ m ⟨rfl, rfl⟩
  simp only [lseek, if_true]
  have hbacks : Backs m { file with filePtr := UInt32.ofNat offset } contents :=
    ⟨h.backs.owns, h.backs.shows⟩
  refine (runs_setFile h.file_eq hbacks h.mode).bind ?_
  intro _ m' hopen
  refine runs_pure ⟨_, hopen, ?_⟩
  have := offset.isLt
  simp only [UInt32.toNat_ofNat']
  omega

theorem runs_fsFwrite {fd : Nat} {file : File} {data : Bytes} {length : Nat}
    (h : IsOpen m fd file contents) (hfit : 0 < length → file.filePtr.toNat + length ≤ 32768) :
    Runs (fsFwrite fd data length) m (fun e _ => e = .noBlock) fun _ m' =>
      ∃ file', IsOpen m' fd file'
        (transferred true contents file.filePtr.toNat data 0 length).1 ∧
        file'.filePtr.toNat = file.filePtr.toNat + length := by
  refine (runs_getFile h.file_eq).bind ?_
  rintro _ m ⟨rfl, rfl⟩
  refine (runs_fileTransfer h.backs h.mode hfit).bind ?_
  rintro ⟨file', _, result⟩ m₁ ⟨hmoved, hbacks, -, hfiles⟩
  refine (runs_setFile (hfiles ▸ h.file_eq) hbacks (hmoved.mode.trans h.mode)).bind ?_
  intro _ m' hopen
  exact runs_pure ⟨file', hopen, hmoved.filePtr⟩

theorem runs_fsFread {fd : Nat} {file : File} {buff : Bytes} {length : Nat}
    (h : IsOpen m fd file contents) (hfit : 0 < length → file.filePtr.toNat + length ≤ 32768) :
    Runs (fsFread fd buff length) m (fun e _ => e = .noBlock) fun r m' =>
      r.2 = copy buff 0 contents file.filePtr.toNat length ∧
        ∃ file', IsOpen m' fd file' contents ∧
          file'.filePtr.toNat = file.filePtr.toNat + length := by
  refine (runs_getFile h.file_eq).bind ?_
  rintro _ m ⟨rfl, rfl⟩
  refine (runs_fileTransfer h.backs h.mode hfit).bind ?_
  rintro ⟨file', buff', result⟩ m₁ ⟨hmoved, hbacks, hbuff, hfiles⟩
  refine (runs_setFile (hfiles ▸ h.file_eq) hbacks (hmoved.mode.trans h.mode)).bind ?_
  intro _ m' hopen
  exact runs_pure ⟨hbuff, file', hopen, hmoved.filePtr⟩

theorem runs_runFile {fd : Nat} {file : File} {initial : Bytes} {writes : List Write}
    {ops : List FileOp} (h : IsOpen m fd file (mostRecent initial writes))
    (hdirect : DirectOnly file.filePtr.toNat ops) :
    Runs (runFile fd ops) m (fun e _ => e = .noBlock) fun buffs _ =>
      buffs = expected initial writes file.filePtr.toNat ops := by
  induction ops generalizing file writes m with
  | nil => exact runs_pure rfl
  | cons op ops ih =>
      cases op with
      | seek offset =>
          refine (runs_fsLseek h).bind ?_
          rintro _ m₁ ⟨file₁, hopen, hptr⟩
          rw [expected, ← hptr]
          exact ih hopen (hptr ▸ hdirect)
      | write data length =>
          refine (runs_fsFwrite h hdirect.1).bind ?_
          rintro _ m₁ ⟨file₁, hopen, hptr⟩
          have hrecent := mostRecent_cons initial ⟨file.filePtr.toNat, data, length⟩ writes
          rw [expected, ← hptr]
          exact ih (hrecent.symm ▸ hopen) (hptr ▸ hdirect.2)
      | read buff length =>
          refine (runs_fsFread h hdirect.1).bind ?_
          rintro ⟨result, buff'⟩ m₁ ⟨hbuff, file₁, hopen, hptr⟩
          refine (ih hopen (hptr ▸ hdirect.2)).bind ?_
          rintro rest m₂ rfl
          rw [expected, ← hptr]
          refine runs_pure (congrArg₂ _ (hbuff.trans (funext fun i => ?_)) rfl)
          unfold copy
          simp only [Nat.zero_le, true_and, Nat.zero_add, Nat.sub_zero]

/-- Each `fs_fread` delivers what `fs_fwrite` most recently wrote, for every
sequence of calls on an open file that transfers only bytes in the direct
part of the file. -/
theorem fread_delivers_mostRecent {fd : Nat} {file : File} {initial : Bytes} {ops : List FileOp}
    (hopen : IsOpen m fd file initial) (hdirect : DirectOnly file.filePtr.toNat ops) :
    Runs (runFile fd ops) m (fun e _ => e = .noBlock) fun buffs _ =>
      buffs = expected initial [] file.filePtr.toNat ops :=
  runs_runFile hopen hdirect

/-- The name `a`. -/
def nameA : List UInt8 := [97]

/-- A new file, open for reading and writing. -/
@[irreducible]
def newFile : Machine Bytes Globals := ((fsFopen nameA oRdwr).run blankFormatted).2

theorem newFile_run : (fsFopen nameA oRdwr).run blankFormatted = (.ok 0, newFile) := by
  have hreturned : returned ((fsFopen nameA oRdwr).run blankFormatted).1 = some 0 := by
    rw [blankFormatted_eq]
    decide +kernel
  unfold newFile
  exact run_eq_of_returned hreturned

theorem newFile_eq : newFile = ((fsFopen nameA oRdwr).run quickFormatted).2 := by
  unfold newFile
  rw [blankFormatted_eq]

theorem newFile_strayed : newFile.strayed = false := by
  rw [newFile_eq]
  decide +kernel

theorem newFile_ready : Ready newFile := by
  have hwithin := (keeps_fsFopen (P := Within ∅) nameA oRdwr blankFormatted
    (within_of_formatted formatted_blankFormatted)).ok newFile_run
  exact (hwithin.calm newFile_strayed).ready

theorem newFile_marked : ∀ n < 517,
    (bit (visible newFile 2) n && bit (settled newFile 2) n) = true := by
  rw [newFile_eq]
  decide +kernel

theorem newFile_file : ∃ file, newFile.globals.files = [some file] ∧ file.inodeIdx = 1 ∧
    file.mode = oRdwr ∧ file.filePtr = 0 ∧ file.inode.dataDirect = fun _ => 0 := by
  have hfields : newFile.globals.files.map (Option.map fun file =>
      ((file.inodeIdx, file.mode, file.filePtr), file.inode.dataDirect)) =
      [some ((1, oRdwr, 0), fun _ => 0)] := by
    rw [newFile_eq]
    decide +kernel
  generalize newFile.globals.files = files at hfields
  obtain ⟨entry, rfl, hentry⟩ := List.map_eq_singleton_iff.mp hfields
  obtain ⟨file, rfl, hfile⟩ := Option.map_eq_some_iff.mp hentry
  simp only [Prod.mk.injEq] at hfile
  exact ⟨file, rfl, hfile.1.1, hfile.1.2.1, hfile.1.2.2, hfile.2⟩

theorem newFile_isOpen : ∃ file, IsOpen newFile 0 file zeros ∧ file.filePtr = 0 := by
  obtain ⟨file, hfiles, hino, hmode, hptr, hdirect⟩ := newFile_file
  have hzero : ∀ i, file.inode.dataDirect i = 0 := fun i => congrFun hdirect i
  refine ⟨file, ⟨by rw [hfiles]; rfl, hmode, ⟨newFile_ready, ?_, ?_, ?_, ?_, ?_, ?_⟩, ?_⟩, hptr⟩
  · rw [hino]
    decide
  · exact fun i hi => absurd (hzero i) hi
  · exact fun i _ hi => absurd (hzero i) hi
  · exact fun i hi => absurd (hzero i) hi
  · intro n hn d hd
    have hmarked := newFile_marked n hn
    rw [Bool.and_eq_true] at hmarked
    rw [show 2 + n / 32768 = 2 by omega] at hd
    rw [show n % 32768 = n by omega]
    rcases hd with rfl | rfl
    · exact hmarked.1
    · exact hmarked.2
  · exact fun i hi => absurd (hzero i) hi
  · intro i o _
    rw [if_pos (hzero i)]
    rfl

/-- Ten bytes across the end of a block, read back with a hole before them. -/
def directOps : List FileOp :=
  [.seek ⟨4090, by decide⟩, .write (fun i => UInt8.ofNat i) 10, .seek ⟨4000, by decide⟩,
    .read zeros 200]

theorem fread_delivers_mostRecent_newFile :
    ∃ file, IsOpen newFile 0 file zeros ∧ DirectOnly file.filePtr.toNat directOps ∧
      Runs (runFile 0 directOps) newFile (fun e _ => e = .noBlock) fun buffs _ =>
        buffs = expected zeros [] file.filePtr.toNat directOps := by
  obtain ⟨file, hopen, hptr⟩ := newFile_isOpen
  have hdirect : DirectOnly file.filePtr.toNat directOps := by
    simp [DirectOnly, directOps, l0Bound, inodeDataDirect, blockSize]
  exact ⟨file, hopen, hdirect, fread_delivers_mostRecent hopen hdirect⟩

/-- One byte behind the direct part, written and read back. -/
def indirectOps : List FileOp :=
  [.seek ⟨32768, by decide⟩, .write (fun _ => 7) 1, .seek ⟨32768, by decide⟩, .read zeros 1]

/-- The first bytes of the buffers that the reads of a run leave. -/
def firstBytes (fd : Nat) (ops : List FileOp) (m : Machine Bytes Globals) :
    Option (List UInt8) :=
  (returned ((runFile fd ops).run m).1).map (List.map fun buff => buff 0)

/-- A byte written through an index block is not read back. -/
theorem indirect_write_lost :
    firstBytes 0 indirectOps newFile = some [0] ∧
      (expected zeros [] 0 indirectOps).map (fun buff => buff 0) = [7] := by
  rw [newFile_eq]
  decide +kernel

end LabKernel.FileContents
