import LabKernel.DirectData

/-!
Directories as tables of slots, and what the functions that search, extend
and shorten a directory do to these tables.
-/

namespace LabKernel.Directories

open LabKernel.BlockCache
open LabKernel.BlockObject
open LabKernel.ByteMemory
open LabKernel.DirectData
open LabKernel.FsCode
open LabKernel.FsLayout
open LabKernel.FsPrimitives
open LabKernel.FsTables
open LabKernel.ProgramLogic

variable {m m' : Machine Bytes Globals} {s s' : FsState} {n : Inode} {path : List UInt8}
  {i j lo mid hi q q' : Nat} {e e' : DirEntry}

/-- The valid entry in slot `q` of a directory. -/
def slot (s : FsState) (n : Inode) (q : Nat) : Option DirEntry :=
  match s.data (direct n (q / 128)).toNat with
  | some d =>
      if direct n (q / 128) ≠ 0 ∧ (DirEntry.ofBytes d (q % 128)).valid ≠ 0 then
        some (DirEntry.ofBytes d (q % 128))
      else none
  | none => none

/-- The blocks of a directory lie in the data area and are settled. -/
def HasBlocks (s : FsState) (n : Inode) : Prop :=
  ∀ i, direct n i ≠ 0 → IsData (direct n i) ∧ ∃ d, s.data (direct n i).toNat = some d

def FreeSlot (s : FsState) (n : Inode) (q : Nat) : Prop :=
  direct n (q / 128) ≠ 0 ∧ slot s n q = none

/-- The first entry with the given name among the slots from `lo` up to `hi`. -/
structure Finds (s : FsState) (n : Inode) (path : List UInt8) (lo hi q : Nat) (e : DirEntry) :
    Prop where
  le : lo ≤ q
  lt : q < hi
  slot_eq : slot s n q = some e
  name_eq : e.name = path
  first : ∀ q', lo ≤ q' → q' < q → ∀ e', slot s n q' = some e' → e'.name ≠ path

def Misses (s : FsState) (n : Inode) (path : List UInt8) (lo hi : Nat) : Prop :=
  ∀ q, lo ≤ q → q < hi → ∀ e, slot s n q = some e → e.name ≠ path

/-- What a search leaves in `free_offset`: the first free slot, where 0 means
that there is none so far. -/
def Chooses (P : Nat → Prop) (lo hi freeOffset freeOffset' : Nat) : Prop :=
  (freeOffset ≠ 0 ∧ freeOffset' = freeOffset) ∨
    (freeOffset = 0 ∧ freeOffset' ≠ 0 ∧ lo ≤ freeOffset' ∧ freeOffset' < hi ∧ P freeOffset') ∨
    (freeOffset = 0 ∧ freeOffset' = 0 ∧ ∀ q, lo ≤ q → q < hi → q ≠ 0 → ¬P q)

theorem Chooses.trans {P : Nat → Prop} {f f' f'' : Nat} (h : Chooses P lo mid f f')
    (h' : Chooses P mid hi f' f'') (hlo : lo ≤ mid) (hhi : mid ≤ hi) : Chooses P lo hi f f'' := by
  rcases h with ⟨hne, rfl⟩ | ⟨rfl, hne, hle, hlt, hp⟩ | ⟨rfl, rfl, hnone⟩
  · rcases h' with ⟨-, rfl⟩ | ⟨hzero, -⟩ | ⟨hzero, -⟩
    · exact Or.inl ⟨hne, rfl⟩
    · exact absurd hzero hne
    · exact absurd hzero hne
  · rcases h' with ⟨-, rfl⟩ | ⟨hzero, -⟩ | ⟨hzero, -⟩
    · exact Or.inr (Or.inl ⟨rfl, hne, hle, by omega, hp⟩)
    · exact absurd hzero hne
    · exact absurd hzero hne
  · rcases h' with ⟨hzero, -⟩ | ⟨-, hne, hle, hlt, hp⟩ | ⟨-, rfl, hnone'⟩
    · exact absurd rfl hzero
    · exact Or.inr (Or.inl ⟨rfl, hne, by omega, hlt, hp⟩)
    · refine Or.inr (Or.inr ⟨rfl, rfl, fun q hle hlt hq => ?_⟩)
      rcases lt_or_ge q mid with hmid | hmid
      · exact hnone q hle hmid hq
      · exact hnone' q hmid hlt hq

theorem Misses.finds (h : Misses s n path lo mid) (h' : Finds s n path mid hi q e)
    (hle : lo ≤ mid) : Finds s n path lo hi q e := by
  refine ⟨hle.trans h'.le, h'.lt, h'.slot_eq, h'.name_eq, fun q' hlo hlt => ?_⟩
  rcases lt_or_ge q' mid with hmid | hmid
  · exact h q' hlo hmid
  · exact h'.first q' hmid hlt

theorem Finds.mono (h : Finds s n path lo mid q e) (hle : mid ≤ hi) : Finds s n path lo hi q e :=
  ⟨h.le, h.lt.trans_le hle, h.slot_eq, h.name_eq, h.first⟩

theorem Misses.append (h : Misses s n path lo mid) (h' : Misses s n path mid hi) :
    Misses s n path lo hi := by
  intro q hle hlt
  rcases lt_or_ge q mid with hmid | hmid
  · exact h q hle hmid
  · exact h' q hmid hlt

theorem Finds.unique (h : Finds s n path lo hi q e) (h' : Finds s n path lo hi q' e') :
    q = q' ∧ e = e' := by
  have hq : q = q' := by
    rcases lt_trichotomy q q' with hlt | heq | hlt
    · exact absurd h.name_eq (h'.first q h.le hlt e h.slot_eq)
    · exact heq
    · exact absurd h'.name_eq (h.first q' h'.le hlt e' h'.slot_eq)
  subst hq
  exact ⟨rfl, Option.some.inj (h.slot_eq.symm.trans h'.slot_eq)⟩

theorem slot_block {d : Bytes} (hd : s.data (direct n i).toNat = some d) (hi : direct n i ≠ 0)
    (hj : j < 128) : slot s n (128 * i + j) =
      if (DirEntry.ofBytes d j).valid ≠ 0 then some (DirEntry.ofBytes d j) else none := by
  unfold slot
  rw [show (128 * i + j) / 128 = i by omega, show (128 * i + j) % 128 = j by omega, hd]
  simp only [hi, ne_eq, not_false_eq_true, true_and]

theorem scanEntries_cases {d : Bytes} {left freeOffset : Nat}
    (hd : s.data (direct n i).toNat = some d) (hi : direct n i ≠ 0) (hle : j + left ≤ 128) :
    (∃ q e, Finds s n path (128 * i + j) (128 * i + j + left) q e ∧
      (scanEntries d path i left j freeOffset).1 = some e.inode) ∨
    ((scanEntries d path i left j freeOffset).1 = none ∧
      Misses s n path (128 * i + j) (128 * i + j + left) ∧
      Chooses (FreeSlot s n) (128 * i + j) (128 * i + j + left) freeOffset
        (scanEntries d path i left j freeOffset).2) := by
  induction left generalizing j freeOffset with
  | zero =>
      refine Or.inr ⟨rfl, fun q hle hlt => absurd hlt (by omega), ?_⟩
      rcases eq_or_ne freeOffset 0 with rfl | hne
      · exact Or.inr (Or.inr ⟨rfl, rfl, fun q hle hlt => absurd hlt (by omega)⟩)
      · exact Or.inl ⟨hne, rfl⟩
  | succ left ih =>
      have hslot := slot_block hd hi (j := j) (by omega)
      have hper : i * dirEntryPerBlock + j = 128 * i + j := by
        rw [show dirEntryPerBlock = 128 by decide]
        omega
      -- The rest of the loop, once entry `j` is no match and `free_offset` is `f`.
      have hrest : ∀ f, Misses s n path (128 * i + j) (128 * i + (j + 1)) →
          Chooses (FreeSlot s n) (128 * i + j) (128 * i + (j + 1)) freeOffset f →
          (∃ q e, Finds s n path (128 * i + j) (128 * i + j + (left + 1)) q e ∧
            (scanEntries d path i left (j + 1) f).1 = some e.inode) ∨
          ((scanEntries d path i left (j + 1) f).1 = none ∧
            Misses s n path (128 * i + j) (128 * i + j + (left + 1)) ∧
            Chooses (FreeSlot s n) (128 * i + j) (128 * i + j + (left + 1)) freeOffset
              (scanEntries d path i left (j + 1) f).2) := by
        intro f hmiss hchoose
        have hend : 128 * i + (j + 1) + left = 128 * i + j + (left + 1) := by omega
        have := @ih (j + 1) f (by omega)
        rw [hend] at this
        rcases this with ⟨q, e, hfinds, hresult⟩ | ⟨hresult, hmiss', hchoose'⟩
        · exact Or.inl ⟨q, e, hmiss.finds hfinds (by omega), hresult⟩
        · exact Or.inr ⟨hresult, hmiss.append hmiss',
            hchoose.trans hchoose' (by omega) (by omega)⟩
      have hone : ∀ q, 128 * i + j ≤ q → q < 128 * i + (j + 1) → q = 128 * i + j := by omega
      rw [scanEntries]
      simp only [hper]
      split
      next hmatch =>
        rw [if_pos hmatch.1] at hslot
        exact Or.inl ⟨128 * i + j, _, ⟨le_refl _, by omega, hslot, hmatch.2,
          fun q' hle hlt => absurd hlt (by omega)⟩, rfl⟩
      next hno =>
        have hmiss : Misses s n path (128 * i + j) (128 * i + (j + 1)) := by
          intro q hle hlt e he hname
          rw [hone q hle hlt, hslot] at he
          split at he
          next hvalid =>
            rw [← Option.some.inj he] at hname
            exact hno ⟨hvalid, hname⟩
          next => cases he
        split
        next hfree =>
          refine hrest _ hmiss ?_
          have hfreeSlot : FreeSlot s n (128 * i + j) := by
            refine ⟨?_, ?_⟩
            · rw [show (128 * i + j) / 128 = i by omega]
              exact hi
            · rw [hslot, if_neg (not_not.mpr hfree.1)]
          rcases eq_or_ne (128 * i + j) 0 with hzero | hne
          · refine Or.inr (Or.inr ⟨hfree.2, hzero, fun q hle hlt hq => ?_⟩)
            exact absurd ((hone q hle hlt).trans hzero) hq
          · exact Or.inr (Or.inl ⟨hfree.2, hne, le_refl _, by omega, hfreeSlot⟩)
        next hfull =>
          refine hrest _ hmiss ?_
          rcases eq_or_ne freeOffset 0 with hzero | hne
          · refine Or.inr (Or.inr ⟨hzero, hzero, fun q hle hlt _ hfreeSlot => ?_⟩)
            rw [hone q hle hlt] at hfreeSlot
            have hvalid : (DirEntry.ofBytes d j).valid ≠ 0 := fun hv => hfull ⟨hv, hzero⟩
            have := hfreeSlot.2
            rw [hslot, if_pos hvalid] at this
            cases this
          · exact Or.inl ⟨hne, rfl⟩

theorem open_load_realizes {α : Type} {p : UInt32} {d : Bytes} {k : Block → Bytes → Fs α}
    {E : Failure → Machine Bytes Globals → Prop} {Q : α → Machine Bytes Globals → Prop}
    (h : Realizes m s) (hp : IsData p) (hd : s.data p.toNat = some d)
    (hk : ∀ b m', b.blockid = p.toNat → Fresh {p.toNat} m' b → Realizes m' s →
      Runs (k b d) m' E Q) :
    Runs (do let b ← openBlock p.toNat; let d ← b.load; k b d) m E Q := by
  refine runs_open_load h.ready.sound (T := {p.toNat}) (by simp [cacheSize])
    (Finset.mem_singleton_self _) (fun hle => absurd hle (not_le.mpr hp.2))
    fun b m' hid hfresh hev hg => ?_
  have h' := h.idle hev hg
  rw [(h'.data _ hp.1 hp.2 d hd).1]
  exact hk b m' hid hfresh h'

theorem scanBlocks_realizes {left freeOffset : Nat} (h : Realizes m s) (hn : HasBlocks s n)
    {E : Failure → Machine Bytes Globals → Prop} :
    Runs (scanBlocks n path left i freeOffset) m E fun r m' => Realizes m' s ∧
      ((∃ q e, Finds s n path (128 * i) (128 * (i + left)) q e ∧ r.1 = some e.inode) ∨
        (r.1 = none ∧ Misses s n path (128 * i) (128 * (i + left)) ∧
          Chooses (FreeSlot s n) (128 * i) (128 * (i + left)) freeOffset r.2)) := by
  induction left generalizing i freeOffset m with
  | zero =>
      refine runs_pure ⟨h, Or.inr ⟨rfl, fun q hle hlt => absurd hlt (by omega), ?_⟩⟩
      rcases eq_or_ne freeOffset 0 with rfl | hne
      · exact Or.inr (Or.inr ⟨rfl, rfl, fun q hle hlt => absurd hlt (by omega)⟩)
      · exact Or.inl ⟨hne, rfl⟩
  | succ left ih =>
      have hend : i + 1 + left = i + (left + 1) := by omega
      have hrest : ∀ f (m' : Machine Bytes Globals), Realizes m' s →
          Misses s n path (128 * i) (128 * (i + 1)) →
          Chooses (FreeSlot s n) (128 * i) (128 * (i + 1)) freeOffset f →
          Runs (scanBlocks n path left (i + 1) f) m' E fun r m' => Realizes m' s ∧
            ((∃ q e, Finds s n path (128 * i) (128 * (i + (left + 1))) q e ∧
                r.1 = some e.inode) ∨
              (r.1 = none ∧ Misses s n path (128 * i) (128 * (i + (left + 1))) ∧
                Chooses (FreeSlot s n) (128 * i) (128 * (i + (left + 1))) freeOffset r.2)) := by
        intro f m' h' hmiss hchoose
        refine (ih h').mono (fun _ _ he => he) ?_
        rintro r m'' ⟨h'', hresult⟩
        rw [hend] at hresult
        rcases hresult with ⟨q, e, hfinds, hr⟩ | ⟨hr, hmiss', hchoose'⟩
        · exact ⟨h'', Or.inl ⟨q, e, hmiss.finds hfinds (by omega), hr⟩⟩
        · exact ⟨h'', Or.inr ⟨hr, hmiss.append hmiss',
            hchoose.trans hchoose' (by omega) (by omega)⟩⟩
      rw [scanBlocks]
      split
      next hi =>
        obtain ⟨hp, d, hd⟩ := hn i hi
        refine open_load_realizes h hp hd fun b m' _ _ h' => ?_
        have hscan := @scanEntries_cases s n path i 0 d 128 freeOffset hd hi (by omega)
        rw [show 128 * i + 0 + 128 = 128 * (i + 1) by omega, Nat.add_zero] at hscan
        rw [show dirEntryPerBlock = 128 by decide]
        generalize scanEntries d path i 128 0 freeOffset = result at hscan ⊢
        obtain ⟨found, f⟩ := result
        rcases hscan with ⟨q, e, hfinds, hr⟩ | ⟨hr, hmiss, hchoose⟩
        · simp only at hr
          subst hr
          exact runs_pure ⟨h', Or.inl ⟨q, e, hfinds.mono (by omega), rfl⟩⟩
        · simp only at hr
          subst hr
          exact hrest f m' h' hmiss hchoose
      next hi =>
        have hnone : ∀ q, 128 * i ≤ q → q < 128 * (i + 1) → direct n (q / 128) = 0 := by
          intro q hle hlt
          rw [show q / 128 = i by omega]
          exact not_not.mp hi
        refine hrest _ m h (fun q hle hlt e he => ?_) ?_
        · unfold slot at he
          rw [hnone q hle hlt] at he
          split at he <;> simp at he
        · rcases eq_or_ne freeOffset 0 with rfl | hne
          · exact Or.inr (Or.inr ⟨rfl, rfl, fun q hle hlt _ hfree => hfree.1 (hnone q hle hlt)⟩)
          · exact Or.inl ⟨hne, rfl⟩

/-- `get_inode_by_filename(path, false)`. -/
theorem lookup_realizes {ino : UInt32} (h : Realizes m s) (hcwd : s.cwd.toNat < maxInodeNum)
    (hn : HasBlocks s s.here) {E : Failure → Machine Bytes Globals → Prop} :
    Runs (getInodeByFilename path false ino) m E fun r m' => Realizes m' s ∧
      ((∃ q e, Finds s s.here path 0 1024 q e ∧ r = e.inode) ∨
        (r = minusOne ∧ Misses s s.here path 0 1024)) := by
  refine runs_cwdNode.bind ?_
  rintro _ m ⟨rfl, rfl⟩
  rw [h.cwd]
  refine (readInode_realizes h hcwd).bind ?_
  rintro _ m₁ ⟨rfl, h₁⟩
  refine (scanBlocks_realizes h₁ hn).bind ?_
  rintro ⟨found, f⟩ m₂ ⟨h₂, hscan⟩
  rcases hscan with ⟨q, e, hfinds, hr⟩ | ⟨hr, hmiss, -⟩
  · simp only at hr
    subst hr
    exact runs_pure ⟨h₂, Or.inl ⟨q, e, hfinds, rfl⟩⟩
  · simp only at hr
    subst hr
    exact runs_pure ⟨h₂, Or.inr ⟨rfl, hmiss⟩⟩

def setDirect (n : Inode) (i : Nat) (p : UInt32) : Inode :=
  { n with dataDirect := fun j => if (j : Nat) = i then p else n.dataDirect j }

theorem direct_setDirect {p : UInt32} (hi : i < 8) :
    direct (setDirect n i p) j = if j = i then p else direct n j := by
  unfold direct setDirect
  split
  next => rfl
  next hj => rw [if_neg (by omega)]

/-- The state after an entry was written to slot `q` of the current directory
and counted. -/
structure Inserted (s s' : FsState) (q : Nat) (e : DirEntry) (s₁ : FsState) (d : Bytes)
    (p : UInt32) : Prop where
  pointed : Pointed s (direct s.here (q / 128)) p s₁
  isData : IsData p
  held : Held s (direct s.here (q / 128)) d
  eq : s' = (s₁.setData p.toNat (some (copy d (32 * (q % 128)) e.toBytes 0 32))).setInode
    s.cwd.toNat { setDirect s.here (q / 128) p with size := s.here.size + 1 }

theorem insertEntry_realizes {ino : UInt32} {E : Failure → Machine Bytes Globals → Prop}
    {A : UInt32 → Globals → Prop} (h : Realizes m s) (htables : TablesUsed s)
    (hcwd : s.cwd.toNat < maxInodeNum) (hn : HasBlocks s s.here) (htype : s.here.type ≠ 2)
    (hq : q < 1024)
    (halloc : direct s.here (q / 128) = 0 → Runs blockAlloc m E fun n m' => A n m'.globals) :
    Runs (insertEntry s.here path q ino) m E fun r m' =>
      r = ino ∧ ∃ s' s₁ d p, Realizes m' s' ∧ Inserted s s' q ⟨ino, 1, path⟩ s₁ d p ∧
        Opens A (direct s.here (q / 128)) p m.globals m'.globals := by
  have hoffset : (UInt32.ofNat (q * dirEntrySize)).toNat = 32 * q := by
    rw [UInt32.toNat_ofNat', dirEntrySize]
    omega
  have hlt : (UInt32.ofNat (q * dirEntrySize)).toNat < l0Bound := by
    rw [hoffset, show l0Bound = 32768 by decide]
    omega
  have hlength : (UInt32.ofNat dirEntrySize).toNat = 32 := by decide
  have hindex : directIndex _ hlt = ⟨q / 128, by omega⟩ := by
    refine Fin.ext ?_
    simp only [directIndex, hoffset, show l0Size = 4096 by decide]
    omega
  have hdirect : s.here.dataDirect ⟨q / 128, by omega⟩ = direct s.here (q / 128) := by
    rw [direct, dif_pos (show q / 128 < 8 by omega)]
  have hposition : (UInt32.ofNat (q * dirEntrySize)).toNat % blockSize = 32 * (q % 128) := by
    rw [hoffset, blockSize]
    omega
  unfold insertEntry
  refine (inodeModifyData_write_realizes (A := A) h htables ?_ hlt ?_ ?_).bind ?_
  · rw [hposition, hlength, blockSize]
    omega
  · rw [hindex, hdirect]
    exact fun hne => (hn _ hne).1
  · rw [hindex, hdirect]
    exact halloc
  rintro ⟨n', _, _⟩ m₁ ⟨s₁, d, p, hpointed, hp, hheld, hn', h₁, hopens⟩
  simp only at hn'
  rw [hindex, hdirect] at hpointed hheld hopens
  rw [hposition, hlength] at h₁
  refine runs_cwdNode.bind ?_
  rintro _ m₁ ⟨rfl, rfl⟩
  have hsame : s₁.cwd = s.cwd := by
    cases hpointed <;> rfl
  have hcwd₁ : m₁.globals.cwdNode = s.cwd := h₁.cwd.trans hsame
  rw [hcwd₁]
  refine (writeInode_globals h₁ hcwd).bind ?_
  rintro _ m₂ ⟨h₂, hg₂⟩
  refine runs_pure ⟨rfl, _, s₁, d, p, h₂, ⟨hpointed, hp, hheld, ?_⟩, by rwa [hg₂]⟩
  rw [hn', grown_of_type_ne htype, hindex]
  congr 1
  simp only [setDirect, Inode.mk.injEq, and_self, and_true, true_and]
  funext i
  by_cases hi : i = ⟨q / 128, by omega⟩
  · rw [hi, Function.update_self, if_pos rfl]
  · rw [Function.update_of_ne hi, if_neg fun heq => hi (Fin.ext heq)]

end LabKernel.Directories
