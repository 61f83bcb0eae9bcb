import LabKernel.CallSafety

/-!
Machines with nothing in the cache that can be lost.

Every function that writes a block calls `update` on it afterwards, except
where `inode_modify_data_recur` zeroes a new block: a write fills the block
right away, and a read does not.  This holds as long as no block past the end
of the disk is written, since the write then goes to a block of the disk that
the cache may hold as well.
-/

namespace LabKernel.CalmMachines

open LabKernel.BlockCache
open LabKernel.BlockObject
open LabKernel.ByteMemory
open LabKernel.CacheCoherence
open LabKernel.CallSafety
open LabKernel.FsCode
open LabKernel.FsLayout
open LabKernel.FsPrimitives
open LabKernel.FsRuns
open LabKernel.HandleSafety
open LabKernel.ProgramLogic

/-- All blocks outside `D` survive the loss of their slots. -/
structure Calm (D : Set Nat) (m : Machine Bytes Globals) : Prop where
  ready : Ready m
  settled : ∀ x < maxBlockNum, x ∉ D → Settled m x

/-- A block past the end of the disk was written. -/
structure Lost (m : Machine Bytes Globals) : Prop extends Mounted m where
  strayed : m.strayed = true

/-- The machine is calm unless a block past the end of the disk was written. -/
def Within (D : Set Nat) (m : Machine Bytes Globals) : Prop := Calm D m ∨ Lost m

variable {m m' : Machine Bytes Globals} {T T' : Finset Nat} {W D D' : Set Nat} {x : Nat}
  {reference : Option (Block × Nat)} {data : Data} {p : UInt32} {block : Block}

theorem Within.calm (h : Within D m) (hstrayed : m.strayed = false) : Calm D m := by
  rcases h with h | h
  · exact h
  · rw [h.strayed] at hstrayed
    cases hstrayed

instance : Enduring Lost where
  mounted h := h.toMounted
  tracks h htracks hlayout := ⟨⟨htracks.tracked, hlayout⟩, htracks.strayed h.strayed⟩

theorem Calm.evolves (h : Calm D m) (hev : Evolves T T' W m m') (hready : Ready m')
    (hD : D ⊆ D') (hW : ∀ x ∈ W, x < maxBlockNum → x ∉ D' → Settled m' x) : Calm D' m' where
  ready := hready
  settled x hx hx' := by
    by_cases hmem : x ∈ W
    · exact hW x hmem hx hx'
    · exact hev.settled_of_settled hx hmem (h.settled x hx fun hd => hx' (hD hd))

theorem Calm.mono (h : Calm D m) (hD : D ⊆ D') : Calm D' m where
  ready := h.ready
  settled x hx hx' := h.settled x hx fun hd => hx' (hD hd)

theorem Calm.idle (h : Calm D m) (hev : Evolves T T' ∅ m m')
    (hsb : m'.globals.superblock = m.globals.superblock) : Calm D m' :=
  h.evolves hev ⟨hev.sound, hsb ▸ h.ready.layout⟩ subset_rfl
    fun _ hx => absurd hx (Set.notMem_empty _)

/-- One block was written. -/
theorem Calm.written (h : Calm D m) (hev : Evolves T T' {x} m m') (hs : Settled m' x)
    (hsb : m'.globals.superblock = m.globals.superblock) : Calm D m' := by
  refine h.evolves hev ⟨hev.sound, hsb ▸ h.ready.layout⟩ subset_rfl ?_
  rintro _ rfl _ _
  exact hs

theorem Calm.opened {b : Block} (h : Calm D m) (hrun : (openBlock x).run m = (.ok b, m')) :
    Calm D m' := by
  have hopen := (runs_openBlock (E := fun _ _ => True) h.ready.sound (T := {x})
    (by simp [cacheSize]) (Finset.mem_singleton_self x) fun _ => trivial).ok hrun
  exact h.idle hopen.2.2.1 (congrArg Globals.superblock hopen.2.2.2)

theorem Calm.globals {g : Globals} (h : Calm D m) (hg : Layout g.superblock) :
    Calm D { m with globals := g } := by
  have hev := evolves_globals (T := ∅) (W := ∅) h.ready.sound g
  exact h.evolves hev ⟨hev.sound, hg⟩ subset_rfl fun _ hx => absurd hx (Set.notMem_empty _)

instance : Lasting (Calm D) where
  mounted h := h.ready.mounted
  opened := Calm.opened
  globals := Calm.globals

theorem Calm.update (h : Calm (D ∪ W) m) (hfresh : Fresh T m block) (hW : W ⊆ {block.blockid}) :
    Runs block.update m Halted fun _ m' => Within D m' ∧ Tracks T T Set.univ m m' := by
  refine ((h.ready.sound.toTracked.runs_update hfresh).withRun).mono (fun _ _ he => he) ?_
  rintro _ m₁ ⟨⟨htracks, -, hstrayed, hg⟩, hrun⟩
  refine ⟨?_, htracks.mono (Set.subset_univ _)⟩
  have hlayout : Layout m₁.globals.superblock := hg.symm ▸ h.ready.layout
  by_cases hlt : block.blockid < maxBlockNum
  · obtain ⟨hev, -, hs, -⟩ :=
      (runs_update (E := fun _ _ => True) h.ready.sound hfresh hlt).ok hrun
    refine .inl ⟨⟨hev.sound, hlayout⟩, fun x hx hx' => ?_⟩
    rcases eq_or_ne x block.blockid with rfl | hne
    · exact hs
    · refine hev.settled_of_settled hx hne (h.settled x hx ?_)
      rintro (hd | hw)
      · exact hx' hd
      · exact hne (hW hw)
  · exact .inr ⟨⟨htracks.tracked, hlayout⟩, hstrayed (not_lt.mp hlt)⟩

theorem Calm.store {d : Bytes} (h : Calm D m) (hfresh : Fresh T m block) :
    Runs (block.store d) m Halted fun _ m' => Calm (D ∪ {block.blockid}) m' ∧
      Evolves T T {block.blockid} m m' ∧ visible m' block.blockid = d := by
  refine (runs_store h.ready.sound hfresh d).mono (fun _ _ he => he) ?_
  rintro _ m₁ ⟨hev, hv, hg⟩
  refine ⟨h.evolves hev ⟨hev.sound, hg.symm ▸ h.ready.layout⟩ Set.subset_union_left ?_, hev, hv⟩
  exact fun x hx _ hx' => absurd (Or.inr hx) hx'

instance : LastingStore (Within D) where
  mounted h := h.elim (fun h => h.ready.mounted) fun h => h.toMounted
  opened h hrun := h.imp (fun h => h.opened hrun) fun h => Lasting.opened h hrun
  globals h hg := h.imp (fun h => h.globals hg) fun h => Lasting.globals h hg
  stored h hb hrun₁ hrun₂ := by
    rcases h with h | h
    · obtain ⟨h₁, hev₁, -⟩ := (h.store hb).ok hrun₁
      exact ((h₁.update (hev₁.fresh _ hb) subset_rfl).ok hrun₂).1
    · exact .inr (LastingStore.stored h hb hrun₁ hrun₂)

/-- The block that a reference to a pointer is in. -/
def referenceBlock : Option (Block × Nat) → Set Nat
  | none => ∅
  | some (parent, _) => {parent.blockid}

theorem runs_assignPointer (h : Calm D m) (href : FreshReference T m reference) :
    Runs (assignPointer reference p) m Halted fun _ m' =>
      Calm (D ∪ referenceBlock reference) m' ∧ Tracks T T Set.univ m m' := by
  cases reference with
  | none => exact runs_pure ⟨h.mono Set.subset_union_left, tracks_refl h⟩
  | some entry =>
      refine (runs_load h.ready.sound href).bind ?_
      rintro index m ⟨rfl, rfl⟩
      refine (h.store href).mono (fun _ _ he => he) ?_
      rintro _ m₁ ⟨h₁, hev, -⟩
      exact ⟨h₁, hev.toTracks.mono (Set.subset_univ _)⟩

/-- The blocks that may be lost once a block is open: the one with the
reference and the new block itself. -/
def opened (p : UInt32) (reference : Option (Block × Nat)) : Set Nat :=
  if p = 0 then referenceBlock reference else ∅

theorem opened_new (h : p = 0) : opened p reference = referenceBlock reference := if_pos h

theorem opened_old (h : p ≠ 0) : opened p reference = ∅ := if_neg h

theorem runs_blockAlloc_calm (h : Calm D m) (hT : T.card ≤ cacheSize) (hmem : blockMapArea ⊆ T) :
    Runs blockAlloc m Halted fun _ m' => Calm D m' ∧ Tracks T T Set.univ m m' := by
  refine (runs_blockAlloc h.ready hT hmem).mono (fun _ _ he => he.2) ?_
  rintro n m' ⟨-, hev, htook, hg⟩
  refine ⟨h.evolves hev ⟨hev.sound, ?_⟩ subset_rfl ?_, hev.toTracks.mono (Set.subset_univ _)⟩
  · rw [hg]
    exact h.ready.layout.countBlock n
  · rintro x (rfl | rfl) _ _
    · exact htook.settled_zero
    · exact htook.settled

/-- A new block shows zeros and is not written out yet. -/
structure Opened (D : Set Nat) (T : Finset Nat) (p : UInt32) (reference : Option (Block × Nat))
    (m m' : Machine Bytes Globals) (r : UInt32 × Bool × Block) : Prop where
  tracks : Tracks T (insert r.1.toNat T) Set.univ m m'
  fresh : Fresh (insert r.1.toNat T) m' r.2.2
  isNew : r.2.1 = decide (p = 0)
  calm : Calm (D ∪ opened p reference ∪ if p = 0 then {r.2.2.blockid} else ∅) m'
  zero : p = 0 → visible m' r.2.2.blockid = zeros

theorem runs_openPointer (h : Calm D m) (hT : T.card < cacheSize) (hmem : blockMapArea ⊆ T)
    (href : FreshReference T m reference) :
    Runs (openPointer reference p) m Halted fun r m' => Opened D T p reference m m' r := by
  have hcard : ∀ y, (insert y T).card ≤ cacheSize := fun y =>
    (Finset.card_insert_le y T).trans hT
  have hgrow : ∀ {D} y m, Calm D m → Tracks T (insert y T) Set.univ m m := fun y m h =>
    Tracks.refl h.ready.sound.toTracked (Finset.subset_insert _ _)
  unfold openPointer
  split
  next hzero =>
    refine (runs_blockAlloc_calm h hT.le hmem).bind ?_
    rintro new m₁ ⟨h₁, htracks₁⟩
    refine (runs_assignPointer h₁ (href.tracks htracks₁)).bind ?_
    rintro _ m₂ ⟨h₂, htracks₂⟩
    refine (openBlock_tracks h₂ (hcard new.toNat) (Finset.mem_insert_self _ _)).bind ?_
    rintro block m₃ ⟨h₃, -, hfresh, htracks₃, -⟩
    refine (h₃.store hfresh).bind ?_
    rintro _ m₄ ⟨h₄, hev₄, hv₄⟩
    refine runs_pure ⟨?_, hev₄.fresh _ hfresh, (decide_eq_true hzero).symm, ?_, fun _ => hv₄⟩
    · exact htracks₁.trans (htracks₂.trans ((hgrow _ m₂ h₂).trans
        ((htracks₃.mono (Set.subset_univ _)).trans (hev₄.toTracks.mono (Set.subset_univ _)))))
    · rw [opened_new hzero, if_pos hzero]
      exact h₄
  next hne =>
    refine (openBlock_tracks h (hcard p.toNat) (Finset.mem_insert_self _ _)).bind ?_
    rintro block m₁ ⟨h₁, -, hfresh, htracks₁, -⟩
    refine runs_pure ⟨(hgrow _ m h).trans (htracks₁.mono (Set.subset_univ _)), hfresh,
      (decide_eq_false hne).symm, ?_, fun hzero => absurd hzero hne⟩
    rw [opened_old hne, if_neg hne, Set.union_empty, Set.union_empty]
    exact h₁

theorem runs_transfer_write {offset length : Nat} (h : Calm (D ∪ W) m)
    (hfresh : Fresh T m block) (hdata : FreshData T m data) (hW : W ⊆ {block.blockid}) :
    Runs (transfer true block data offset length) m Halted fun _ m' =>
      Within D m' ∧ Tracks T T Set.univ m m' := by
  unfold transfer
  rw [if_pos rfl]
  refine (data_load_tracks h.ready.sound.toTracked hdata).bind ?_
  rintro src m rfl
  refine (runs_load h.ready.sound hfresh).bind ?_
  rintro bytes m ⟨rfl, rfl⟩
  refine ((h.mono (Set.union_subset_union_right D hW)).store hfresh).bind ?_
  rintro _ m₁ ⟨h₁, hev₁, -⟩
  rw [Set.union_assoc, Set.union_self] at h₁
  refine (h₁.update (hev₁.fresh _ hfresh) subset_rfl).bind ?_
  rintro _ m₂ ⟨h₂, htracks₂⟩
  exact runs_pure ⟨h₂, (hev₁.toTracks.mono (Set.subset_univ _)).trans htracks₂⟩

/-- After a write only the block with the reference may be lost, and the
caller learns of it. -/
theorem inodeModifyDataRecur_write_calm {depth : Nat} {offset length : Nat} (h : Calm D m)
    (hT : T.card + depth < cacheSize) (hmem : blockMapArea ⊆ T)
    (href : FreshReference T m reference) (hdata : FreshData T m data) :
    Runs (inodeModifyDataRecur true depth reference p data offset length) m Halted
      fun r m' => Within (D ∪ opened p reference) m' ∧ r.2.2 = decide (p = 0) ∧
        ∃ T', Tracks T T' Set.univ m m' := by
  induction depth generalizing m T D reference p data offset length with
  | zero =>
      refine (runs_openPointer h (by omega) hmem href).bind ?_
      rintro ⟨id, new, block⟩ m₁ h₁
      refine (runs_transfer_write h₁.calm h₁.fresh (hdata.tracks h₁.tracks) ?_).bind ?_
      · split
        next => exact Set.Subset.refl _
        next => exact Set.empty_subset _
      rintro data m₂ ⟨h₂, htracks₂⟩
      exact runs_pure ⟨h₂, h₁.isNew, _, h₁.tracks.trans htracks₂⟩
  | succ depth ih =>
      refine (runs_openPointer h (by omega) hmem href).bind ?_
      rintro ⟨id, new, block⟩ m₁ h₁
      refine runs_bind (runs_assert (fun _ => h₁.calm.ready.sound.recycled) fun _ => ?_)
      refine (runs_load h₁.calm.ready.sound h₁.fresh).bind ?_
      rintro index m₁ ⟨rfl, rfl⟩
      have hcard := Finset.card_insert_le id.toNat T
      have hblock := h₁.fresh
      refine Runs.bind (ih (T := insert id.toNat T) h₁.calm (by omega)
        (hmem.trans (Finset.subset_insert _ _)) hblock hblock) ?_
      rintro ⟨_, _, modified⟩ m₂ ⟨h₂, hmodified, T', htracks₂⟩
      dsimp only at h₂ hmodified
      have hdone : Runs (doWhen modified block.update) m₂ Halted fun _ m' =>
          Within (D ∪ opened p reference) m' ∧ ∃ T', Tracks T T' Set.univ m m' := by
        have hupdate : (Runs block.update m₂ Halted fun _ m' =>
              Within (D ∪ opened p reference) m' ∧ Tracks T' T' Set.univ m₂ m') →
            Runs block.update m₂ Halted fun _ m' =>
              Within (D ∪ opened p reference) m' ∧ ∃ T', Tracks T T' Set.univ m m' :=
          fun hstep => hstep.mono (fun _ _ he => he) fun _ _ hq =>
            ⟨hq.1, T', h₁.tracks.trans (htracks₂.trans hq.2)⟩
        rcases h₂ with h₂ | h₂
        · rw [hmodified]
          by_cases hentry :
              get32 (visible m₁ block.blockid) (4 * (offset / entrySize (depth + 1))) = 0
          · rw [opened_new hentry, referenceBlock, Set.union_assoc] at h₂
            rw [decide_eq_true hentry]
            refine hupdate (h₂.update (htracks₂.fresh _ hblock)
              (Set.union_subset ?_ (Set.Subset.refl _)))
            split
            next => exact Set.Subset.refl _
            next => exact Set.empty_subset _
          · -- the entries of a new index block are 0
            have hp : p ≠ 0 := by
              intro hp
              rw [h₁.zero hp] at hentry
              exact hentry (get32_zeros _)
            rw [opened_old hentry, if_neg hp, Set.union_empty, Set.union_empty] at h₂
            rw [decide_eq_false hentry]
            exact runs_pure ⟨.inl h₂, T', h₁.tracks.trans htracks₂⟩
        · cases modified with
          | false => exact runs_pure ⟨.inr h₂, T', h₁.tracks.trans htracks₂⟩
          | true =>
              refine hupdate (((tracked_of_lasting h₂).runs_update
                (htracks₂.fresh _ hblock)).mono (fun _ _ he => he) ?_)
              rintro _ m₃ ⟨htracks₃, -, -, hg₃⟩
              obtain ⟨h₃, hstep⟩ := enduring_step h₂ htracks₃ hg₃
              exact ⟨.inr h₃, hstep⟩
      refine hdone.bind ?_
      rintro _ m₃ ⟨h₃, htracks₃⟩
      exact runs_pure ⟨h₃, h₁.isNew, htracks₃⟩

theorem keeps_within_recur {depth : Nat} (hdepth : depth ≤ 2) (p : UInt32) (bytes : Bytes)
    (offset length : Nat) :
    Keeps (Within D) (inodeModifyDataRecur true depth none p (.buffer bytes) offset length) := by
  rintro m (h | h)
  · have hcard : blockMapArea.card = 4 := by decide
    have hopened : opened p none = ∅ := by
      unfold opened
      split
      next => rfl
      next => rfl
    have href : FreshReference blockMapArea m none := trivial
    have hdata : FreshData blockMapArea m (.buffer bytes) := trivial
    refine (inodeModifyDataRecur_write_calm h (by rw [hcard, cacheSize]; omega)
      (Finset.Subset.refl _) href hdata).mono (fun _ _ he => he) ?_
    rintro r m' ⟨h', -⟩
    rwa [hopened, Set.union_empty] at h'
  · exact (keeps_inodeModifyDataRecur hdepth _ _ _ _ m h).mono (fun _ _ he => he)
      fun _ _ h' => .inr h'

instance : LastingWrite (Within D) where
  write := keeps_modifyData_of_recur fun _ hdepth => keeps_within_recur hdepth

theorem settled_boot (c : Cache Bytes) (g : Globals) (hx : x < maxBlockNum) :
    Settled (boot c g) x := by
  obtain ⟨hv, hs⟩ := visible_eq_of_coherent (m := boot c g) (coherent_cacheInit c) hx
  exact hv.trans hs.symm

theorem within_of_formatted (h : Formatted m) : Within ∅ m := by
  obtain ⟨c, g, hage, hrun⟩ := h
  have hsound := sound_boot g hage
  refine (fsMkfs_keeps fun g' hlayout => .inl ⟨⟨(evolves_globals (T := ∅) (W := ∅) hsound
    g').sound, hlayout⟩, fun x hx _ => settled_boot c g hx⟩).ok hrun

end LabKernel.CalmMachines
