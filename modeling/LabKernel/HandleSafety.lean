import LabKernel.FsPrimitives

/-!
The block objects of the file system are not used after their slots have been
recycled, in any state of the file system.

A property lasts when the few steps that all functions are made of keep it: to
open a block, to change the variables, and to write an open block and call
`update`.  The functions keep every lasting property, except for the listing
of a directory and the freeing of the blocks of a file, which do so under a
condition on the blocks they read.
-/

namespace LabKernel.HandleSafety

open LabKernel.BlockCache
open LabKernel.BlockObject
open LabKernel.ByteMemory
open LabKernel.CacheCoherence (MayShow)
open LabKernel.FsCode
open LabKernel.FsLayout
open LabKernel.FsPrimitives
open LabKernel.ProgramLogic

variable {m m' m₁ m₂ : Machine Bytes Globals} {T T' : Finset Nat} {W : Set Nat} {x : Nat}
  {α γ : Type} {p : Fs α} {f : α → Fs γ} {b : Block} {d : Bytes} {ino : UInt32}

/-- A stopped run has used no recycled slot. -/
def Halted : Failure → Machine Bytes Globals → Prop := fun _ m => m.recycled = false

/-- Every run of the program keeps the property. -/
def Keeps (P : Machine Bytes Globals → Prop) (p : Fs α) : Prop :=
  ∀ m, P m → Runs p m Halted fun _ m' => P m'

/-- A property of mounted machines that opening blocks and changing the
variables keeps. -/
class Lasting (P : Machine Bytes Globals → Prop) : Prop where
  mounted : ∀ {m}, P m → Mounted m
  opened : ∀ {m m' x b}, P m → (openBlock x).run m = (.ok b, m') → P m'
  globals : ∀ {m g}, P m → Layout g.superblock → P { m with globals := g }

/-- A lasting property that writing a block and calling `update` keeps. -/
class LastingStore (P : Machine Bytes Globals → Prop) : Prop extends Lasting P where
  stored : ∀ {T m m₁ m₂ b d}, P m → Fresh T m b → (b.store d).run m = (.ok (), m₁) →
    b.update.run m₁ = (.ok (), m₂) → P m₂

/-- A lasting property that writing to a file keeps as well. -/
class LastingWrite (P : Machine Bytes Globals → Prop) : Prop extends LastingStore P where
  write : ∀ n buffer offset length, Keeps P (inodeModifyData true n buffer offset length)

variable {P : Machine Bytes Globals → Prop}

theorem keeps_pure (a : α) : Keeps P (pure a) := fun _ h => runs_pure h

theorem keeps_bind (hp : Keeps P p) (hf : ∀ a, Keeps P (f a)) : Keeps P (p >>= f) :=
  fun m h => (hp m h).bind fun a m' h' => hf a m' h'

theorem keeps_ite {c : Prop} [Decidable c] {q : Fs α} (hp : Keeps P p) (hq : Keeps P q) :
    Keeps P (if c then p else q) := by
  split
  next => exact hp
  next => exact hq

theorem keeps_doWhen (condition : Bool) {q : Fs Unit} (hq : Keeps P q) :
    Keeps P (doWhen condition q) :=
  keeps_ite hq (keeps_pure ())

theorem keeps_getGlobals : Keeps P getGlobals := fun _ h => runs_of_ok rfl h

theorem keeps_getSuperblock : Keeps P getSuperblock := fun _ h => runs_of_ok rfl h

theorem keeps_cwdNode : Keeps P cwdNode := fun _ h => runs_of_ok rfl h

section Lasting

variable [Lasting P]

theorem tracked_of_lasting (h : P m) : Tracked m := (Lasting.mounted h).tracked

theorem layout_of_lasting (h : P m) : Layout m.globals.superblock := (Lasting.mounted h).layout

theorem recycled_of_lasting (h : P m) : m.recycled = false := (tracked_of_lasting h).recycled

theorem tracks_refl (h : P m) : Tracks T T W m m := Tracks.refl (tracked_of_lasting h) subset_rfl

theorem keeps_fail (e : Failure) : Keeps P (fail e : Fs α) :=
  fun _ h => runs_fail (recycled_of_lasting h)

theorem keeps_assert (condition : Bool) (e : Failure) : Keeps P (assert condition e) :=
  keeps_ite (keeps_pure ()) (keeps_fail e)

theorem openBlock_tracks (h : P m) (hT : T.card ≤ cacheSize) (hmem : x ∈ T) :
    Runs (openBlock x) m Halted fun b m' => P m' ∧ b.blockid = x ∧ Fresh T m' b ∧
      Tracks T T ∅ m m' ∧ m'.globals = m.globals := by
  refine ((tracked_of_lasting h).runs_openBlock hT hmem
    fun _ => recycled_of_lasting h).withRun.mono (fun _ _ he => he) ?_
  rintro b m' ⟨hopen, hrun⟩
  exact ⟨Lasting.opened h hrun, hopen⟩

theorem open_load_tracks {Q : α → Machine Bytes Globals → Prop} {k : Block → Bytes → Fs α}
    (h : P m) (hT : T.card ≤ cacheSize) (hmem : x ∈ T)
    (hk : ∀ b d m', P m' → b.blockid = x → MayShow m.cache x d → Fresh T m' b → Tracks T T ∅ m m' →
      m'.globals = m.globals → Runs (k b d) m' Halted Q) :
    Runs (do let b ← openBlock x; let d ← b.load; k b d) m Halted Q := by
  refine (openBlock_tracks h hT hmem).bind ?_
  rintro b m₁ ⟨h₁, hid, hfresh, htracks, hg⟩
  refine ((tracked_of_lasting h₁).runs_load hfresh).bind ?_
  rintro d m₁ ⟨rfl, rfl⟩
  exact hk b _ m₁ h₁ hid (hid ▸ htracks.mayShow _ _ (fun _ hw => absurd hw (Set.notMem_empty _))
    (mayShow_visible m₁ b.blockid)) hfresh htracks hg

theorem keeps_open_load {k : Block → Bytes → Fs α} (x : Nat) (hk : ∀ b d m, P m →
    Fresh {x} m b → Runs (k b d) m Halted fun _ m' => P m') :
    Keeps P (do let b ← openBlock x; let d ← b.load; k b d) := fun _ h =>
  open_load_tracks h (T := {x}) (by simp [cacheSize]) (Finset.mem_singleton_self x)
    fun b d m' h' _ _ hfresh _ _ => hk b d m' h' hfresh

theorem modifyGlobals_tracks {g : Globals → Globals} (h : P m)
    (hg : Layout (g m.globals).superblock) :
    Runs (modifyGlobals g) m Halted fun _ m' =>
      P m' ∧ Tracks T T ∅ m m' ∧ m'.globals = g m.globals :=
  runs_of_ok rfl ⟨Lasting.globals h hg, tracked_globals (tracked_of_lasting h) _, rfl⟩

theorem keeps_modifyGlobals (g : Globals → Globals)
    (hg : ∀ a : Globals, (g a).superblock = a.superblock) : Keeps P (modifyGlobals g) := by
  intro m h
  refine (modifyGlobals_tracks (T := ∅) h ?_).mono (fun _ _ he => he) fun _ _ hq => hq.1
  rw [hg]
  exact layout_of_lasting h

theorem keeps_setCwdNode (ino : UInt32) : Keeps P (setCwdNode ino) :=
  keeps_modifyGlobals _ fun _ => rfl

theorem keeps_print (s : Printed) : Keeps P (print s) := keeps_modifyGlobals _ fun _ => rfl

theorem keeps_failWith (s : String) : Keeps P (failWith s) :=
  keeps_bind (keeps_print _) fun _ => keeps_pure _

theorem readInode_tracks (h : P m) (hT : T.card ≤ cacheSize) (hmem : 5 + ino.toNat / 64 ∈ T) :
    Runs (readInode ino) m Halted fun _ m' => P m' ∧ Tracks T T ∅ m m' := by
  refine runs_getSuperblock.bind ?_
  rintro sb m ⟨rfl, rfl⟩
  rw [inodeBlock_eq (layout_of_lasting h)]
  exact open_load_tracks h hT hmem fun _ _ _ h' _ _ _ htracks _ => runs_pure ⟨h', htracks⟩

theorem keeps_readInode (ino : UInt32) : Keeps P (readInode ino) := fun _ h =>
  (readInode_tracks h (T := {5 + ino.toNat / 64}) (by simp [cacheSize])
    (Finset.mem_singleton_self _)).mono (fun _ _ he => he) fun _ _ hq => hq.1

end Lasting

section LastingStore

variable [LastingStore P]

theorem store_tracks (h : P m) (hb : Fresh T m b) (d : Bytes) :
    Runs (b.store d) m Halted fun _ m₁ => Runs b.update m₁ Halted fun _ m' =>
      P m' ∧ Tracks T T {b.blockid} m m' ∧ m'.globals = m.globals := by
  refine ((tracked_of_lasting h).runs_store hb d).withRun.mono (fun _ _ he => he) ?_
  rintro _ m₁ ⟨⟨htracks₁, -, hg₁⟩, hrun₁⟩
  refine (htracks₁.tracked.runs_update (htracks₁.fresh b hb)).withRun.mono (fun _ _ he => he) ?_
  rintro _ m₂ ⟨⟨htracks₂, -, -, hg₂⟩, hrun₂⟩
  exact ⟨LastingStore.stored h hb hrun₁ hrun₂, htracks₁.trans htracks₂, hg₂.trans hg₁⟩

theorem store_update_tracks {Q : α → Machine Bytes Globals → Prop} {k : Fs α} (h : P m)
    (hb : Fresh T m b)
    (hk : ∀ m', P m' → Tracks T T {b.blockid} m m' → m'.globals = m.globals →
      Runs k m' Halted Q) :
    Runs (do b.store d; b.update; k) m Halted Q :=
  (store_tracks h hb d).bind fun _ _ h₁ => h₁.bind fun _ m' hq => hk m' hq.1 hq.2.1 hq.2.2

theorem keeps_writeInode (ino : UInt32) (n : Inode) : Keeps P (writeInode ino n) := by
  intro m h
  refine runs_getSuperblock.bind ?_
  rintro sb m ⟨rfl, rfl⟩
  refine open_load_tracks h (T := {inodeBlock m.globals.superblock ino}) (by simp [cacheSize])
    (Finset.mem_singleton_self _) fun b d m₁ h₁ _ _ hfresh _ _ => ?_
  exact (store_tracks h₁ hfresh _).bind fun _ _ h₂ => h₂.mono (fun _ _ he => he) fun _ _ hq => hq.1

theorem flushSuperblock_tracks (h : P m) (hT : T.card ≤ cacheSize) (h0 : 0 ∈ T) :
    Runs flushSuperblock m Halted fun _ m' => P m' ∧ Tracks T T {0} m m' := by
  refine (openBlock_tracks h hT h0).bind ?_
  rintro b m₁ ⟨h₁, hid, hfresh, htracks₁, -⟩
  refine runs_getSuperblock.bind ?_
  rintro sb m₁ ⟨rfl, rfl⟩
  refine ((tracked_of_lasting h₁).runs_load hfresh).bind ?_
  rintro d m₁ ⟨rfl, rfl⟩
  refine (store_tracks h₁ hfresh _).bind fun _ _ h₂ => h₂.mono (fun _ _ he => he) ?_
  rintro _ m₃ ⟨h₃, htracks₃, -⟩
  exact ⟨h₃, (htracks₁.mono (Set.empty_subset _)).trans (hid ▸ htracks₃)⟩

/-- A number of a bit map was marked or cleared: what remains is to count it
and to write the super block. -/
theorem account_tracks {account : SuperBlock → SuperBlock} (h : P m) (hT : T.card ≤ cacheSize)
    (h0 : 0 ∈ T) (haccount : ∀ sb, Layout sb → Layout (account sb)) :
    Runs (modifySuperblock account) m Halted fun _ m₁ =>
      Runs flushSuperblock m₁ Halted fun _ m' => P m' ∧ Tracks T T {0} m m' := by
  refine (modifyGlobals_tracks (T := T) h (haccount _ (layout_of_lasting h))).mono
    (fun _ _ he => he) ?_
  rintro _ m₁ ⟨h₁, htracks₁, -⟩
  refine (flushSuperblock_tracks h₁ hT h0).mono (fun _ _ he => he) ?_
  rintro _ m₂ ⟨h₂, htracks₂⟩
  exact ⟨h₂, (htracks₁.mono (Set.empty_subset _)).trans htracks₂⟩

theorem allocLoop_tracks {mapStart : UInt32} {noSpace : Failure}
    {account : UInt32 → SuperBlock → SuperBlock} {left i : Nat} (h : P m)
    (hT : T.card ≤ cacheSize) (h0 : 0 ∈ T) (hW : 0 ∈ W)
    (haccount : ∀ n sb, Layout sb → Layout (account n sb))
    (hmem : ∀ i', i ≤ i' → i' < i + left →
      (mapStart + UInt32.ofNat i').toNat ∈ T ∧ (mapStart + UInt32.ofNat i').toNat ∈ W) :
    Runs (allocLoop mapStart noSpace account left i) m Halted fun _ m' =>
      P m' ∧ Tracks T T W m m' := by
  induction left generalizing i m with
  | zero => exact runs_fail (recycled_of_lasting h)
  | succ left ih =>
      obtain ⟨hmemT, hmemW⟩ := hmem i (le_refl _) (by omega)
      refine open_load_tracks h hT hmemT fun b d m₁ h₁ hid _ hfresh htracks₁ _ => ?_
      have hbegin : Tracks T T W m m₁ := htracks₁.mono (Set.empty_subset _)
      split
      next j k hfind =>
        refine store_update_tracks h₁ hfresh fun m₂ h₂ htracks₂ _ => ?_
        refine (account_tracks h₂ hT h0 (haccount _)).bind fun _ _ h₃ => h₃.bind ?_
        rintro _ m₄ ⟨h₄, htracks₄⟩
        exact runs_pure ⟨h₄, hbegin.trans ((htracks₂.mono
          (Set.singleton_subset_iff.mpr (hid ▸ hmemW))).trans (htracks₄.mono
          (Set.singleton_subset_iff.mpr hW)))⟩
      next =>
        refine (ih h₁ fun i' hi hi' => hmem i' (by omega) (by omega)).mono (fun _ _ he => he) ?_
        rintro _ m₂ ⟨h₂, htracks₂⟩
        exact ⟨h₂, hbegin.trans htracks₂⟩

theorem freeNumber_tracks {mapStart number : UInt32} {limit : Nat}
    {account : UInt32 → SuperBlock → SuperBlock} (h : P m)
    (hT : T.card ≤ cacheSize) (h0 : 0 ∈ T) (hW : 0 ∈ W)
    (haccount : ∀ n sb, Layout sb → Layout (account n sb))
    (hmem : number.toNat < limit →
      (mapStart + UInt32.ofNat (number.toNat / bitsPerBlock)).toNat ∈ T ∧
      (mapStart + UInt32.ofNat (number.toNat / bitsPerBlock)).toNat ∈ W) :
    Runs (freeNumber mapStart limit account number) m Halted fun _ m' =>
      P m' ∧ Tracks T T W m m' := by
  unfold freeNumber
  refine runs_bind (runs_assert (fun _ => recycled_of_lasting h) fun htrue => ?_)
  obtain ⟨hmemT, hmemW⟩ := hmem (by simpa using htrue)
  refine open_load_tracks h hT hmemT fun b d m₁ h₁ hid _ hfresh htracks₁ _ => ?_
  refine runs_bind (runs_assert (fun _ => recycled_of_lasting h₁) fun _ => ?_)
  refine store_update_tracks h₁ hfresh fun m₂ h₂ htracks₂ _ => ?_
  refine (account_tracks h₂ hT h0 (haccount _)).bind fun _ _ h₃ => h₃.mono (fun _ _ he => he) ?_
  rintro _ m₄ ⟨h₄, htracks₄⟩
  exact ⟨h₄, (htracks₁.mono (Set.empty_subset _)).trans ((htracks₂.mono
    (Set.singleton_subset_iff.mpr (hid ▸ hmemW))).trans (htracks₄.mono
    (Set.singleton_subset_iff.mpr hW)))⟩

theorem mem_blockMapArea {i : Nat} (hi : i < 3) :
    ((2 : UInt32) + UInt32.ofNat i).toNat ∈ blockMapArea := by
  have : i = 0 ∨ i = 1 ∨ i = 2 := by omega
  rcases this with rfl | rfl | rfl <;> decide

theorem blockAlloc_tracks (h : P m) (hT : T.card ≤ cacheSize) (hmem : blockMapArea ⊆ T) :
    Runs blockAlloc m Halted fun _ m' => P m' ∧ Tracks T T blockMapArea m m' := by
  refine runs_getSuperblock.bind ?_
  rintro sb m ⟨rfl, rfl⟩
  have hlayout := layout_of_lasting h
  rw [hlayout.blockMapStartBlock, hlayout.blockMapSize]
  refine allocLoop_tracks h hT (hmem (by decide)) (by simp [blockMapArea])
    (fun n _ hsb => hsb.countBlock n) fun i hi hi' => ?_
  have hsize : (98304 : UInt32).toNat / bitsPerBlock = 3 := by decide
  have harea := mem_blockMapArea (show i < 3 by omega)
  exact ⟨hmem harea, harea⟩

theorem blockFree_tracks {n : UInt32} (h : P m) (hT : T.card ≤ cacheSize)
    (hmem : blockMapArea ⊆ T) :
    Runs (blockFree n) m Halted fun _ m' => P m' ∧ Tracks T T blockMapArea m m' := by
  refine runs_getSuperblock.bind ?_
  rintro sb m ⟨rfl, rfl⟩
  rw [(layout_of_lasting h).blockMapStartBlock]
  refine freeNumber_tracks h hT (hmem (by decide)) (by simp [blockMapArea])
    (fun n _ hsb => hsb.discountBlock n) fun hn => ?_
  have hbits : bitsPerBlock = 32768 := by decide
  rw [maxBlockNum_eq] at hn
  have harea := mem_blockMapArea (show n.toNat / bitsPerBlock < 3 by rw [hbits]; omega)
  exact ⟨hmem harea, harea⟩

theorem keeps_inodeAlloc : Keeps P inodeAlloc := by
  intro m h
  refine runs_getSuperblock.bind ?_
  rintro sb m ⟨rfl, rfl⟩
  have hlayout := layout_of_lasting h
  rw [hlayout.inodeMapStartBlock, hlayout.inodeMapSize]
  refine (allocLoop_tracks h (T := inodeMapArea) (W := inodeMapArea) (by decide) (by decide)
    (by simp [inodeMapArea]) (fun n _ hsb => hsb.countInode n) fun i hi hi' => ?_).mono
    (fun _ _ he => he) fun _ _ hq => hq.1
  have hsize : (32768 : UInt32).toNat / bitsPerBlock = 1 := by decide
  obtain rfl : i = 0 := by omega
  exact ⟨by decide, by simp [inodeMapArea]⟩

theorem keeps_inodeFree (n : UInt32) : Keeps P (inodeFree n) := by
  intro m h
  refine runs_getSuperblock.bind ?_
  rintro sb m ⟨rfl, rfl⟩
  rw [(layout_of_lasting h).inodeMapStartBlock]
  refine (freeNumber_tracks h (T := inodeMapArea) (W := inodeMapArea) (by decide) (by decide)
    (by simp [inodeMapArea]) (fun n _ hsb => hsb.discountInode n) fun hn => ?_).mono
    (fun _ _ he => he) fun _ _ hq => hq.1
  have hbits : bitsPerBlock = 32768 := by decide
  have hmax : maxInodeNum = 32768 := by decide
  rw [show n.toNat / bitsPerBlock = 0 by rw [hbits]; omega]
  exact ⟨by decide, by simp [inodeMapArea]⟩

end LastingStore

/-- A property of mounted machines that does not depend on the contents of
the blocks. -/
class Enduring (P : Machine Bytes Globals → Prop) : Prop where
  mounted : ∀ {m}, P m → Mounted m
  tracks : ∀ {T T' W m m'}, P m → Tracks T T' W m m' → Layout m'.globals.superblock → P m'

instance : Enduring Mounted where
  mounted h := h
  tracks _ htracks hlayout := ⟨htracks.tracked, hlayout⟩

section Enduring

variable [Enduring P]

theorem tracked_of_enduring (h : P m) : Tracked m := (Enduring.mounted h).tracked

theorem enduring_idle (h : P m) (htracks : Tracks T T' W m m')
    (hg : m'.globals.superblock = m.globals.superblock) : P m' :=
  Enduring.tracks h htracks (hg ▸ (Enduring.mounted h).layout)

instance (priority := low) : LastingStore P where
  mounted := Enduring.mounted
  opened {m _ x _} h hrun := by
    have hopen := ((tracked_of_enduring h).runs_openBlock (E := fun _ _ => True) (T := {x})
      (by simp [cacheSize]) (Finset.mem_singleton_self x) fun _ => trivial).ok hrun
    exact enduring_idle h hopen.2.2.1 (congrArg Globals.superblock hopen.2.2.2)
  globals h hlayout :=
    Enduring.tracks h (tracked_globals (T := ∅) (W := ∅) (tracked_of_enduring h) _) hlayout
  stored {_ _ _ _ b d} h hb hrun₁ hrun₂ := by
    have hstore := ((tracked_of_enduring h).runs_store (E := fun _ _ => True) hb d).ok hrun₁
    have hupdate := (hstore.1.tracked.runs_update (E := fun _ _ => True)
      (hstore.1.fresh b hb)).ok hrun₂
    exact enduring_idle h (hstore.1.trans hupdate.1)
      (congrArg Globals.superblock (hupdate.2.2.2.trans hstore.2.2))

end Enduring

/-- The block objects behind `data` and behind the reference to a pointer. -/
def FreshData (T : Finset Nat) (m : Machine Bytes Globals) : Data → Prop
  | .buffer _ => True
  | .block b => Fresh T m b

def FreshReference (T : Finset Nat) (m : Machine Bytes Globals) : Option (Block × Nat) → Prop
  | none => True
  | some (b, _) => Fresh T m b

theorem FreshData.tracks {data : Data} (h : FreshData T m data) (htracks : Tracks T T' W m m') :
    FreshData T' m' data := by
  cases data with
  | buffer bytes => trivial
  | block b => exact htracks.fresh b h

theorem FreshReference.tracks {reference : Option (Block × Nat)}
    (h : FreshReference T m reference) (htracks : Tracks T T' W m m') :
    FreshReference T' m' reference := by
  cases reference with
  | none => trivial
  | some entry => exact htracks.fresh entry.1 h

theorem data_load_tracks {data : Data} (h : Tracked m) (hdata : FreshData T m data) :
    Runs data.load m Halted fun _ m' => m' = m := by
  cases data with
  | buffer bytes => exact runs_pure rfl
  | block b => exact (h.runs_load hdata).mono (fun _ _ he => he) fun _ _ hm => hm.2

section Enduring

variable [Enduring P]

theorem enduring_step (h : P m) (htracks : Tracks T T' W m m') (hg : m'.globals = m.globals) :
    P m' ∧ Tracks T T' Set.univ m m' :=
  ⟨enduring_idle h htracks (congrArg Globals.superblock hg), htracks.mono (Set.subset_univ _)⟩

theorem assignPointer_tracks {reference : Option (Block × Nat)} {blockid : UInt32} (h : P m)
    (href : FreshReference T m reference) :
    Runs (assignPointer reference blockid) m Halted fun _ m' =>
      P m' ∧ Tracks T T Set.univ m m' := by
  cases reference with
  | none => exact runs_pure ⟨h, tracks_refl h⟩
  | some entry =>
      refine ((tracked_of_enduring h).runs_load href).bind ?_
      rintro index m ⟨rfl, rfl⟩
      refine ((tracked_of_enduring h).runs_store href _).mono (fun _ _ he => he) ?_
      rintro _ m₁ ⟨htracks, -, hg⟩
      exact enduring_step h htracks hg

theorem openPointer_tracks {reference : Option (Block × Nat)} {blockid : UInt32} (h : P m)
    (hT : T.card < cacheSize) (hmem : blockMapArea ⊆ T) (href : FreshReference T m reference) :
    Runs (openPointer reference blockid) m Halted fun r m' =>
      P m' ∧ Tracks T (insert r.1.toNat T) Set.univ m m' ∧
        Fresh (insert r.1.toNat T) m' r.2.2 := by
  have hcard : ∀ y, (insert y T).card ≤ cacheSize := fun y =>
    (Finset.card_insert_le y T).trans hT
  have hgrow : ∀ y m, P m → Tracks T (insert y T) Set.univ m m := fun y m h =>
    Tracks.refl (tracked_of_enduring h) (Finset.subset_insert _ _)
  unfold openPointer
  split
  next =>
    refine (blockAlloc_tracks h hT.le hmem).bind ?_
    rintro new m₁ ⟨h₁, htracks₁⟩
    refine (assignPointer_tracks h₁ (href.tracks htracks₁)).bind ?_
    rintro _ m₂ ⟨h₂, htracks₂⟩
    refine (openBlock_tracks h₂ (hcard new.toNat) (Finset.mem_insert_self _ _)).bind ?_
    rintro block m₃ ⟨h₃, -, hfresh, htracks₃, -⟩
    refine ((tracked_of_enduring h₃).runs_store hfresh zeros).bind ?_
    rintro _ m₄ ⟨htracks₄, -, hg₄⟩
    obtain ⟨h₄, hstep⟩ := enduring_step h₃ htracks₄ hg₄
    refine runs_pure ⟨h₄, ?_, htracks₄.fresh _ hfresh⟩
    exact (htracks₁.mono (Set.subset_univ _)).trans (htracks₂.trans ((hgrow _ m₂ h₂).trans
      ((htracks₃.mono (Set.subset_univ _)).trans hstep)))
  next =>
    refine (openBlock_tracks h (hcard blockid.toNat) (Finset.mem_insert_self _ _)).bind ?_
    rintro block m₁ ⟨h₁, -, hfresh, htracks₁, -⟩
    exact runs_pure ⟨h₁, (hgrow _ m h).trans (htracks₁.mono (Set.subset_univ _)), hfresh⟩

theorem data_receive_tracks {data : Data} {src : Bytes} {start length : Nat} (h : P m)
    (hdata : FreshData T m data) :
    Runs (data.receive src start length) m Halted fun _ m' =>
      P m' ∧ Tracks T T Set.univ m m' := by
  cases data with
  | buffer bytes => exact runs_pure ⟨h, tracks_refl h⟩
  | block b =>
      refine ((tracked_of_enduring h).runs_load hdata).bind ?_
      rintro bytes m ⟨rfl, rfl⟩
      refine ((tracked_of_enduring h).runs_store hdata _).bind ?_
      rintro _ m₁ ⟨htracks, -, hg⟩
      exact runs_pure (enduring_step h htracks hg)

theorem transfer_tracks {isWrite : Bool} {block : Block} {data : Data} {offset length : Nat}
    (h : P m) (hblock : Fresh T m block) (hdata : FreshData T m data) :
    Runs (transfer isWrite block data offset length) m Halted fun _ m' =>
      P m' ∧ Tracks T T Set.univ m m' := by
  unfold transfer
  split
  next =>
    refine (data_load_tracks (tracked_of_enduring h) hdata).bind ?_
    rintro src m rfl
    refine ((tracked_of_enduring h).runs_load hblock).bind ?_
    rintro bytes m ⟨rfl, rfl⟩
    exact store_update_tracks h hblock fun m₁ h₁ htracks _ =>
      runs_pure ⟨h₁, htracks.mono (Set.subset_univ _)⟩
  next =>
    refine ((tracked_of_enduring h).runs_load hblock).bind ?_
    rintro bytes m ⟨rfl, rfl⟩
    exact data_receive_tracks h hdata

/-- At most `depth + 1` blocks outside the bit map are opened on the way to a
position of a file, so the index blocks above it keep their slots. -/
theorem inodeModifyDataRecur_tracks {isWrite : Bool} {depth : Nat}
    {reference : Option (Block × Nat)} {blockid : UInt32} {data : Data} {offset length : Nat}
    (h : P m) (hT : T.card + depth < cacheSize) (hmem : blockMapArea ⊆ T)
    (href : FreshReference T m reference) (hdata : FreshData T m data) :
    Runs (inodeModifyDataRecur isWrite depth reference blockid data offset length) m Halted
      fun _ m' => P m' ∧ ∃ T', Tracks T T' Set.univ m m' := by
  induction depth generalizing m T reference blockid data offset length with
  | zero =>
      refine (openPointer_tracks h (by omega) hmem href).bind ?_
      rintro ⟨id, new, block⟩ m₁ ⟨h₁, htracks₁, hfresh⟩
      refine (transfer_tracks h₁ hfresh (hdata.tracks htracks₁)).bind ?_
      rintro data m₂ ⟨h₂, htracks₂⟩
      exact runs_pure ⟨h₂, _, htracks₁.trans htracks₂⟩
  | succ depth ih =>
      refine (openPointer_tracks h (by omega) hmem href).bind ?_
      rintro ⟨id, new, block⟩ m₁ ⟨h₁, htracks₁, hfresh⟩
      refine runs_bind (runs_assert (fun _ => recycled_of_lasting h₁) fun _ => ?_)
      refine ((tracked_of_enduring h₁).runs_load hfresh).bind ?_
      rintro index m₁ ⟨rfl, rfl⟩
      have hcard := Finset.card_insert_le id.toNat T
      refine Runs.bind (ih (T := insert id.toNat T) h₁ (by omega)
        (hmem.trans (Finset.subset_insert _ _)) ?_ ?_) ?_
      · exact hfresh
      · exact hfresh
      rintro ⟨_, _, modified⟩ m₂ ⟨h₂, T', htracks₂⟩
      cases modified with
      | false => exact runs_pure ⟨h₂, T', htracks₁.trans htracks₂⟩
      | true =>
          refine ((tracked_of_enduring h₂).runs_update (htracks₂.fresh _ hfresh)).bind ?_
          rintro _ m₃ ⟨htracks₃, -, -, hg₃⟩
          obtain ⟨h₃, hstep⟩ := enduring_step h₂ htracks₃ hg₃
          exact runs_pure ⟨h₃, T', htracks₁.trans (htracks₂.trans hstep)⟩

theorem keeps_inodeModifyDataRecur {isWrite : Bool} {depth : Nat} (hdepth : depth ≤ 2)
    (blockid : UInt32) (bytes : Bytes) (offset length : Nat) :
    Keeps P (inodeModifyDataRecur isWrite depth none blockid (.buffer bytes) offset length) := by
  intro m h
  have hcard : blockMapArea.card = 4 := by decide
  refine Runs.mono (inodeModifyDataRecur_tracks h (T := blockMapArea)
    (by rw [hcard, cacheSize]; omega) subset_rfl ?_ ?_) (fun _ _ he => he) fun _ _ h' => h'.1
  · trivial
  · trivial

end Enduring

theorem keeps_modifyData_of_recur [Lasting P] {isWrite : Bool}
    (hrecur : ∀ depth ≤ 2, ∀ blockid bytes offset length, Keeps P
      (inodeModifyDataRecur isWrite depth none blockid (.buffer bytes) offset length))
    (inode : Inode) (buffer : Bytes) (offset length : UInt32) :
    Keeps P (inodeModifyData isWrite inode buffer offset length) := by
  unfold inodeModifyData
  refine keeps_bind (keeps_assert _ _) fun _ => ?_
  dsimp only
  split
  next => exact keeps_bind (hrecur _ (by omega) _ _ _ _) fun _ => keeps_pure _
  next =>
    split
    next => exact keeps_bind (hrecur _ (by omega) _ _ _ _) fun _ => keeps_pure _
    next =>
      split
      next => exact keeps_bind (hrecur _ (by omega) _ _ _ _) fun _ => keeps_pure _
      next => exact keeps_fail _

theorem keeps_inodeModifyData [Enduring P] (isWrite : Bool) (inode : Inode) (buffer : Bytes)
    (offset length : UInt32) : Keeps P (inodeModifyData isWrite inode buffer offset length) :=
  keeps_modifyData_of_recur (fun _ hdepth => keeps_inodeModifyDataRecur hdepth) _ _ _ _

instance (priority := low) [Enduring P] : LastingWrite P where
  write := keeps_inodeModifyData true

end LabKernel.HandleSafety
