import LabKernel.MindedRuns

/-!
Creating a name with `get_inode_by_filename` as an insertion into the current
directory.

The search keeps the first free slot in `free_offset`, where 0 stands for none.
In a directory without a free slot it stays 0, and the new entry replaces the one
in slot 0.
-/

namespace LabKernel.NameInsertion

open LabKernel.BlindPrograms
open LabKernel.BlockCache
open LabKernel.BlockFreeing
open LabKernel.BlockObject
open LabKernel.BlockOwnership
open LabKernel.ByteMemory
open LabKernel.ComposedPrograms
open LabKernel.DirectData
open LabKernel.Directories
open LabKernel.DirectoryCalls
open LabKernel.FsCode
open LabKernel.FsLayout
open LabKernel.FsPrimitives
open LabKernel.FsRuns
open LabKernel.FsTables
open LabKernel.FsView
open LabKernel.MindedRuns
open LabKernel.PathWalks
open LabKernel.ProgramLogic
open LabKernel.TidyCalls
open LabKernel.TidyDisk
open LabKernel.TidyRuns
open LabKernel.TransitionSystem

variable {m m' : Machine Bytes Globals} {s s' s₀ s₁ : FsState} {path name : List UInt8}
  {q : Nat} {e : DirEntry} {ino newInodeIdx p : UInt32} {new : Option DirEntry}
  {E : Failure → Machine Bytes Globals → Prop} {T : Finset Nat}

theorem allocLoop_stops {mapStart : UInt32} {noSpace : Failure}
    {account : UInt32 → SuperBlock → SuperBlock} {left i : Nat} (h : Sound m)
    (hT : T.card ≤ cacheSize) (h0 : 0 ∈ T)
    (hmem : ∀ i', i ≤ i' → i' < i + left →
      mapStart.toNat + i' < maxBlockNum ∧ mapStart.toNat + i' ∈ T) :
    Runs (allocLoop mapStart noSpace account left i) m
      (fun _ m' => Evolves T T ∅ m m' ∧ m'.globals = m.globals) fun _ _ => True := by
  induction left generalizing i m with
  | zero => exact runs_fail ⟨Evolves.refl h (Finset.Subset.refl T), rfl⟩
  | succ left ih =>
      obtain ⟨hlt, hfirst⟩ := hmem i (le_refl _) (by omega)
      have hsmall : (mapStart + UInt32.ofNat i).toNat = mapStart.toNat + i := by
        rw [maxBlockNum_eq] at hlt
        exact toNat_add_ofNat (by omega)
      simp only [allocLoop, hsmall]
      refine runs_open_load h hT hfirst (fun hle => absurd hle (not_le.mpr hlt))
        fun block m₁ hid hfresh hev₁ hg₁ => ?_
      split
      next j k hfind =>
        refine runs_store_update hev₁.sound hfresh (hid ▸ hlt) fun m₂ hev₂ _ _ _ => ?_
        refine (runs_modifyGlobals hev₂.sound _ (T := T)).bind ?_
        rintro _ m₃ ⟨hev₃, -⟩
        exact (runs_flushSuperblock hev₃.sound hT h0).bind fun _ _ _ => runs_pure trivial
      next =>
        refine (ih hev₁.sound fun i' hi hi' => hmem i' (by omega) (by omega)).mono ?_
          fun _ _ _ => trivial
        exact fun _ m' hstop => ⟨hev₁.trans hstop.1, hstop.2.trans hg₁⟩

theorem blockAlloc_stops (h : Realizes m s) :
    Runs blockAlloc m (fun _ m' => Realizes m' s) fun _ _ => True := by
  refine runs_getSuperblock.bind ?_
  rintro sb m ⟨rfl, rfl⟩
  have hbits : bitsPerBlock = 32768 := by decide
  have hstart : (2 : UInt32).toNat = 2 := rfl
  simp only [h.ready.layout.blockMapStartBlock, h.ready.layout.blockMapSize, hbits,
    show (98304 : UInt32).toNat / 32768 = 3 by decide]
  refine (allocLoop_stops h.ready.sound (T := blockMapArea) (by decide) (by decide)
    fun i' hi hi' => ?_).mono
    (fun _ m' hstop => h.idle hstop.1 hstop.2) fun _ _ _ => trivial
  rw [hstart]
  have : i' = 0 ∨ i' = 1 ∨ i' = 2 := by omega
  rcases this with rfl | rfl | rfl <;> exact ⟨by decide, by decide⟩

theorem runs_silent {α : Type} {p : Fs α} {Q : α → Machine Bytes Globals → Prop}
    (hp : Silent (fun g => g) p) (h : Runs p m E Q) :
    Runs p m E fun a m' => Q a m' ∧ m'.globals = m.globals := by
  refine h.withRun.mono (fun _ _ he => he) ?_
  rintro a m' ⟨hq, hrun⟩
  have hkept : (p.run m).2.globals = m.globals := hp m
  rw [hrun] at hkept
  exact ⟨hq, hkept⟩

section Allocators

-- What the allocators keep: it depends on the bit maps and the variables.
variable {B : FsState → Globals → Prop}

theorem entryInode_keeps (h : Realizes m s) (hb : B s m.globals)
    (hB : ∀ s s' g, s'.blockUsed = s.blockUsed → s'.inodeUsed = s.inodeUsed → B s g → B s' g)
    (hinode : newInodeIdx = 0 →
      Runs inodeAlloc m E fun k m' => B (s.setInodeUsed k.toNat true) m'.globals) :
    Runs (entryInode newInodeIdx) m E fun ino m' =>
      ∃ s', Provided s newInodeIdx ino s' ∧ Realizes m' s' ∧ B s' m'.globals := by
  unfold entryInode
  split
  next hzero =>
    refine ((hinode hzero).and (inodeAlloc_realizes h)).mono (fun _ _ he => he.1)
      (fun _ _ hq => hq) |>.bind ?_
    rintro ino m₁ ⟨hb₁, hlt, hfree, h₁⟩
    refine (writeInode_globals h₁ hlt).bind ?_
    rintro _ m₂ ⟨h₂, hg₂⟩
    refine runs_pure ⟨_, .new hzero hlt hfree, h₂, ?_⟩
    rw [hg₂]
    exact hB (s.setInodeUsed ino.toNat true) _ _ rfl rfl hb₁
  next hne => exact runs_pure ⟨s, .given hne, h, hb⟩

/-- At most one number is taken. -/
def OneMore (used used' : Nat → Bool) : Prop :=
  ∃ n, ∀ b, used' b = true → used b = true ∨ b = n

theorem oneMore_self (used : Nat → Bool) : OneMore used used := ⟨0, fun _ h => Or.inl h⟩

theorem oneMore_update (used : Nat → Bool) (n : Nat) :
    OneMore used (Function.update used n true) := by
  refine ⟨n, fun b hb => ?_⟩
  rcases eq_or_ne b n with rfl | hne
  · exact Or.inr rfl
  · exact Or.inl ((Function.update_of_ne hne ..).symm.trans hb)

theorem Provided.oneMore (h : Provided s newInodeIdx ino s₀) :
    s₀.blockUsed = s.blockUsed ∧ OneMore s.inodeUsed s₀.inodeUsed := by
  cases h with
  | given _ => exact ⟨rfl, oneMore_self _⟩
  | new _ _ _ => exact ⟨rfl, oneMore_update _ _⟩

theorem Inserted.maps {d : Bytes} (h : Inserted s s' q e s₁ d p) :
    s'.blockUsed = s₁.blockUsed ∧ s'.inodeUsed = s.inodeUsed ∧
      OneMore s.blockUsed s'.blockUsed := by
  rw [h.eq]
  cases h.pointed with
  | old _ => exact ⟨rfl, rfl, oneMore_self _⟩
  | new _ _ => exact ⟨rfl, rfl, oneMore_update _ _⟩

theorem Inserted.keeps {d : Bytes} {g g' : Globals} (h : Inserted s s' q e s₁ d p)
    (hB : ∀ s s' g, s'.blockUsed = s.blockUsed → s'.inodeUsed = s.inodeUsed → B s g → B s' g)
    (hb : B s g)
    (hopens : Opens (fun n g => B (s.setBlockUsed n.toNat true) g) (direct s.here (q / 128)) p
      g g') : B s' g' := by
  obtain ⟨hblocks, hinodes, -⟩ := Inserted.maps h
  cases h.pointed with
  | old hne =>
      rw [Opens, if_neg hne] at hopens
      rw [hopens]
      exact hB s s' g hblocks hinodes hb
  | new hzero _ =>
      rw [Opens, if_pos hzero] at hopens
      exact hB (s.setBlockUsed p.toNat true) s' g' hblocks hinodes hopens

theorem getInode_inserts (h : Realizes m s) (hs : Standing s) (hname : NameOk path)
    (hb : B s m.globals)
    (hB : ∀ s s' g, s'.blockUsed = s.blockUsed → s'.inodeUsed = s.inodeUsed → B s g → B s' g)
    (hinode : newInodeIdx = 0 → ∀ m₁, Realizes m₁ s → B s m₁.globals →
      Runs inodeAlloc m₁ E fun k m₂ => B (s.setInodeUsed k.toNat true) m₂.globals)
    (hblock : ∀ q < 1024, direct s.here (q / 128) = 0 → ∀ ino s₀ m₁,
      Provided s newInodeIdx ino s₀ → Realizes m₁ s₀ → B s₀ m₁.globals →
        Runs blockAlloc m₁ E fun n m₂ => B (s₀.setBlockUsed n.toNat true) m₂.globals) :
    Runs (getInodeByFilename path true newInodeIdx) m E fun ino m' => ∃ s', Realizes m' s' ∧
      B s' m'.globals ∧ ((s' = s ∧ ∃ q e, Finds s s.here path 0 1024 q e ∧ ino = e.inode) ∨
        ∃ q s₀, Created s path newInodeIdx ino q s₀ s' ∧ OneMore s.blockUsed s'.blockUsed ∧
          OneMore s.inodeUsed s'.inodeUsed) := by
  refine runs_cwdNode.bind ?_
  rintro _ m ⟨rfl, rfl⟩
  rw [h.cwd]
  refine (runs_silent (silent_composed (composed_readInode _)) (readInode_realizes h hs.live.1)).bind ?_
  rintro n m₁ ⟨⟨hn, h₁⟩, hg₁⟩
  obtain rfl : n = s.here := hn
  refine (runs_silent (silent_composed (composed_scanBlocks _ _ _ _ _))
    (scanBlocks_realizes h₁ hs.hasBlocks)).bind ?_
  rintro ⟨found, f⟩ m₂ ⟨⟨h₂, hscan⟩, hg₂⟩
  have hb₂ : B s m₂.globals := by rwa [hg₂, hg₁]
  rcases hscan with ⟨q, e, hfinds, hr⟩ | ⟨hr, hmiss, hchoose⟩
  · simp only at hr
    subst hr
    exact runs_pure ⟨s, h₂, hb₂, Or.inl ⟨rfl, q, e, hfinds, rfl⟩⟩
  · simp only at hr
    subst hr
    obtain ⟨hlt, hchosen⟩ := chosen_of_chooses hchoose
    dsimp only at hlt hchosen ⊢
    generalize (if f = 0 then missingBlock s.here inodeDataDirect 0 else f) = q at hlt hchosen ⊢
    refine (entryInode_keeps h₂ hb₂ hB fun hzero => hinode hzero m₂ h₂ hb₂).bind ?_
    rintro ino m₃ ⟨s₀, hprovided, h₃, hb₃⟩
    obtain ⟨hcwd, hhere, hdata⟩ := hprovided.here_eq hs
    have hs₀ := hprovided.standing hs
    have htype : s₀.here.type ≠ 2 := by
      rw [hs₀.type]
      decide
    have hinsert := @insertEntry_realizes m₃ s₀ path q ino E
      (fun n g => B (s₀.setBlockUsed n.toNat true) g) h₃ hs₀.owned.tables hs₀.live.1
      hs₀.hasBlocks htype hlt fun hzero =>
        hblock q hlt (by rwa [← hhere]) ino s₀ m₃ hprovided h₃ hb₃
    rw [hhere] at hinsert
    refine hinsert.mono (fun _ _ he => he) ?_
    rintro r m₄ ⟨rfl, s', s₁, d, p, h', hinserted, hopens⟩
    rw [← hhere] at hopens
    obtain ⟨hset, hsize⟩ := Inserted.slotSet hinserted hs₀ hlt hname (by simp)
    obtain ⟨-, hinodes, hblocks⟩ := Inserted.maps hinserted
    obtain ⟨hblocks₀, hinodes₀⟩ := Provided.oneMore hprovided
    rw [hblocks₀] at hblocks
    rw [← hinodes] at hinodes₀
    exact ⟨s', h', Inserted.keeps hinserted hB hb₃ hopens, Or.inr ⟨_, s₀,
      ⟨hmiss, hprovided, hlt, hchosen, hset, by rw [hsize, hhere]⟩, hblocks, hinodes₀⟩⟩

end Allocators

/-- What `get_inode_by_filename` returns for a name without creating it. -/
def found (m : Machine Bytes Globals) (name : List UInt8) : Option UInt32 :=
  returned ((getInodeByFilename name false 0).run m).1

/-- The inode number of an entry, or -1. -/
def inodeOf (entry : Option DirEntry) : UInt32 := (entry.map DirEntry.inode).getD minusOne

theorem found_eq (h : Realizes m s) (hcwd : s.cwd.toNat < maxInodeNum) (hn : HasBlocks s s.here)
    (name : List UInt8) : found m name = some (inodeOf (lookup s s.here name)) := by
  have hlookup : Runs (getInodeByFilename name false 0) m (fun _ _ => False) fun ino m' =>
      Realizes m' s ∧ ((∃ q e, Finds s s.here name 0 1024 q e ∧ ino = e.inode) ∨
        (ino = minusOne ∧ Misses s s.here name 0 1024)) := lookup_realizes h hcwd hn
  obtain ⟨ino, m', hrun, -, hfound⟩ := hlookup.returns fun _ _ he => he
  rw [found, hrun]
  rcases hfound with ⟨q, e, hfinds, rfl⟩ | ⟨rfl, hmiss⟩
  · rw [lookup_of_finds hfinds]
    rfl
  · rw [lookup_of_misses hmiss]
    rfl

theorem SlotSet.found_eq (h : Realizes m' s') (hset : SlotSet s s' q new) (hs : Standing s)
    (name : List UInt8) : found m' name = some (inodeOf (lookup s' s'.here name)) := by
  have hcwd : s'.cwd = s.cwd := hset.leaves.cwd
  refine NameInsertion.found_eq h ?_ hset.hasBlocks name
  rw [hcwd]
  exact hs.live.1

theorem lookup_slotSet_self (hset : SlotSet s s' q (some e)) (hq : q < 1024)
    (hmiss : Misses s s.here e.name 0 1024) : lookup s' s'.here e.name = some e := by
  refine lookup_of_finds ⟨Nat.zero_le q, hq, hset.slot_self, rfl, fun q' _ hlt e' he' => ?_⟩
  rw [hset.slot_of_ne q' hlt.ne] at he'
  exact hmiss q' (Nat.zero_le _) (hlt.trans hq) e' he'

theorem lookup_slotSet_of_ne (hset : SlotSet s s' q (some e)) (hfree : slot s s.here q = none)
    (hne : name ≠ e.name) : lookup s' s'.here name = lookup s s.here name := by
  unfold lookup
  congr 1
  funext q'
  rcases eq_or_ne q' q with rfl | hq
  · have hother : ¬ e.name = name := fun heq => hne heq.symm
    rw [hset.slot_self, hfree, Option.filter_some, if_neg (by simp [hother]), Option.filter_none]
  · rw [hset.slot_of_ne q' hq]

theorem lookup_slotSet_lost {old : DirEntry} (h : Folder s s.cwd.toNat)
    (hset : SlotSet s s' q (some e)) (hold : slot s s.here q = some old) (hne : old.name ≠ e.name) :
    lookup s' s'.here old.name = none := by
  refine lookup_of_misses fun q' _ _ e' he' hname => ?_
  rcases eq_or_ne q' q with rfl | hq
  · rw [hset.slot_self] at he'
    rw [Option.some.inj he'] at hne
    exact hne hname.symm
  · rw [hset.slot_of_ne q' hq] at he'
    exact hq (h.names q' q e' old he' hold hname)

/-- No name stands in two valid entries of a directory. -/
def NamesOnce (m : Machine Bytes Globals) : Prop :=
  ∀ k, Dir (shown m) k → ∀ q q' e e', slot (shown m) ((shown m).inode k) q = some e →
    slot (shown m) ((shown m).inode k) q' = some e' → e.name = e'.name → q = q'

/-- `get_inode_by_filename(path, true, newInodeIdx)` inserts the name into the
current directory or fails, and disturbs no other name. -/
structure PureInsertion (path : List UInt8) (newInodeIdx : UInt32) (m : Machine Bytes Globals) :
    Prop where
  inserted : ∀ r m', (getInodeByFilename path true newInodeIdx).run m = (.ok r, m') →
    found m' path = some newInodeIdx ∧ ∀ name ≠ path, found m' name = found m name
  failed : ∀ e m', (getInodeByFilename path true newInodeIdx).run m = (.error e, m') →
    (shown m').here = (shown m).here ∧
      (∀ q, slot (shown m') (shown m').here q = slot (shown m) (shown m).here q) ∧
      ∀ name, found m' name = found m name
  names : NamesOnce ((getInodeByFilename path true newInodeIdx).run m).2

theorem namesOnce_of_realizes (h : Realizes m s)
    (hblocks : ∀ k, Dir s k → HasBlocks s (s.inode k))
    (hnames : ∀ k, Dir s k → ∀ q q' e e', slot s (s.inode k) q = some e →
      slot s (s.inode k) q' = some e' → e.name = e'.name → q = q') : NamesOnce m := by
  intro k hk q q' e e' he he' hname
  have hdir := (dir_shown h).mp hk
  rw [inode_shown h hdir.1, slot_shown h (hblocks k hdir)] at he he'
  exact hnames k hdir q q' e e' he he' hname

theorem namesOnce_of_tidy (h : Realizes m s) (ht : Tidy s) : NamesOnce m :=
  namesOnce_of_realizes h (fun k hk => (ht.folder k hk).hasBlocks) fun k hk =>
    (ht.folder k hk).names

theorem namesOnce_of_created (h : Realizes m' s') (ht : Tidy s) (hne : newInodeIdx ≠ 0)
    (hcreated : Created s path newInodeIdx ino q s₀ s') : NamesOnce m' := by
  have hset := hcreated.slotSet
  cases hcreated.provided with
  | new hzero _ _ => exact absurd hzero hne
  | given _ =>
  have hold : ∀ k, Dir s' k → Dir s k := fun k hk => by
    rcases eq_or_ne k s.cwd.toNat with rfl | hk'
    · exact ht.cwd
    · exact (dir_of_leaves hset.leaves hk').mp hk
  refine namesOnce_of_realizes h (fun k hk => ?_) fun k hk q₁ q₂ e₁ e₂ he₁ he₂ hname => ?_
  · rcases eq_or_ne k s.cwd.toNat with rfl | hk'
    · have hblocks := hset.hasBlocks
      rwa [FsState.here, hset.leaves.cwd] at hblocks
    · exact hset.leaves.hasBlocks hk' (hold k hk).1 (ht.folder k (hold k hk)).hasBlocks
  · have hmiss := hcreated.misses
    rcases created_entry ht hcreated hk he₁ with ⟨rfl, rfl, rfl⟩ | ⟨hdir, hold₁⟩
    · rcases created_entry ht hcreated hk he₂ with ⟨-, rfl, -⟩ | ⟨-, hold₂⟩
      · rfl
      · exact absurd hname.symm (hmiss q₂ (Nat.zero_le _) (lt_of_slot hold₂) e₂ hold₂)
    · rcases created_entry ht hcreated hk he₂ with ⟨rfl, -, rfl⟩ | ⟨-, hold₂⟩
      · exact absurd hname (hmiss q₁ (Nat.zero_le _) (lt_of_slot hold₁) e₁ hold₁)
      · exact (ht.folder k hdir).names q₁ q₂ e₁ e₂ hold₁ hold₂ hname

theorem getInode_insertion (h : Realizes m s) (hs : Standing s) (hname : NameOk path)
    (hne : newInodeIdx ≠ 0) (hmiss : lookup s s.here path = none) :
    Runs (getInodeByFilename path true newInodeIdx) m
      (fun _ m' => Realizes m' s ∧ ∃ q < 1024, slot s s.here q = none) fun ino m' =>
        ∃ s' q, Realizes m' s' ∧ Created s path newInodeIdx ino q s s' := by
  have hgiven : ∀ {ino s₀}, Provided s newInodeIdx ino s₀ → s₀ = s := by
    rintro ino s₀ (_ | hzero)
    · rfl
    · exact absurd hzero hne
  refine (getInode_inserts (B := fun _ _ => True) h hs hname trivial (fun _ _ _ _ _ _ => trivial)
    (fun hzero => absurd hzero hne) fun q hq hzero ino s₀ m₁ hprovided h₁ _ => ?_).mono
    (fun _ _ he => he) ?_
  · rw [hgiven hprovided] at h₁
    exact (blockAlloc_stops h₁).mono (fun _ m' h' => ⟨h', q, hq, slot_of_zero hzero⟩)
      fun _ _ _ => trivial
  · rintro ino m' ⟨s', h', -, ⟨rfl, q, e, hfinds, -⟩ | ⟨q, s₀, hcreated, -⟩⟩
    · rw [lookup_of_finds hfinds] at hmiss
      cases hmiss
    · obtain rfl := hgiven hcreated.provided
      exact ⟨s', q, h', hcreated⟩

theorem Created.given (h : Created s path newInodeIdx ino q s₀ s') (hne : newInodeIdx ≠ 0) :
    ino = newInodeIdx := by
  cases h.provided with
  | given _ => rfl
  | new hzero _ _ => exact absurd hzero hne

theorem lookup_of_found (h : Realizes m s) (ht : Tidy s) (hmiss : found m path = some minusOne) :
    lookup s s.here path = none := by
  rw [found_eq h ht.standing.live.1 ht.standing.hasBlocks] at hmiss
  cases hlookup : lookup s s.here path with
  | none => rfl
  | some e =>
      rw [hlookup] at hmiss
      have hino : e.inode = minusOne := Option.some.inj hmiss
      have hlive := live_of_lookup ht hlookup
      rw [hino] at hlive
      exact absurd hlive.1 (by decide)

theorem not_pure_of_full (h : Realizes m s) (ht : Tidy s) (hname : NameOk path)
    (hne : newInodeIdx ≠ 0) (hmiss : found m path = some minusOne)
    (hfull : ∀ q < 1024, slot s s.here q ≠ none) : ¬ PureInsertion path newInodeIdx m := by
  intro hpure
  have hs := ht.standing
  have hruns := getInode_insertion h hs hname hne (lookup_of_found h ht hmiss)
  obtain ⟨r, m', hrun, s', q, h', hcreated⟩ := hruns.returns
    fun _ _ ⟨_, q, hq, hfree⟩ => hfull q hq hfree
  obtain ⟨old, hold⟩ := Option.ne_none_iff_exists'.mp (hfull q hcreated.lt)
  have hother : old.name ≠ path := hcreated.misses q (Nat.zero_le q) hcreated.lt old hold
  have hbefore : found m old.name = some old.inode := by
    have hlookup : lookup s s.here old.name = some old := lookup_of_slot ht.here hold
    rw [found_eq h hs.live.1 hs.hasBlocks, hlookup]
    rfl
  have hafter : found m' old.name = some minusOne := by
    rw [SlotSet.found_eq h' hcreated.slotSet hs,
      lookup_slotSet_lost ht.here hcreated.slotSet hold hother]
    rfl
  have hsame := (hpure.inserted r m' hrun).2 old.name hother
  rw [hbefore, hafter] at hsame
  have hlive := ht.here.entries q old hold
  rw [← Option.some.inj hsame] at hlive
  exact absurd hlive.1 (by decide)

theorem pure_of_free (h : Realizes m s) (ht : Tidy s) (hname : NameOk path)
    (hne : newInodeIdx ≠ 0) (hmiss : found m path = some minusOne)
    (hfree : ∃ q < 1024, slot s s.here q = none) : PureInsertion path newInodeIdx m := by
  have hs := ht.standing
  have hruns := getInode_insertion h hs hname hne (lookup_of_found h ht hmiss)
  refine ⟨fun r m' hrun => ?_, fun e m' hrun => ?_, ?_⟩
  · obtain ⟨s', q, h', hcreated⟩ := hruns.ok hrun
    have hset := hcreated.slotSet
    have hslot : slot s s.here q = none := by
      rcases hcreated.chosen with hslot | ⟨rfl, hfull⟩
      · exact hslot
      · obtain ⟨q', hq', hfree⟩ := hfree
        rcases Nat.eq_zero_or_pos q' with rfl | hpos
        · exact hfree
        · exact absurd hfree (hfull q' hpos hq')
    obtain rfl := Created.given hcreated hne
    refine ⟨?_, fun name hother => ?_⟩
    · have hlookup := lookup_slotSet_self hset hcreated.lt hcreated.misses
      dsimp only at hlookup
      rw [SlotSet.found_eq h' hset hs, hlookup]
      rfl
    · rw [SlotSet.found_eq h' hset hs, lookup_slotSet_of_ne hset hslot hother,
        found_eq h hs.live.1 hs.hasBlocks]
  · obtain ⟨h', -⟩ := hruns.error hrun
    have hhere := (here_shown h' hs.live).trans (here_shown h hs.live).symm
    refine ⟨hhere, fun q => ?_, fun name => ?_⟩
    · rw [here_shown h' hs.live, here_shown h hs.live, slot_shown h' hs.hasBlocks,
        slot_shown h hs.hasBlocks]
    · rw [found_eq h' hs.live.1 hs.hasBlocks, found_eq h hs.live.1 hs.hasBlocks]
  · unfold Runs at hruns
    split at hruns
    next hrun =>
      obtain ⟨s', q, h', hcreated⟩ := hruns
      rw [hrun]
      exact namesOnce_of_created h' ht hne hcreated
    next hrun =>
      rw [hrun]
      exact namesOnce_of_tidy hruns.1 ht

theorem found_closed (name : List UInt8) : found (closed m) name = found m name := by
  unfold found
  rw [commutes_of_composed (composed_lookup name 0) [] m]

theorem pureInsertion_closed :
    PureInsertion path newInodeIdx (closed m) ↔ PureInsertion path newInodeIdx m := by
  have hblind := commutes_of_composed (composed_getInodeByFilename path true newInodeIdx) []
  have hstate : ((getInodeByFilename path true newInodeIdx).run (closed m)).2 =
      closed ((getInodeByFilename path true newInodeIdx).run m).2 := congrArg Prod.snd (hblind m)
  constructor
  · intro h
    refine ⟨fun r m' hrun => ?_, fun e m' hrun => ?_, ?_⟩
    · have hinserted := h.inserted r (closed m') (hblind.run_ok hrun)
      simp only [found_closed] at hinserted
      exact hinserted
    · have hfailed := h.failed e (closed m') (by rw [hblind m, hrun])
      simp only [found_closed] at hfailed
      exact hfailed
    · have hnames := h.names
      rw [hstate] at hnames
      exact hnames
  · intro h
    refine ⟨fun r m₁ hrun => ?_, fun e m₁ hrun => ?_, ?_⟩
    · obtain ⟨m', hrun', rfl⟩ := hblind.of_run hrun
      simp only [found_closed]
      exact h.inserted r m' hrun'
    · obtain ⟨m', hrun', rfl⟩ := hblind.of_run hrun
      simp only [found_closed]
      exact h.failed e m' hrun'
    · rw [hstate]
      exact h.names

/-- In every run of minded calls, a new name is inserted into the current
directory and nothing else, exactly if a slot is free. -/
theorem insertion_pure_iff (h : ReachableUnder fileSystem Minded m) (hname : NameOk path)
    (hne : newInodeIdx ≠ 0) (hmiss : found m path = some minusOne) :
    PureInsertion path newInodeIdx m ↔ ∃ q < 1024, slot (shown m) (shown m).here q = none := by
  obtain ⟨s, hs, ho⟩ := ordered_of_minded h
  have ht := ho.tidy
  have hslot : ∀ q, slot (shown m) (shown m).here q = slot s s.here q := fun q => by
    have hhere := here_shown hs ht.standing.live
    exact (congrArg (fun n => slot (shown m) n q) hhere).trans (slot_shown hs ht.standing.hasBlocks q)
  rw [← found_closed] at hmiss
  rw [← pureInsertion_closed]
  simp only [hslot]
  refine ⟨fun hpure => ?_, pure_of_free hs ht hname hne hmiss⟩
  by_contra hnone
  refine not_pure_of_full hs ht hname hne hmiss (fun q hq hfree => ?_) hpure
  exact hnone ⟨q, hq, hfree⟩

/-- A second name for the root directory of a new file system. -/
theorem firstName_pure : ∃ m, replay next blankFormatted [.fopen [97] 3, .mkfs] = some m ∧
    m.globals.files.length = 1 ∧ PureInsertion [97] 1 m := by
  have hfacts : (replay next blankFormatted [.fopen [97] 3, .mkfs]).map (fun m =>
      (m.globals.files.length, found m [97], (slot (shown m) (shown m).here 2).isNone)) =
        some (1, some minusOne, true) := by
    rw [blankFormatted_eq]
    decide +kernel
  obtain ⟨m, hreplay, hall⟩ := Option.map_eq_some_iff.mp hfacts
  obtain ⟨hopen, hrest⟩ := Prod.mk.inj hall
  obtain ⟨hmiss, hfree⟩ := Prod.mk.inj hrest
  exact ⟨m, hreplay, hopen, (insertion_pure_iff (minded_reformatted hreplay)
    (nameOk_singleton (by decide)) (by decide) hmiss).mpr
      ⟨2, by decide, Option.isNone_iff_eq_none.mp hfree⟩⟩

end LabKernel.NameInsertion
