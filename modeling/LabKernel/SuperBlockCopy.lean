import LabKernel.BitMaps
import LabKernel.SteadyPrograms

/-!
Block 0 holds the super block that is in memory, with the marks by which
`init_filesystem` recognizes a disk, at the end of every function that works on
the tables.
-/

namespace LabKernel.SuperBlockCopy

open LabKernel.BitMaps (Copied flushSuperblock_copied formatted_accounted freeNumber_copied)
open LabKernel.BlockCache
open LabKernel.BlockFreeing
open LabKernel.BlockObject
open LabKernel.ByteMemory
open LabKernel.ComposedPrograms
open LabKernel.CallSafety
open LabKernel.DirectData
open LabKernel.Formatting
open LabKernel.FsCode
open LabKernel.FsLayout
open LabKernel.FsPrimitives
open LabKernel.FsRuns
open LabKernel.FsTables
open LabKernel.ProgramLogic
open LabKernel.SteadyPrograms

variable {m m' : Machine Bytes Globals} {s : FsState} {T T' : Finset Nat} {W : Set Nat}
  {ino p : UInt32} {n : Inode}

/-- The magic numbers and the root directory of a super block. -/
structure Labelled (sb : SuperBlock) : Prop where
  magic0 : sb.magic0 = superblockMagic
  magic1 : sb.magic1 = superblockMagic
  rootInode : sb.rootInode = 0

/-- The disk will be recognized. -/
structure Headed (m : Machine Bytes Globals) : Prop where
  copied : Copied m
  labelled : Labelled m.globals.superblock

theorem Labelled.of_fixtures (h : Labelled m.globals.superblock)
    (hfix : fixtures m' = fixtures m) : Labelled m'.globals.superblock := by
  simp only [fixtures, Prod.mk.injEq] at hfix
  obtain ⟨-, hmagic0, hmagic1, hroot⟩ := hfix
  exact ⟨hmagic0.trans h.magic0, hmagic1.trans h.magic1, hroot.trans h.rootInode⟩

/-- Block 0 is not written. -/
theorem Headed.evolves (h : Headed m) (hs : Settled m 0) (hev : Evolves T T' W m m')
    (hW : 0 ∉ W) (hsb : m'.globals.superblock = m.globals.superblock) : Headed m' := by
  refine ⟨fun i hi => ?_, hsb ▸ h.labelled⟩
  rw [hev.visible_of_settled (by decide) hW hs, hsb]
  exact h.copied i hi

theorem allocLoop_copied {mapStart : UInt32} {noSpace : Failure}
    {account : UInt32 → SuperBlock → SuperBlock} {left i : Nat} (h : Tracked m) :
    Runs (allocLoop mapStart noSpace account left i) m Any fun _ m' => Copied m' := by
  induction left generalizing i m with
  | zero => exact runs_fail trivial
  | succ left ih =>
      have hcard : ({0, (mapStart + UInt32.ofNat i).toNat} : Finset Nat).card ≤ cacheSize :=
        Finset.card_le_two.trans (by decide)
      rw [allocLoop]
      refine h.runs_open_load hcard (Finset.mem_insert_of_mem (Finset.mem_singleton_self _))
        (fun _ => trivial) fun block _ m₁ _ _ hfresh htracks _ => ?_
      split
      next j k _ =>
        refine htracks.tracked.runs_store_update hfresh fun m₂ htracks₂ _ _ => ?_
        refine (htracks₂.tracked.runs_modifyGlobals _
          (T := {0, (mapStart + UInt32.ofNat i).toNat})).bind ?_
        rintro _ m₃ ⟨htracks₃, -⟩
        refine (flushSuperblock_copied htracks₃.tracked hcard (Finset.mem_insert_self _ _)).bind ?_
        exact fun _ m₄ hq => runs_pure hq.1
      next => exact ih htracks.tracked

theorem headed_of_copied {α : Type} {f : Fs α} (h : Headed m) (hsteady : Steady fixtures f)
    (hcopied : Runs f m Any fun _ m' => Copied m') : Runs f m Any fun _ m' => Headed m' :=
  (hsteady.runs hcopied).mono (fun _ _ he => he) fun _ _ hq =>
    ⟨hq.1, h.labelled.of_fixtures hq.2⟩

theorem inodeAlloc_headed (h : Sound m) (hh : Headed m) :
    Runs inodeAlloc m Any fun _ m' => Headed m' := by
  refine headed_of_copied hh (steady_composed composed_inodeAlloc) (runs_getSuperblock.bind ?_)
  rintro _ m ⟨rfl, rfl⟩
  exact allocLoop_copied h.toTracked

theorem blockAlloc_headed (h : Sound m) (hh : Headed m) :
    Runs blockAlloc m Any fun _ m' => Headed m' := by
  refine headed_of_copied hh (steady_composed composed_blockAlloc) (runs_getSuperblock.bind ?_)
  rintro _ m ⟨rfl, rfl⟩
  exact allocLoop_copied h.toTracked

theorem inodeFree_headed (h : Sound m) (hh : Headed m) :
    Runs (inodeFree ino) m Any fun _ m' => Headed m' := by
  refine headed_of_copied hh (steady_composed (composed_inodeFree ino)) (runs_getSuperblock.bind ?_)
  rintro _ m ⟨rfl, rfl⟩
  exact freeNumber_copied h.toTracked

theorem blockFree_headed (h : Sound m) (hh : Headed m) :
    Runs (blockFree p) m Any fun _ m' => Headed m' := by
  refine headed_of_copied hh (steady_composed (composed_blockFree p)) (runs_getSuperblock.bind ?_)
  rintro _ m ⟨rfl, rfl⟩
  exact freeNumber_copied h.toTracked

theorem writeInode_headed (h : Realizes m s) (hh : Headed m) :
    Runs (writeInode ino n) m Any fun _ m' => Headed m' := by
  refine (runs_writeInode h.ready (T := {5 + ino.toNat / 64}) (by simp [cacheSize])
    (Finset.mem_singleton_self _) fun _ => trivial).mono (fun _ _ he => he) ?_
  rintro _ m' ⟨hev, hg, -⟩
  refine hh.evolves (h.settled 0 (by omega)) hev ?_ (congrArg Globals.superblock hg)
  exact fun hmem => absurd (Set.mem_singleton_iff.mp hmem) (by omega)

theorem readInode_headed (h : Realizes m s) (hh : Headed m) :
    Runs (readInode ino) m Any fun _ m' => Headed m' := by
  refine (runs_readInode h.ready (T := {5 + ino.toNat / 64}) (by simp [cacheSize])
    (Finset.mem_singleton_self _) fun _ => trivial).mono (fun _ _ he => he) ?_
  rintro _ m' ⟨hev, hg, -⟩
  exact hh.evolves (h.settled 0 (by omega)) hev (Set.notMem_empty 0)
    (congrArg Globals.superblock hg)

theorem Headed.idle (hh : Headed m) (h : Realizes m s) (hev : Evolves T T' ∅ m m')
    (hg : m'.globals = m.globals) : Headed m' :=
  hh.evolves (h.settled 0 (by omega)) hev (Set.notMem_empty 0) (congrArg Globals.superblock hg)

theorem Headed.written (hh : Headed m) (h : Realizes m s) {x : Nat} (hx : 517 ≤ x)
    (hev : Evolves T T' {x} m m') (hg : m'.globals = m.globals) : Headed m' :=
  hh.evolves (h.settled 0 (by omega)) hev
    (fun hmem => absurd (Set.mem_singleton_iff.mp hmem) (by omega))
    (congrArg Globals.superblock hg)

theorem modifyGlobals_headed (h : Realizes m s) (hh : Headed m) (f : Globals → Globals)
    (hf : ∀ g : Globals, (f g).superblock = g.superblock) :
    Runs (modifyGlobals f) m Any fun _ m' => Headed m' := by
  refine (runs_modifyGlobals h.ready.sound f (T := ∅)).mono (fun _ _ he => he) ?_
  rintro _ m' ⟨hev, -, -, hg⟩
  exact hh.evolves (h.settled 0 (by omega)) hev (Set.notMem_empty 0) (by rw [hg, hf])

theorem openPointer_headed (h : Realizes m s) (hh : Headed m) (htables : TablesUsed s) :
    Runs (openPointer none p) m Any fun _ m' => Headed m' := by
  rw [openPointer]
  split
  next =>
    have halloc : Runs blockAlloc m Any fun b m' =>
        517 ≤ b.toNat ∧ Realizes m' (s.setBlockUsed b.toNat true) := by
      refine (blockAlloc_realizes h (T := blockMapArea) (by decide) (Finset.Subset.refl _)).mono
        (fun _ _ _ => trivial) ?_
      rintro b m' ⟨-, hfree, h', -⟩
      refine ⟨?_, h'⟩
      by_contra hlt
      rw [htables _ (not_le.mp hlt)] at hfree
      cases hfree
    refine (halloc.and (blockAlloc_headed h.ready.sound hh)).mono (fun _ _ _ => trivial)
      (fun _ _ hq => hq) |>.bind ?_
    rintro b m₁ ⟨⟨hb, h₁⟩, hh₁⟩
    refine Runs.bind (runs_pure (Q := fun _ m' => m' = m₁) rfl) ?_
    rintro _ _ rfl
    refine (runs_openBlock h₁.ready.sound (T := {b.toNat}) (by simp [cacheSize])
      (Finset.mem_singleton_self _) fun _ => trivial).bind ?_
    rintro block m₂ ⟨hid, hfresh, hev₂, hg₂⟩
    refine (runs_store hev₂.sound hfresh zeros).bind ?_
    rintro _ m₃ ⟨hev₃, -, hg₃⟩
    exact runs_pure ((hh₁.idle h₁ hev₂ hg₂).written (h₁.idle hev₂ hg₂) (hid ▸ hb) hev₃ hg₃)
  next =>
    refine (runs_openBlock h.ready.sound (T := {p.toNat}) (by simp [cacheSize])
      (Finset.mem_singleton_self _) fun _ => trivial).bind ?_
    rintro block m₁ ⟨-, -, hev, hg⟩
    exact runs_pure (hh.idle h hev hg)

theorem writeDirect_headed {src : Bytes} {offset length : Nat} (h : Realizes m s) (hh : Headed m)
    (htables : TablesUsed s) (hp : p ≠ 0 → IsData p) :
    Runs (inodeModifyDataRecur true 0 none p (.buffer src) offset length) m Any
      fun _ m' => Headed m' := by
  have hopen := (openPointer_realizes (A := fun _ _ => True) h htables hp
    fun _ => blockAlloc_full h).and (openPointer_headed h hh htables (p := p))
  refine (hopen.mono (fun _ _ _ => trivial) fun _ _ hq => hq).bind ?_
  rintro ⟨b, new, block⟩ m₁ ⟨⟨s₁, -, hdata, h₁, -, hid, hfresh, -⟩, hh₁⟩
  simp only at hid
  refine Runs.bind (Q := fun _ m' => Headed m') ?_ fun _ m₂ hh₂ => runs_pure hh₂
  refine Runs.bind (runs_pure (Q := fun d m' => d = src ∧ m' = m₁) ⟨rfl, rfl⟩) ?_
  rintro _ m₁ ⟨rfl, rfl⟩
  refine (runs_load h₁.ready.sound hfresh).bind ?_
  rintro _ m₁ ⟨rfl, rfl⟩
  refine runs_store_update h₁.ready.sound hfresh (hid ▸ hdata.2) fun m₂ hev _ _ hg => ?_
  exact runs_pure (hh₁.written h₁ (hid ▸ hdata.1) hev hg)

theorem makeRoot_labelled (h : Realizes m s) (hfirst : m.globals.superblock.inodeFreeMin = 0)
    (hempty : visible m 1 = zeros) (hmagic0 : m.globals.superblock.magic0 = superblockMagic)
    (hmagic1 : m.globals.superblock.magic1 = superblockMagic) :
    Runs makeRoot m Any fun _ m' => Labelled m'.globals.superblock := by
  have hsteady : Steady fixtures inodeAlloc := steady_composed composed_inodeAlloc
  refine (hsteady.runs (inodeAlloc_first h hfirst hempty)).bind ?_
  rintro root m₁ ⟨rfl, hfix₁⟩
  simp only [fixtures, Prod.mk.injEq] at hfix₁
  refine Runs.bind (Q := fun _ m₂ => Labelled m₂.globals.superblock) (runs_of_ok rfl
    ⟨hfix₁.2.1.trans hmagic0, hfix₁.2.2.1.trans hmagic1, rfl⟩) fun _ m₂ h₂ => ?_
  have hrest : ∀ {α : Type} {f : Fs α}, Composed Untouching f →
      Runs f m₂ Any fun _ m' => Labelled m'.globals.superblock := fun hf =>
    have hsteady : Steady fixtures _ := steady_composed hf
    (hsteady.runs (runs_any _ m₂)).mono (fun _ _ _ => trivial) fun _ _ hq => h₂.of_fixtures hq.2
  exact hrest (.bind (composed_setCwdNode _) fun _ => .bind composed_flushSuperblock fun _ =>
    .bind (composed_inodeModifyData _ _ _ _ _) fun _ => .bind (composed_writeInode _ _) fun _ =>
      .pure _)

theorem headed_of_formatted (h : Formatted m) : Headed m := by
  obtain ⟨s, haccounted, -⟩ := formatted_accounted h
  refine ⟨haccounted.copied, ?_⟩
  obtain ⟨c, g, hage, hrun⟩ := h
  have hmkfs : Runs fsMkfs (boot c g) Any fun _ m' => Labelled m'.globals.superblock := by
    refine runs_fsMkfs (tablesSettled_boot g hage) fun m' h' hempty hg => ?_
    refine makeRoot_labelled h' ?_ hempty ?_ ?_
    · rw [hg]
      rfl
    · rw [hg]
      rfl
    · rw [hg]
      rfl
  exact hmkfs.ok hrun

end LabKernel.SuperBlockCopy
