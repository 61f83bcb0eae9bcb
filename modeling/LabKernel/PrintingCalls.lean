import LabKernel.CallPairs

/-!
The calls of the file system that only print, on two disks that differ in free
blocks: they print the same and leave the tables as they are.
-/

namespace LabKernel.PrintingCalls

open LabKernel.BlockCache
open LabKernel.BlockFreeing
open LabKernel.BlockObject
open LabKernel.BlockOwnership
open LabKernel.BlockPairs
open LabKernel.ByteMemory
open LabKernel.CacheCoherence (sector_lt)
open LabKernel.CallPairs
open LabKernel.CallSafety
open LabKernel.CalmMachines
open LabKernel.DirectData
open LabKernel.DirectTransfers
open LabKernel.Directories
open LabKernel.DirectoryCalls
open LabKernel.FileWrites
open LabKernel.FsCode
open LabKernel.FsLayout
open LabKernel.FsPairs
open LabKernel.FsPrimitives
open LabKernel.FsRuns
open LabKernel.FsTables
open LabKernel.FsView
open LabKernel.HandleRecycling
open LabKernel.HandleSafety
open LabKernel.InertReads
open LabKernel.PairedRuns
open LabKernel.PathWalks
open LabKernel.ProgramLogic
open LabKernel.SuperBlockCopy
open LabKernel.TidyCalls
open LabKernel.TidyDisk

variable {m₁ m₂ : Machine Bytes Globals} {s : FsState} {n : Inode} {path : List UInt8}
  {k : Nat} {T : Finset Nat} {block : Block} {d : Bytes}

theorem modifyGlobals_paired (h : Paired s m₁ m₂) (f : Globals → Globals)
    (hkept : ∀ g, kept (f g) = kept g) :
    Together (modifyGlobals f) m₁ m₂ fun _ m₁' m₂' => Paired s m₁' m₂' ∧
      Evolves T T ∅ m₁ m₁' ∧ m₁'.globals = f m₁.globals := by
  refine ((together_modifyGlobals (T := ∅) h.alike f).and
    (runs_modifyGlobals h.realizes.ready.sound f (T := T) (E := Any))).mono ?_
  rintro _ m₁' m₂' ⟨⟨hev, -, -, hg⟩, -, -, ha⟩
  have h' : Realizes m₁' s := realizes_of_kept h.realizes hev (by rw [hg, hkept])
  have hh : Headed m₁' := h.headed.evolves (h.realizes.settled 0 (by omega)) hev
    (Set.notMem_empty 0) (congrArg Prod.fst (hg ▸ hkept m₁.globals))
  exact ⟨Paired.of_alike h' hh ha (Set.Subset.refl _), hev, hg⟩

theorem print_paired (h : Paired s m₁ m₂) (p : Printed) :
    Together (print p) m₁ m₂ fun _ m₁' m₂' => Paired s m₁' m₂' ∧
      Evolves T T ∅ m₁ m₁' ∧ kept m₁'.globals = kept m₁.globals := by
  refine (modifyGlobals_paired (T := T) h (fun g => { g with console := g.console ++ [p] })
    fun _ => rfl).mono ?_
  rintro _ m₁' m₂' ⟨h', hev, hg⟩
  exact ⟨h', hev, by rw [hg]; rfl⟩

theorem fsStatfs_paired (h : Paired s m₁ m₂) :
    Together fsStatfs m₁ m₂ fun r m₁' m₂' => r = 0 ∧ Paired s m₁' m₂' := by
  refine (together_getSuperblock h.alike).bind ?_
  rintro _ m₁ m₂ ⟨rfl, rfl, rfl⟩
  exact (print_paired (T := ∅) h _).bind fun _ _ _ h' => together_pure ⟨rfl, h'.1⟩

/-- An open block of a directory. -/
structure Listing (s : FsState) (T : Finset Nat) (block : Block) (d : Bytes)
    (m₁ m₂ : Machine Bytes Globals) : Prop where
  paired : Paired s m₁ m₂
  fresh : Fresh T m₁ block
  range : 517 ≤ block.blockid ∧ block.blockid < maxBlockNum
  notMem : block.blockid ∉ unused s
  data : s.data block.blockid = some d

theorem load_listing (h : Listing s T block d m₁ m₂) :
    Together block.load m₁ m₂ fun d' m₁' m₂' => d' = d ∧ m₁' = m₁ ∧ m₂' = m₂ := by
  refine (together_load h.paired.alike h.fresh h.range.2 h.notMem).mono ?_
  rintro d' m₁' m₂' ⟨rfl, hm⟩
  exact ⟨(h.paired.realizes.data _ h.range.1 h.range.2 d h.data).1, hm⟩

theorem readInode_listing {ino : UInt32} (h : Listing s T block d m₁ m₂)
    (hT : T.card ≤ cacheSize) (hmem : 5 + ino.toNat / 64 ∈ T) (hino : ino.toNat < maxInodeNum) :
    Together (readInode ino) m₁ m₂ fun n m₁' m₂' =>
      n = s.inode ino.toNat ∧ Listing s T block d m₁' m₂' := by
  refine ((readInode_paired h.paired hino).and (runs_readInode h.paired.realizes.ready hT hmem
    (E := Any) fun _ => trivial)).mono ?_
  rintro n m₁' m₂' ⟨⟨hev, -⟩, hn, h'⟩
  exact ⟨hn, h', hev.fresh _ h.fresh, h.range, h.notMem, h.data⟩

theorem print_listing (h : Listing s T block d m₁ m₂) (p : Printed) :
    Together (print p) m₁ m₂ fun _ => Listing s T block d := by
  refine (print_paired (T := T) h.paired p).mono ?_
  rintro _ m₁' m₂' ⟨h', hev, -⟩
  exact ⟨h', hev.fresh _ h.fresh, h.range, h.notMem, h.data⟩

theorem listEntries_paired {optL : Bool} {left j : Nat} (h : Listing s T block d m₁ m₂)
    (hT : T.card ≤ cacheSize) (hj : j + left ≤ dirEntryPerBlock)
    (hlive : ∀ j < dirEntryPerBlock, (DirEntry.ofBytes d j).valid ≠ 0 →
      (DirEntry.ofBytes d j).inode.toNat < maxInodeNum)
    (hlisted : optL = true → inodeBlocksListed d ⊆ T) :
    Together (listEntries block optL left j) m₁ m₂ fun _ => Paired s := by
  induction left generalizing m₁ m₂ j with
  | zero => exact together_pure h.paired
  | succ left ih =>
      have hentry : Together (listEntry block optL j) m₁ m₂ fun _ => Listing s T block d := by
        refine (load_listing h).bind ?_
        rintro d m₁ m₂ ⟨rfl, rfl, rfl⟩
        dsimp only
        split
        next => exact together_pure h
        next hvalid =>
          split
          next hopt =>
            have hmem : 5 + (DirEntry.ofBytes d j).inode.toNat / 64 ∈ T :=
              hlisted hopt (Finset.mem_image.mpr
                ⟨j, Finset.mem_filter.mpr ⟨Finset.mem_range.mpr (by omega), hvalid⟩, rfl⟩)
            refine (readInode_listing h hT hmem (hlive j (by omega) hvalid)).bind ?_
            rintro n m₁ m₂ ⟨-, h₁⟩
            refine (load_listing h₁).bind ?_
            rintro d m₁ m₂ ⟨rfl, rfl, rfl⟩
            exact print_listing h₁ _
          next => exact print_listing h _
      exact hentry.bind fun _ m₁ m₂ h₁ => ih h₁ (by omega)

theorem listBlocks_paired {optL : Bool} {left i : Nat} (h : Paired s m₁ m₂) (ht : Tidy s)
    (hk : Dir s k) (hfits : optL = true → ListingFits m₁ (s.inode k)) :
    Together (listBlocks (s.inode k) optL left i) m₁ m₂ fun _ => Paired s := by
  have hfolder := ht.folder k hk
  -- The condition only depends on what the blocks of the directory hold.
  have hcard : optL = true → ∀ i, direct (s.inode k) i ≠ 0 → ∀ d,
      s.data (direct (s.inode k) i).toNat = some d →
        (insert (direct (s.inode k) i).toNat (inodeBlocksListed d)).card ≤ cacheSize := by
    intro hopt i hi d hd
    have hp := (hfolder.hasBlocks i hi).1
    have hshown := (h.realizes.data _ hp.1 hp.2 d hd).1
    exact hfits hopt i hi (sector_lt hp.2) d (hshown ▸ mayShow_visible m₁ _)
  clear hfits
  induction left generalizing m₁ m₂ i with
  | zero => exact together_pure h
  | succ left ih =>
      unfold listBlocks
      split
      next => exact ih h
      next hi =>
        obtain ⟨hp, d, hd⟩ := hfolder.hasBlocks i hi
        obtain ⟨r, hr, -⟩ := direct_eq_blockAt hi
        have hused : s.blockUsed (direct (s.inode k) i).toNat = true := by
          rw [hr] at hi ⊢
          exact (ht.owned.isData k hk.1 _ (fits_root r) hi).2
        set x := (direct (s.inode k) i).toNat with hx
        have hlive : ∀ j < dirEntryPerBlock, (DirEntry.ofBytes d j).valid ≠ 0 →
            (DirEntry.ofBytes d j).inode.toNat < maxInodeNum := by
          intro j hj hvalid
          have hj : j < 128 := hj
          have hslot : slot s (s.inode k) (128 * i + j) = some (DirEntry.ofBytes d j) := by
            have hblock : (128 * i + j) / 128 = i := by omega
            rw [slot_of_data (by rw [hblock]; exact hi) (by rw [hblock]; exact hd), entryOf,
              show (128 * i + j) % 128 = j by omega, if_pos hvalid]
          exact (hfolder.entries _ _ hslot).1
        refine (together_openBlock h.alike (Set.Subset.refl _) (T := {x}) (by simp [cacheSize])
          (Finset.mem_singleton_self _)).bind ?_
        rintro block m₁ m₂ ⟨hid, hfresh, hev, hg, ha⟩
        have h₁ : Paired s m₁ m₂ := ⟨h.realizes.idle hev hg, h.headed.idle h.realizes hev hg, ha⟩
        have hlisting : ∀ {T : Finset Nat}, {x} ⊆ T → Listing s T block d m₁ m₂ := fun hsub =>
          ⟨h₁, hfresh.mono hsub, by rw [hid]; exact hp, by rw [hid]; exact notMem_unused hused,
            by rw [hid]; exact hd⟩
        cases optL with
        | false =>
            refine (listEntries_paired (hlisting (Finset.Subset.refl _)) (by simp [cacheSize])
              (by simp) hlive fun hopt => (by cases hopt)).bind ?_
            exact fun _ _ _ h₂ => ih h₂
        | true =>
            refine (listEntries_paired (hlisting (Finset.singleton_subset_iff.mpr
              (Finset.mem_insert_self _ _))) (hcard rfl i hi d hd) (by simp) hlive
              fun _ => Finset.subset_insert _ _).bind ?_
            exact fun _ _ _ h₂ => ih h₂

/-- The result of `fs_ls`. -/
def listed (target : Option UInt32) : Int := if target.isSome then 0 else -1

theorem fsLs_paired {option : UInt32} (h : Paired s m₁ m₂) (ht : Tidy s)
    (hfits : Fits m₁ (.ls path option)) :
    Together (fsLs path option) m₁ m₂ fun r m₁' m₂' =>
      r = listed (follow s s.cwd (pieces path)) ∧ Paired s m₁' m₂' := by
  -- The last step goes back to the current directory.
  have hback : ∀ {dir : UInt32} (r : Int) (m₁ m₂ : Machine Bytes Globals),
      Paired (goto s dir) m₁ m₂ → Together (do setCwdNode s.cwd; return r) m₁ m₂
        fun r' m₁' m₂' => r' = r ∧ Paired s m₁' m₂' := fun r m₁ m₂ hm =>
    (setCwdNode_paired hm s.cwd).bind fun _ _ _ h' => together_pure ⟨rfl, h'⟩
  refine (together_cwdNode h.alike).bind ?_
  rintro _ m₁ m₂ ⟨rfl, rfl, rfl⟩
  rw [h.realizes.cwd]
  refine ((fsCd_paired h ht).and (runs_self _ m₁)).bind ?_
  rintro result n₁ n₂ ⟨hrun₁, s', h₁, hwalked⟩
  cases hwalked with
  | back hfollow =>
      rw [if_pos rfl, hfollow]
      exact hback (-1) n₁ n₂ h₁
  | @arrived dir hfollow =>
      have hdir := dir_of_follow ht ht.cwd hfollow
      rw [if_neg (by decide), hfollow]
      refine (together_cwdNode h₁.alike).bind ?_
      rintro _ n₁ n₂ ⟨rfl, rfl, rfl⟩
      have hcwd : n₁.globals.cwdNode = dir := h₁.realizes.cwd
      rw [hcwd]
      refine ((readInode_paired h₁ hdir.1.1).and (runs_self _ n₁)).bind ?_
      rintro _ n₁' n₂' ⟨hrun₂, rfl, h₂⟩
      have hinode : (goto s dir).inode dir.toNat = s.inode dir.toNat := rfl
      rw [hinode, if_neg (not_not.mpr hdir.2)]
      have hlisted : option &&& lsL ≠ 0 → ListingFits n₁' (s.inode dir.toNat) := by
        intro hopt
        refine hfits hopt _ n₁' ?_
        have hnode : cwdNode.run n₁ = (.ok n₁.globals.cwdNode, n₁) := rfl
        unfold lsPrefix
        rw [run_bind_ok hrun₁, if_neg (by decide), run_bind_ok hnode, hcwd, run_bind_ok hrun₂,
          hinode, if_neg (not_not.mpr hdir.2)]
        rfl
      have hheader : Together (doWhen (option &&& lsL ≠ 0)
          (print (.text "| mode | links |   size   |      name    |\n"))) n₁' n₂'
          fun _ m₁' m₂' => Paired (goto s dir) m₁' m₂' ∧ Evolves ∅ ∅ ∅ n₁' m₁' := by
        unfold doWhen
        split
        next => exact (print_paired h₂ _).mono fun _ _ _ hq => ⟨hq.1, hq.2.1⟩
        next =>
          have hrefl : Evolves ∅ ∅ ∅ n₁' n₁' :=
            Evolves.refl h₂.realizes.ready.sound (Finset.Subset.refl _)
          exact together_pure ⟨h₂, hrefl⟩
      refine hheader.bind ?_
      rintro _ m₁ m₂ ⟨h₃, hev⟩
      refine (listBlocks_paired h₃ (ht.goto hdir) (k := dir.toNat) hdir fun hopt =>
        (hlisted (of_decide_eq_true hopt)).tracks hev.toTracks).bind fun _ m₁ m₂ h₄ => ?_
      exact (print_paired (T := ∅) h₄ _).bind fun _ m₁ m₂ h₅ => hback 0 m₁ m₂ h₅.1

theorem inertRead_paired {buffer : Bytes} {offset length : UInt32} (h : Paired s m₁ m₂)
    (hcalm : Calm ∅ m₁) (howned : Owned s) (hlive : Live s k) (hblocks : HasBlocks s (s.inode k))
    (hlt : offset.toNat < l0Bound) (hfit : offset.toNat % 4096 + length.toNat ≤ 4096)
    (hkeep : changes (s.inode k) offset length = false) :
    Together (inodeModifyData false (s.inode k) buffer offset length) m₁ m₂ fun r m₁' m₂' =>
      r.1 = s.inode k ∧ Paired s m₁' m₂' ∧ Calm ∅ m₁' := by
  have hback : s.setInode k (s.inode k) = s := by
    simp only [FsState.setInode, Function.update_eq_self]
  have hset : direct (s.inode k) (offset.toNat / 4096) ≠ 0 := by
    rw [changes, Bool.or_eq_false_iff, pointer_rootOf hlt] at hkeep
    exact of_decide_eq_false hkeep.2
  have htransferring : Transferring k (s.inode k) s m₁ m₂ :=
    ⟨hback.symm ▸ h, howned, hlive, hblocks⟩
  refine ((transfer_read_paired htransferring hfit hlt hset).and
    (inodeModifyData_inert (showing_of_calm hcalm) hlt hkeep)).mono ?_
  rintro r m₁' m₂' ⟨⟨hr, -, hshowing, hg⟩, s', h', -⟩
  have hrealizes : Realizes m₁' s :=
    realizes_of_showing h.realizes hshowing hg
  exact ⟨hr, h'.paired.of_realizes hrealizes, hshowing.calm⟩

theorem catLoop_paired {left offset : Nat} (h : Paired s m₁ m₂) (hcalm : Calm ∅ m₁)
    (howned : Owned s) (hlive : Live s k) (hblocks : HasBlocks s (s.inode k))
    (hplace : InPlace (s.inode k) 0 (s.inode k).size.toNat)
    (hbelow : (s.inode k).size.toNat ≤ l0Bound) (haligned : offset % 4096 = 0 ∨
      (s.inode k).size.toNat ≤ offset) :
    Together (catLoop left (s.inode k) offset) m₁ m₂ fun _ => Paired s := by
  induction left generalizing m₁ m₂ offset with
  | zero => exact together_pure h
  | succ left ih =>
      unfold catLoop
      split
      next hlt =>
        have hblock : blockSize = 4096 := rfl
        set size := min blockSize ((s.inode k).size.toNat - offset) with hsize
        have hbound := (s.inode k).size.toNat_lt
        have hoffset : (UInt32.ofNat offset).toNat = offset := by
          rw [UInt32.toNat_ofNat', Nat.mod_eq_of_lt (by omega)]
        have hlength : (UInt32.ofNat size).toNat = size := by
          rw [UInt32.toNat_ofNat', Nat.mod_eq_of_lt (by omega)]
        have hrest : InPlace (s.inode k) (UInt32.ofNat offset).toNat
            ((s.inode k).size.toNat - offset) := by
          rw [hoffset]
          exact ⟨by omega, fun o _ hhi => hplace.present o (Nat.zero_le o) (by omega)⟩
        obtain ⟨hkeep, -⟩ :=
          changes_of_inPlace (show 0 < size by omega) (Nat.min_le_right _ _) hrest
        refine (together_getGlobals h.alike).bind ?_
        rintro _ m₁ m₂ ⟨rfl, rfl, rfl⟩
        refine (inertRead_paired h hcalm howned hlive hblocks (by omega)
          (by rw [hoffset, hlength]; omega) hkeep).bind ?_
        rintro ⟨n, buffer, _⟩ m₁ m₂ ⟨rfl, h₁, hcalm₁⟩
        dsimp only
        refine (modifyGlobals_paired (T := ∅) h₁ (fun g => { g with catBuffer := buffer })
          fun _ => rfl).bind ?_
        rintro _ m₁ m₂ ⟨h₂, hev₂, hg₂⟩
        have hcalm₂ : Calm ∅ m₁ := hcalm₁.idle hev₂ (by rw [hg₂])
        refine (print_paired (T := ∅) h₂ _).bind ?_
        rintro _ m₁ m₂ ⟨h₃, hev₃, hg₃⟩
        have hcalm₃ : Calm ∅ m₁ := hcalm₂.idle hev₃ (congrArg Prod.fst hg₃)
        exact ih h₃ hcalm₃ (by omega)
      next => exact together_pure h

/-- The result of `fs_cat`. -/
inductive CatDone (s : FsState) (path : List UInt8) : Int → Prop
  | missing : lookup s s.here path = none → CatDone s path (-1)
  | refused {e : DirEntry} : lookup s s.here path = some e → (s.inode e.inode.toNat).type ≠ 2 →
      CatDone s path (-1)
  | shown {e : DirEntry} : lookup s s.here path = some e → (s.inode e.inode.toNat).type = 2 →
      CatDone s path 0

theorem fsCat_paired (h : Paired s m₁ m₂) (hcalm : Calm ∅ m₁) (ht : Tidy s)
    (hblocks : ∀ k, Live s k → HasBlocks s (s.inode k)) (hcat : Restrained m₁ (.cat path)) :
    Together (fsCat path) m₁ m₂ fun r m₁' m₂' => CatDone s path r ∧ Paired s m₁' m₂' := by
  have hstay : Runs (getInodeByFilename path false 0) m₁ Any fun _ m' => Calm ∅ m' :=
    (keeps_lookup path 0 m₁ hcalm).mono (fun _ _ _ => trivial) fun _ _ hq => hq
  refine (((lookup_paired h ht.standing).and (runs_self _ m₁)).and hstay).bind ?_
  rintro ino n₁ n₂ ⟨hcalm₁, hrun₁, h₁, ⟨q, e, hfinds, rfl⟩ | ⟨rfl, hmiss⟩⟩
  · have hlive := live_of_finds ht hfinds
    have hnegative := not_isNegative hlive.1
    rw [hnegative, if_neg Bool.false_ne_true]
    have hstay : Runs (readInode e.inode) n₁ Any fun _ m' => Calm ∅ m' :=
      (keeps_readInode e.inode n₁ hcalm₁).mono (fun _ _ _ => trivial) fun _ _ hq => hq
    refine (((readInode_paired h₁ hlive.1).and (runs_self _ n₁)).and hstay).bind ?_
    rintro _ n₁ n₂ ⟨hcalm₂, hrun₂, rfl, h₂⟩
    split
    next htype =>
      refine (failWith_paired h₂ _).mono ?_
      rintro _ _ _ ⟨rfl, h₃⟩
      exact ⟨.refused (lookup_of_finds hfinds) htype, h₃⟩
    next htype =>
      obtain ⟨hplace, hbelow⟩ := hcat _ n₁ (by
        unfold catPrefix
        rw [run_bind_ok hrun₁, hnegative, if_neg Bool.false_ne_true, run_bind_ok hrun₂,
          if_neg htype]
        rfl)
      refine (catLoop_paired h₂ hcalm₂ ht.owned hlive (hblocks _ hlive) hplace hbelow
        (Or.inl rfl)).bind fun _ m₁ m₂ h₃ => ?_
      exact (print_paired (T := ∅) h₃ _).bind fun _ m₁ m₂ h₄ =>
        together_pure ⟨.shown (lookup_of_finds hfinds) (not_not.mp htype), h₄.1⟩
  · rw [if_pos (by decide)]
    refine (failWith_paired h₁ _).mono ?_
    rintro _ _ _ ⟨rfl, h₂⟩
    exact ⟨.missing (lookup_of_misses hmiss), h₂⟩

end LabKernel.PrintingCalls
