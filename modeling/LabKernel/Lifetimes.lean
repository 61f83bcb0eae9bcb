import LabKernel.ParameterRestart
import LabKernel.Simulation
import LabKernel.StoreRuns

/-!
Whole lives of a file system: calls, other traffic in the cache, and restarts
of the kernel when nothing is left to write back.

The replies are those of the store.  They do not depend on what is left in the
free blocks of the disk, and a restart loses the current directory and the
handles only.
-/

namespace LabKernel.Lifetimes

open LabKernel.BlockCache
open LabKernel.BlockFreeing
open LabKernel.BlockObject
open LabKernel.BlockOwnership
open LabKernel.BlockPairs
open LabKernel.ByteMemory
open LabKernel.CacheCoherence
open LabKernel.CacheRecency
open LabKernel.CacheTraffic
open LabKernel.CallPairs
open LabKernel.CallSafety
open LabKernel.CalmMachines
open LabKernel.Directories
open LabKernel.DirectoryCalls
open LabKernel.DirectorySizes
open LabKernel.FileContents
open LabKernel.FileStore
open LabKernel.FsCode
open LabKernel.FsLayout
open LabKernel.FsPairs
open LabKernel.FsPrimitives
open LabKernel.FsRuns
open LabKernel.FsTables
open LabKernel.FsView
open LabKernel.InertReads
open LabKernel.PairedRuns
open LabKernel.ParameterRestart
open LabKernel.ProgramLogic
open LabKernel.Simulation
open LabKernel.StoreRefinement
open LabKernel.StoreRuns
open LabKernel.SuperBlockCopy
open LabKernel.SystemParameters
open LabKernel.TidyDisk
open LabKernel.TidyRuns

variable {m m' m₁ m₂ m₁' m₂' : Machine Bytes Globals} {s s' : FsState} {a : Store} {op : FsOp}

/-- Nothing is left to write back. -/
def Clean (m : Machine Bytes Globals) : Prop :=
  ∀ i < cacheSize, (m.cache.slots i).dirty = false

theorem disk_of_settled (h : Sound m) (hclean : Clean m) {x : Nat} (hx : x < maxBlockNum) :
    m.cache.disk (sector x) = settled m x := disk_of_clean h.coherent hclean hx

/-- The store after a restart. -/
def restartedStore (a : Store) : Store := { a with cwd := 0, handles := [] }

/-- The tables after a restart. -/
def restarted (s : FsState) : FsState := { s with cwd := 0, files := [] }

theorem restarted_consistent (hc : Consistent s) : Consistent (restarted s) := by
  have hgone : Consistent (PathWalks.goto s 0) := hc.goto hc.inOrder.tidy.root
  refine hgone.setFiles (hgone.inOrder.tidy.setFiles (fun file hmem => ?_)
    fun i j file file' hfile => ?_) fun file hmem => ?_
  · exact absurd hmem List.not_mem_nil
  · cases hfile
  · exact absurd hmem List.not_mem_nil

theorem restarted_represents (h : Represents a s) :
    Represents (restartedStore a) (restarted s) :=
  ⟨rfl, h.kind, h.entry, h.bytes, h.size, rfl⟩

/-- The machine right after `cache_init`. -/
def emptied (m : Machine Bytes Globals) : Machine Bytes Globals :=
  boot { blankCache with disk := m.cache.disk } blankGlobals

theorem emptied_shows (h : Sound m) (hclean : Clean m) {x : Nat} (hx : x < maxBlockNum) :
    visible (emptied m) x = settled m x ∧ settled (emptied m) x = settled m x := by
  rw [← disk_of_settled h hclean hx]
  exact visible_eq_of_coherent (m := emptied m) (coherent_cacheInit _) hx

theorem emptied_alike {X : Set Nat} (h : Alike X X m₁ m₂) (hclean₁ : Clean m₁)
    (hclean₂ : Clean m₂) : Alike X X (emptied m₁) (emptied m₂) := by
  refine ⟨sound_boot _ (le_refl 0), sound_boot _ (le_refl 0), rfl,
    ⟨rfl, rfl, rfl, rfl, fun _ _ => ⟨rfl, rfl, rfl⟩⟩, fun x hx hX => ?_, fun x hx hX => ?_⟩
  · rw [(emptied_shows h.sound₁ hclean₁ hx).1, (emptied_shows h.sound₂ hclean₂ hx).1,
      h.settled_eq x hx hX]
  · rw [(emptied_shows h.sound₁ hclean₁ hx).2, (emptied_shows h.sound₂ hclean₂ hx).2,
      h.settled_eq x hx hX]

theorem clean_of_alike {X : Set Nat} (h : Alike X X m₁ m₂) (hclean : Clean m₁) : Clean m₂ :=
  fun i hi => (h.control.slot i hi).2.1.symm.trans (hclean i hi)

theorem initFilesystem_together (h : Paired s m₁ m₂) (hclean : Clean m₁) :
    Together initFilesystem (poweredOn m₁) (poweredOn m₂) fun r m₁' m₂' =>
      r = true ∧ Alike (unused s) (unused s) m₁' m₂' := by
  have hsettled : Settled m₁ 0 := h.realizes.settled 0 (by omega)
  have hpos : 0 < maxBlockNum := by decide
  have hinit : Together (onCache fun c => some (cacheInit c)) (poweredOn m₁) (poweredOn m₂)
      fun _ n₁ n₂ => (visible n₁ 0 = visible m₁ 0 ∧ Settled n₁ 0) ∧
        Alike (unused s) (unused s) n₁ n₂ := by
    obtain ⟨hv, hs⟩ := emptied_shows h.alike.sound₁ hclean hpos
    exact together_of_ok rfl rfl ⟨⟨hv.trans hsettled.symm, hv.trans hs.symm⟩,
      emptied_alike h.alike hclean (clean_of_alike h.alike hclean)⟩
  unfold initFilesystem
  refine hinit.bind ?_
  rintro _ n₁ n₂ ⟨⟨hv, hs⟩, ha⟩
  refine (together_openBlock ha (Set.Subset.refl _) (T := {0}) (by simp [cacheSize])
    (Finset.mem_singleton_self 0)).bind ?_
  rintro block n₁' n₂' ⟨hid, hfresh, hev, -, ha⟩
  have hzero : 0 ∉ unused s := (tabled_unused s).notMem (by omega)
  refine (together_load ha hfresh (by rwa [hid]) (by rwa [hid])).bind ?_
  rintro _ n₁' n₂' ⟨rfl, rfl, rfl⟩
  have hvisible : visible n₁' block.blockid = visible m₁ 0 := by
    rw [hid, hev.visible_of_settled hpos (Set.notMem_empty 0) hs, hv]
  rw [hvisible]
  dsimp only
  rw [ofBytes_toBytes h.headed.copied, if_pos ⟨h.headed.labelled.magic0, h.headed.labelled.magic1⟩]
  refine (together_modifyGlobals (T := ∅) ha _).bind ?_
  rintro _ n₁ n₂ ⟨-, -, ha⟩
  refine (together_modifyGlobals (T := ∅) ha _).bind ?_
  rintro _ n₁ n₂ ⟨-, -, ha⟩
  exact together_pure ⟨rfl, ha⟩

theorem started_of_clean (h : Valid a s m₁ m₂) (hclean : Clean m₁) :
    Runs initFilesystem (poweredOn m₁) (fun _ _ => False) fun _ m' => Started m₁ m' := by
  have hrealizes := h.paired.realizes
  have hheaded := h.paired.headed
  refine runs_recognized hheaded.copied ⟨hheaded.labelled.magic0, hheaded.labelled.magic1⟩
    hrealizes.ready.layout (fun x hx => ?_) rfl
  rw [disk_of_settled hrealizes.ready.sound hclean hx]
  exact (h.calm.settled x hx (Set.notMem_empty x)).symm

/-- What happens to the file system. -/
inductive Event where
  | call (op : FsOp) (reply : Reply)
  | traffic (t : Traffic)
  | restart

/-- What the callers see of it. -/
inductive Seen where
  | call (op : FsOp) (reply : Reply)
  | restart

def Event.seen : Event → Option Seen
  | .call op reply => some (.call op reply)
  | .traffic _ => none
  | .restart => some .restart

/-- A restart that finds a file system. -/
def Restarts (m m' : Machine Bytes Globals) : Prop :=
  initFilesystem.run (poweredOn m) = (.ok true, m')

inductive Happens : Machine Bytes Globals → Event → Machine Bytes Globals → Prop
  | call {m m' : Machine Bytes Globals} {op : FsOp} {reply : Reply} :
      (call op).run m = (.ok reply, m') → Happens m (.call op reply) m'
  | traffic {m m' : Machine Bytes Globals} {t : Traffic} : t.program.run m = (.ok (), m') →
      Happens m (.traffic t) m'
  | restart {m m' : Machine Bytes Globals} : Restarts m m' → Happens m .restart m'

/-- The calls are prudent, and the kernel is restarted with nothing left to
write back. -/
def Allowed (m : Machine Bytes Globals) : Event → Prop
  | .call op _ => Prudent m op
  | .traffic _ => True
  | .restart => Clean m

def HappensPrudently (m : Machine Bytes Globals) (e : Event) (m' : Machine Bytes Globals) : Prop :=
  Allowed m e ∧ Happens m e m'

/-- What happens to the store. -/
def StoreStep (a : Store) : Seen → Store → Prop
  | .call op reply, a' => Step a op reply a'
  | .restart, a' => a' = restartedStore a

theorem restarts_valid (h : Valid a s m₁ m₂) (hclean : Clean m₁) :
    ∃ m₁' m₂', Restarts m₁ m₁' ∧ Restarts m₂ m₂' ∧ Started m₁ m₁' ∧
      Valid (restartedStore a) (restarted s) m₁' m₂' := by
  have hrealizes := h.paired.realizes
  have hheaded := h.paired.headed
  rcases ((initFilesystem_together h.paired hclean).and (started_of_clean h hclean)).cases with
    ⟨r, m₁', m₂', h₁, h₂, hstarted, rfl, ha⟩ | ⟨e, m₁', m₂', h₁, -⟩
  · have hrealizes' : Realizes m₁' (restarted s) := by
      have hdisk := realizes_disk hrealizes ⟨hstarted.calm, hstarted.visible_eq⟩
        hstarted.superblock
      rw [hstarted.cwdNode, hstarted.files, hheaded.labelled.rootInode] at hdisk
      exact hdisk
    have hheaded' : Headed m₁' := by
      refine ⟨fun i hi => ?_, hstarted.superblock ▸ hheaded.labelled⟩
      rw [hstarted.visible_eq 0 (by decide), hstarted.superblock]
      exact hheaded.copied i hi
    exact ⟨m₁', m₂', h₁, h₂, hstarted, ⟨hrealizes', hheaded', ha⟩,
      restarted_consistent h.consistent, restarted_represents h.represents, hstarted.calm⟩
  · exact ((started_of_clean h hclean).error h₁).elim

theorem happens_valid {e : Event} (h : Valid a s m₁ m₂) (hallowed : Allowed m₁ e)
    (hstep : Happens m₁ e m₁') :
    ∃ s' a' m₂', Happens m₂ e m₂' ∧ Valid a' s' m₁' m₂' ∧
      (∀ l, e.seen = some l → StoreStep a l a') ∧ (e.seen = none → a' = a) := by
  cases hstep with
  | call hrun =>
      obtain ⟨s', a', m₂', hrun₂, hstep, h'⟩ := valid_call h hallowed hrun
      refine ⟨s', a', m₂', .call hrun₂, h', ?_, fun he => (by cases he)⟩
      rintro _ ⟨⟩
      exact hstep
  | traffic hrun =>
      obtain ⟨m₂', hrun₂, h'⟩ := valid_traffic h hrun
      exact ⟨s, a, m₂', .traffic hrun₂, h', fun l he => (by cases he), fun _ => rfl⟩
  | restart hrun =>
      obtain ⟨n₁, m₂', h₁, h₂, -, h'⟩ := restarts_valid h hallowed
      obtain rfl := (Prod.mk.inj (hrun.symm.trans h₁)).2
      refine ⟨restarted s, restartedStore a, m₂', .restart h₂, h', ?_, fun he => (by cases he)⟩
      rintro _ ⟨⟩
      rfl

theorem happens_unique {e : Event} (h : Happens m e m₁) (h' : Happens m e m₂) : m₁ = m₂ := by
  cases h with
  | call hrun =>
      cases h' with
      | call hrun' => exact (Prod.mk.inj (hrun.symm.trans hrun')).2
  | traffic hrun =>
      cases h' with
      | traffic hrun' => exact (Prod.mk.inj (hrun.symm.trans hrun')).2
  | restart hrun =>
      cases h' with
      | restart hrun' => exact (Prod.mk.inj (hrun.symm.trans hrun')).2

theorem follows_store : Simulates HappensPrudently StoreStep Event.seen
    fun m a => ∃ s, Valid a s m m := by
  have hone : ∀ {m a e m'}, (∃ s, Valid a s m m) → HappensPrudently m e m' →
      ∃ a', (∃ s, Valid a' s m' m') ∧ (∀ l, e.seen = some l → StoreStep a l a') ∧
        (e.seen = none → a' = a) := by
    rintro m a e m' ⟨s, h⟩ ⟨hallowed, hstep⟩
    obtain ⟨s', a', m₂', hstep₂, h', hrest⟩ := happens_valid h hallowed hstep
    obtain rfl := happens_unique hstep hstep₂
    exact ⟨a', ⟨s', h'⟩, hrest⟩
  constructor
  · intro m a e l m' h hstep he
    obtain ⟨a', h', hseen, -⟩ := hone h hstep
    exact ⟨a', hseen l he, h'⟩
  · intro m a e m' h hstep he
    obtain ⟨a', h', -, hsame⟩ := hone h hstep
    exact hsame he ▸ h'

/-- Two machines that no call tells apart. -/
def Twin (m₁ m₂ : Machine Bytes Globals) : Prop := ∃ a s, Valid a s m₁ m₂

theorem twin_step {e : Event} (h : Twin m₁ m₂) (hstep : HappensPrudently m₁ e m₁') :
    ∃ m₂', Happens m₂ e m₂' ∧ Twin m₁' m₂' := by
  obtain ⟨a, s, h⟩ := h
  obtain ⟨s', a', m₂', hstep₂, h', -⟩ := happens_valid h hstep.1 hstep.2
  exact ⟨m₂', hstep₂, a', s', h'⟩

/-- The replies in every life of prudent calls are replies of the store. -/
theorem replies_of_store {es : List Event} (h : Formatted m)
    (hrun : Path HappensPrudently m es m') :
    ∃ a, Path StoreStep newStore (es.filterMap Event.seen) a ∧ Represents a (shown m') := by
  obtain ⟨a, hpath, s, hvalid⟩ := hrun.simulates follows_store (valid_of_formatted h)
  exact ⟨a, hpath, represents_shown hvalid.paired.realizes hvalid.consistent hvalid.represents⟩

theorem run_call {α : Type} {f : Fs α} {g : α → Reply} {r : α} (h : f.run m = (.ok r, m')) :
    (do let r ← f; return g r : Fs Reply).run m = (.ok (g r), m') := by
  rw [run_bind_ok h]
  rfl

theorem prudent_newName {mode : UInt32} : Prudent blankFormatted (.fopen nameA mode) := by
  have hfree : slot (shown blankFormatted) (shown blankFormatted).here 2 = none := by
    rw [← Option.isNone_iff_eq_none, blankFormatted_eq]
    decide +kernel
  exact ⟨⟨trivial, nameOk_singleton (by decide)⟩, fun _ => ⟨by decide, 2, by decide, hfree⟩⟩

theorem newFile_happens :
    HappensPrudently blankFormatted (.call (.fopen nameA oRdwr) (.code 0)) newFile :=
  ⟨prudent_newName, .call (run_call newFile_run)⟩

/-- A file with five bytes that are written back later, and a restart. -/
def firstBytes : List Event :=
  [.call (.fopen nameA oRdwr) (.code 0), .traffic (.setPolicy 0),
    .call (.fwrite 0 (fun _ => 55) 5) (.code 5), .traffic (.setPolicy (-1)), .restart]

theorem firstBytes_of_store : ∃ m a, Path HappensPrudently blankFormatted firstBytes m ∧
    Path StoreStep newStore (firstBytes.filterMap Event.seen) a ∧ Represents a (shown m) := by
  let m := ((Traffic.setPolicy 0).program.run newFile).2
  let m₁ := ((fsFwrite 0 (fun _ => 55) 5).run m).2
  let m₂ := ((Traffic.setPolicy (-1)).program.run m₁).2
  obtain ⟨hpolicy, hwritten, hptr, hback, hclean, hstarted⟩ :
      returned ((Traffic.setPolicy 0).program.run newFile).1 = some () ∧
        returned ((fsFwrite 0 (fun _ => 55) 5).run m).1 = some 5 ∧
        (objectOf m 0).map (fun file => file.filePtr) = some 0 ∧
        returned ((Traffic.setPolicy (-1)).program.run m₁).1 = some () ∧
        (∀ i < cacheSize, (m₂.cache.slots i).dirty = false) ∧
        returned (initFilesystem.run (poweredOn m₂)).1 = some true := by
    simp only [m₂, m₁, m, newFile_eq]
    decide +kernel
  have hwithin : Within (shown m) 0 5 := by
    intro file hfile
    obtain ⟨file', hfile', hzero⟩ := Option.map_eq_some_iff.mp hptr
    obtain rfl : file' = file := Option.some.inj (hfile'.symm.trans hfile)
    rw [hzero]
    decide
  have hrun : Path HappensPrudently blankFormatted firstBytes
      (initFilesystem.run (poweredOn m₂)).2 :=
    .cons newFile_happens (.cons ⟨trivial, .traffic (run_eq_of_returned hpolicy)⟩
      (.cons ⟨⟨⟨trivial, trivial⟩, hwithin⟩, .call (run_call (run_eq_of_returned hwritten))⟩
        (.cons ⟨trivial, .traffic (run_eq_of_returned hback)⟩
          (.single ⟨hclean, .restart (run_eq_of_returned hstarted)⟩))))
  obtain ⟨a, hpath, ha⟩ := replies_of_store formatted_blankFormatted hrun
  exact ⟨_, a, hrun, hpath, ha⟩

/-- The data blocks that nothing occupies. -/
def freeBlocks (m : Machine Bytes Globals) : Set Nat :=
  {x | 517 ≤ x ∧ x < maxBlockNum ∧ blockBit m x = false}

theorem freeBlocks_eq (h : Realizes m s) : freeBlocks m = unused s := by
  ext x
  refine and_congr_right fun _ => and_congr_right fun hlt => ?_
  rw [h.blockUsed x hlt]

/-- What free blocks hold makes no difference to prudent calls, cache traffic and
clean restarts that follow.  A read in a hole, for one, would show it. -/
theorem free_blocks_unseen {es es' : List Event} {m₀ : Machine Bytes Globals} (h : Formatted m₀)
    (hbefore : Path HappensPrudently m₀ es m₁)
    (halike : Alike (freeBlocks m₁) (freeBlocks m₁) m₁ m₂)
    (hrun : Path HappensPrudently m₁ es' m₁') :
    ∃ m₂', Path Happens m₂ es' m₂' ∧ m₂'.globals = m₁'.globals ∧
      Alike (freeBlocks m₁') (freeBlocks m₁') m₁' m₂' := by
  obtain ⟨a, -, s, hvalid⟩ := hbefore.simulates follows_store (valid_of_formatted h)
  have hrealizes := hvalid.paired.realizes
  rw [freeBlocks_eq hrealizes] at halike
  have hstart : Twin m₁ m₂ :=
    ⟨a, s, ⟨hrealizes, hvalid.paired.headed, halike⟩, hvalid.consistent, hvalid.represents,
      hvalid.calm⟩
  obtain ⟨m₂', hpath, a', s', h'⟩ := hrun.same twin_step hstart
  refine ⟨m₂', hpath, h'.paired.alike.globals.symm, ?_⟩
  rw [freeBlocks_eq h'.paired.realizes]
  exact h'.paired.alike

/-- The machine with other bytes in a block of the disk. -/
def scribbled (m : Machine Bytes Globals) (x : Nat) (d : Bytes) : Machine Bytes Globals :=
  { m with cache := { m.cache with disk := Function.update m.cache.disk (sector x) d } }

theorem alike_scribbled {x : Nat} (h : Sound m) (hx : x < maxBlockNum)
    (habsent : ∀ i < cacheSize, (m.cache.slots i).blockid ≠ x) (d : Bytes) :
    Alike {x} {x} m (scribbled m x d) := by
  have hc := h.coherent
  have hdisk : ∀ b < maxBlockNum, b ≠ x →
      (scribbled m x d).cache.disk (sector b) = m.cache.disk (sector b) := fun b hb hne =>
    Function.update_of_ne (fun heq => hne ((sector_inj hb hx).mp heq)) ..
  have hother : ∀ v : Nat → Bytes, ∀ i < cacheSize,
      Function.update v x d (m.cache.slots i).blockid = v (m.cache.slots i).blockid :=
    fun v i hi => Function.update_of_ne (habsent i hi) ..
  have htracked : Tracked (scribbled m x d) := ⟨{ h.aged with }, h.sector_lt, h.recycled⟩
  have hcoherent : Coherent (scribbled m x d).cache (Function.update (visible m) x d)
      (Function.update (settled m) x d) := by
    refine ⟨hc.unique, fun i hi hid => ?_, hc.dirty_lt, fun i hi hd => ?_,
      fun i hi hid hd => ?_, fun b hb hout => ?_⟩
    · exact (hc.data_eq i hi hid).trans (hother (visible m) i hi).symm
    · exact (hother (settled m) i hi).trans
        ((hc.dirty_settled i hi hd).trans (hother (visible m) i hi).symm)
    · exact (hdisk _ hid (habsent i hi)).trans
        ((hc.clean_settled i hi hid hd).trans (hother (settled m) i hi).symm)
    · rcases eq_or_ne b x with rfl | hne
      · rw [Function.update_self, Function.update_self]
        exact ⟨Function.update_self .., rfl⟩
      · rw [Function.update_of_ne hne, Function.update_of_ne hne, hdisk b hb hne]
        exact hc.absent b hb hout
  refine ⟨h, sound_of_coherent htracked hcoherent h.strayed, rfl,
    ⟨rfl, rfl, rfl, rfl, fun _ _ => ⟨rfl, rfl, rfl⟩⟩, fun b hb hne => ?_, fun b hb hne => ?_⟩
  · rw [(visible_eq_of_coherent hcoherent hb).1, Function.update_of_ne hne]
  · rw [(visible_eq_of_coherent hcoherent hb).2, Function.update_of_ne hne]

theorem scribbled_unseen : ∃ m' m₂',
    Path HappensPrudently newFile [.call (.fwrite 0 (fun _ => 55) 5) (.code 5)] m' ∧
      Path Happens (scribbled newFile 518 fun _ => 7)
        [.call (.fwrite 0 (fun _ => 55) 5) (.code 5)] m₂' ∧
      m₂'.globals = m'.globals := by
  obtain ⟨hfree, habsent, hwritten⟩ : blockBit newFile 518 = false ∧
      (∀ i < cacheSize, (newFile.cache.slots i).blockid ≠ 518) ∧
      returned ((fsFwrite 0 (fun _ => 55) 5).run newFile).1 = some 5 := by
    rw [newFile_eq]
    decide +kernel
  have hmem : ({518} : Set Nat) ⊆ freeBlocks newFile := by
    rintro x rfl
    exact ⟨by decide, by decide, hfree⟩
  have hwithin : Within (shown newFile) 0 5 := by
    intro file hfile
    obtain ⟨file', hfiles, -, -, hzero, -⟩ := newFile_file
    have hsame : (shown newFile).files = [some file'] := hfiles
    rw [hsame] at hfile
    obtain rfl : file' = file := Option.some.inj hfile
    rw [hzero]
    decide
  have hrun : Path HappensPrudently newFile [.call (.fwrite 0 (fun _ => 55) 5) (.code 5)] _ :=
    .single ⟨⟨⟨trivial, trivial⟩, hwithin⟩, .call (run_call (run_eq_of_returned hwritten))⟩
  obtain ⟨m₂', hpath, hg, -⟩ := free_blocks_unseen formatted_blankFormatted
    (.single newFile_happens)
    ((alike_scribbled newFile_ready.sound (by decide) habsent fun _ => 7).mono hmem hmem) hrun
  exact ⟨_, m₂', hrun, hpath, hg⟩

/-- With nothing left to write back, a restart finds the file system as it was. -/
theorem restart_finds_all {es : List Event} (h : Formatted m)
    (hrun : Path HappensPrudently m es m₁) (hclean : Clean m₁) :
    ∃ m₂, Restarts m₁ m₂ ∧ m₂.globals.superblock = m₁.globals.superblock ∧
      m₂.globals.cwdNode = 0 ∧ m₂.globals.files = [] ∧
      ∀ x < maxBlockNum, visible m₂ x = visible m₁ x ∧ Settled m₂ x := by
  obtain ⟨a, -, s, hvalid⟩ := hrun.simulates follows_store (valid_of_formatted h)
  obtain ⟨m₂, n, hrestarts, -, hstarted, hvalid'⟩ := restarts_valid hvalid hclean
  refine ⟨m₂, hrestarts, hstarted.superblock, ?_, hstarted.files, fun x hx => ?_⟩
  · exact hvalid'.paired.realizes.cwd
  · exact ⟨hstarted.visible_eq x hx, hstarted.calm.settled x hx (Set.notMem_empty x)⟩

theorem newFile_found : ∃ m₂, Restarts newFile m₂ ∧
    m₂.globals.superblock = newFile.globals.superblock ∧ m₂.globals.cwdNode = 0 ∧
    m₂.globals.files = [] ∧
    ∀ x < maxBlockNum, visible m₂ x = visible newFile x ∧ Settled m₂ x := by
  have hclean : ∀ i < cacheSize, (newFile.cache.slots i).dirty = false := by
    rw [newFile_eq]
    decide +kernel
  exact restart_finds_all formatted_blankFormatted (.single newFile_happens) hclean

end LabKernel.Lifetimes
