import LabKernel.CacheTraffic
import LabKernel.StoreRefinement

/-!
One call of the file system, or other traffic in its cache, on two machines
that differ in free blocks: the reply is the one of the store that the tables
represent.
-/

namespace LabKernel.StoreRuns

open LabKernel.BlockCache
open LabKernel.BlockFreeing
open LabKernel.BlockObject
open LabKernel.BlockOwnership
open LabKernel.BlockPairs
open LabKernel.ByteMemory
open LabKernel.CacheTraffic
open LabKernel.CallPairs
open LabKernel.CallSafety
open LabKernel.CalmMachines
open LabKernel.DirectTransfers
open LabKernel.Directories
open LabKernel.DirectoryCalls
open LabKernel.DirectorySizes
open LabKernel.FileContents
open LabKernel.FileStore
open LabKernel.Formatting
open LabKernel.FsCode
open LabKernel.FsLayout
open LabKernel.FsPairs
open LabKernel.FsPrimitives
open LabKernel.FsRuns
open LabKernel.FsTables
open LabKernel.FsView
open LabKernel.HandleSafety
open LabKernel.InertReads
open LabKernel.PairedRuns
open LabKernel.PrintingCalls
open LabKernel.ProgramLogic
open LabKernel.StoreRefinement
open LabKernel.SuperBlockCopy
open LabKernel.TidyCalls
open LabKernel.TidyDisk
open LabKernel.TidyRuns

variable {m m' m₁ m₂ m₁' m₂' : Machine Bytes Globals} {s s' : FsState} {a : Store} {op : FsOp}
  {path : Name} {k : Nat} {reply : Reply} {t : Traffic} {p : UInt32}

/-- There is room in a directory for the names that a call creates, the names
it removes are not those that every directory has, and no position passes
`2 ^ 32`. -/
def Fitting (m : Machine Bytes Globals) : FsOp → Prop
  | .mkdir path => Roomy (shown m) path
  | .touch path => Roomy (shown m) path
  | .fopen path _ => Roomy (shown m) path
  | .ln srcPath dstPath => ∀ e, lookup (shown m) (shown m).here srcPath = some e →
      Roomy (shown m) dstPath
  | .rm path => RemovalCounts (shown m) path 2
  | .rmdir path => RemovalCounts (shown m) path 1
  | .fwrite fd _ length => Within (shown m) fd length
  | _ => True

/-- The condition on a call. -/
def Prudent (m : Machine Bytes Globals) (op : FsOp) : Prop := Careful m op ∧ Fitting m op

/-- The root directory alone. -/
def newStore : Store where
  cwd := 0
  kind k := if k = 0 then some .directory else none
  entry _ := Store.ownNames 0 0
  bytes _ _ := 0
  size _ := 0
  handles := []

theorem live_initial (h : Initial s p) : Live s k ↔ k = 0 := by
  unfold Live
  rw [h.inodeUsed, decide_eq_true_iff]
  exact and_iff_right_of_imp fun hzero => hzero ▸ (by decide)

theorem inode_initial (h : Initial s p) : s.inode 0 = rootInode p := by
  rw [← h.here, FsState.here, h.cwd]
  rfl

theorem lookup_initial (h : Initial s p) (name : Name) :
    (lookup s (s.inode 0) name).map (fun e => e.inode.toNat) = Store.ownNames 0 0 name := by
  have hslot : ∀ q, slot s (s.inode 0) q =
      if q = 0 then some ⟨0, 1, dot⟩ else if q = 1 then some ⟨0, 1, dotDot⟩ else none := by
    intro q
    rw [← h.slot_eq, h.here, inode_initial h]
  have hdots : dotDot ≠ dot := by decide
  unfold Store.ownNames
  split
  next hdot =>
    have hfinds : Finds s (s.inode 0) name 0 1024 0 ⟨0, 1, dot⟩ :=
      ⟨le_refl _, by decide, hslot 0, hdot.symm, fun q' _ hlt => absurd hlt (Nat.not_lt_zero _)⟩
    rw [lookup_of_finds hfinds]
    rfl
  next hdot =>
    split
    next hdotDot =>
      have hfinds : Finds s (s.inode 0) name 0 1024 1 ⟨0, 1, dotDot⟩ := by
        refine ⟨Nat.zero_le _, by decide, hslot 1, hdotDot.symm, fun q' _ hlt e he hname => ?_⟩
        rw [Nat.lt_one_iff.mp hlt, hslot] at he
        cases he
        exact hdot hname.symm
      rw [lookup_of_finds hfinds]
      rfl
    next hdotDot =>
      rw [lookup_of_misses, Option.map_none]
      intro q _ _ e he hname
      rw [hslot] at he
      split at he
      next =>
        cases he
        exact hdot hname.symm
      next =>
        split at he
        next =>
          cases he
          exact hdotDot hname.symm
        next => cases he

theorem represents_initial (h : Initial s p) : Represents newStore s := by
  have hfile : ∀ k, Live s k → (s.inode k).type ≠ 2 := by
    intro k hk
    rw [(live_initial h).mp hk, inode_initial h]
    exact show ¬(1 : UInt8) = 2 by decide
  refine ⟨by rw [h.cwd]; rfl, fun k => ?_, fun k hk name => ?_, fun k hk htype => ?_,
    fun k hk htype => ?_, by rw [h.files]; rfl⟩
  · unfold newStore kindOf
    rcases eq_or_ne k 0 with rfl | hne
    · rw [if_pos ((live_initial h).mpr rfl), inode_initial h]
      rfl
    · rw [if_neg fun hk => hne ((live_initial h).mp hk)]
      exact if_neg hne
  · rw [(live_initial h).mp hk.1]
    exact (lookup_initial h name).symm
  · exact absurd htype (hfile k hk)
  · exact absurd htype (hfile k hk)

theorem consistent_of_formatted (h : Formatted m) :
    ∃ s, Realizes m s ∧ Consistent s ∧ Represents newStore s := by
  obtain ⟨s, p, hs, hinitial⟩ := formatted_realizes h
  refine ⟨s, hs, ⟨inOrder_initial hinitial, sized_initial hinitial, fun k hk => ?_, ?_⟩,
    represents_initial hinitial⟩
  · have hhere : s.inode k = s.here := by
      rw [(live_initial hinitial).mp hk, FsState.here, hinitial.cwd]
      rfl
    exact hhere ▸ hinitial.standing.hasBlocks
  · rw [hinitial.files]
    exact fun file hmem => absurd hmem List.not_mem_nil

theorem roomy_of_shown (h : Realizes m s) (ht : Tidy s) (hroomy : Roomy (shown m) path) :
    Roomy s path := by
  unfold Roomy at hroomy
  simp only [slot_here_shown h ht, lookup_shown h ht] at hroomy
  exact hroomy

theorem represents_shown (h : Realizes m s) (hc : Consistent s) (ha : Represents a s) :
    Represents a (shown m) := by
  have ht := hc.inOrder.tidy
  have hcwd : (shown m).cwd = s.cwd := h.cwd
  have hfiles : (shown m).files = s.files := h.files
  have hlive : ∀ k, Live (shown m) k ↔ Live s k := fun k => live_shown h
  refine ⟨by rw [hcwd, ha.cwd], fun k => ?_, fun k hk name => ?_, fun k hk htype o ho => ?_,
    fun k hk htype => ?_, by rw [hfiles, ha.handles]⟩
  · rw [ha.kind]
    exact (kindOf_congr (hlive k) fun hk => by rw [inode_shown h hk]).symm
  · have hdir := (dir_shown h).mp hk
    rw [ha.entry k hdir, lookup_dir_shown h ht hdir]
  · have hk' := (hlive k).mp hk
    rw [inode_shown h hk'] at htype ⊢
    rw [ha.bytes k hk' htype o ho]
    refine (congrFun (contentsOf_congr (fun _ => rfl) fun i hi => ?_) o).symm
    obtain ⟨hdata, d, hd⟩ := hc.backed k hk' i hi
    rw [hd]
    exact congrArg some (h.data _ hdata.1 hdata.2 d hd).1
  · have hk' := (hlive k).mp hk
    rw [inode_shown h hk'] at htype ⊢
    exact ha.size k hk' htype

/-- What a call leaves on two machines, and what the store makes of it. -/
def Follows (a : Store) (op : FsOp) (reply : Reply) (m₁ m₂ : Machine Bytes Globals) : Prop :=
  ∃ s, Paired s m₁ m₂ ∧ Consistent s ∧ ∃ a', Step a op reply a' ∧ Represents a' s

theorem backed_of_consistent (hc : Consistent s) : Backed s := fun file hmem =>
  hc.backed _ (hc.inOrder.tidy.files file hmem).1

theorem together_reply {α : Type} {f : Fs α} {g : α → Reply}
    {Q : α → Machine Bytes Globals → Machine Bytes Globals → Prop}
    (h : Together f m₁ m₂ Q)
    (hstep : ∀ r m₁' m₂', Q r m₁' m₂' → Follows a op (g r) m₁' m₂') :
    Together (do let r ← f; return g r) m₁ m₂ fun reply => Follows a op reply :=
  h.bind fun r m₁' m₂' hq => together_pure (hstep r m₁' m₂' hq)

theorem call_together (h : Paired s m₁ m₂) (hcalm : Calm ∅ m₁) (hc : Consistent s)
    (ha : Represents a s) (hok : Prudent m₁ op) :
    Together (call op) m₁ m₂ fun reply => Follows a op reply := by
  obtain ⟨⟨hrestrained, hnames⟩, hfitting⟩ := hok
  have hrealizes := h.realizes
  have ho := hc.inOrder
  have ht := ho.tidy
  have hroomy : ∀ {path}, Roomy (shown m₁) path → Roomy s path :=
    fun hpath => roomy_of_shown hrealizes ht hpath
  have hfiles : m₁.globals.files = s.files := hrealizes.files
  have hobject : ∀ fd, objectOf m₁ fd = (s.files[fd]?).join := fun fd => by
    rw [objectOf, hfiles]
  cases op with
  | mkfs => exact hnames.elim
  | statfs =>
      refine together_reply (fsStatfs_paired h) ?_
      rintro _ _ _ ⟨rfl, h'⟩
      exact ⟨s, h', hc, a, .statfs, ha⟩
  | cd path =>
      refine together_reply (fsCd_paired h ht) ?_
      rintro r _ _ ⟨s', h', hdone⟩
      exact ⟨s', h', cd_step hc ha hdone⟩
  | ls path option =>
      refine together_reply (fsLs_paired h ht hrestrained) ?_
      rintro _ _ _ ⟨rfl, h'⟩
      exact ⟨s, h', hc, a, ls_step hc ha option, ha⟩
  | mkdir path =>
      refine together_reply (fsMkdir_paired h ho hnames) ?_
      rintro r _ _ ⟨s', h', hdone⟩
      exact ⟨s', h', mkdir_step hc ha hdone (hroomy hfitting)⟩
  | touch path =>
      refine together_reply (fsTouch_paired h ho hnames) ?_
      rintro r _ _ ⟨s', h', hdone⟩
      exact ⟨s', h', touch_step hc ha hdone (hroomy hfitting)⟩
  | rm path =>
      have hok := removeOk_of_shown hrealizes ht hnames
      refine together_reply (fsRm_paired h ho hrestrained hok) ?_
      rintro r _ _ ⟨s', h', hdone⟩
      exact ⟨s', h', rm_step hc ha hdone hok (removalCounts_of_shown hrealizes ht hfitting)⟩
  | rmdir path =>
      have hok := removeOk_of_shown hrealizes ht hnames
      refine together_reply (fsRmdir_paired h ho hrestrained hok) ?_
      rintro r _ _ ⟨s', h', hdone⟩
      exact ⟨s', h', rmdir_step hc ha hdone hok (removalCounts_of_shown hrealizes ht hfitting)⟩
  | ln srcPath dstPath =>
      refine together_reply (fsLn_paired h ht hnames.1) ?_
      rintro r _ _ ⟨s', h', hdone⟩
      refine ⟨s', h', ln_step hc ha hdone (linkOk_of_shown hrealizes ht hnames.2) fun e he => ?_⟩
      exact hroomy (hfitting e (by rw [lookup_shown hrealizes ht, he]))
  | cat path =>
      refine together_reply (fsCat_paired h hcalm ht hc.backed hrestrained) ?_
      rintro r _ _ ⟨hdone, h'⟩
      exact ⟨s, h', hc, a, cat_step hc ha hdone, ha⟩
  | fopen path mode =>
      refine together_reply (fsFopen_paired h ho hnames) ?_
      rintro r _ _ ⟨s', h', hdone⟩
      exact ⟨s', h', fopen_step hc ha hdone (hroomy hfitting)⟩
  | fread fd buff length =>
      refine together_reply (fsFread_paired h hcalm ho (backed_of_consistent hc)
        fun file hfile => hrestrained file (by rw [hobject, hfile])) ?_
      rintro r _ _ ⟨s', h', hdone⟩
      exact ⟨s', h', fread_step hc ha hdone⟩
  | fwrite fd buff length =>
      refine together_reply (fsFwrite_paired h ho (backed_of_consistent hc)
        fun file hfile => hfitting file ?_) ?_
      · have hsame : (shown m₁).files = s.files := hfiles
        rw [hsame, hfile]
      · rintro r _ _ ⟨s', h', hdone⟩
        exact ⟨s', h', fwrite_step hc ha hdone⟩
  | lseek fd offset whence =>
      refine together_reply (fsLseek_paired h) ?_
      rintro r _ _ ⟨s', h', hdone⟩
      exact ⟨s', h', lseek_step hc ha hdone⟩
  | fclose fd =>
      refine together_reply (fsFclose_paired h) ?_
      rintro _ _ _ ⟨rfl, h'⟩
      exact ⟨_, h', fclose_step hc ha fd⟩

/-- Two machines with the same tables, which represent the store. -/
structure Valid (a : Store) (s : FsState) (m₁ m₂ : Machine Bytes Globals) : Prop where
  paired : Paired s m₁ m₂
  consistent : Consistent s
  represents : Represents a s
  calm : Calm ∅ m₁

theorem paired_self (h : Realizes m s) (hh : Headed m) : Paired s m m :=
  ⟨h, hh, h.ready.sound, h.ready.sound, rfl, ⟨rfl, rfl, rfl, rfl, fun _ _ => ⟨rfl, rfl, rfl⟩⟩,
    fun _ _ _ => rfl, fun _ _ _ => rfl⟩

theorem valid_of_formatted (h : Formatted m) : ∃ s, Valid newStore s m m := by
  obtain ⟨s, hs, hc, ha⟩ := consistent_of_formatted h
  exact ⟨s, paired_self hs (headed_of_formatted h), hc, ha,
    (within_of_formatted h).calm hs.ready.sound.strayed⟩

theorem run_of_reply {α : Type} {f : Fs α} {g : α → Reply}
    (h : (do let r ← f; return g r : Fs Reply).run m = (.ok reply, m')) :
    (do let _ ← f : Fs Unit).run m = (.ok (), m') := by
  rw [run_bind] at h ⊢
  cases hrun : f.run m with
  | mk result m₁ =>
      rw [hrun] at h
      cases result with
      | error e => cases h
      | ok r =>
          cases h
          rfl

theorem next_of_call (h : (call op).run m = (.ok reply, m')) : next m op = some m' := by
  have hrun : op.program.run m = (.ok (), m') := by
    cases op with
    | mkfs | statfs | cd | ls | mkdir | touch | rm | rmdir | ln | cat | fopen | fread | fwrite
    | lseek | fclose => exact run_of_reply h
  unfold next
  rw [hrun]

theorem valid_call (h : Valid a s m₁ m₂) (hok : Prudent m₁ op)
    (hrun : (call op).run m₁ = (.ok reply, m₁')) :
    ∃ s' a' m₂', (call op).run m₂ = (.ok reply, m₂') ∧ Step a op reply a' ∧
      Valid a' s' m₁' m₂' := by
  obtain ⟨m₂', hrun₂, s', h', hc', a', hstep, ha'⟩ :=
    (call_together h.paired h.calm h.consistent h.represents hok).ok hrun
  have hwithin := within_next (.inl h.calm) hok.1.1 (next_of_call hrun)
  exact ⟨s', a', m₂', hrun₂, hstep, h', hc', ha', hwithin.calm h'.realizes.ready.sound.strayed⟩

theorem valid_traffic (h : Valid a s m₁ m₂) (hrun : t.program.run m₁ = (.ok (), m₁')) :
    ∃ m₂', t.program.run m₂ = (.ok (), m₂') ∧ Valid a s m₁' m₂' := by
  obtain ⟨m₂', hrun₂, halike⟩ := (together_traffic h.paired.alike t).ok hrun
  obtain ⟨⟨T, hev⟩, hg⟩ := (runs_traffic h.paired.realizes.ready.sound t).ok hrun
  exact ⟨m₂', hrun₂,
    ⟨h.paired.realizes.idle hev hg, h.paired.headed.idle h.paired.realizes hev hg, halike⟩,
    h.consistent, h.represents,
    h.calm.idle hev (congrArg Globals.superblock hg)⟩

end LabKernel.StoreRuns
