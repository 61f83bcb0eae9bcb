import LabKernel.TidyCalls

/-!
The file system stays in order: the calls considered, and the whole run.
-/

namespace LabKernel.TidyRuns

open LabKernel.BlockCache
open LabKernel.BlockFreeing
open LabKernel.BlockObject
open LabKernel.BlockOwnership
open LabKernel.ByteMemory
open LabKernel.DirectData
open LabKernel.Directories
open LabKernel.DirectoryCalls
open LabKernel.FileWrites
open LabKernel.Formatting
open LabKernel.FsCode
open LabKernel.FsLayout
open LabKernel.FsPrimitives
open LabKernel.FsRuns
open LabKernel.FsTables
open LabKernel.FsView
open LabKernel.HandleRecycling
open LabKernel.InertReads
open LabKernel.PathWalks
open LabKernel.ProgramLogic
open LabKernel.TidyCalls
open LabKernel.TidyDisk
open LabKernel.TransitionSystem

variable {m m' : Machine Bytes Globals} {s : FsState}
  {path srcPath dstPath : List UInt8} {k q : Nat} {e : DirEntry} {type : UInt8}

theorem inOrder_initial {p : UInt32} (h : Initial s p) : InOrder s := by
  have honly : ∀ k, Live s k → k = 0 := fun k hk => by
    have hused := hk.2
    rw [h.inodeUsed] at hused
    exact of_decide_eq_true hused
  have hroot : Live s 0 := ⟨by decide, (h.inodeUsed 0).trans rfl⟩
  have hcwd : s.cwd.toNat = 0 := by
    rw [h.cwd]
    rfl
  have hhere : s.inode 0 = s.here := by rw [FsState.here, hcwd]
  have htype : (s.inode 0).type = 1 := hhere ▸ h.standing.type
  have hentry : ∀ q e, slot s s.here q = some e →
      e.inode = 0 ∧ (q = 0 ∧ e.name = dot ∨ q = 1 ∧ e.name = dotDot) := by
    intro q e he
    rw [h.slot_eq] at he
    split at he
    next hq =>
      cases he
      exact ⟨rfl, Or.inl ⟨hq, rfl⟩⟩
    next =>
      split at he
      next hq =>
        cases he
        exact ⟨rfl, Or.inr ⟨hq, rfl⟩⟩
      next => cases he
  have hdots : dot ≠ dotDot := by decide
  refine ⟨⟨h.standing.owned, ⟨hroot, htype⟩, ?_, fun k hk => ?_, ?_, ?_⟩, fun k hk => ?_⟩
  · rw [hcwd]
    exact ⟨hroot, htype⟩
  · rw [honly k hk.1]
    refine ⟨hhere ▸ h.standing.hasBlocks, fun q e he => ?_, fun q q' e e' he he' hname => ?_⟩
    · rw [hhere] at he
      rw [(hentry q e he).1]
      exact hroot
    · rw [hhere] at he he'
      rcases (hentry q e he).2 with ⟨rfl, hn⟩ | ⟨rfl, hn⟩
      · rcases (hentry q' e' he').2 with ⟨rfl, -⟩ | ⟨-, hn'⟩
        · rfl
        · exact absurd (hn.symm.trans (hname.trans hn')) hdots
      · rcases (hentry q' e' he').2 with ⟨-, hn'⟩ | ⟨rfl, -⟩
        · exact absurd (hn'.symm.trans (hname.symm.trans hn)) hdots
        · rfl
  · rw [h.files]
    exact fun _ hfile => absurd hfile List.not_mem_nil
  · rw [h.files]
    intro i j file file' hfile
    rw [List.getElem?_nil] at hfile
    cases hfile
  · rw [honly k hk]
    exact Or.inl htype

theorem inode_shown (h : Realizes m s) (hk : Live s k) : (shown m).inode k = s.inode k :=
  h.inode k hk.1

theorem dir_shown (h : Realizes m s) : Dir (shown m) k ↔ Dir s k := by
  unfold Dir
  rw [live_shown h]
  refine and_congr_right fun hk => ?_
  rw [inode_shown h hk]

theorem slot_dir_shown (h : Realizes m s) (ht : Tidy s) (hk : Dir s k) (q : Nat) :
    slot (shown m) ((shown m).inode k) q = slot s (s.inode k) q := by
  rw [inode_shown h hk.1]
  exact slot_shown h (ht.folder k hk).hasBlocks q

theorem lookup_dir_shown (h : Realizes m s) (ht : Tidy s) (hk : Dir s k) (path : List UInt8) :
    lookup (shown m) ((shown m).inode k) path = lookup s (s.inode k) path :=
  lookup_congr (slot_dir_shown h ht hk)

theorem lookup_shown (h : Realizes m s) (ht : Tidy s) (path : List UInt8) :
    lookup (shown m) (shown m).here path = lookup s s.here path := by
  have hcwd : (shown m).cwd = s.cwd := h.cwd
  rw [FsState.here, hcwd]
  exact lookup_dir_shown h ht ht.cwd path

theorem linkOk_of_shown (h : Realizes m s) (ht : Tidy s)
    (hok : LinkOk (shown m) srcPath dstPath) : LinkOk s srcPath dstPath := by
  unfold LinkOk at hok
  rw [lookup_shown h ht, lookup_shown h ht] at hok
  exact hok

theorem removeOk_of_shown (h : Realizes m s) (ht : Tidy s) (hok : RemoveOk (shown m) path type) :
    RemoveOk s path type := by
  have hcwd : (shown m).cwd = s.cwd := h.cwd
  have hfiles : (shown m).files = s.files := h.files
  unfold RemoveOk at hok
  rw [lookup_shown h ht, hcwd] at hok
  intro e he htype hsize
  have hone := hok e he
  rw [inode_shown h (live_of_lookup ht he)] at hone
  obtain ⟨hroot, hne, hlast⟩ := hone htype hsize
  refine ⟨hroot, hne, fun hlink => ?_⟩
  obtain ⟨hnames, hopen⟩ := hlast hlink
  rw [hfiles] at hopen
  refine ⟨fun k' hk' hk q e' he' heq => ?_, hopen⟩
  have hname := hnames k' ((dir_shown h).mpr hk') hk q e' (by rw [slot_dir_shown h ht hk', he']) heq
  rwa [hcwd] at hname

/-- Names that are created fit into an entry, the root directory gets no other
name, and an inode is given back with its last name only. -/
def NamesOk (m : Machine Bytes Globals) : FsOp → Prop
  | .mkfs => False
  | .mkdir path => NameOk path
  | .touch path => NameOk path
  | .fopen path _ => NameOk path
  | .ln srcPath dstPath => NameOk dstPath ∧ LinkOk (shown m) srcPath dstPath
  | .rm path => RemoveOk (shown m) path 2
  | .rmdir path => RemoveOk (shown m) path 1
  | _ => True

/-- `fs_fread` and `fs_cat` read the direct part of files, and the blocks that a
call works on at a time fit into the cache. -/
def Shallow (m : Machine Bytes Globals) : FsOp → Prop
  | .fread fd _ length => ∀ file, objectOf m fd = some file → Direct false file length
  | .cat path => ∀ n m₁, (catPrefix path).run m = (.ok (some n), m₁) → n.size.toNat ≤ l0Bound
  | op => Fits m op

/-- The condition on a call. -/
def Tended (m : Machine Bytes Globals) (op : FsOp) : Prop := Shallow m op ∧ NamesOk m op

/-- The condition on a call in runs where the reads allocate nothing. -/
def Careful (m : Machine Bytes Globals) (op : FsOp) : Prop := Restrained m op ∧ NamesOk m op

theorem tended_of_careful {op : FsOp} (h : Careful m op) : Tended m op := by
  obtain ⟨hrestrained, hnames⟩ := h
  refine ⟨?_, hnames⟩
  cases op with
  | fread fd buff length =>
      intro file hfile _
      refine (hrestrained file hfile).imp id fun hread => hread.imp id ?_
      exact fun hplace => hplace.2
  | cat path => exact fun n m₁ hrun => (hrestrained n m₁ hrun).2
  | mkfs | statfs | cd | ls | mkdir | touch | rm | rmdir | ln | fopen | fwrite | lseek | fclose =>
      exact hrestrained

/-- What a call leaves, in terms of the tables before it. -/
def Left (s : FsState) (m' : Machine Bytes Globals) : FsOp → Prop
  | .mkfs => False
  | .mkdir path => ∃ r s', Realizes m' s' ∧ MadeDir s path r s'
  | .touch path => ∃ s', Realizes m' s' ∧ Touched s path s'
  | .fopen path _ => ∃ s', Touched s path s' ∧ Quiet s' m'
  | .ln srcPath dstPath => ∃ r s', Realizes m' s' ∧ LinkDone s srcPath dstPath r s'
  | .rm path => ∃ s', Realizes m' s' ∧ Removed s path 2 s'
  | .rmdir path => ∃ s', Realizes m' s' ∧ Removed s path 1 s'
  | _ => Quiet s m'

theorem left_of_next {op : FsOp} (h : Realizes m s) (ho : InOrder s) (hok : Tended m op)
    (hnext : next m op = some m') : Left s m' op := by
  obtain ⟨hshallow, hnames⟩ := hok
  have hrun := program_run_of_next hnext
  have hcall : ∀ {α : Type} {E : Failure → Machine Bytes Globals → Prop} {p : Fs α}
      {Q : α → Machine Bytes Globals → Prop}, op.program = (do let _ ← p) →
      Runs p m E Q → ∃ a, Q a m' := by
    intro α E p Q hp hruns
    rw [hp] at hrun
    exact Runs.ok (Q := fun _ m' => ∃ a, Q a m') (hruns.bind fun a _ hq => runs_pure ⟨a, hq⟩) hrun
  have hquiet : ∀ {α : Type} {E : Failure → Machine Bytes Globals → Prop} {p : Fs α},
      op.program = (do let _ ← p) → Runs p m E (fun _ m' => Quiet s m') → Quiet s m' :=
    fun hp hruns => (hcall hp hruns).elim fun _ hq => hq
  have hsame : ∀ {α : Type} {E : Failure → Machine Bytes Globals → Prop} {p : Fs α},
      op.program = (do let _ ← p) → Runs p m E (fun _ m' => Realizes m' s) → Quiet s m' :=
    fun hp hruns => (hcall hp hruns).elim fun _ hq => quiet_of_realizes ho hq
  cases op with
  | mkfs => exact hnames.elim
  | statfs => exact hsame (E := Full) rfl (fsStatfs_realizes h)
  | cd path => exact hquiet rfl (fsCd_quiet h ho)
  | ls path option => exact hsame rfl (fsLs_realizes h ho.tidy hshallow)
  | mkdir path => exact hcall rfl (fsMkdir_made h ho hnames)
  | touch path => exact (hcall rfl (fsTouch_touched h ho hnames)).elim fun _ hq => hq
  | rm path =>
      have hok := removeOk_of_shown h ho.tidy hnames
      exact (hcall rfl (fsRm_removed h ho hshallow hok)).elim fun _ hq => hq
  | rmdir path =>
      have hok := removeOk_of_shown h ho.tidy hnames
      exact (hcall rfl (fsRmdir_removed h ho hshallow hok)).elim fun _ hq => hq
  | ln srcPath dstPath => exact hcall rfl (fsLn_done h ho.tidy hnames.1)
  | cat path => exact hquiet rfl (fsCat_quiet h ho hshallow)
  | fopen path mode => exact (hcall rfl (fsFopen_touched h ho hnames)).elim fun _ hq => hq
  | fread fd buff length => exact hquiet rfl (fsFread_quiet h ho hshallow)
  | fwrite fd buff length => exact hquiet rfl (fsFwrite_quiet h ho)
  | lseek fd offset whence => exact hquiet (E := Full) rfl (fsLseek_quiet h ho)
  | fclose fd => exact hquiet (E := Full) rfl (fsFclose_quiet h ho)

/-- The disk is in order. -/
def Ordered (m : Machine Bytes Globals) : Prop := ∃ s, Realizes m s ∧ InOrder s

theorem Left.ordered {op : FsOp} (hleft : Left s m' op) (h : Realizes m s) (ho : InOrder s)
    (hok : NamesOk m op) : Ordered m' := by
  cases op with
  | mkfs => exact hok.elim
  | mkdir path =>
      obtain ⟨r, s', h', hmade⟩ := hleft
      exact ⟨s', h', hmade.inOrder ho⟩
  | touch path =>
      obtain ⟨s', h', htouched⟩ := hleft
      exact ⟨s', h', htouched.inOrder ho⟩
  | fopen path mode =>
      obtain ⟨s₁, -, s', h', ho', -⟩ := hleft
      exact ⟨s', h', ho'⟩
  | ln srcPath dstPath =>
      obtain ⟨r, s', h', hdone⟩ := hleft
      exact ⟨s', h', hdone.inOrder ho (linkOk_of_shown h ho.tidy hok.2)⟩
  | rm path =>
      obtain ⟨s', h', hremoved⟩ := hleft
      exact ⟨s', h', hremoved.inOrder ho (removeOk_of_shown h ho.tidy hok)⟩
  | rmdir path =>
      obtain ⟨s', h', hremoved⟩ := hleft
      exact ⟨s', h', hremoved.inOrder ho (removeOk_of_shown h ho.tidy hok)⟩
  | statfs | cd | ls | cat | fread | fwrite | lseek | fclose =>
      obtain ⟨s', h', ho', -⟩ := hleft
      exact ⟨s', h', ho'⟩

theorem ordered_of_formatted (h : Formatted m) : Ordered m := by
  obtain ⟨s, p, hrealizes, hinitial⟩ := formatted_realizes h
  exact ⟨s, hrealizes, inOrder_initial hinitial⟩

/-- In every run of tended calls the disk is in order. -/
theorem ordered_of_tended (h : ReachableUnder fileSystem Tended m) : Ordered m := by
  refine h.invariant (P := Ordered) (fun _ => ordered_of_formatted) ?_
  rintro m op m' ⟨s, hs, ho⟩ hok hstep
  exact (left_of_next hs ho hok hstep).ordered hs ho hok.2

theorem walkable_of_tended (h : ReachableUnder fileSystem Tended m) (path : List UInt8) :
    ∃ s, Realizes m s ∧ Tidy s ∧ Walkable s s.cwd (pieces path) := by
  obtain ⟨s, hs, ho⟩ := ordered_of_tended h
  exact ⟨s, hs, ho.tidy, walkable ho.tidy ho.tidy.cwd _⟩

theorem nameOk_singleton {c : UInt8} (hc : c ≠ 0) : NameOk [c] :=
  ⟨show 1 < nameSize by decide, fun x hx => by rwa [List.mem_singleton.mp hx]⟩

end LabKernel.TidyRuns
