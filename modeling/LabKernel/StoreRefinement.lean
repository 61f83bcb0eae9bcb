import LabKernel.DirectorySizes
import LabKernel.FileStore
import LabKernel.NameInsertion
import LabKernel.PrintingCalls

/-!
The tables of the file system as a store: what each call leaves of the tables
is a step of the store that they represent.
-/

namespace LabKernel.StoreRefinement

open LabKernel.BlockCache
open LabKernel.BlockFreeing
open LabKernel.BlockOwnership
open LabKernel.ByteMemory
open LabKernel.CallPairs
open LabKernel.DirectData
open LabKernel.DirectTransfers
open LabKernel.Directories
open LabKernel.DirectoryCalls
open LabKernel.DirectorySizes
open LabKernel.FileContents
open LabKernel.FileStore
open LabKernel.FsCode
open LabKernel.FsLayout
open LabKernel.FsRuns
open LabKernel.FsTables
open LabKernel.FsView
open LabKernel.NameInsertion
open LabKernel.PairedWrites
open LabKernel.PathWalks
open LabKernel.PrintingCalls
open LabKernel.TidyCalls
open LabKernel.TidyDisk

variable {s s' s₀ s₁ : FsState} {a : Store} {path name srcPath dstPath : Name} {k q fd : Nat}
  {ino newInodeIdx mode : UInt32} {file : File} {e : DirEntry}

instance : Decidable (Live s k) :=
  inferInstanceAs (Decidable (k < maxInodeNum ∧ s.inodeUsed k = true))

def kindOf (s : FsState) (k : Nat) : Option Kind :=
  if Live s k then some (if (s.inode k).type = 1 then .directory else .file) else none

def handleOf (file : File) : Handle := ⟨file.inodeIdx.toNat, file.mode, file.filePtr.toNat⟩

/-- The store that the tables stand for, as far as the direct pointers of the
files reach. -/
structure Represents (a : Store) (s : FsState) : Prop where
  cwd : a.cwd = s.cwd.toNat
  kind : ∀ k, a.kind k = kindOf s k
  entry : ∀ k, Dir s k → ∀ name,
    a.entry k name = (lookup s (s.inode k) name).map fun e => e.inode.toNat
  bytes : ∀ k, Live s k → (s.inode k).type = 2 → ∀ o < l0Bound,
    a.bytes k o = contentsOf s (s.inode k) o
  size : ∀ k, Live s k → (s.inode k).type = 2 → a.size k = (s.inode k).size.toNat
  handles : a.handles = s.files.map (Option.map handleOf)

/-- Tables in order, with right sizes, and nothing of the files pending. -/
structure Consistent (s : FsState) : Prop where
  inOrder : InOrder s
  sized : Sized s
  backed : ∀ k, Live s k → HasBlocks s (s.inode k)
  sizes : ∀ file, some file ∈ s.files → file.inode.size = (s.inode file.inodeIdx.toNat).size

theorem kindOf_directory : kindOf s k = some .directory ↔ Dir s k := by
  unfold kindOf Dir
  rcases em (Live s k) with hlive | hlive
  · rcases eq_or_ne (s.inode k).type 1 with htype | htype
    · simp [hlive, htype]
    · simp [hlive, htype]
  · simp [hlive]

theorem kindOf_file (ht : Typed s) : kindOf s k = some .file ↔ Live s k ∧ (s.inode k).type = 2 := by
  unfold kindOf
  rcases em (Live s k) with hlive | hlive
  · rcases ht k hlive with htype | htype
    · simp [hlive, htype]
    · simp [hlive, htype]
  · simp [hlive]

theorem kindOf_none : kindOf s k = none ↔ ¬Live s k := by
  unfold kindOf
  split
  next hlive => simp [hlive]
  next hlive => simp [hlive]

theorem kindOf_congr (hlive : Live s' k ↔ Live s k)
    (htype : Live s k → (s'.inode k).type = (s.inode k).type) : kindOf s' k = kindOf s k := by
  unfold kindOf
  rcases em (Live s k) with hk | hk
  · rw [if_pos hk, if_pos (hlive.mpr hk), htype hk]
  · rw [if_neg hk, if_neg fun hk' => hk (hlive.mp hk')]

namespace Represents

variable (h : Represents a s) (ht : Tidy s)
include h ht

theorem lookup_eq : a.lookup path = (lookup s s.here path).map fun e => e.inode.toNat := by
  rw [Store.lookup, h.cwd]
  exact h.entry _ ht.cwd path

theorem lookup_some (he : lookup s s.here path = some e) :
    a.lookup path = some e.inode.toNat := by
  rw [h.lookup_eq ht, he]
  rfl

theorem lookup_none (he : lookup s s.here path = none) : a.lookup path = none := by
  rw [h.lookup_eq ht, he]
  rfl

theorem walk_eq {dir : UInt32} (hdir : Dir s dir.toNat) (names : List Name) :
    a.walk dir.toNat names = (follow s dir names).map UInt32.toNat := by
  induction names generalizing dir with
  | nil => rfl
  | cons name rest ih =>
      rw [Store.walk, h.entry _ hdir, follow_cons, enter]
      cases he : lookup s (s.inode dir.toNat) name with
      | none => rfl
      | some e =>
          have hlive := Folder.live (ht.folder _ hdir) he
          have hkind : a.kind e.inode.toNat = some .directory ↔
              (s.inode e.inode.toNat).type = 1 := by
            rw [h.kind, kindOf_directory]
            exact ⟨fun hd => hd.2, fun htype => ⟨hlive, htype⟩⟩
          simp only [Option.map_some, Option.bind_some]
          split
          next hd =>
            rw [if_pos (hkind.mp hd)]
            exact ih (hkind.mp hd |> fun htype => ⟨hlive, htype⟩)
          next hd =>
            rw [if_neg fun htype => hd (hkind.mpr htype)]
            rfl

omit ht in
theorem handle_eq (fd : Nat) : a.handle fd = ((s.files[fd]?).join).map handleOf := by
  rw [Store.handle, h.handles, List.getElem?_map]
  cases s.files[fd]? with
  | none => rfl
  | some entry => rfl

end Represents

theorem empty_iff (h : Represents a s) (hs : Sized s) (hk : Dir s k) :
    a.Empty k ↔ (s.inode k).size = 0 := by
  have hcount : (s.inode k).size = 0 ↔ children s (s.inode k) = 0 := by
    rw [← hs k hk, ← UInt32.toNat_inj]
    rfl
  have hnames : children s (s.inode k) = 0 ↔ ∀ q e, slot s (s.inode k) q = some e →
      e.name = dot ∨ e.name = dotDot := by
    unfold children
    rw [Finset.card_eq_zero, Finset.eq_empty_iff_forall_notMem]
    constructor
    · intro hnone q e he
      by_contra hname
      rw [not_or] at hname
      refine hnone q (BitMaps.mem_taken.mpr ⟨lt_of_slot he, ?_⟩)
      rw [he]
      exact decide_eq_true hname
    · intro hall q hmem
      have hcounted := (BitMaps.mem_taken.mp hmem).2
      cases he : slot s (s.inode k) q with
      | none =>
          rw [he] at hcounted
          cases hcounted
      | some e =>
          rw [he] at hcounted
          have hname := of_decide_eq_true hcounted
          exact (hall q e he).elim hname.1 hname.2
  rw [hcount, hnames]
  constructor
  · intro hempty q e he
    by_contra hname
    rw [not_or] at hname
    have hnone := hempty e.name hname.1 hname.2
    rw [h.entry k hk, Option.map_eq_none_iff] at hnone
    rcases lookup_cases s (s.inode k) e.name with ⟨q', e', -, heq⟩ | ⟨hmiss, -⟩
    · rw [heq] at hnone
      cases hnone
    · exact hmiss q (Nat.zero_le q) (lt_of_slot he) e he rfl
  · intro hall name hdot hdots
    rw [h.entry k hk, Option.map_eq_none_iff]
    refine lookup_of_misses fun q _ _ e he hname => ?_
    rcases hall q e he with hn | hn
    · exact hdot (hname.symm.trans hn)
    · exact hdots (hname.symm.trans hn)

/-- The directory or file `k` shows what it showed. -/
structure Same (k : Nat) (s s' : FsState) : Prop where
  inode : s'.inode k = s.inode k
  contents : contentsOf s' (s'.inode k) = contentsOf s (s.inode k)
  lookup_eq : ∀ name, lookup s' (s'.inode k) name = lookup s (s.inode k) name
  hasBlocks : HasBlocks s (s.inode k) → HasBlocks s' (s'.inode k)

theorem Same.trans {s'' : FsState} (h : Same k s s') (h' : Same k s' s'') : Same k s s'' :=
  ⟨h'.inode.trans h.inode, h'.contents.trans h.contents,
    fun name => (h'.lookup_eq name).trans (h.lookup_eq name),
    fun hb => h'.hasBlocks (h.hasBlocks hb)⟩

theorem same_of_data (hdata : s'.data = s.data) (hinode : s'.inode k = s.inode k) :
    Same k s s' := by
  refine ⟨hinode, ?_, fun name => ?_, fun hb i hi => ?_⟩
  · rw [hinode]
    exact contentsOf_congr (fun _ => rfl) fun _ _ => by rw [hdata]
  · rw [hinode]
    exact lookup_congr fun q => slot_congr hdata _ q
  · rw [hinode] at hi ⊢
    rw [hdata]
    exact hb i hi

theorem same_of_leaves {k' : Nat} (h : Leaves k' s s') (hne : k ≠ k') (hk : Live s k) :
    Same k s s' := by
  have hinode := h.inode k hne
  refine ⟨hinode, ?_, fun name => lookup_congr fun q => h.slot_eq hne hk q,
    h.hasBlocks hne hk⟩
  rw [hinode]
  exact contentsOf_congr (fun _ => rfl) fun i hi => h.data_direct hne hk hi

theorem contentsOf_empty {n : Inode} (hn : ∀ i, direct n i = 0) (o : Nat) :
    contentsOf s n o = 0 := if_pos (hn _)

theorem direct_empty (i : Nat) : direct Inode.empty i = 0 := by
  unfold direct
  split
  next => rfl
  next => rfl

/-- What adding a name for the inode `ino` to the current directory leaves of the
inodes. -/
structure InodeAdded (s : FsState) (ino : UInt32) (s' : FsState) : Prop where
  cwd : s'.cwd = s.cwd
  files : s'.files = s.files
  live : ∀ k, Live s' k ↔ Live s k ∨ k = ino.toNat
  same : ∀ k, Live s k → k ≠ s.cwd.toNat → Same k s s'
  hasBlocks : HasBlocks s' s'.here
  type : s'.here.type = 1

/-- What adding a name to the current directory leaves. -/
structure NameAdded (s : FsState) (path : Name) (ino : UInt32) (s' : FsState) : Prop
    extends InodeAdded s ino s' where
  lookup_self : lookup s' s'.here path = some ⟨ino, 1, path⟩
  lookup_of_ne : ∀ name, name ≠ path → lookup s' s'.here name = lookup s s.here name

/-- A directory has a slot for the name, which is not one of the names that
every directory has. -/
def Roomy (s : FsState) (path : Name) : Prop :=
  lookup s s.here path = none → (path ≠ dot ∧ path ≠ dotDot) ∧ ∃ q < 1024, slot s s.here q = none

theorem Roomy.insertOk (h : Roomy s path) : InsertOk s path := fun hmiss =>
  ⟨(h hmiss).1, Or.inl (h hmiss).2⟩

theorem inodeAdded_of_created (ht : Tidy s)
    (hcreated : Created s path newInodeIdx ino q s₀ s')
    (hgiven : newInodeIdx ≠ 0 → Live s newInodeIdx.toNat) : InodeAdded s ino s' := by
  have hset := hcreated.slotSet
  obtain ⟨hcwd₀, hhere₀, -⟩ := hcreated.provided.here_eq ht.standing
  have hlive₀ := live_of_provided hcreated.provided hgiven
  have hprovided : (∀ k, Live s₀ k ↔ Live s k ∨ k = ino.toNat) ∧
      (∀ k, Live s k → Same k s s₀) ∧ s₀.files = s.files := by
    cases hcreated.provided with
    | given hne =>
        refine ⟨fun k => ⟨Or.inl, fun hk => hk.elim id fun heq => ?_⟩,
          fun k _ => same_of_data rfl rfl, rfl⟩
        rw [heq]
        exact hgiven hne
    | new _ hlt hunused =>
        refine ⟨fun k => ?_, fun k hk => same_of_data rfl (Function.update_of_ne ?_ ..), rfl⟩
        · rcases eq_or_ne k ino.toNat with rfl | hne
          · exact iff_of_true hlive₀ (Or.inr rfl)
          · have hused : ((s.setInodeUsed ino.toNat true).setInode ino.toNat
                Inode.empty).inodeUsed k = s.inodeUsed k := Function.update_of_ne hne ..
            unfold Live
            rw [hused]
            exact ⟨Or.inl, fun hk => hk.resolve_right hne⟩
        · rintro rfl
          rw [hk.2] at hunused
          cases hunused
  obtain ⟨hlive, hsame, hfiles⟩ := hprovided
  refine ⟨hset.leaves.cwd.trans hcwd₀, hset.leaves.files.trans hfiles, fun k => ?_,
    fun k hk hne => ?_, hset.hasBlocks, ?_⟩
  · rw [← hlive]
    exact ⟨hset.leaves.of_live, hset.leaves.live⟩
  · exact (hsame k hk).trans
      (same_of_leaves hset.leaves (by rwa [hcwd₀]) ((hlive k).mpr (Or.inl hk)))
  · rw [hset.type, hhere₀]
    exact ht.standing.type

theorem nameAdded_of_created (ht : Tidy s) (hcreated : Created s path newInodeIdx ino q s₀ s')
    (hgiven : newInodeIdx ≠ 0 → Live s newInodeIdx.toNat) (hroomy : Roomy s path) :
    NameAdded s path ino s' := by
  obtain ⟨-, hhere₀, hdata₀⟩ := hcreated.provided.here_eq ht.standing
  have hslot₀ : ∀ q, slot s₀ s₀.here q = slot s s.here q := fun q => by
    rw [hhere₀, slot_congr hdata₀]
  have hfree : slot s₀ s₀.here q = none := by
    rw [hslot₀]
    obtain ⟨-, q', hq', hfree⟩ := hroomy (lookup_of_misses hcreated.misses)
    rcases hcreated.chosen with hnone | ⟨rfl, hfull⟩
    · exact hnone
    · rcases Nat.eq_zero_or_pos q' with rfl | hpos
      · exact hfree
      · exact absurd hfree (hfull q' hpos hq')
  refine ⟨inodeAdded_of_created ht hcreated hgiven, created_lookup ht hcreated hgiven,
    fun name hne => ?_⟩
  rw [lookup_slotSet_of_ne hcreated.slotSet hfree hne]
  exact lookup_congr hslot₀

namespace InodeAdded

variable (hadded : InodeAdded s ino s')
include hadded

theorem here_eq : s'.inode s.cwd.toNat = s'.here := by rw [FsState.here, hadded.cwd]

theorem type_eq (ht : Tidy s) (hk : Live s k) : (s'.inode k).type = (s.inode k).type := by
  rcases eq_or_ne k s.cwd.toNat with rfl | hne
  · rw [hadded.here_eq, hadded.type, ht.cwd.2]
  · rw [(hadded.same k hk hne).inode]

theorem same_of_file (ht : Tidy s) (hk : Live s k) (htype : (s'.inode k).type = 2) :
    (s.inode k).type = 2 ∧ Same k s s' := by
  rw [hadded.type_eq ht hk] at htype
  refine ⟨htype, hadded.same k hk ?_⟩
  rintro rfl
  rw [ht.cwd.2] at htype
  cases htype

/-- The directory shows what it showed after a change of the new inode. -/
theorem same_here {s'' : FsState} (ht : Tidy s) (hdead : ¬Live s ino.toNat)
    (hleaves : Leaves ino.toNat s' s'') : s''.here = s''.inode s'.cwd.toNat ∧
      Same s'.cwd.toNat s' s'' := by
  have hlive : Live s' s'.cwd.toNat := by
    rw [hadded.cwd, hadded.live]
    exact Or.inl ht.cwd.1
  refine ⟨by rw [FsState.here, hleaves.cwd], same_of_leaves hleaves ?_ hlive⟩
  rw [hadded.cwd]
  rintro heq
  rw [← heq] at hdead
  exact hdead ht.cwd.1

theorem leaves {s'' : FsState} (ht : Tidy s) (hdead : ¬Live s ino.toNat)
    (hleaves : Leaves ino.toNat s' s'') : InodeAdded s ino s'' := by
  have hold : ∀ k, Live s k → k ≠ ino.toNat := by
    rintro k hk rfl
    exact hdead hk
  obtain ⟨hhere, hsame⟩ := hadded.same_here ht hdead hleaves
  refine ⟨hleaves.cwd.trans hadded.cwd, hleaves.files.trans hadded.files, fun k => ?_,
    fun k hk hne => ?_, ?_, ?_⟩
  · rw [← hadded.live]
    exact ⟨hleaves.of_live, hleaves.live⟩
  · exact (hadded.same k hk hne).trans
      (same_of_leaves hleaves (hold k hk) ((hadded.live k).mpr (Or.inl hk)))
  · rw [hhere]
    exact hsame.hasBlocks hadded.hasBlocks
  · rw [hhere, hsame.inode]
    exact hadded.type

theorem live_of_ne (hne : k ≠ ino.toNat) : Live s' k ↔ Live s k := by
  rw [hadded.live]
  exact ⟨fun hk => hk.resolve_right hne, Or.inl⟩

theorem kind_of_ne (ht : Tidy s) (hne : k ≠ ino.toNat) : kindOf s' k = kindOf s k :=
  kindOf_congr (hadded.live_of_ne hne) (hadded.type_eq ht)

theorem dir_of_ne (ht : Tidy s) (hne : k ≠ ino.toNat) : Dir s' k ↔ Dir s k := by
  rw [← kindOf_directory, ← kindOf_directory, hadded.kind_of_ne ht hne]

theorem backed (hbacked : ∀ k, Live s k → HasBlocks s (s.inode k))
    (hnew : ¬Live s ino.toNat → HasBlocks s' (s'.inode ino.toNat)) :
    ∀ k, Live s' k → HasBlocks s' (s'.inode k) := by
  have hold : ∀ k, Live s k → HasBlocks s' (s'.inode k) := fun k hk => by
    rcases eq_or_ne k s.cwd.toNat with rfl | hne
    · rw [hadded.here_eq]
      exact hadded.hasBlocks
    · exact (hadded.same k hk hne).hasBlocks (hbacked k hk)
  intro k hk
  rcases (hadded.live k).mp hk with hk | rfl
  · exact hold k hk
  · rcases em (Live s ino.toNat) with hlive | hlive
    · exact hold _ hlive
    · exact hnew hlive

theorem sizes (ht : Tidy s)
    (hsizes : ∀ file, some file ∈ s.files → file.inode.size = (s.inode file.inodeIdx.toNat).size) :
    ∀ file, some file ∈ s'.files → file.inode.size = (s'.inode file.inodeIdx.toNat).size := by
  intro file hmem
  rw [hadded.files] at hmem
  obtain ⟨hlive, -, -, htype⟩ := ht.files file hmem
  have hne : file.inodeIdx.toNat ≠ s.cwd.toNat := by
    intro heq
    rw [heq, ht.cwd.2] at htype
    cases htype
  rw [(hadded.same _ hlive hne).inode]
  exact hsizes file hmem

end InodeAdded

namespace NameAdded

variable (hadded : NameAdded s path ino s')
include hadded

theorem leaves {s'' : FsState} (ht : Tidy s) (hdead : ¬Live s ino.toNat)
    (hleaves : Leaves ino.toNat s' s'') : NameAdded s path ino s'' := by
  obtain ⟨hhere, hsame⟩ := hadded.same_here ht hdead hleaves
  refine ⟨hadded.toInodeAdded.leaves ht hdead hleaves, ?_, fun name hne => ?_⟩
  · rw [hhere, hsame.lookup_eq]
    exact hadded.lookup_self
  · rw [hhere, hsame.lookup_eq]
    exact hadded.lookup_of_ne name hne

theorem entry_eq (h : Represents a s) (hk : Dir s k) :
    (a.bind path ino.toNat).entry k name =
      (lookup s' (s'.inode k) name).map fun e => e.inode.toNat := by
  have hentry : (a.bind path ino.toNat).entry k name =
      if k = a.cwd then (if name = path then some ino.toNat else a.entry k name)
      else a.entry k name := by
    rw [Store.bind]
    dsimp only
    rw [Function.update_apply]
    split
    next heq => rw [heq, Function.update_apply]
    next => rfl
  rw [hentry, h.cwd, h.entry k hk]
  split
  next heq =>
    subst heq
    rw [hadded.here_eq]
    split
    next heq =>
      rw [heq, hadded.lookup_self]
      rfl
    next hne => rw [hadded.lookup_of_ne name hne, FsState.here]
  next hne => rw [(hadded.same k hk.1 hne).lookup_eq]

/-- Adding the name of an inode that is there already. -/
theorem represents (ht : Tidy s) (h : Represents a s) (hlive : Live s ino.toNat) :
    Represents (a.bind path ino.toNat) s' := by
  have hiff : ∀ k, Live s' k ↔ Live s k := fun k => by
    rw [hadded.live]
    exact ⟨fun hk => hk.elim id fun heq => heq ▸ hlive, Or.inl⟩
  refine ⟨?_, fun k => ?_, fun k hk name => ?_, fun k hk htype o ho => ?_, fun k hk htype => ?_, ?_⟩
  · rw [hadded.cwd]
    exact h.cwd
  · exact (h.kind k).trans (kindOf_congr (hiff k) fun hk => hadded.type_eq ht hk).symm
  · have hold := (hiff k).mp hk.1
    exact hadded.entry_eq h ⟨hold, (hadded.type_eq ht hold).symm.trans hk.2⟩
  · have hold := (hiff k).mp hk
    obtain ⟨htype, hsame⟩ := hadded.same_of_file ht hold htype
    rw [hsame.contents]
    exact h.bytes k hold htype o ho
  · have hold := (hiff k).mp hk
    obtain ⟨htype, hsame⟩ := hadded.same_of_file ht hold htype
    rw [hsame.inode]
    exact h.size k hold htype
  · rw [hadded.files]
    exact h.handles

theorem represents_file (ht : Tidy s) (h : Represents a s)
    (htype : (s'.inode ino.toNat).type = 2) (hsize : (s'.inode ino.toNat).size = 0)
    (hdirect : ∀ i, direct (s'.inode ino.toNat) i = 0) :
    Represents (a.create path ino.toNat) s' := by
  have hlive : Live s' ino.toNat := (hadded.live _).mpr (Or.inr rfl)
  refine ⟨?_, fun k => ?_, fun k hk name => ?_, fun k hk hfile o ho => ?_, fun k hk hfile => ?_, ?_⟩
  · rw [hadded.cwd]
    exact h.cwd
  · rcases eq_or_ne k ino.toNat with rfl | hne
    · refine (Function.update_self ..).trans ?_
      rw [kindOf, if_pos hlive, htype]
      rfl
    · exact (Function.update_of_ne hne ..).trans ((h.kind k).trans (hadded.kind_of_ne ht hne).symm)
  · have hne : k ≠ ino.toNat := by
      rintro rfl
      rw [hk.2] at htype
      cases htype
    exact hadded.entry_eq h ((hadded.dir_of_ne ht hne).mp hk)
  · rcases eq_or_ne k ino.toNat with rfl | hne
    · have hbytes : (a.create path ino.toNat).bytes ino.toNat = fun _ => 0 :=
        Function.update_self ..
      rw [contentsOf_empty hdirect, hbytes]
    · have hold := (hadded.live_of_ne hne).mp hk
      obtain ⟨hfile, hsame⟩ := hadded.same_of_file ht hold hfile
      rw [hsame.contents]
      exact (congrFun (Function.update_of_ne hne ..) o).trans (h.bytes k hold hfile o ho)
  · rcases eq_or_ne k ino.toNat with rfl | hne
    · rw [hsize]
      exact Function.update_self ..
    · have hold := (hadded.live_of_ne hne).mp hk
      obtain ⟨hfile, hsame⟩ := hadded.same_of_file ht hold hfile
      rw [hsame.inode]
      exact (Function.update_of_ne hne ..).trans (h.size k hold hfile)
  · rw [hadded.files]
    exact h.handles

theorem represents_directory (ht : Tidy s) (h : Represents a s)
    (htype : (s'.inode ino.toNat).type = 1)
    (hnames : ∀ name, (lookup s' (s'.inode ino.toNat) name).map (fun e => e.inode.toNat) =
      Store.ownNames ino.toNat s.cwd.toNat name) :
    Represents (a.createDirectory path ino.toNat) s' := by
  have hlive : Live s' ino.toNat := (hadded.live _).mpr (Or.inr rfl)
  have hnot : ∀ k, (s'.inode k).type = 2 → k ≠ ino.toNat := by
    rintro k hk rfl
    rw [htype] at hk
    cases hk
  refine ⟨?_, fun k => ?_, fun k hk name => ?_, fun k hk hfile o ho => ?_, fun k hk hfile => ?_, ?_⟩
  · rw [hadded.cwd]
    exact h.cwd
  · rcases eq_or_ne k ino.toNat with rfl | hne
    · refine (Function.update_self ..).trans ?_
      rw [kindOf, if_pos hlive, htype]
      rfl
    · exact (Function.update_of_ne hne ..).trans ((h.kind k).trans (hadded.kind_of_ne ht hne).symm)
  · rcases eq_or_ne k ino.toNat with rfl | hne
    · rw [hnames, ← h.cwd]
      exact congrFun (Function.update_self ..) name
    · rw [← hadded.entry_eq h ((hadded.dir_of_ne ht hne).mp hk)]
      exact congrFun (Function.update_of_ne hne ..) name
  · have hold := (hadded.live_of_ne (hnot k hfile)).mp hk
    obtain ⟨hfile, hsame⟩ := hadded.same_of_file ht hold hfile
    rw [hsame.contents]
    exact h.bytes k hold hfile o ho
  · have hold := (hadded.live_of_ne (hnot k hfile)).mp hk
    obtain ⟨hfile, hsame⟩ := hadded.same_of_file ht hold hfile
    rw [hsame.inode]
    exact h.size k hold hfile
  · rw [hadded.files]
    exact h.handles

end NameAdded

theorem leaves_fileMade (s : FsState) (ino : UInt32) : Leaves ino.toNat s (fileMade s ino) :=
  leaves_setInode s ino.toNat _

theorem hasBlocks_of_zero {n : Inode} (hn : ∀ i, direct n i = 0) : HasBlocks s n :=
  fun i hi => absurd (hn i) hi

theorem fileMade_step (hc : Consistent s) (h : Represents a s)
    (hcreated : Created s path 0 ino q s₀ s₁) (hroomy : Roomy s path) :
    a.lookup path = none ∧ a.kind ino.toNat = none ∧ Consistent (fileMade s₁ ino) ∧
      Represents (a.create path ino.toNat) (fileMade s₁ ino) := by
  have ht := hc.inOrder.tidy
  have hnew := newName_of_created hc.inOrder hcreated
  have hself : (fileMade s₁ ino).inode ino.toNat =
      { s₁.inode ino.toNat with type := 2, linkCnt := 1 } := Function.update_self ..
  have hdirect : ∀ i, direct ((fileMade s₁ ino).inode ino.toNat) i = 0 := fun i => by
    rw [hself, hnew.inode]
    exact direct_empty i
  have hadded : NameAdded s path ino (fileMade s₁ ino) :=
    (nameAdded_of_created ht hcreated (fun hne => absurd rfl hne) hroomy).leaves ht hnew.dead
      (leaves_fileMade s₁ ino)
  refine ⟨h.lookup_none ht (lookup_of_misses hcreated.misses), ?_, ⟨?_, ?_, ?_, ?_⟩, ?_⟩
  · rw [h.kind, kindOf_none]
    exact hnew.dead
  · exact hnew.inOrder
  · exact hc.sized.touched hc.inOrder (.created hcreated) hroomy.insertOk
  · exact hadded.backed hc.backed fun _ => hasBlocks_of_zero hdirect
  · exact hadded.sizes ht hc.sizes
  · refine hadded.represents_file ht h ?_ ?_ hdirect
    · rw [hself]
    · rw [hself, hnew.inode]
      rfl

theorem touch_step {r : Int} (hc : Consistent s) (h : Represents a s)
    (hdone : TouchDone s path r s') (hroomy : Roomy s path) :
    Consistent s' ∧ ∃ a', Step a (.touch path) (.code r) a' ∧ Represents a' s' := by
  cases hdone with
  | existed he => exact ⟨hc, a, .touchFails (h.lookup_some hc.inOrder.tidy he), h⟩
  | created hcreated =>
      obtain ⟨hnone, hfree, hc', h'⟩ := fileMade_step hc h hcreated hroomy
      exact ⟨hc', _, .touch hnone hfree, h'⟩

theorem lookup_ne_none (hne : lookup s s.here path ≠ none) :
    ∃ e, lookup s s.here path = some e :=
  Option.ne_none_iff_exists'.mp hne

theorem mkdir_step {r : Int} (hc : Consistent s) (h : Represents a s) (hdone : MadeDir s path r s')
    (hroomy : Roomy s path) :
    Consistent s' ∧ ∃ a', Step a (.mkdir path) (.code r) a' ∧ Represents a' s' := by
  have ht := hc.inOrder.tidy
  have hsized := hc.sized.madeDir hc.inOrder hdone hroomy.insertOk
  have hinOrder := hdone.inOrder hc.inOrder
  cases hdone with
  | existed hne =>
      obtain ⟨e, he⟩ := lookup_ne_none hne
      exact ⟨hc, a, .mkdirFails (h.lookup_some ht he), h⟩
  | @made ino q s₀ s₁ s' hcreated hmade =>
      have hnew := newName_of_created hc.inOrder hcreated
      have hadded₁ := nameAdded_of_created ht hcreated (fun hne => absurd rfl hne) hroomy
      have hadded : NameAdded s path ino s' := hadded₁.leaves ht hnew.dead hmade.leaves
      refine ⟨⟨hinOrder, hsized, hadded.backed hc.backed fun _ => hmade.hasBlocks,
        hadded.sizes ht hc.sizes⟩, _,
        .mkdir (h.lookup_none ht (lookup_of_misses hcreated.misses)) ?_,
        hadded.represents_directory ht h hmade.type fun name => ?_⟩
      · rw [h.kind, kindOf_none]
        exact hnew.dead
      · rcases lookup_cases s' (s'.inode ino.toNat) name with ⟨q', e, hfinds, heq⟩ | ⟨hmiss, heq⟩
        · have hname := hfinds.name_eq
          rw [heq]
          rcases hmade.entry hfinds.slot_eq with ⟨-, rfl⟩ | ⟨-, rfl⟩
          · exact (if_pos hname.symm).symm
          · have hne : name ≠ dot := by
              rintro rfl
              exact absurd (show dotDot = dot from hname) (by decide)
            rw [Store.ownNames, if_neg hne, if_pos hname.symm, Option.map_some, hadded₁.cwd]
        · have hslot := hmade.slot_eq
          have hdot : name ≠ dot := by
            rintro rfl
            refine hmiss 0 (Nat.zero_le _) (by decide) ⟨ino, 1, dot⟩ ?_ rfl
            rw [hslot, if_pos rfl]
          have hdots : name ≠ dotDot := by
            rintro rfl
            refine hmiss 1 (Nat.zero_le _) (by decide) ⟨s₁.cwd, 1, dotDot⟩ ?_ rfl
            rw [hslot, if_neg (by decide), if_pos rfl]
          rw [heq, Store.ownNames, if_neg hdot, if_neg hdots]
          rfl

theorem Consistent.setFiles {files : List (Option File)} (hc : Consistent s)
    (ht : Tidy { s with files := files })
    (hsizes : ∀ file, some file ∈ files → file.inode.size = (s.inode file.inodeIdx.toNat).size) :
    Consistent { s with files := files } :=
  ⟨⟨ht, hc.inOrder.typed⟩, hc.sized.sameDirs (SameDirs.setFiles s files), hc.backed, hsizes⟩

theorem Represents.setFiles {files : List (Option File)} (h : Represents a s) :
    Represents { a with handles := files.map (Option.map handleOf) } { s with files := files } :=
  ⟨h.cwd, h.kind, h.entry, h.bytes, h.size, rfl⟩

/-- A handle keeps its file. -/
theorem Consistent.setFile {file' : File} (hc : Consistent s)
    (hfile : (s.files[fd]?).join = some file) (hidx : file'.inodeIdx = file.inodeIdx)
    (hinode : file'.inode = file.inode) :
    Consistent { s with files := s.files.set fd (some file') } := by
  have hmem := mem_of_join hfile
  obtain ⟨hlive, hpointer, hobject, htype⟩ := hc.inOrder.tidy.files file hmem
  refine hc.setFiles (hc.inOrder.tidy.storeFile hfile hidx ⟨?_, ?_, ?_, ?_⟩) fun file₁ h₁ => ?_
  · rw [hidx]
    exact hlive
  · rw [hidx, hinode]
    exact hpointer
  · rw [hinode]
    exact hobject
  · rw [hidx]
    exact htype
  · rcases List.mem_or_eq_of_mem_set h₁ with hold | heq
    · exact hc.sizes file₁ hold
    · rw [Option.some.inj heq, hidx, hinode]
      exact hc.sizes file hmem

theorem Represents.setFile (h : Represents a s) (fd : Nat) (entry : Option File) :
    Represents (a.setHandle fd (entry.map handleOf))
      { s with files := s.files.set fd entry } := by
  have hset : (s.files.set fd entry).map (Option.map handleOf) =
      a.handles.set fd (entry.map handleOf) := by
    rw [List.map_set, h.handles]
  rw [Store.setHandle, ← hset]
  exact h.setFiles

theorem lookupFile_eq (h : Represents a s) (idx : UInt32) :
    (a.handles.findIdx? fun h => (h.map Handle.inode) = some idx.toNat) =
      lookupFile idx s.files := by
  rw [h.handles, List.findIdx?_map, lookupFile]
  congr 1
  funext entry
  cases entry with
  | none => rfl
  | some file => simp [handleOf, UInt32.toNat_inj]

theorem opened_step (hc : Consistent s) (h : Represents a s) (hfile : UpToDate s file)
    (hsize : file.inode.size = (s.inode file.inodeIdx.toNat).size) (hptr : file.filePtr = 0) :
    Consistent (opened s file).2 ∧
      (a.openFile file.inodeIdx.toNat file.mode).1 = (opened s file).1 ∧
      Represents (a.openFile file.inodeIdx.toNat file.mode).2 (opened s file).2 := by
  unfold Store.openFile opened
  rw [lookupFile_eq h]
  cases hlookup : lookupFile file.inodeIdx s.files with
  | some fd => exact ⟨hc, rfl, h⟩
  | none =>
      have hhandle : handleOf file = ⟨file.inodeIdx.toNat, file.mode, 0⟩ := by
        rw [handleOf, hptr]
        rfl
      refine ⟨hc.setFiles (hc.inOrder.tidy.openFile hlookup hfile) fun file₁ h₁ => ?_, ?_, ?_⟩
      · rcases List.mem_append.mp h₁ with hold | hnew
        · exact hc.sizes file₁ hold
        · rw [Option.some.inj (List.mem_singleton.mp hnew)]
          exact hsize
      · rw [h.handles, List.length_map]
      · have hnew : Represents { a with handles := (s.files ++ [some file]).map _ }
            { s with files := s.files ++ [some file] } := h.setFiles
        rw [List.map_append, ← h.handles, List.map_singleton, Option.map_some, hhandle] at hnew
        exact hnew

theorem fopen_step {r : Int} (hc : Consistent s) (h : Represents a s)
    (hdone : OpenDone s path mode r s') (hroomy : Roomy s path) :
    Consistent s' ∧ ∃ a', Step a (.fopen path mode) (.code r) a' ∧ Represents a' s' := by
  have ht := hc.inOrder.tidy
  cases hdone with
  | directory he hdir =>
      refine ⟨hc, a, .fopenFails (h.lookup_some ht he) ?_, h⟩
      rw [h.kind, kindOf_directory]
      exact ⟨live_of_lookup ht he, hdir⟩
  | @existed e he htype =>
      have hlive := live_of_lookup ht he
      have hkind : a.kind e.inode.toNat = some .file := by
        rw [h.kind, kindOf_file hc.inOrder.typed]
        exact ⟨hlive, htype⟩
      have hfile : UpToDate s ⟨e.inode, mode, 0, s.inode e.inode.toNat⟩ :=
        ⟨hlive, fun _ => rfl, htype, htype⟩
      obtain ⟨hc', hr, h'⟩ := opened_step hc h hfile rfl rfl
      have hstep : Step a (.fopen path mode) _ _ := .fopen (h.lookup_some ht he) hkind
      rw [hr] at hstep
      exact ⟨hc', _, hstep, h'⟩
  | @created ino q s₀ s₁ s₂ hcreated heq =>
      subst heq
      obtain ⟨hnone, hfree, hc₂, h₂⟩ := fileMade_step hc h hcreated hroomy
      have hnew := newName_of_created hc.inOrder hcreated
      have hself : (fileMade s₁ ino).inode ino.toNat =
          { s₁.inode ino.toNat with type := 2, linkCnt := 1 } := Function.update_self ..
      have htype : ((fileMade s₁ ino).inode ino.toNat).type = 2 := by rw [hself]
      have hfile : UpToDate (fileMade s₁ ino) ⟨ino, mode, 0, (fileMade s₁ ino).inode ino.toNat⟩ :=
        ⟨hnew.live, fun _ => rfl, htype, htype⟩
      obtain ⟨hc', hr, h'⟩ := opened_step hc₂ h₂ hfile rfl rfl
      have hstep : Step a (.fopen path mode) _ _ := .fopenNew hnone hfree
      rw [hr] at hstep
      exact ⟨hc', _, hstep, h'⟩

theorem fclose_step (hc : Consistent s) (h : Represents a s) (fd : Nat) :
    Consistent { s with files := s.files.set fd none } ∧
      ∃ a', Step a (.fclose fd) (.code 0) a' ∧
        Represents a' { s with files := s.files.set fd none } := by
  refine ⟨hc.setFiles (hc.inOrder.tidy.closeFile fd) fun file hmem => ?_, _, .fclose,
    h.setFile fd none⟩
  rcases List.mem_or_eq_of_mem_set hmem with hold | heq
  · exact hc.sizes file hold
  · cases heq

theorem seekTarget_eq {offset : UInt32} {whence : Int} (hc : Consistent s) (h : Represents a s)
    (hfile : (s.files[fd]?).join = some file) :
    a.seekTarget (handleOf file) offset whence =
      (lseek file offset whence).map fun file' => file'.filePtr.toNat := by
  have hmem := mem_of_join hfile
  obtain ⟨hlive, -, -, htype⟩ := hc.inOrder.tidy.files file hmem
  have hsize : a.size file.inodeIdx.toNat = file.inode.size.toNat := by
    rw [h.size _ hlive htype, hc.sizes file hmem]
  unfold Store.seekTarget lseek
  split
  next => rfl
  next =>
    split
    next => exact congrArg some (UInt32.toNat_add _ _).symm
    next =>
      split
      next =>
        refine congrArg some ?_
        show (a.size file.inodeIdx.toNat + offset.toNat) % 2 ^ 32 = (file.inode.size + offset).toNat
        rw [hsize, UInt32.toNat_add]
      next => rfl

theorem advanced_of_lseek {offset : UInt32} {whence : Int} {file' : File}
    (h : lseek file offset whence = some file') :
    ∃ ptr, file' = { file with filePtr := ptr } := by
  unfold lseek at h
  split at h
  next => exact ⟨_, (Option.some.inj h).symm⟩
  next =>
    split at h
    next => exact ⟨_, (Option.some.inj h).symm⟩
    next =>
      split at h
      next => exact ⟨_, (Option.some.inj h).symm⟩
      next => cases h

theorem lseek_step {offset : UInt32} {whence r : Int} (hc : Consistent s) (h : Represents a s)
    (hdone : SeekDone s fd offset whence r s') :
    Consistent s' ∧ ∃ a', Step a (.lseek fd offset whence) (.code r) a' ∧ Represents a' s' := by
  cases hdone with
  | closed hnone =>
      refine ⟨hc, a, .lseekFails fun handle hhandle => ?_, h⟩
      rw [h.handle_eq, hnone] at hhandle
      cases hhandle
  | @refused file hfile hlseek =>
      refine ⟨hc, a, .lseekFails fun handle hhandle => ?_, h⟩
      rw [h.handle_eq, hfile] at hhandle
      rw [← Option.some.inj hhandle, seekTarget_eq hc h hfile, hlseek]
      rfl
  | @moved file file' hfile hlseek =>
      have htarget : a.seekTarget (handleOf file) offset whence = some file'.filePtr.toNat := by
        rw [seekTarget_eq hc h hfile, hlseek, Option.map_some]
      have hhandle : a.handle fd = some (handleOf file) := by
        rw [h.handle_eq, hfile]
        rfl
      have hstep := Step.lseek hhandle htarget
      obtain ⟨ptr, rfl⟩ := advanced_of_lseek hlseek
      refine ⟨hc.setFile hfile rfl rfl, _, ?_, h.setFile fd _⟩
      have hsigned : BitVec.ofNat 32 ptr.toNat = ptr.toBitVec := by
        rw [← UInt32.toNat_toBitVec, BitVec.ofNat_toNat, BitVec.setWidth_eq]
      rw [hsigned] at hstep
      exact hstep

theorem fread_step {r : Int × Bytes} {buff : Bytes} {length : Nat} (hc : Consistent s)
    (h : Represents a s) (hdone : ReadDone s fd buff length r s') :
    Consistent s' ∧ ∃ a', Step a (.fread fd buff length) (.data r.1 r.2) a' ∧
      Represents a' s' := by
  cases hdone with
  | closed hnone =>
      refine ⟨hc, a, .freadFails fun handle hhandle => ?_, h⟩
      rw [h.handle_eq, hnone] at hhandle
      cases hhandle
  | @refused file hfile hmode =>
      refine ⟨hc, a, .freadFails fun handle hhandle => ?_, h⟩
      rw [h.handle_eq, hfile] at hhandle
      rw [← Option.some.inj hhandle]
      exact hmode
  | @delivered file ptr hfile hmode hbelow hptr =>
      obtain ⟨hlive, -, -, htype⟩ := hc.inOrder.tidy.files file (mem_of_join hfile)
      have hhandle : a.handle fd = some (handleOf file) := by
        rw [h.handle_eq, hfile]
        rfl
      have hstep : Step a (.fread fd buff length) _ _ := .fread hhandle hmode
      have hbytes : copy buff 0 (a.bytes file.inodeIdx.toNat) file.filePtr.toNat length =
          copy buff 0 (contentsOf s (s.inode file.inodeIdx.toNat)) file.filePtr.toNat length := by
        funext i
        unfold copy
        split
        next hin => exact h.bytes _ hlive htype _ (by have := hbelow (by omega); omega)
        next => rfl
      have hhandle' : some (handleOf { file with filePtr := ptr }) =
          some { handleOf file with position := (handleOf file).position + length } := by
        rw [handleOf, hptr]
        rfl
      refine ⟨hc.setFile hfile rfl rfl, _, ?_, h.setFile fd _⟩
      rw [Option.map_some, hhandle', ← hbytes]
      exact hstep

theorem stored_step {file' : File} {buff : Bytes} {length : Nat} (hc : Consistent s)
    (h : Represents a s) (hfile : (s.files[fd]?).join = some file)
    (hstored : Stored s s₁ file file' buff length) :
    Consistent { s₁ with files := s₁.files.set fd (some file') } ∧
      Represents (a.write fd (handleOf file) buff length)
        { s₁ with files := s₁.files.set fd (some file') } := by
  have hmem := mem_of_join hfile
  obtain ⟨hlive, -, -, htype⟩ := hc.inOrder.tidy.files file hmem
  set k := file.inodeIdx.toNat with hk
  have hleaves : Leaves k s s₁ := hstored.leaves
  obtain ⟨hinOrder, hdirs⟩ := hc.inOrder.transferred hleaves hstored.owned hstored.moved.inodeIdx
    hstored.object hstored.inode hstored.pointer hfile
  have hsizes := hc.sizes file hmem
  have hsize : (s₁.inode k).size.toNat =
      extended (s.inode k).size.toNat file.filePtr.toNat length := by
    rw [← hstored.diskSize hsizes, hstored.size, hsizes]
  have hkind : ∀ k', kindOf s₁ k' = kindOf s k' := fun k' => by
    refine kindOf_congr ⟨hleaves.of_live, hleaves.live⟩ fun _ => ?_
    rcases eq_or_ne k' k with rfl | hne
    · rw [htype]
      exact hstored.inode
    · rw [hleaves.inode k' hne]
  refine ⟨⟨hinOrder, hc.sized.sameDirs ⟨hdirs.dir, hdirs.size, hdirs.slot_eq⟩, fun k' hk' => ?_,
    fun file₁ h₁ => ?_⟩, ⟨?_, fun k' => ?_, fun k' hk' name => ?_, fun k' hk' htype' o ho => ?_,
    fun k' hk' htype' => ?_, ?_⟩⟩
  · rcases eq_or_ne k' k with rfl | hne
    · exact hstored.hasBlocks
    · have hold : Live s k' := hleaves.of_live hk'
      exact hleaves.hasBlocks hne hold (hc.backed k' hold)
  · obtain ⟨i, hi⟩ := List.mem_iff_getElem?.mp h₁
    have hjoin : ((s.files.set fd (some file'))[i]?).join = some file₁ := by
      rw [← hleaves.files]
      exact Option.join_eq_some_iff.mpr hi
    rcases getElem?_set_join hjoin with ⟨-, heq⟩ | ⟨hi, hold⟩
    · cases heq
      rw [hstored.moved.inodeIdx]
      exact hstored.diskSize hsizes
    · have hne : file₁.inodeIdx.toNat ≠ k := fun heq =>
        hi (hc.inOrder.tidy.keys i fd file₁ file hold hfile (UInt32.toNat_inj.mp heq))
      have hinode := hleaves.inode _ hne
      exact (hc.sizes file₁ (mem_of_join hold)).trans (congrArg Inode.size hinode.symm)
  · exact h.cwd.trans (congrArg UInt32.toNat hleaves.cwd.symm)
  · exact (h.kind k').trans (hkind k').symm
  · have hold : Dir s k' := (hdirs.dir k').mp hk'
    have hsame : lookup s₁ (s₁.inode k') name = lookup s (s.inode k') name :=
      lookup_congr (hdirs.slot_eq k' hold)
    exact (h.entry k' hold name).trans (congrArg (Option.map _) hsame.symm)
  · have hold : Live s k' := hleaves.of_live hk'
    rcases eq_or_ne k' k with rfl | hne
    · have hnew := hstored.contents o ho
      have hbytes : (a.write fd (handleOf file) buff length).bytes k =
          copy (a.bytes k) file.filePtr.toNat buff 0 length := Function.update_self ..
      refine (congrFun hbytes o).trans (Eq.trans ?_ hnew.symm)
      unfold copy
      split
      next => rfl
      next => exact h.bytes k hold htype o ho
    · have hsame := same_of_leaves hleaves hne hold
      have htype : (s.inode k').type = 2 := by rw [← hsame.inode, htype']
      refine (congrFun (Function.update_of_ne hne ..) o).trans ?_
      exact (h.bytes k' hold htype o ho).trans (congrFun hsame.contents.symm o)
  · have hold : Live s k' := hleaves.of_live hk'
    rcases eq_or_ne k' k with rfl | hne
    · refine Eq.trans ?_ hsize.symm
      rw [extended, ← h.size k hold htype]
      exact Function.update_self ..
    · have hsame := same_of_leaves hleaves hne hold
      have htype : (s.inode k').type = 2 := by rw [← hsame.inode, htype']
      refine (Function.update_of_ne hne ..).trans ((h.size k' hold htype).trans ?_)
      rw [← hsame.inode]
  · have hhandle : handleOf file' =
        { handleOf file with position := (handleOf file).position + length } := by
      rw [handleOf, hstored.moved.inodeIdx, hstored.moved.mode, hstored.moved.filePtr]
      rfl
    show a.handles.set fd _ = (s₁.files.set fd (some file')).map (Option.map handleOf)
    rw [List.map_set, hleaves.files, ← h.handles, Option.map_some, hhandle]

theorem fwrite_step {r : Int} {buff : Bytes} {length : Nat} (hc : Consistent s)
    (h : Represents a s) (hdone : WriteDone s fd buff length r s') :
    Consistent s' ∧ ∃ a', Step a (.fwrite fd buff length) (.code r) a' ∧ Represents a' s' := by
  cases hdone with
  | closed hnone =>
      refine ⟨hc, a, .fwriteFails fun handle hhandle => ?_, h⟩
      rw [h.handle_eq, hnone] at hhandle
      cases hhandle
  | @refused file hfile hmode =>
      refine ⟨hc, a, .fwriteFails fun handle hhandle => ?_, h⟩
      rw [h.handle_eq, hfile] at hhandle
      rw [← Option.some.inj hhandle]
      exact hmode
  | @stored file file' s₁ hfile hmode hstored =>
      have hhandle : a.handle fd = some (handleOf file) := by
        rw [h.handle_eq, hfile]
        rfl
      obtain ⟨hc', h'⟩ := stored_step hc h hfile hstored
      exact ⟨hc', _, .fwrite hhandle hmode, h'⟩

theorem Consistent.goto {dir : UInt32} (hc : Consistent s) (hdir : Dir s dir.toNat) :
    Consistent (goto s dir) :=
  ⟨⟨hc.inOrder.tidy.goto hdir, hc.inOrder.typed⟩, hc.sized, hc.backed, hc.sizes⟩

theorem cd_step {r : Int} (hc : Consistent s) (h : Represents a s)
    (hdone : WalkDone s (follow s s.cwd (pieces path)) s.cwd r s') :
    Consistent s' ∧ ∃ a', Step a (.cd path) (.code r) a' ∧ Represents a' s' := by
  have ht := hc.inOrder.tidy
  have hwalk := h.walk_eq ht ht.cwd (pieces path)
  rw [← h.cwd] at hwalk
  cases hdone with
  | arrived hfollow =>
      rw [hfollow] at hwalk
      exact ⟨hc.goto (dir_of_follow ht ht.cwd hfollow), _, .cd hwalk,
        ⟨rfl, h.kind, h.entry, h.bytes, h.size, h.handles⟩⟩
  | back hfollow =>
      rw [hfollow] at hwalk
      exact ⟨hc, a, .cdFails hwalk, h⟩

theorem ls_step (hc : Consistent s) (h : Represents a s) (option : UInt32) :
    Step a (.ls path option) (.code (listed (follow s s.cwd (pieces path)))) a := by
  have ht := hc.inOrder.tidy
  have hwalk := h.walk_eq ht ht.cwd (pieces path)
  rw [← h.cwd] at hwalk
  cases hfollow : follow s s.cwd (pieces path) with
  | none =>
      rw [hfollow] at hwalk
      exact .lsFails hwalk
  | some dir =>
      rw [hfollow] at hwalk
      exact .ls hwalk

theorem kind_of_lookup (hc : Consistent s) (h : Represents a s) (he : lookup s s.here path = some e)
    (hk : a.lookup path = some k) :
    (a.kind k = some .file ↔ (s.inode e.inode.toNat).type = 2) ∧
      (a.kind k = some .directory ↔ (s.inode e.inode.toNat).type = 1) := by
  have ht := hc.inOrder.tidy
  rw [h.lookup_some ht he] at hk
  have hlive := live_of_lookup ht he
  rw [← Option.some.inj hk, h.kind, kindOf_file hc.inOrder.typed, kindOf_directory]
  exact ⟨⟨fun hf => hf.2, fun htype => ⟨hlive, htype⟩⟩, fun hd => hd.2, fun htype => ⟨hlive, htype⟩⟩

theorem cat_step {r : Int} (hc : Consistent s) (h : Represents a s) (hdone : CatDone s path r) :
    Step a (.cat path) (.code r) a := by
  have ht := hc.inOrder.tidy
  cases hdone with
  | missing hnone =>
      refine .catFails fun k hk => ?_
      rw [h.lookup_none ht hnone] at hk
      cases hk
  | refused he htype =>
      exact .catFails fun k hk hfile => htype ((kind_of_lookup hc h he hk).1.mp hfile)
  | shown he htype =>
      have hk := h.lookup_some ht he
      exact .cat hk ((kind_of_lookup hc h he hk).1.mpr htype)

theorem recounted (hc : Consistent s) (h : Represents a s) (k : Nat) (count : UInt16) :
    Consistent (s.setInode k { s.inode k with linkCnt := count }) ∧
      Represents a (s.setInode k { s.inode k with linkCnt := count }) := by
  set s' := s.setInode k { s.inode k with linkCnt := count } with hs'
  have hpointer : ∀ k' r, pointer (s'.inode k') r = pointer (s.inode k') r := fun k' r => by
    rw [hs', FsState.setInode_inode, Function.update_apply]
    split
    next heq => subst heq; cases r <;> rfl
    next => rfl
  have hfields : ∀ k', (s'.inode k').type = (s.inode k').type ∧
      (s'.inode k').size = (s.inode k').size := fun k' => by
    rw [hs', FsState.setInode_inode, Function.update_apply]
    split
    next heq => subst heq; exact ⟨rfl, rfl⟩
    next => exact ⟨rfl, rfl⟩
  have hdirect : ∀ k' i, direct (s'.inode k') i = direct (s.inode k') i := fun k' =>
    direct_congr (hpointer k')
  have hdirs : SameDirs s s' := sameDirs_setInode (fun r => by cases r <;> rfl) Iff.rfl rfl
  refine ⟨⟨hc.inOrder.recount k count, hc.sized.sameDirs hdirs, fun k' hk' i hi => ?_,
    fun file hmem => ?_⟩, h.cwd, fun k' => ?_, fun k' hk' name => ?_, fun k' hk' htype o ho => ?_,
    fun k' hk' htype => ?_, h.handles⟩
  · rw [hdirect] at hi ⊢
    exact hc.backed k' hk' i hi
  · rw [(hfields _).2]
    exact hc.sizes file hmem
  · have hkind : kindOf s' k' = kindOf s k' := kindOf_congr Iff.rfl fun _ => (hfields k').1
    exact (h.kind k').trans hkind.symm
  · have hold : Dir s k' := (hdirs.dir k').mp hk'
    rw [h.entry k' hold]
    exact congrArg (Option.map _) (lookup_congr (hdirs.slot_eq k' hold)).symm
  · rw [(hfields k').1] at htype
    rw [h.bytes k' hk' htype o ho]
    exact (congrFun (contentsOf_congr (hdirect k') fun _ _ => rfl) o).symm
  · rw [(hfields k').1] at htype
    rw [h.size k' hk' htype, (hfields k').2]

theorem ln_step {r : Int} (hc : Consistent s) (h : Represents a s)
    (hdone : LinkDone s srcPath dstPath r s') (hok : LinkOk s srcPath dstPath)
    (hroomy : ∀ e, lookup s s.here srcPath = some e → Roomy s dstPath) :
    Consistent s' ∧ ∃ a', Step a (.ln srcPath dstPath) (.code r) a' ∧ Represents a' s' := by
  have ht := hc.inOrder.tidy
  cases hdone with
  | missing hnone => exact ⟨hc, a, .lnFails (h.lookup_none ht hnone), h⟩
  | @existed e e' hsrc hdst =>
      obtain ⟨hc', h'⟩ := recounted hc h e.inode.toNat ((s.inode e.inode.toNat).linkCnt + 1)
      exact ⟨hc', a, .lnTaken (h.lookup_some ht hsrc) (h.lookup_some ht hdst), h'⟩
  | @created e ino q s₀ s₁ hsrc hcreated =>
      have hlive := live_of_lookup ht hsrc
      have hmiss := lookup_of_misses hcreated.misses
      have hne := (hok e hsrc).resolve_right fun hne => hne hmiss
      obtain rfl := Created.given hcreated hne
      have hadded := nameAdded_of_created ht hcreated (fun _ => hlive) (hroomy e hsrc)
      have hc₁ : Consistent s₁ := ⟨created_inOrder hc.inOrder hcreated hne hlive,
        hc.sized.created ht hcreated (hroomy e hsrc).insertOk,
        hadded.backed hc.backed fun hdead => absurd hlive hdead, hadded.sizes ht hc.sizes⟩
      obtain ⟨hc', h'⟩ := recounted hc₁ (hadded.represents ht h hlive) e.inode.toNat
        ((s₁.inode e.inode.toNat).linkCnt + 1)
      exact ⟨hc', _, .ln (h.lookup_some ht hsrc) (h.lookup_none ht hmiss), h'⟩

theorem unbound (hc : Consistent s) (h : Represents a s) (hfinds : Finds s s.here path 0 1024 q e)
    (hset : SlotSet s s₁ q none) (hsize : s₁.here.size = s.here.size - 1)
    (hdot : path ≠ dot ∧ path ≠ dotDot) :
    Consistent s₁ ∧ Represents (a.unbind path) s₁ := by
  have ht := hc.inOrder.tidy
  have hhere : s₁.inode s.cwd.toNat = s₁.here := by rw [FsState.here, hset.leaves.cwd]
  have htidy₁ : Tidy s₁ := ht.slotSet hset fun e he => by cases he
  have htype : ∀ k, (s₁.inode k).type = (s.inode k).type := fun k => by
    rcases eq_or_ne k s.cwd.toNat with rfl | hne
    · rw [hhere, hset.type, FsState.here]
    · rw [hset.leaves.inode k hne]
  have hlive : ∀ k, Live s₁ k ↔ Live s k := fun k => ⟨hset.leaves.of_live, hset.leaves.live⟩
  have htyped : Typed s₁ := fun k hk => by
    rw [htype]
    exact hc.inOrder.typed k ((hlive k).mp hk)
  have hother : ∀ k, Live s k → (s.inode k).type = 2 → Same k s s₁ := fun k hk hfile => by
    refine same_of_leaves hset.leaves ?_ hk
    rintro rfl
    rw [ht.cwd.2] at hfile
    cases hfile
  have hname := hfinds.name_eq
  refine ⟨⟨⟨htidy₁, htyped⟩, ?_, fun k hk => ?_, fun file hmem => ?_⟩, ?_, fun k => ?_,
    fun k hk name => ?_, fun k hk hfile o ho => ?_, fun k hk hfile => ?_, ?_⟩
  · exact hc.sized.cleared ht hset hfinds.slot_eq (hname.symm ▸ hdot) hsize
  · rcases eq_or_ne k s.cwd.toNat with rfl | hne
    · rw [hhere]
      exact hset.hasBlocks
    · have hold := (hlive k).mp hk
      exact hset.leaves.hasBlocks hne hold (hc.backed k hold)
  · rw [hset.leaves.files] at hmem
    obtain ⟨hfile, -, -, hfile'⟩ := ht.files file hmem
    rw [(hother _ hfile hfile').inode]
    exact hc.sizes file hmem
  · rw [hset.leaves.cwd]
    exact h.cwd
  · exact (h.kind k).trans (kindOf_congr (hlive k) fun _ => htype k).symm
  · have hold : Dir s k := ⟨(hlive k).mp hk.1, (htype k).symm.trans hk.2⟩
    have hentry : (a.unbind path).entry k name =
        if k = a.cwd then (if name = path then none else a.entry k name) else a.entry k name := by
      rw [Store.unbind]
      dsimp only
      rw [Function.update_apply]
      split
      next heq => rw [heq, Function.update_apply]
      next => rfl
    rw [hentry, h.cwd, h.entry k hold]
    split
    next heq =>
      subst heq
      rw [hhere]
      split
      next heq =>
        subst heq
        rw [lookup_of_misses, Option.map_none]
        intro q' _ _ e' he' hname'
        rcases eq_or_ne q' q with rfl | hq
        · rw [hset.slot_self] at he'
          cases he'
        · rw [hset.slot_of_ne q' hq] at he'
          exact hq (ht.here.names q' q e' e he' hfinds.slot_eq (hname'.trans hname.symm))
      next hne =>
        have hsame : lookup s₁ s₁.here name = lookup s s.here name := by
          unfold lookup
          congr 1
          funext q'
          rcases eq_or_ne q' q with rfl | hq
          · have hother : ¬e.name = name := fun heq => hne (heq.symm.trans hname)
            rw [hset.slot_self, hfinds.slot_eq, Option.filter_some, if_neg (by simp [hother]),
              Option.filter_none]
          · rw [hset.slot_of_ne q' hq]
        rw [hsame, FsState.here]
    next hne => rw [(same_of_leaves hset.leaves hne hold.1).lookup_eq]
  · rw [htype] at hfile
    have hold := (hlive k).mp hk
    rw [(hother k hold hfile).contents]
    exact h.bytes k hold hfile o ho
  · rw [htype] at hfile
    have hold := (hlive k).mp hk
    rw [(hother k hold hfile).inode]
    exact h.size k hold hfile
  · rw [hset.leaves.files]
    exact h.handles

theorem discarded_represents (h : Represents a s) (k : Nat) :
    Represents (a.discard k) (discarded s k) := by
  have hlive : ∀ k', Live (discarded s k) k' → Live s k' := fun k' hk' =>
    (live_discarded.mp hk').2
  refine ⟨h.cwd, fun k' => ?_, fun k' hk' => h.entry k' ⟨hlive k' hk'.1, hk'.2⟩,
    fun k' hk' => h.bytes k' (hlive k' hk'), fun k' hk' => h.size k' (hlive k' hk'), h.handles⟩
  have hkind : (a.discard k).kind k' = if k' = k then none else a.kind k' :=
    Function.update_apply ..
  rw [hkind]
  split
  next heq =>
    refine (kindOf_none.mpr fun hk' => ?_).symm
    exact (live_discarded.mp hk').1 heq
  next hne =>
    rw [h.kind]
    refine (kindOf_congr ⟨hlive k', fun hk' => live_discarded.mpr ⟨hne, hk'⟩⟩ fun _ => rfl).symm

theorem discarded_consistent (hc : Consistent s) (ho : InOrder (discarded s k)) :
    Consistent (discarded s k) :=
  ⟨ho, hc.sized.discarded k, fun k' hk' => hc.backed k' (live_discarded.mp hk').2, hc.sizes⟩

theorem lastName_store (h : Represents a s)
    (hlast : LastName s path e.inode.toNat) : a.LastName path e.inode.toNat := by
  refine ⟨fun dir name hdir hne hentry => ?_, fun handle hmem => ?_⟩
  · rw [h.kind, kindOf_directory] at hdir
    rw [h.entry dir hdir] at hentry
    obtain ⟨e', he', heq⟩ := Option.map_eq_some_iff.mp hentry
    rcases lookup_cases s (s.inode dir) name with ⟨q, e'', hfinds, hsome⟩ | ⟨-, hnone⟩
    · obtain rfl := Option.some.inj (he'.symm.trans hsome)
      obtain ⟨hcwd, hname⟩ := hlast.names dir hdir hne q e' hfinds.slot_eq heq
      exact ⟨hcwd.trans h.cwd.symm, hfinds.name_eq.symm.trans hname⟩
    · rw [hnone] at he'
      cases he'
  · rw [h.handles] at hmem
    obtain ⟨entry, hentry, heq⟩ := List.mem_map.mp hmem
    obtain ⟨file, rfl, rfl⟩ := Option.map_eq_some_iff.mp heq
    exact hlast.files file hentry

theorem dropped_step (hc : Consistent s) (h : Represents a s)
    (hfinds : Finds s s.here path 0 1024 q e) (hset : SlotSet s s₁ q none)
    (hsize : s₁.here.size = s.here.size - 1) (hdot : path ≠ dot ∧ path ≠ dotDot)
    (ho : InOrder s') (hdropped : Dropped s₁ e.inode.toNat s') :
    Consistent s' ∧ (Represents (a.unbind path) s' ∨
      (s₁.inode e.inode.toNat).linkCnt = 1 ∧
        Represents ((a.unbind path).discard e.inode.toNat) s') := by
  obtain ⟨hc₁, h₁⟩ := unbound hc h hfinds hset hsize hdot
  cases hdropped with
  | counted _ =>
      obtain ⟨hc', h'⟩ := recounted hc₁ h₁ e.inode.toNat ((s₁.inode e.inode.toNat).linkCnt - 1)
      exact ⟨hc', Or.inl h'⟩
  | last hone =>
      exact ⟨discarded_consistent hc₁ ho, Or.inr ⟨hone, discarded_represents h₁ _⟩⟩

theorem rm_step {r : Int} (hc : Consistent s) (h : Represents a s)
    (hdone : RemoveDone s path 2 r s') (hok : RemoveOk s path 2)
    (hcounts : RemovalCounts s path 2) :
    Consistent s' ∧ ∃ a', Step a (.rm path) (.code r) a' ∧ Represents a' s' := by
  have ht := hc.inOrder.tidy
  have ho' := hdone.left.inOrder hc.inOrder hok
  cases hdone with
  | missing hnone =>
      refine ⟨hc, a, .rmFails fun k hk => ?_, h⟩
      rw [h.lookup_none ht hnone] at hk
      cases hk
  | wrongType he htype =>
      exact ⟨hc, a, .rmFails fun k hk hfile => htype ((kind_of_lookup hc h he hk).1.mp hfile), h⟩
  | notEmpty _ _ hone _ => cases hone
  | @removed q e s₁ s' hfinds htype hempty hset hsize hdropped =>
      have he := lookup_of_finds hfinds
      have hk := h.lookup_some ht he
      have hfile := (kind_of_lookup hc h he hk).1.mpr htype
      obtain ⟨-, hcwd, hlast⟩ := hok e he htype hempty
      have hne : e.inode.toNat ≠ s.cwd.toNat := fun heq => hcwd (UInt32.toNat_inj.mp heq).symm
      obtain ⟨hc', h' | ⟨hone, h'⟩⟩ := dropped_step hc h hfinds hset hsize
        (hcounts e he htype hempty) ho' hdropped
      · exact ⟨hc', _, .rm hk hfile, h'⟩
      · rw [hset.leaves.inode _ hne] at hone
        exact ⟨hc', _, .rmLast hk hfile (lastName_store h (hlast hone)), h'⟩

theorem rmdir_step {r : Int} (hc : Consistent s) (h : Represents a s)
    (hdone : RemoveDone s path 1 r s') (hok : RemoveOk s path 1)
    (hcounts : RemovalCounts s path 1) :
    Consistent s' ∧ ∃ a', Step a (.rmdir path) (.code r) a' ∧ Represents a' s' := by
  have ht := hc.inOrder.tidy
  have ho' := hdone.left.inOrder hc.inOrder hok
  cases hdone with
  | missing hnone =>
      refine ⟨hc, a, .rmdirFails fun k hk => ?_, h⟩
      rw [h.lookup_none ht hnone] at hk
      cases hk
  | wrongType he htype =>
      exact ⟨hc, a, .rmdirFails fun k hk hdir =>
        absurd ((kind_of_lookup hc h he hk).2.mp hdir) htype, h⟩
  | @notEmpty e he htype _ hsize =>
      refine ⟨hc, a, .rmdirFails fun k hk hdir hempty => hsize ?_, h⟩
      rw [h.lookup_some ht he] at hk
      obtain rfl := Option.some.inj hk
      exact (empty_iff h hc.sized ⟨live_of_lookup ht he, htype⟩).mp hempty
  | @removed q e s₁ s' hfinds htype hempty hset hsize hdropped =>
      have he := lookup_of_finds hfinds
      have hk := h.lookup_some ht he
      have hdir := (kind_of_lookup hc h he hk).2.mpr htype
      have hnone : a.Empty e.inode.toNat :=
        (empty_iff h hc.sized ⟨live_of_lookup ht he, htype⟩).mpr (hempty rfl)
      obtain ⟨-, hcwd, hlast⟩ := hok e he htype hempty
      have hne : e.inode.toNat ≠ s.cwd.toNat := fun heq => hcwd (UInt32.toNat_inj.mp heq).symm
      obtain ⟨hc', h' | ⟨hone, h'⟩⟩ := dropped_step hc h hfinds hset hsize
        (hcounts e he htype hempty) ho' hdropped
      · exact ⟨hc', _, .rmdir hk hdir hnone, h'⟩
      · rw [hset.leaves.inode _ hne] at hone
        exact ⟨hc', _, .rmdirLast hk hdir hnone (lastName_store h (hlast hone)), h'⟩

end LabKernel.StoreRefinement
