import LabKernel.TidyRuns
import Mathlib.Data.Finset.Prod

/-!
Hard links (`fs_ln`): what a call promises and when it keeps the promise.
-/

namespace LabKernel.HardLinks

open LabKernel.BlockCache
open LabKernel.BlockFreeing
open LabKernel.BlockObject
open LabKernel.BlockOwnership
open LabKernel.ByteMemory
open LabKernel.CalmMachines
open LabKernel.ComposedPrograms
open LabKernel.DirectData
open LabKernel.Directories
open LabKernel.DirectoryCalls
open LabKernel.FileWrites
open LabKernel.FsCode
open LabKernel.FsLayout
open LabKernel.FsPrimitives
open LabKernel.FsRuns
open LabKernel.FsTables
open LabKernel.FsView
open LabKernel.InertReads
open LabKernel.PathWalks
open LabKernel.ProgramLogic
open LabKernel.SteadyPrograms
open LabKernel.TidyCalls
open LabKernel.TidyDisk
open LabKernel.TidyRuns
open LabKernel.TransitionSystem

variable {m m' : Machine Bytes Globals} {s s' s₀ s₁ : FsState}
  {path srcPath dstPath : List UInt8} {k k' q q' : Nat} {e : DirEntry} {ino : UInt32} {r : Int}

/-- A valid entry of a directory. -/
def HasEntry (s : FsState) (k q : Nat) (e : DirEntry) : Prop :=
  Dir s k ∧ slot s (s.inode k) q = some e

/-- The valid entries, each with its directory. -/
@[irreducible]
def entries (m : Machine Bytes Globals) : Finset (Nat × Nat) :=
  (Finset.range maxInodeNum ×ˢ Finset.range 1024).filter fun dq =>
    inodeBit m dq.1 = true ∧ (inodeAt m dq.1).type = 1 ∧
      (slot (shown m) (inodeAt m dq.1) dq.2).isSome

theorem mem_entries : (k, q) ∈ entries m ↔ ∃ e, HasEntry (shown m) k q e := by
  unfold entries
  rw [Finset.mem_filter, Finset.mem_product, Finset.mem_range, Finset.mem_range,
    Option.isSome_iff_exists]
  constructor
  · rintro ⟨⟨hk, -⟩, hused, htype, e, he⟩
    exact ⟨e, ⟨⟨hk, hused⟩, htype⟩, he⟩
  · rintro ⟨e, ⟨⟨hk, hused⟩, htype⟩, he⟩
    exact ⟨⟨hk, lt_of_slot he⟩, hused, htype, e, he⟩

theorem hasEntry_shown (h : Realizes m s) (ht : Tidy s) :
    HasEntry (shown m) k q e ↔ HasEntry s k q e := by
  unfold HasEntry
  rw [dir_shown h]
  refine and_congr_right fun hk => ?_
  rw [slot_dir_shown h ht hk]

theorem card_entries_congr
    (h : ∀ k q, (∃ e, HasEntry (shown m') k q e) ↔ ∃ e, HasEntry (shown m) k q e) :
    (entries m').card = (entries m).card := by
  congr 1
  ext ⟨k, q⟩
  rw [mem_entries, mem_entries, h]

theorem card_entries_insert (hnew : ¬∃ e, HasEntry (shown m) k q e)
    (h : ∀ k' q', (∃ e, HasEntry (shown m') k' q' e) ↔
      (k' = k ∧ q' = q) ∨ ∃ e, HasEntry (shown m) k' q' e) :
    (entries m').card = (entries m).card + 1 := by
  have hinsert : entries m' = insert (k, q) (entries m) := by
    ext ⟨k', q'⟩
    rw [Finset.mem_insert, mem_entries, mem_entries, h, Prod.mk.injEq]
  rw [hinsert, Finset.card_insert_of_notMem fun hmem => hnew (mem_entries.mp hmem)]

theorem slot_countUp (s : FsState) (k k' q : Nat) :
    slot (countUp s k) ((countUp s k).inode k') q = slot s (s.inode k') q := by
  have hpointer : ∀ r, pointer ((countUp s k).inode k') r = pointer (s.inode k') r := by
    intro r
    rw [countUp, FsState.setInode_inode, Function.update_apply]
    split
    next heq =>
      rw [heq]
      cases r <;> rfl
    next => rfl
  unfold slot
  rw [direct_congr hpointer]
  rfl

theorem dir_countUp : Dir (countUp s k) k' ↔ Dir s k' := by
  have htype : ((countUp s k).inode k').type = (s.inode k').type := by
    rw [countUp, FsState.setInode_inode, Function.update_apply]
    split
    next heq => rw [heq]
    next => rfl
  unfold Dir
  rw [htype]
  rfl

theorem hasEntry_countUp : HasEntry (countUp s k) k' q e ↔ HasEntry s k' q e := by
  unfold HasEntry
  rw [dir_countUp, slot_countUp]

theorem lookup_countUp (s : FsState) (k : Nat) (path : List UInt8) :
    lookup (countUp s k) (countUp s k).here path = lookup s s.here path :=
  lookup_congr fun q => slot_countUp s k _ q

theorem tidy_countUp (ht : Tidy s) (k : Nat) : Tidy (countUp s k) :=
  ht.setInode (fun r => by cases r <;> rfl) Iff.rfl fun htype => htype

/-- All entries are as they were, but those called `path` in the current
directory. -/
def OthersKept (path : List UInt8) (m m' : Machine Bytes Globals) : Prop :=
  ∀ k q e, (k = m.globals.cwdNode.toNat → e.name ≠ path) →
    (HasEntry (shown m') k q e ↔ HasEntry (shown m) k q e)

/-- The new name is there, and it is counted. -/
structure NewLink (srcPath dstPath : List UInt8) (m m' : Machine Bytes Globals)
    (e e' : DirEntry) : Prop where
  src : lookup (shown m) (shown m).here srcPath = some e
  dst : lookup (shown m') (shown m').here dstPath = some e'
  same : e'.inode = e.inode
  others : OthersKept dstPath m m'
  counted : (inodeAt m' e.inode.toNat).linkCnt.toNat + (entries m).card =
    (inodeAt m e.inode.toNat).linkCnt.toNat + (entries m').card

/-- Nothing on the disk, and nothing in memory but the console. -/
structure Unchanged (m m' : Machine Bytes Globals) : Prop where
  blocks : ∀ x < maxBlockNum, visible m' x = visible m x
  globals : m'.globals = { m.globals with console := m'.globals.console }

/-- The contract of `fs_ln`. -/
structure LnContract (srcPath dstPath : List UInt8) (r : Int) (m m' : Machine Bytes Globals) :
    Prop where
  linked : r = 0 → ∃ e e', NewLink srcPath dstPath m m' e e'
  failed : r = -1 → Unchanged m m'

/-- There is no such source, or the link is a new name, of an inode other than
the root whose counter is not full, in a directory with a free slot. -/
def LnFits (s : FsState) (srcPath dstPath : List UInt8) : Prop :=
  ∀ e, lookup s s.here srcPath = some e → e.inode ≠ 0 ∧
    (s.inode e.inode.toNat).linkCnt ≠ 65535 ∧ lookup s s.here dstPath = none ∧
      ∃ q < 1024, slot s s.here q = none

theorem blocks_of_evolves (h : Calm ∅ m) (hev : Evolves ∅ ∅ ∅ m m') :
    ∀ x < maxBlockNum, visible m' x = visible m x := by
  intro x hx
  rcases hev.visible_or x hx (Set.notMem_empty x) with heq | heq
  · exact heq
  · exact heq.trans (h.settled x hx (Set.notMem_empty x)).symm

theorem fsLn_unchanged (h : Realizes m s) (ht : Tidy s) (hm : Calm ∅ m)
    (hnone : lookup s s.here srcPath = none) :
    Runs (fsLn srcPath dstPath) m Any fun _ m' => Unchanged m m' := by
  set f : Globals → Globals := fun g => { g with console := [] } with hf
  have hprinted : Printing (Unseen f) := ⟨fun _ _ => rfl⟩
  have hsilent : Silent f (getInodeByFilename srcPath false 0) :=
    silent_composed (composed_lookup _ _)
  have hfail : Silent f (failWith "No such source file\n") :=
    silent_composed (composed_failWith _)
  have hlookup : Runs (getInodeByFilename srcPath false 0) m Any fun ino m' => Realizes m' s ∧
      ((∃ q e, Finds s s.here srcPath 0 1024 q e ∧ ino = e.inode ∧ isNegative ino = false) ∨
        (lookup s s.here srcPath = none ∧ isNegative ino = true)) := lookup_tidy h ht
  refine ((hsilent.runs (hlookup.and (idle_getInodeByFilename srcPath 0 m hm.ready.sound))).mono
    (fun _ _ _ => trivial) fun _ _ hq => hq).bind ?_
  rintro src m₁ ⟨⟨⟨-, ⟨q, e, hfinds, -⟩ | ⟨-, hnegative⟩⟩, hev₁⟩, hf₁⟩
  · rw [lookup_of_finds hfinds] at hnone
    cases hnone
  · rw [hnegative, if_pos rfl]
    refine (hfail.runs (idle_failWith _ m₁ hev₁.sound)).mono (fun _ _ he => he) ?_
    rintro _ m₂ ⟨hev₂, hf₂⟩
    refine ⟨blocks_of_evolves hm (hev₁.trans hev₂), ?_⟩
    have hsame : f m₂.globals = f m.globals := hf₂.trans hf₁
    calc m₂.globals = { f m₂.globals with console := m₂.globals.console } := rfl
      _ = { f m.globals with console := m₂.globals.console } := by rw [hsame]
      _ = { m.globals with console := m₂.globals.console } := rfl

theorem hasEntry_created (ht : Tidy s) {src : UInt32} (hne : src ≠ 0)
    (hcreated : Created s path src ino q s₀ s₁) : HasEntry s₁ k q' e ↔
      (k = s.cwd.toNat ∧ q' = q ∧ e = ⟨src, 1, path⟩) ∨
        ¬(k = s.cwd.toNat ∧ q' = q) ∧ HasEntry s k q' e := by
  have hset := hcreated.slotSet
  cases hcreated.provided with
  | new hzero _ _ => exact absurd hzero hne
  | given _ =>
      have hhere : s₁.inode s.cwd.toNat = s₁.here := by rw [FsState.here, hset.leaves.cwd]
      have hdir : Dir s₁ k ↔ Dir s k := by
        rcases eq_or_ne k s.cwd.toNat with rfl | hkc
        · refine iff_of_true ⟨hset.leaves.live ht.cwd.1, ?_⟩ ht.cwd
          rw [hhere, hset.type]
          exact ht.standing.type
        · exact dir_of_leaves hset.leaves hkc
      unfold HasEntry
      rw [hdir]
      rcases em (Dir s k) with hk | hk
      · rcases eq_or_ne k s.cwd.toNat with rfl | hkc
        · rw [hhere]
          rcases eq_or_ne q' q with rfl | hq
          · simp [hset.slot_self, hk, eq_comm]
          · rw [hset.slot_of_ne q' hq]
            simp [hq, hk, FsState.here]
        · rw [hset.leaves.slot_eq hkc hk.1]
          simp [hkc]
      · have hcwd : k ≠ s.cwd.toNat := by
          rintro rfl
          exact hk ht.cwd
        simp [hk, hcwd]

theorem linkCnt_countUp (s : FsState) (k : Nat) :
    ((countUp s k).inode k).linkCnt = (s.inode k).linkCnt + 1 := by
  rw [countUp, FsState.setInode_inode, Function.update_self]

theorem toNat_add_one (n : UInt16) : (n + 1).toNat = n.toNat + 1 ↔ n ≠ 65535 := by
  have hlt := n.toNat_lt
  rw [UInt16.toNat_add, show (1 : UInt16).toNat = 1 from rfl, Ne, ← UInt16.toNat_inj,
    show (65535 : UInt16).toNat = 65535 from rfl]
  omega

theorem not_newLink_of_existed (h : Realizes m s) (ht : Tidy s)
    (hsrc : lookup s s.here srcPath = some e) (h' : Realizes m' (countUp s e.inode.toNat))
    {e₁ e' : DirEntry} : ¬NewLink srcPath dstPath m m' e₁ e' := by
  intro hlink
  have ht' := tidy_countUp ht e.inode.toNat
  have hlive := live_of_lookup ht hsrc
  have hsame := hlink.src
  rw [lookup_shown h ht, hsrc] at hsame
  obtain rfl := Option.some.inj hsame
  have hcard : (entries m').card = (entries m).card := by
    refine card_entries_congr fun k q => exists_congr fun e => ?_
    rw [hasEntry_shown h' ht', hasEntry_shown h ht, hasEntry_countUp]
  have hcounted := hlink.counted
  have hlt := (s.inode e.inode.toNat).linkCnt.toNat_lt
  rw [hcard, h'.inode _ hlive.1, h.inode _ hlive.1, linkCnt_countUp, UInt16.toNat_add,
    show (1 : UInt16).toNat = 1 from rfl] at hcounted
  omega

theorem not_newLink_of_root (h : Realizes m s) (ht : Tidy s)
    (hsrc : lookup s s.here srcPath = some e) (hroot : e.inode = 0)
    (hcreated : Created s dstPath e.inode ino q s₀ s₁)
    (h' : Realizes m' (countUp s₁ e.inode.toNat)) {e₁ e' : DirEntry} :
    ¬NewLink srcPath dstPath m m' e₁ e' := by
  intro hlink
  have hlive := live_of_lookup ht hsrc
  have ht₁ : Tidy s₁ := ht.created hcreated fun _ => hlive
  have hdst := hlink.dst
  rw [lookup_shown h' (tidy_countUp ht₁ _), lookup_countUp,
    created_lookup ht hcreated fun _ => hlive] at hdst
  have hsame := hlink.src
  rw [lookup_shown h ht, hsrc] at hsame
  have hino := hlink.same
  rw [← Option.some.inj hdst, ← Option.some.inj hsame] at hino
  cases hcreated.provided with
  | given hne => exact hne hroot
  | new _ _ hfree =>
      rw [show ino = e.inode from hino, hlive.2] at hfree
      cases hfree

theorem newLink_iff_of_created (h : Realizes m s) (ht : Tidy s)
    (hsrc : lookup s s.here srcPath = some e) (hne : e.inode ≠ 0)
    (hcreated : Created s dstPath e.inode ino q s₀ s₁)
    (h' : Realizes m' (countUp s₁ e.inode.toNat)) :
    (∃ e₁ e', NewLink srcPath dstPath m m' e₁ e') ↔
      (s.inode e.inode.toNat).linkCnt ≠ 65535 ∧ slot s s.here q = none := by
  have hlive := live_of_lookup ht hsrc
  have ht₁ : Tidy s₁ := ht.created hcreated fun _ => hlive
  have ht' := tidy_countUp ht₁ e.inode.toNat
  have hdst : lookup (shown m') (shown m').here dstPath = some ⟨e.inode, 1, dstPath⟩ := by
    rw [lookup_shown h' ht', lookup_countUp, created_lookup ht hcreated fun _ => hlive]
    cases hcreated.provided with
    | given _ => rfl
    | new hzero _ _ => exact absurd hzero hne
  have hentry : ∀ k q' e', HasEntry (shown m') k q' e' ↔
      (k = s.cwd.toNat ∧ q' = q ∧ e' = ⟨e.inode, 1, dstPath⟩) ∨
        ¬(k = s.cwd.toNat ∧ q' = q) ∧ HasEntry (shown m) k q' e' := fun k q' e' => by
    rw [hasEntry_shown h' ht', hasEntry_shown h ht, hasEntry_countUp,
      hasEntry_created ht hne hcreated]
  have hcwd : m.globals.cwdNode = s.cwd := h.cwd
  have hold : ∀ e', HasEntry (shown m) s.cwd.toNat q e' ↔ slot s s.here q = some e' := fun e' => by
    rw [hasEntry_shown h ht]
    exact and_iff_right ht.cwd
  have hlinkCnt : (inodeAt m' e.inode.toNat).linkCnt = (inodeAt m e.inode.toNat).linkCnt + 1 := by
    have hset := hcreated.slotSet
    rw [h'.inode _ hlive.1, h.inode _ hlive.1, linkCnt_countUp]
    cases hcreated.provided with
    | new hzero _ _ => exact absurd hzero hne
    | given _ =>
        rcases eq_or_ne e.inode.toNat s.cwd.toNat with heq | hkc
        · rw [heq, ← hset.leaves.cwd]
          have hlinkCnt : (s₁.inode s₁.cwd.toNat).linkCnt = (s.inode s.cwd.toNat).linkCnt :=
            hset.linkCnt
          rw [hlinkCnt, hset.leaves.cwd]
        · rw [hset.leaves.inode _ hkc]
  have hcount := toNat_add_one (inodeAt m e.inode.toNat).linkCnt
  rw [← h.inode _ hlive.1]
  have hcard : slot s s.here q = none → (entries m').card = (entries m).card + 1 := by
    intro hfree
    refine card_entries_insert (k := s.cwd.toNat) (q := q) ?_ fun k' q' => ?_
    · rintro ⟨e', he'⟩
      rw [hold, hfree] at he'
      cases he'
    · constructor
      · rintro ⟨e', he'⟩
        rcases (hentry k' q' e').mp he' with ⟨hk', hq', -⟩ | ⟨-, hkept⟩
        · exact Or.inl ⟨hk', hq'⟩
        · exact Or.inr ⟨e', hkept⟩
      · rintro (⟨rfl, rfl⟩ | ⟨e', he'⟩)
        · exact ⟨_, (hentry _ _ _).mpr (Or.inl ⟨rfl, rfl, rfl⟩)⟩
        · refine ⟨e', (hentry k' q' e').mpr (Or.inr ⟨?_, he'⟩)⟩
          rintro ⟨rfl, rfl⟩
          rw [hold, hfree] at he'
          cases he'
  constructor
  · rintro ⟨e₁, e', hlink⟩
    have hsame := hlink.src
    rw [lookup_shown h ht, hsrc] at hsame
    obtain rfl := Option.some.inj hsame
    -- The entry that was in the slot would have to be there still.
    have hfree : slot s s.here q = none := by
      cases hslot : slot s s.here q with
      | none => rfl
      | some old =>
          have hname : old.name ≠ dstPath :=
            hcreated.misses q (Nat.zero_le _) hcreated.lt old hslot
          have hkept := (hlink.others s.cwd.toNat q old fun _ => hname).mpr ((hold old).mpr hslot)
          rcases (hentry _ _ _).mp hkept with ⟨-, -, heq⟩ | ⟨hnot, -⟩
          · rw [heq] at hname
            exact absurd rfl hname
          · exact absurd ⟨rfl, rfl⟩ hnot
    refine ⟨?_, hfree⟩
    have hcounted := hlink.counted
    rw [hcard hfree, hlinkCnt] at hcounted
    exact hcount.mp (by omega)
  · rintro ⟨hfull, hfree⟩
    refine ⟨e, _, ?_, hdst, rfl, fun k q' e' hother => ?_, ?_⟩
    · rw [lookup_shown h ht, hsrc]
    · rw [hentry]
      constructor
      · rintro (⟨hk, -, rfl⟩ | ⟨-, hkept⟩)
        · exact absurd rfl (hother (hk.trans (by rw [hcwd])))
        · exact hkept
      · intro hkept
        refine Or.inr ⟨?_, hkept⟩
        rintro ⟨rfl, rfl⟩
        rw [hold, hfree] at hkept
        cases hkept
    · rw [hcard hfree, hlinkCnt, hcount.mpr hfull]
      omega

theorem free_iff_of_created {newInodeIdx : UInt32}
    (hcreated : Created s path newInodeIdx ino q s₀ s₁) :
    (∃ q < 1024, slot s s.here q = none) ↔ slot s s.here q = none := by
  refine ⟨?_, fun hfree => ⟨q, hcreated.lt, hfree⟩⟩
  rintro ⟨q', hlt, hfree⟩
  rcases hcreated.chosen with hchosen | ⟨rfl, hall⟩
  · exact hchosen
  · rcases Nat.eq_zero_or_pos q' with rfl | hpos
    · exact hfree
    · exact absurd hfree (hall q' hpos hlt)

theorem lnFits_shown (h : Realizes m s) (ht : Tidy s) :
    LnFits (shown m) srcPath dstPath ↔ LnFits s srcPath dstPath := by
  have hcwd : (shown m).cwd = s.cwd := h.cwd
  have hslot : ∀ q, slot (shown m) (shown m).here q = slot s s.here q := by
    intro q
    rw [FsState.here, hcwd]
    exact slot_dir_shown h ht ht.cwd q
  unfold LnFits
  rw [lookup_shown h ht, lookup_shown h ht]
  simp only [hslot]
  refine forall_congr' fun e => forall_congr' fun he => ?_
  rw [inode_shown h (live_of_lookup ht he)]

theorem lnContract_iff_of_done (h : Realizes m s) (ht : Tidy s) (hm : Calm ∅ m)
    (hrun : (fsLn srcPath dstPath).run m = (.ok r, m')) (h' : Realizes m' s')
    (hdone : LinkDone s srcPath dstPath r s') :
    LnContract srcPath dstPath r m m' ↔ LnFits s srcPath dstPath := by
  have hlinked : r = 0 → (LnContract srcPath dstPath r m m' ↔
      ∃ e e', NewLink srcPath dstPath m m' e e') := by
    rintro rfl
    exact ⟨fun hcontract => hcontract.linked rfl, fun hlink => ⟨fun _ => hlink, nofun⟩⟩
  cases hdone with
  | missing hnone =>
      refine iff_of_true ⟨nofun, fun _ => ?_⟩ fun e he => ?_
      · exact (fsLn_unchanged h ht hm hnone).ok hrun
      · rw [hnone] at he
        cases he
  | existed hsrc hdst =>
      rw [hlinked rfl]
      refine iff_of_false ?_ fun hfits => ?_
      · rintro ⟨e₁, e', hlink⟩
        exact not_newLink_of_existed h ht hsrc h' hlink
      · have hnone := (hfits _ hsrc).2.2.1
        rw [hdst] at hnone
        cases hnone
  | @created e ino q s₀ s₁ hsrc hcreated =>
      rw [hlinked rfl]
      rcases eq_or_ne e.inode 0 with hroot | hne
      · refine iff_of_false ?_ fun hfits => (hfits e hsrc).1 hroot
        rintro ⟨e₁, e', hlink⟩
        exact not_newLink_of_root h ht hsrc hroot hcreated h' hlink
      · rw [newLink_iff_of_created h ht hsrc hne hcreated h']
        have hnone := lookup_of_misses hcreated.misses
        constructor
        · rintro ⟨hfull, hfree⟩ e₁ he₁
          obtain rfl := Option.some.inj (hsrc.symm.trans he₁)
          exact ⟨hne, hfull, hnone, (free_iff_of_created hcreated).mpr hfree⟩
        · intro hfits
          obtain ⟨-, hfull, -, hfree⟩ := hfits e hsrc
          exact ⟨hfull, (free_iff_of_created hcreated).mp hfree⟩

theorem strayed_of_ordered (h : Ordered m) : m.strayed = false := by
  obtain ⟨s, hs, -⟩ := h
  exact hs.ready.sound.strayed

theorem lnContract_iff_of_ordered (hm : Calm ∅ m) (h : Ordered m) (hname : NameOk dstPath)
    (hrun : (fsLn srcPath dstPath).run m = (.ok r, m')) :
    LnContract srcPath dstPath r m m' ↔ LnFits (shown m) srcPath dstPath := by
  obtain ⟨s, hs, ho⟩ := h
  obtain ⟨s', hs', hdone⟩ := (fsLn_done hs ho.tidy hname).ok hrun
  rw [lnFits_shown hs ho.tidy]
  exact lnContract_iff_of_done hs ho.tidy hm hrun hs' hdone

/-- In every run of careful calls, `fs_ln` keeps its contract exactly if there
is no source, or the link is new, not of the root, counted without wrapping,
and fits into the directory. -/
theorem ln_contract_iff (h : ReachableUnder fileSystem Careful m) (hname : NameOk dstPath)
    (hrun : (fsLn srcPath dstPath).run m = (.ok r, m')) :
    LnContract srcPath dstPath r m m' ↔ LnFits (shown m) srcPath dstPath := by
  have hordered := ordered_of_tended (h.mono fun _ _ => tended_of_careful)
  have hm := calm_of_reachable (h.mono fun _ _ hcareful => hcareful.1) (strayed_of_ordered hordered)
  exact lnContract_iff_of_ordered hm hordered hname hrun

theorem careful_touch {path : List UInt8} (hname : NameOk path) (m : Machine Bytes Globals) :
    Careful m (.touch path) := ⟨trivial, hname⟩

theorem lookup_eq_none_of_returned (h : Ordered m)
    (hreturned :
      (returned ((getInodeByFilename path false 0).run m).1).map isNegative = some true) :
    lookup (shown m) (shown m).here path = none := by
  obtain ⟨s, hs, ho⟩ := h
  obtain ⟨ino, hino, hnegative⟩ := Option.map_eq_some_iff.mp hreturned
  have hruns : Runs (getInodeByFilename path false 0) m Any fun ino m' => Realizes m' s ∧
      ((∃ q e, Finds s s.here path 0 1024 q e ∧ ino = e.inode ∧ isNegative ino = false) ∨
        (lookup s s.here path = none ∧ isNegative ino = true)) := lookup_tidy hs ho.tidy
  rw [lookup_shown hs ho.tidy]
  obtain ⟨-, ⟨q, e, -, -, hpositive⟩ | ⟨hnone, -⟩⟩ := hruns.ok (run_eq_of_returned hino)
  · rw [hnegative] at hpositive
    cases hpositive
  · exact hnone

/-- A file and a new name for it. -/
theorem firstLink_contract : ∃ m m', replay next blankFormatted [.touch [97]] = some m ∧
    (fsLn [97] [98]).run m = (.ok 0, m') ∧ LnContract [97] [98] 0 m m' := by
  have hfacts : (replay next blankFormatted [.touch [97]]).map (fun m =>
      ((lookup (shown m) (shown m).here [97]).map fun e =>
        (decide (e.inode = 0), ((shown m).inode e.inode.toNat).linkCnt),
        (returned ((getInodeByFilename [98] false 0).run m).1).map isNegative,
        (slot (shown m) (shown m).here 3).isNone,
        returned ((fsLn [97] [98]).run m).1)) =
        some (some (false, 1), some true, true, some 0) := by
    rw [blankFormatted_eq]
    decide +kernel
  obtain ⟨m, hreplay, hfacts⟩ := Option.map_eq_some_iff.mp hfacts
  simp only [Prod.mk.injEq] at hfacts
  obtain ⟨hsrc, hdst, hfree, hreturned⟩ := hfacts
  have hreachable : ReachableUnder fileSystem Careful m := by
    refine reachableUnder_of_always (ReachableUnder.start formatted_blankFormatted) _ ?_ hreplay
    intro op hop s
    rw [List.mem_singleton.mp hop]
    exact careful_touch (nameOk_singleton (by decide)) s
  have hordered := ordered_of_tended (hreachable.mono fun _ _ => tended_of_careful)
  have hrun := run_eq_of_returned hreturned
  refine ⟨m, _, hreplay, hrun, ?_⟩
  refine (ln_contract_iff hreachable (nameOk_singleton (by decide)) hrun).mpr fun e he => ?_
  obtain ⟨e₁, he₁, hfields⟩ := Option.map_eq_some_iff.mp hsrc
  obtain rfl := Option.some.inj (he₁.symm.trans he)
  obtain ⟨hne, hcount⟩ := Prod.mk.inj hfields
  refine ⟨of_decide_eq_false hne, ?_,
    lookup_eq_none_of_returned hordered hdst, 3, by decide,
    Option.isNone_iff_eq_none.mp hfree⟩
  rw [hcount]
  decide

/-- Two files. -/
def twoFiles : List FsOp := [.touch [97], .touch [98]]

/-- A link to a name that is there counts the source up and makes no entry. -/
theorem existingLink_no_contract : ∃ m m', Reachable fileSystem m ∧
    (fsLn [97] [98]).run m = (.ok 0, m') ∧ ¬LnContract [97] [98] 0 m m' := by
  have hfacts : (replay next blankFormatted twoFiles).map (fun m =>
      ((lookup (shown m) (shown m).here [97]).isSome, (lookup (shown m) (shown m).here [98]).isSome,
        returned ((fsLn [97] [98]).run m).1)) = some (true, true, some 0) := by
    rw [blankFormatted_eq]
    decide +kernel
  obtain ⟨m, hreplay, hfacts⟩ := Option.map_eq_some_iff.mp hfacts
  simp only [Prod.mk.injEq] at hfacts
  obtain ⟨hsrc, hdst, hreturned⟩ := hfacts
  have hstart : ReachableUnder fileSystem Careful blankFormatted :=
    ReachableUnder.start formatted_blankFormatted
  have hreachable : ReachableUnder fileSystem Careful m := by
    refine reachableUnder_of_always hstart _ ?_ hreplay
    intro op hop s
    simp only [twoFiles, List.mem_cons, List.not_mem_nil, or_false] at hop
    rcases hop with rfl | rfl
    · exact careful_touch (nameOk_singleton (by decide)) s
    · exact careful_touch (nameOk_singleton (by decide)) s
  have hrun := run_eq_of_returned hreturned
  refine ⟨m, _, reachable_of_replay (ReachableUnder.start formatted_blankFormatted) _ hreplay, hrun,
    fun hcontract => ?_⟩
  have hordered := ordered_of_tended (hreachable.mono fun _ _ => tended_of_careful)
  have hm := calm_of_reachable (hreachable.mono fun _ _ hcareful => hcareful.1) (strayed_of_ordered hordered)
  have hname : NameOk [98] := nameOk_singleton (by decide)
  have hfits := (lnContract_iff_of_ordered hm hordered hname hrun).mp hcontract
  obtain ⟨e, he⟩ := Option.isSome_iff_exists.mp hsrc
  have hnone := (hfits e he).2.2.1
  rw [hnone] at hdst
  cases hdst

end LabKernel.HardLinks
