import LabKernel.CacheTraffic
import LabKernel.CalmMachines
import LabKernel.DirectoryCalls
import LabKernel.FileWrites
import LabKernel.HandleRecycling

/-!
When `fs_fread` leaves a file as it is.

A read shares `inode_modify_data` with a write: past the end it extends the
file, in a hole it allocates a block and fills it in the cache only, and
behind an index block it writes into the index block.  A read of bytes of the
direct part that the file has changes nothing but the position.
-/

namespace LabKernel.InertReads

open LabKernel.BlockCache
open LabKernel.BlockObject
open LabKernel.BlockOwnership
open LabKernel.ByteMemory
open LabKernel.CacheTraffic
open LabKernel.CallSafety
open LabKernel.CalmMachines
open LabKernel.DirectData
open LabKernel.DirectoryCalls
open LabKernel.FileWrites
open LabKernel.FsCode
open LabKernel.FsLayout
open LabKernel.FsPrimitives
open LabKernel.FsRuns
open LabKernel.FsTables
open LabKernel.HandleRecycling
open LabKernel.HandleSafety
open LabKernel.ProgramLogic
open LabKernel.TransitionSystem

variable {m m' m'' : Machine Bytes Globals} {c : Nat → Bytes} {file : File} {n : Inode}
  {fd length : Nat} {buff buffer : Bytes} {p : UInt32}

/-- Nothing is said of a run that stops. -/
def Stopped : Failure → Machine Bytes Globals → Prop := fun _ _ => True

/-- What others do with the cache in the meantime. -/
def passTraffic : List Traffic → Fs Unit
  | [] => return ()
  | t :: rest => do
      t.program
      passTraffic rest

/-- A later read of the byte at position `o`: the result of `fs_fread` and the
byte in the buffer, which was 0 before. -/
def laterRead (ts : List Traffic) (fd : Nat) (o : UInt32) : Fs (Int × UInt8) := do
  passTraffic ts
  let _ ← fsLseek fd o seekSet
  let (result, buff) ← fsFread fd zeros 1
  return (result, buff 0)

/-- The object of `File::pool` behind a handle. -/
def objectOf (m : Machine Bytes Globals) (fd : Nat) : Option File := (m.globals.files[fd]?).join

/-- A machine with nothing in the cache that can be lost, whose blocks show
the contents `c`. -/
structure Showing (c : Nat → Bytes) (m : Machine Bytes Globals) : Prop where
  calm : Calm ∅ m
  visible_eq : ∀ x < maxBlockNum, visible m x = c x

theorem Showing.ready (h : Showing c m) : Ready m := h.calm.ready

theorem Showing.evolves {T T' : Finset Nat} (h : Showing c m) (hev : Evolves T T' ∅ m m')
    (hsb : m'.globals.superblock = m.globals.superblock) : Showing c m' where
  calm := h.calm.idle hev hsb
  visible_eq x hx := by
    rw [hev.visible_of_settled hx (Set.notMem_empty x) (h.calm.settled x hx (Set.notMem_empty x))]
    exact h.visible_eq x hx

/-- The byte at this position is not in a block past the end of the disk. -/
def OnDisk (n : Inode) (o : Nat) : Prop :=
  o < l0Bound → (direct n (o / 4096)).toNat < maxBlockNum

/-- The byte of a file that a read delivers.  Behind the index blocks nothing
arrives in the buffer. -/
def byteOf (c : Nat → Bytes) (n : Inode) (o : Nat) : UInt8 :=
  if o < l0Bound then
    if direct n (o / 4096) = 0 then 0 else c (direct n (o / 4096)).toNat (o % 4096)
  else 0

/-- What a later read delivers. -/
def readOf (c : Nat → Bytes) (object : Option File) (o : Nat) : Int × UInt8 :=
  match object with
  | none => (-1, 0)
  | some file =>
      if file.mode &&& oRdonly = 0 then (-1, 0) else (1, byteOf c file.inode o)

theorem passTraffic_showing (h : Showing c m) (ts : List Traffic) :
    Runs (passTraffic ts) m Stopped fun _ m' => Showing c m' ∧ m'.globals = m.globals := by
  induction ts generalizing m with
  | nil => exact runs_pure ⟨h, rfl⟩
  | cons t rest ih =>
      refine (runs_traffic h.ready.sound t).bind ?_
      rintro _ m₁ ⟨⟨T, hev⟩, hg⟩
      refine (ih (h.evolves hev (congrArg Globals.superblock hg))).mono (fun _ _ he => he) ?_
      rintro _ m₂ ⟨h₂, hg₂⟩
      exact ⟨h₂, hg₂.trans hg⟩

theorem setFile_showing (h : Showing c m) (fd : Nat) (file : Option File)
    {E : Failure → Machine Bytes Globals → Prop} :
    Runs (setFile fd file) m E fun _ m' =>
      Showing c m' ∧ m'.globals = { m.globals with files := m.globals.files.set fd file } := by
  refine (runs_modifyGlobals h.ready.sound (fun g => { g with files := g.files.set fd file })
    (T := ∅)).mono (fun _ _ he => he) ?_
  rintro _ m' ⟨hev, -, -, hg⟩
  exact ⟨h.evolves hev (by rw [hg]), hg⟩

theorem openPointer_showing (h : Showing c m) (p : UInt32) :
    Runs (openPointer none p) m Stopped fun r m' => Sound m' ∧ (∃ T, Fresh T m' r.2.2) ∧
      (p.toNat < maxBlockNum →
        visible m' r.2.2.blockid = if p = 0 then zeros else c p.toNat) ∧
      (p ≠ 0 → r.1 = p ∧ r.2.1 = false ∧ Showing c m' ∧ m'.globals = m.globals) := by
  have hone : ∀ x : Nat, ({x} : Finset Nat).card ≤ cacheSize := fun x => by simp [cacheSize]
  unfold openPointer
  split
  next hzero =>
    refine ((runs_blockAlloc h.ready (T := blockMapArea) (by decide)
      (Finset.Subset.refl _)).mono (fun _ _ _ => trivial) fun _ _ hq => hq).bind ?_
    rintro new m₁ ⟨-, hev₁, -, -⟩
    refine Runs.bind (runs_pure (Q := fun _ m' => m' = m₁) rfl) ?_
    rintro _ _ rfl
    refine (runs_openBlock hev₁.sound (hone _) (Finset.mem_singleton_self _)
      fun _ => trivial).bind ?_
    rintro block m₂ ⟨-, hfresh, hev₂, -⟩
    refine (runs_store hev₂.sound hfresh zeros).bind ?_
    rintro _ m₃ ⟨hev₃, hv, -⟩
    exact runs_pure ⟨hev₃.sound, ⟨_, hev₃.fresh _ hfresh⟩, fun _ => hv,
      fun hne => absurd hzero hne⟩
  next hne =>
    refine (runs_openBlock h.ready.sound (hone _) (Finset.mem_singleton_self _)
      fun _ => trivial).bind ?_
    rintro block m₁ ⟨hid, hfresh, hev, hg⟩
    have h₁ := h.evolves hev (congrArg Globals.superblock hg)
    refine runs_pure ⟨hev.sound, ⟨_, hfresh⟩, fun hlt => ?_, fun _ => ⟨rfl, rfl, h₁, hg⟩⟩
    rw [hid]
    exact h₁.visible_eq _ hlt

theorem readDirect_showing (h : Showing c m) {offset length : Nat} :
    Runs (inodeModifyDataRecur false 0 none p (.buffer buffer) offset length) m Stopped fun r m' =>
      (p.toNat < maxBlockNum →
          r.2.1 = .buffer (copy buffer 0 (if p = 0 then zeros else c p.toNat) offset length)) ∧
        (p ≠ 0 → r.1 = p ∧ r.2.2 = false ∧ Showing c m' ∧ m'.globals = m.globals) := by
  refine (openPointer_showing h p).bind ?_
  rintro ⟨blockid, new, block⟩ m₁ ⟨hsound, ⟨T, hfresh⟩, hv, hold⟩
  have htransfer : Runs (transfer false block (.buffer buffer) offset length) m₁ Stopped
      fun data m' => data = .buffer (copy buffer 0 (visible m₁ block.blockid) offset length) ∧
        m' = m₁ := by
    refine (runs_load hsound hfresh).bind ?_
    rintro d m₁ ⟨rfl, rfl⟩
    exact runs_pure ⟨rfl, rfl⟩
  refine htransfer.bind ?_
  rintro data m₂ ⟨rfl, rfl⟩
  exact runs_pure ⟨fun hlt => congrArg (fun d => Data.buffer (copy buffer 0 d offset length))
    (hv hlt), hold⟩

theorem readIndirect_buffer (depth : Nat) {offset length : Nat} :
    Runs (inodeModifyDataRecur false (depth + 1) none p (.buffer buffer) offset length) m Stopped
      fun r _ => r.2.1 = .buffer buffer := by
  refine (runs_any _ m).bind ?_
  rintro ⟨_, _, block⟩ m₁ -
  refine (runs_any _ m₁).bind fun _ m₂ _ => ?_
  refine (runs_any _ m₂).bind fun _ m₃ _ => ?_
  refine (runs_any _ m₃).bind ?_
  rintro ⟨_, _, modified⟩ m₄ -
  exact (runs_any _ m₄).bind fun _ _ _ => runs_pure rfl

theorem rootOf_direct {o : Nat} (h : o < l0Bound) :
    rootOf o = .direct ⟨o / l0Size, directIndex_lt h⟩ :=
  dif_pos h

theorem pointer_rootOf {o : Nat} (h : o < l0Bound) (n : Inode) :
    pointer n (rootOf o) = direct n (o / 4096) := by
  rw [rootOf_direct h]
  exact (direct_eq_pointer (directIndex_lt h)).symm

theorem inodeModifyData_readByte (h : Showing c m) {o : UInt32} (hdisk : OnDisk n o.toNat) :
    Runs (inodeModifyData false n zeros o 1) m Stopped fun r _ =>
      r.2.1 0 = byteOf c n o.toNat := by
  rw [inodeModifyData_eq]
  refine runs_bind (runs_assert (fun _ => trivial) fun _ => ?_)
  rcases lt_or_ge o.toNat l0Bound with hlt | hge
  · rw [rootOf_direct hlt]
    refine (readDirect_showing h).bind ?_
    rintro ⟨blockid, data, modified⟩ m₁ ⟨hdata, -⟩
    refine runs_pure ?_
    have hpointer : pointer n (.direct ⟨o.toNat / l0Size, directIndex_lt hlt⟩) =
        direct n (o.toNat / 4096) := (direct_eq_pointer (directIndex_lt hlt)).symm
    have hbelow : below o.toNat = o.toNat % 4096 := if_pos hlt
    rw [hpointer, hbelow] at hdata
    simp only at hdata ⊢
    rw [hdata (hdisk hlt), Data.bytes, byteOf, if_pos hlt]
    rw [copy_inside (le_refl 0) (by decide)]
    split
    next => rfl
    next => rfl
  · obtain ⟨depth, hdepth⟩ := depth_rootOf_pos hge
    rw [hdepth]
    refine (readIndirect_buffer depth).bind ?_
    rintro ⟨blockid, data, modified⟩ m₁ hdata
    refine runs_pure ?_
    simp only at hdata ⊢
    rw [hdata, Data.bytes, byteOf, if_neg (not_lt.mpr hge)]
    rfl

theorem fileTransfer_readByte (h : Showing c m)
    (hdisk : OnDisk file.inode file.filePtr.toNat) :
    Runs (fileTransfer false file zeros 1) m Stopped fun r _ =>
      (r.2.2, r.2.1 0) = readOf c (some file) file.filePtr.toNat := by
  have hsize : min (blockSize - file.filePtr.toNat % blockSize) 1 = 1 := by
    have := Nat.mod_lt file.filePtr.toNat (show 0 < blockSize by decide)
    omega
  have hround : Runs (fileRound false file zeros 0 1) m Stopped fun r _ =>
      r.2.1 0 = byteOf c file.inode file.filePtr.toNat := by
    unfold fileRound
    rw [hsize]
    refine (inodeModifyData_readByte h hdisk).bind ?_
    rintro ⟨n', bytes, modified⟩ m₁ hbyte
    refine runs_pure ?_
    dsimp only
    rw [copy_inside (le_refl 0) (by omega)]
    exact hbyte
  unfold fileTransfer readOf
  rw [if_neg Bool.false_ne_true]
  split
  next hmode => exact runs_pure (if_pos hmode).symm
  next hmode =>
    refine Runs.bind (Q := fun r _ => r.2.1 0 = byteOf c file.inode file.filePtr.toNat) ?_ ?_
    · rw [fileLoop, if_neg Nat.one_ne_zero]
      refine hround.bind ?_
      rintro ⟨file₁, buff₁, modified₁, size₁⟩ m₁ hbyte
      exact runs_pure hbyte
    · rintro ⟨file₁, buff₁, modified₁⟩ m₁ hbyte
      refine (runs_any _ m₁).bind fun _ m₂ _ => ?_
      refine runs_pure ?_
      dsimp only at hbyte ⊢
      rw [hbyte, if_neg hmode]
      rfl

/-- What is read later depends only on what the blocks show and on the object
behind the handle. -/
theorem laterRead_readOf {o : UInt32} (h : Showing c m) (ts : List Traffic)
    (hdisk : ∀ file, objectOf m fd = some file → OnDisk file.inode o.toNat) :
    Runs (laterRead ts fd o) m Stopped fun r _ => r = readOf c (objectOf m fd) o.toNat := by
  refine (passTraffic_showing h ts).bind ?_
  rintro _ m₁ ⟨h₁, hg₁⟩
  have hget : ∀ (m : Machine Bytes Globals) (E : Failure → Machine Bytes Globals → Prop),
      Runs (getFile fd) m E fun r m' => r = objectOf m fd ∧ m' = m :=
    fun m E => runs_of_ok rfl ⟨rfl, rfl⟩
  have hobject : objectOf m₁ fd = objectOf m fd := by rw [objectOf, objectOf, hg₁]
  cases hfile : objectOf m fd with
  | none =>
      rw [hfile] at hobject
      refine Runs.bind (Q := fun _ m' => objectOf m' fd = none) ?_ ?_
      · refine (hget m₁ _).bind ?_
        rintro _ m₂ ⟨rfl, rfl⟩
        rw [hobject]
        exact runs_pure hobject
      intro _ m₂ hobject₂
      refine Runs.bind (Q := fun r _ => r = (-1, zeros)) ?_ ?_
      · refine (hget m₂ _).bind ?_
        rintro _ m₃ ⟨rfl, rfl⟩
        rw [hobject₂]
        exact runs_pure rfl
      rintro _ m₃ rfl
      exact runs_pure rfl
  | some file =>
      rw [hfile] at hobject
      obtain ⟨hfd, -⟩ := List.getElem?_eq_some_iff.mp (Option.join_eq_some_iff.mp hobject)
      set file' : File := { file with filePtr := o }
      refine Runs.bind (Q := fun _ m' => Showing c m' ∧ objectOf m' fd = some file') ?_ ?_
      · refine (hget m₁ _).bind ?_
        rintro _ m₁ ⟨rfl, rfl⟩
        rw [hobject]
        simp only [lseek, if_true]
        refine (setFile_showing h₁ fd (some file')).bind ?_
        rintro _ m₂ ⟨h₂, hg₂⟩
        refine runs_pure ⟨h₂, ?_⟩
        rw [objectOf, hg₂]
        simp [hfd]
      rintro _ m₂ ⟨h₂, hobject₂⟩
      refine Runs.bind (Q := fun r _ => (r.1, r.2 0) = readOf c (some file) o.toNat) ?_ ?_
      · refine (hget m₂ _).bind ?_
        rintro _ m₂ ⟨rfl, rfl⟩
        rw [hobject₂]
        refine (fileTransfer_readByte h₂ (hdisk file hfile)).bind ?_
        rintro ⟨file'', buff, result⟩ m₃ hresult
        exact runs_bind (runs_of_ok rfl (runs_pure hresult))
      · rintro ⟨result, buff⟩ m₃ hresult
        exact runs_pure hresult

theorem inodeModifyData_inert (h : Showing c m) {offset length : UInt32}
    (hlt : offset.toNat < l0Bound) (hkeep : changes n offset length = false) :
    Runs (inodeModifyData false n buffer offset length) m Stopped fun r m' =>
      r.1 = n ∧ r.2.2 = false ∧ Showing c m' ∧ m'.globals = m.globals := by
  have hgrown := grown_of_changes hkeep
  rw [changes, Bool.or_eq_false_iff] at hkeep
  have hset : pointer n (rootOf offset.toNat) ≠ 0 := by simpa using hkeep.2
  rw [inodeModifyData_eq, hgrown]
  rw [rootOf_direct hlt] at hset ⊢
  refine runs_bind (runs_assert (fun _ => trivial) fun _ => ?_)
  refine (readDirect_showing h).bind ?_
  rintro ⟨blockid, data, modified⟩ m₁ ⟨-, hold⟩
  obtain ⟨hid, hmodified, h₁, hg⟩ := hold hset
  dsimp only at hid hmodified
  subst hid hmodified
  refine runs_pure ⟨setPointer_self n (.direct ⟨_, directIndex_lt hlt⟩), ?_, h₁, hg⟩
  rw [Bool.or_false]
  exact hkeep.1

theorem fileRound_inert (h : Showing c m) {done : Nat} (hlength : length ≠ 0)
    (hplace : InPlace file.inode file.filePtr.toNat length)
    (hbelow : file.filePtr.toNat + length ≤ l0Bound) :
    Runs (fileRound false file buff done length) m Stopped fun r m' =>
      r.1 = { file with filePtr := file.filePtr + UInt32.ofNat (roundSize file length) } ∧
        r.2.2.1 = false ∧ r.2.2.2 = roundSize file length ∧ Showing c m' ∧
        m'.globals = m.globals := by
  have hle : roundSize file length ≤ length := Nat.min_le_right _ _
  obtain ⟨hkeep, -⟩ := changes_of_inPlace (roundSize_pos hlength) hle hplace
  unfold fileRound
  refine (inodeModifyData_inert h (by omega) hkeep).bind ?_
  rintro ⟨n', bytes, modified⟩ m₁ ⟨hn, hmodified, h₁, hg⟩
  dsimp only at hn hmodified
  subst hn hmodified
  exact runs_pure ⟨rfl, rfl, rfl, h₁, hg⟩

/-- The object is the same but for the position. -/
def Advanced (file file' : File) : Prop := ∃ ptr, file' = { file with filePtr := ptr }

theorem fileLoop_inert {left done : Nat} (h : Showing c m)
    (hplace : InPlace file.inode file.filePtr.toNat length)
    (hbelow : file.filePtr.toNat + length ≤ l0Bound) :
    Runs (fileLoop false left file buff done length false) m Stopped fun r m' =>
      Advanced file r.1 ∧ r.2.2 = false ∧ Showing c m' ∧ m'.globals = m.globals := by
  have hstop : Advanced file file ∧ false = false ∧ Showing c m ∧ m.globals = m.globals :=
    ⟨⟨file.filePtr, rfl⟩, rfl, h, rfl⟩
  induction left generalizing m file buff done length with
  | zero => exact runs_pure hstop
  | succ left ih =>
      rw [fileLoop]
      split
      next => exact runs_pure hstop
      next hlength =>
        refine (fileRound_inert h hlength hplace hbelow).bind ?_
        rintro ⟨file₁, buff₁, modified₁, size⟩ m₁ ⟨hfile, hmodified, hsize, h₁, hg₁⟩
        dsimp only at hfile hmodified hsize
        have hle : roundSize file length ≤ length := Nat.min_le_right _ _
        have hsum := (changes_of_inPlace (roundSize_pos hlength) hle hplace).2
        have hptr : file₁.filePtr.toNat = file.filePtr.toNat + size := by rw [hfile, hsize, hsum]
        have hinode : file₁.inode = file.inode := by rw [hfile]
        rw [hmodified]
        have hwithin := hplace.within
        refine (ih h₁ ?_ (by omega) ⟨⟨_, rfl⟩, rfl, h₁, rfl⟩).mono (fun _ _ he => he) ?_
        · rw [hptr, hinode]
          exact ⟨by omega, fun o hlo hhi => hplace.present o (by omega) (by omega)⟩
        · rintro r m₂ ⟨⟨ptr, hr⟩, hsame, h₂, hg₂⟩
          exact ⟨⟨ptr, by rw [hr, hfile]⟩, hsame, h₂, hg₂.trans hg₁⟩

/-- The read transfers nothing, or bytes of the direct part that the file has. -/
def Harmless (file : File) (length : Nat) : Prop :=
  file.mode &&& oRdonly = 0 ∨ length = 0 ∨
    (InPlace file.inode file.filePtr.toNat length ∧ file.filePtr.toNat + length ≤ l0Bound)

theorem fileTransfer_inert (h : Showing c m) (hharmless : Harmless file length) :
    Runs (fileTransfer false file buff length) m Stopped fun r m' =>
      Advanced file r.1 ∧ Showing c m' ∧ m'.globals = m.globals := by
  unfold fileTransfer
  rw [if_neg Bool.false_ne_true]
  split
  next => exact runs_pure ⟨⟨file.filePtr, rfl⟩, h, rfl⟩
  next hmode =>
    rcases hharmless with hclosed | rfl | ⟨hplace, hbelow⟩
    · exact absurd hclosed hmode
    · exact runs_pure ⟨⟨file.filePtr, rfl⟩, h, rfl⟩
    · refine (fileLoop_inert h hplace hbelow).bind ?_
      rintro ⟨file₁, buff₁, modified⟩ m₁ ⟨hadvanced, hmodified, h₁, hg₁⟩
      dsimp only at hmodified
      subst hmodified
      exact runs_pure ⟨hadvanced, h₁, hg₁⟩

theorem fsFread_inert (h : Showing c m)
    (hharmless : ∀ file, objectOf m fd = some file → Harmless file length) :
    Runs (fsFread fd buff length) m Stopped fun _ m' => Showing c m' ∧
      ∃ ptr, objectOf m' fd = (objectOf m fd).map fun file => { file with filePtr := ptr } := by
  have hget : Runs (getFile fd) m Stopped fun r m' => r = objectOf m fd ∧ m' = m :=
    runs_of_ok rfl ⟨rfl, rfl⟩
  refine hget.bind ?_
  rintro _ m ⟨rfl, rfl⟩
  cases hfile : objectOf m fd with
  | none => exact runs_pure ⟨h, 0, hfile⟩
  | some file =>
      refine (fileTransfer_inert h (hharmless file hfile)).bind ?_
      rintro ⟨_, buff₁, result⟩ m₁ ⟨⟨ptr, rfl⟩, h₁, hg₁⟩
      refine (setFile_showing h₁ fd _).bind ?_
      rintro _ m₂ ⟨h₂, hg₂⟩
      refine runs_pure ⟨h₂, ptr, ?_⟩
      obtain ⟨hfd, -⟩ := List.getElem?_eq_some_iff.mp (Option.join_eq_some_iff.mp hfile)
      rw [objectOf, hg₂, hg₁]
      simp [hfd]

theorem catLoop_inert {left offset : Nat} (h : Showing c m) (hplace : InPlace n 0 n.size.toNat)
    (hbelow : n.size.toNat ≤ l0Bound) :
    Runs (catLoop left n offset) m Stopped fun _ m' => Showing c m' ∧
      m'.globals.cwdNode = m.globals.cwdNode ∧ m'.globals.files = m.globals.files := by
  induction left generalizing m offset with
  | zero => exact runs_pure ⟨h, rfl, rfl⟩
  | succ left ih =>
      unfold catLoop
      split
      next hlt =>
        refine runs_getGlobals.bind ?_
        rintro _ m ⟨rfl, rfl⟩
        have hsize := n.size.toNat_lt
        have hoffset : (UInt32.ofNat offset).toNat = offset := by
          rw [UInt32.toNat_ofNat', Nat.mod_eq_of_lt (by omega)]
        have hrest : InPlace n (UInt32.ofNat offset).toNat (n.size.toNat - offset) := by
          rw [hoffset]
          exact ⟨by omega, fun o _ hhi => hplace.present o (Nat.zero_le o) (by omega)⟩
        have hpos : 0 < min blockSize (n.size.toNat - offset) := lt_min (by decide) (by omega)
        obtain ⟨hkeep, -⟩ := changes_of_inPlace hpos (Nat.min_le_right _ _) hrest
        refine (inodeModifyData_inert h (by omega) hkeep).bind ?_
        rintro ⟨n', buffer, modified⟩ m₁ ⟨hn, -, h₁, hg₁⟩
        dsimp only at hn
        subst hn
        refine (runs_modifyGlobals h₁.ready.sound _ (T := ∅)).bind ?_
        rintro _ m₂ ⟨hev₂, -, -, hg₂⟩
        have h₂ := h₁.evolves hev₂ (by rw [hg₂])
        refine (runs_modifyGlobals h₂.ready.sound _ (T := ∅)).bind ?_
        rintro _ m₃ ⟨hev₃, -, -, hg₃⟩
        refine (ih (h₂.evolves hev₃ (by rw [hg₃]))).mono (fun _ _ he => he) ?_
        rintro _ m₄ ⟨h₄, hcwd, hfiles⟩
        rw [hg₃, hg₂, hg₁] at hcwd hfiles
        exact ⟨h₄, hcwd, hfiles⟩
      next => exact runs_pure ⟨h, rfl, rfl⟩

/-- `fs_cat` up to the loop: the inode of the file. -/
def catPrefix (path : List UInt8) : Fs (Option Inode) := do
  let ino ← getInodeByFilename path false 0
  if isNegative ino then return none
  else
    let inode ← readInode ino
    if inode.type ≠ 2 then return none else return some inode

/-- The condition on a call: `fs_fread` and `fs_cat` read bytes of the direct
part that the file has, and the blocks that a call works on at a time fit into
the cache. -/
def Restrained (m : Machine Bytes Globals) : FsOp → Prop
  | .fread fd _ length => ∀ file, objectOf m fd = some file → Harmless file length
  | .cat path => ∀ inode m₁, (catPrefix path).run m = (.ok (some inode), m₁) →
      InPlace inode 0 inode.size.toNat ∧ inode.size.toNat ≤ l0Bound
  | op => Fits m op

theorem fits_of_restrained {op : FsOp} (h : Restrained m op) : Fits m op := by
  cases op with
  | fread fd buff length => trivial
  | cat path => trivial
  | mkfs | statfs | cd | ls | mkdir | touch | rm | rmdir | ln | fopen | fwrite | lseek | fclose =>
      exact h

/-- The machine shows what it shows. -/
theorem showing_of_calm (h : Calm ∅ m) : Showing (visible m) m := ⟨h, fun _ _ => rfl⟩

theorem keeps_of_stopped {α : Type} {p : Fs α} (h : Calm ∅ m) (hkeeps : Keeps Mounted p)
    (hp : Runs p m Stopped fun _ m' => Calm ∅ m') : Runs p m Halted fun _ m' => Within ∅ m' :=
  ((hkeeps m h.ready.mounted).and hp).mono (fun _ _ he => he.1) fun _ _ hq => .inl hq.2

theorem fsCat_calm {path : List UInt8} (h : Calm ∅ m) (hcat : Restrained m (.cat path)) :
    Runs (fsCat path) m Stopped fun _ m' => Calm ∅ m' := by
  have hstop : ∀ {α : Type} {p : Fs α} {m : Machine Bytes Globals}, Keeps (Calm ∅) p →
      Calm ∅ m → Runs p m Stopped fun _ m' => Calm ∅ m' := fun hp hm =>
    (hp _ hm).mono (fun _ _ _ => trivial) fun _ _ hq => hq
  refine (hstop (keeps_lookup path 0) h).withRun.bind ?_
  rintro ino m₁ ⟨h₁, hrun₁⟩
  split
  next => exact hstop (keeps_failWith _) h₁
  next hino =>
    refine (hstop (keeps_readInode ino) h₁).withRun.bind ?_
    rintro inode m₂ ⟨h₂, hrun₂⟩
    split
    next => exact hstop (keeps_failWith _) h₂
    next htype =>
      obtain ⟨hplace, hbelow⟩ := hcat inode m₂ (by
        unfold catPrefix
        rw [run_bind_ok hrun₁, if_neg hino, run_bind_ok hrun₂, if_neg htype]
        rfl)
      refine (catLoop_inert (showing_of_calm h₂) hplace hbelow).bind fun _ m₃ h₃ => ?_
      exact hstop (keeps_bind (keeps_print _) fun _ => keeps_pure _) h₃.1.calm

/-- The condition on a call keeps the machine calm, up to writes past the end
of the disk. -/
theorem within_next {op : FsOp} (h : Within ∅ m) (hop : Restrained m op)
    (hnext : next m op = some m') : Within ∅ m' := by
  have hrun := program_run_of_next hnext
  have hfits := fits_of_restrained hop
  rcases h with h | h
  · refine (program_keeps (P := Within ∅) (.inl h) hfits ?_ ?_).ok hrun
    · rintro path rfl
      exact keeps_of_stopped h (keeps_fsCat (keeps_inodeModifyData false) path) (fsCat_calm h hop)
    · rintro fd buff length rfl
      exact keeps_of_stopped h (keeps_fsFread (keeps_inodeModifyData false) fd buff length)
        ((fsFread_inert (showing_of_calm h) hop).mono (fun _ _ he => he) fun _ _ hq => hq.1.calm)
  · exact .inr ((program_enduring h hfits).ok hrun)

theorem calm_of_reachable (h : ReachableUnder fileSystem Restrained m)
    (hstrayed : m.strayed = false) : Calm ∅ m :=
  (h.invariant (P := Within ∅) (fun _ hm => within_of_formatted hm) fun _ _ _ hm hop hstep =>
    within_next hm hop hstep).calm hstrayed

/-- The file behind the handle is as it was: its size in the object, the sizes
on disk, and every byte below the size, whenever it is read. -/
structure Inert (fd : Nat) (m m' : Machine Bytes Globals) : Prop where
  fileSize : (objectOf m' fd).map (fun file => file.inode.size) =
    (objectOf m fd).map fun file => file.inode.size
  diskSize : ∀ k < maxInodeNum, (inodeAt m' k).size = (inodeAt m k).size
  later : ∀ file, objectOf m fd = some file → ∀ o < file.inode.size, ∀ ts ts' r r' m₁ m₂,
    (laterRead ts fd o).run m = (.ok r, m₁) → (laterRead ts' fd o).run m' = (.ok r', m₂) → r' = r

/-- No block past the end of the disk was written so far, and the file behind
the handle has its bytes in no such block. -/
structure InsideDisk (fd : Nat) (m : Machine Bytes Globals) : Prop where
  strayed : m.strayed = false
  onDisk : ∀ file, objectOf m fd = some file → ∀ o < file.inode.size.toNat, OnDisk file.inode o

/-- In every run whose reads stay inside the direct part of the files, reading
changes no file. -/
theorem reads_inert (h : ReachableUnder fileSystem Restrained m) (hinside : InsideDisk fd m)
    (hread : Restrained m (.fread fd buff length)) {result : Int × Bytes}
    (hrun : (fsFread fd buff length).run m = (.ok result, m')) : Inert fd m m' := by
  have hcalm := showing_of_calm (calm_of_reachable h hinside.strayed)
  obtain ⟨hcalm', ptr, hobject⟩ := (fsFread_inert hcalm hread).ok hrun
  have hsame : ∀ o,
      readOf (visible m) (objectOf m' fd) o = readOf (visible m) (objectOf m fd) o := by
    intro o
    rw [hobject]
    cases objectOf m fd with
    | none => rfl
    | some file => rfl
  refine ⟨?_, ?_, ?_⟩
  · rw [hobject, Option.map_map]
    rfl
  · intro k hk
    have hmax : maxInodeNum = 32768 := by decide
    have hlt : 5 + k / 64 < maxBlockNum := by
      rw [maxBlockNum_eq]
      omega
    rw [inodeAt, inodeAt, hcalm'.visible_eq _ hlt]
  · intro file hfile o ho ts ts' r r' m₁ m₂ hrun₁ hrun₂
    have hdisk := hinside.onDisk file hfile o.toNat (UInt32.lt_iff_toNat_lt.mp ho)
    have hdisk₁ : ∀ file₁, objectOf m fd = some file₁ → OnDisk file₁.inode o.toNat := by
      intro file₁ hfile₁
      obtain rfl := Option.some.inj (hfile.symm.trans hfile₁)
      exact hdisk
    have hdisk₂ : ∀ file₂, objectOf m' fd = some file₂ → OnDisk file₂.inode o.toNat := by
      intro file₂ hfile₂
      rw [hobject, hfile] at hfile₂
      obtain rfl := Option.some.inj hfile₂
      exact hdisk
    rw [(laterRead_readOf hcalm ts hdisk₁).ok hrun₁, (laterRead_readOf hcalm' ts' hdisk₂).ok hrun₂]
    exact hsame o.toNat

/-- A file with five bytes, and the position back at its start. -/
def writtenFile : List FsOp :=
  [.fopen [97] oRdwr, .fwrite 0 (fun _ => 55) 5, .lseek 0 0 seekSet]

theorem writtenFile_reads_inert : ∃ m r m', replay next blankFormatted writtenFile = some m ∧
    (fsFread 0 zeros 3).run m = (.ok r, m') ∧ r.1 = 3 ∧ Inert 0 m m' := by
  have hfacts : (replay next blankFormatted writtenFile).map (fun m =>
      ((objectOf m 0).map fun file => (file.filePtr.toNat, file.inode.size.toNat,
        (file.inode.dataDirect 0).toNat), (returned ((fsFread 0 zeros 3).run m).1).map Prod.fst,
          m.strayed)) = some (some (0, 5, 518), some 3, false) := by
    rw [blankFormatted_eq]
    decide +kernel
  obtain ⟨m, hreplay, hfacts⟩ := Option.map_eq_some_iff.mp hfacts
  obtain ⟨hobject, hfacts⟩ := Prod.mk.inj hfacts
  obtain ⟨hresult, hstrayed⟩ := Prod.mk.inj hfacts
  obtain ⟨file, hfile, hfields⟩ := Option.map_eq_some_iff.mp hobject
  obtain ⟨r, hreturned, hr⟩ := Option.map_eq_some_iff.mp hresult
  simp only [Prod.mk.injEq] at hfields
  obtain ⟨hptr, hsize, hdirect⟩ := hfields
  have hstart : ReachableUnder fileSystem Restrained blankFormatted :=
    ReachableUnder.start formatted_blankFormatted
  have hreachable : ReachableUnder fileSystem Restrained m := by
    refine reachableUnder_of_always hstart writtenFile ?_ hreplay
    intro op hop s
    simp only [writtenFile, List.mem_cons, List.not_mem_nil, or_false] at hop
    rcases hop with rfl | rfl | rfl
    · trivial
    · trivial
    · trivial
  have hblock : ∀ o < 5, (direct file.inode (o / 4096)).toNat = 518 := by
    intro o ho
    have hfirst : o / 4096 = 0 := by omega
    rw [hfirst]
    exact hdirect
  have hread : Restrained m (.fread 0 zeros 3) := by
    intro file' hfile'
    obtain rfl : file = file' := Option.some.inj (hfile.symm.trans hfile')
    refine Or.inr (Or.inr ⟨⟨by omega, fun o _ hhi => ?_⟩, ?_⟩)
    · rw [pointer_rootOf (lt_of_lt_of_le hhi (by rw [hptr]; decide))]
      intro hzero
      have hold := hblock o (by omega)
      rw [hzero] at hold
      cases hold
    · rw [hptr]
      decide
  have hinside : InsideDisk 0 m := by
    refine ⟨hstrayed, fun file' hfile' o ho _ => ?_⟩
    obtain rfl : file = file' := Option.some.inj (hfile.symm.trans hfile')
    rw [hblock o (by omega)]
    decide
  have hrun := run_eq_of_returned hreturned
  exact ⟨m, r, _, hreplay, hrun, hr, reads_inert hreachable hinside hread hrun⟩

/-- Reading one byte of a new file makes the file one byte long. -/
theorem emptyRead_not_inert : ∃ m r m', Reachable fileSystem m ∧
    (fsFread 0 zeros 1).run m = (.ok r, m') ∧ ¬Inert 0 m m' := by
  have hfacts : (replay next blankFormatted [.fopen [97] oRdwr]).map (fun m =>
      ((objectOf m 0).map fun file => file.inode.size,
        (objectOf ((fsFread 0 zeros 1).run m).2 0).map fun file => file.inode.size,
        (returned ((fsFread 0 zeros 1).run m).1).map Prod.fst)) =
        some (some 0, some 1, some 1) := by
    rw [blankFormatted_eq]
    decide +kernel
  obtain ⟨m, hreplay, hfacts⟩ := Option.map_eq_some_iff.mp hfacts
  simp only [Prod.mk.injEq] at hfacts
  obtain ⟨hbefore, hafter, hresult⟩ := hfacts
  obtain ⟨r, hreturned, -⟩ := Option.map_eq_some_iff.mp hresult
  refine ⟨m, r, _, reachable_of_replay (ReachableUnder.start formatted_blankFormatted) _ hreplay,
    run_eq_of_returned hreturned, fun hinert => ?_⟩
  have hsame := hinert.fileSize
  rw [hbefore, hafter] at hsame
  exact absurd hsame (by decide)

end LabKernel.InertReads
