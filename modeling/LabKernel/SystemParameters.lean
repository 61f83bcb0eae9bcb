import LabKernel.BitMaps
import LabKernel.CacheTraffic
import LabKernel.CalmMachines
import LabKernel.DecimalText
import LabKernel.DirectoryCalls
import LabKernel.FileContents
import LabKernel.FsView
import LabKernel.SteadyPrograms

/-!
The system parameters (`sysparams.cpp`): the policy of the block cache is kept
as a decimal number at the beginning of the file `sysparams`.
-/

namespace LabKernel.SystemParameters

open LabKernel.BitMaps
open LabKernel.BlockCache
open LabKernel.BlockObject
open LabKernel.BlockOwnership
open LabKernel.ByteMemory
open LabKernel.CacheCoherence
open LabKernel.CacheTraffic
open LabKernel.CalmMachines
open LabKernel.DecimalText
open LabKernel.DirectData
open LabKernel.Directories
open LabKernel.DirectoryCalls
open LabKernel.FileContents
open LabKernel.FsCode
open LabKernel.FsLayout
open LabKernel.FsPrimitives
open LabKernel.FsRuns
open LabKernel.FsTables
open LabKernel.FsView
open LabKernel.HandleSafety
open LabKernel.ProgramLogic
open LabKernel.SteadyPrograms

/-- The name `sysparams`. -/
def sysparams : List UInt8 := [115, 121, 115, 112, 97, 114, 97, 109, 115]

/-- A handle as `IdPool::get` takes it. -/
def sizeT (fd : Int) : Nat := (fd % 2 ^ 64).toNat

/-- The conversion of a `long` to an `int`. -/
def toInt (value : Int) : Int := value.bmod (2 ^ 32)

/-- The bytes of `buf` in `init_parameters`. -/
def window (buf : Bytes) : List UInt8 := (List.range 16).map buf

/-- `init_parameters`; the result is the new value of `fd_param`, and `buf` is
what the stack holds before. -/
def initParameters (buf : Bytes) : Fs Int := do
  let fdParam ← fsFopen sysparams oRdwr
  let (_, buf) ← fsFread (sizeT fdParam) buf 16
  match readDigits 0 (window buf) with
  | some policy => do
      onCache (cacheSetPolicy · (toInt policy))
      return fdParam
  | none => return fdParam

def setParameter (fdParam key value : Int) : Fs Int := do
  if key ≠ 0 then return -1
  else
    onCache (cacheSetPolicy · (toInt value))
    let _ ← fsLseek (sizeT fdParam) 0 seekSet
    let _ ← fsFwrite (sizeT fdParam) (listBytes (toText value)) (toText value).length
    return 0

def SuperBlock.ofBytes (d : Bytes) : SuperBlock where
  magic0 := get32 d 0
  fsStart := get32 d 4
  inodeMapStartBlock := get32 d 8
  inodeMapSize := get32 d 12
  inodeAllocated := get32 d 16
  inodeFreeMin := get32 d 20
  blockMapStartBlock := get32 d 24
  blockMapSize := get32 d 28
  blockAllocated := get32 d 32
  blockFreeMin := get32 d 36
  inodeStartBlock := get32 d 40
  blockStartBlock := get32 d 44
  rootInode := get32 d 48
  magic1 := get32 d 52

@[irreducible]
def initFilesystem : Fs Bool := do
  onCache fun c => some (cacheInit c)
  let block ← openBlock 0
  let data ← block.load
  let sb := SuperBlock.ofBytes data
  if sb.magic0 = superblockMagic ∧ sb.magic1 = superblockMagic then
    modifySuperblock fun _ => sb
    setCwdNode sb.rootInode
    return true
  else
    let _ ← fsMkfs
    return false

/-- The variables of the kernel have their initial values, and the disk is
what it was. -/
def poweredOn (m : Machine Bytes Globals) : Machine Bytes Globals :=
  ⟨{ blankCache with disk := m.cache.disk }, blankGlobals, false, false⟩

/-- The start of the kernel. -/
def start (buf : Bytes) : Fs Int := do
  modifyState poweredOn
  let _ ← initFilesystem
  initParameters buf

/-- The cache is written back and the kernel starts anew. -/
def restart (buf : Bytes) : Fs Int := do
  onCache cacheWriteback
  start buf

/-- A sequence of calls of `set_parameter(0, value)`. -/
def setParameters (fdParam : Int) : List Int → Fs Unit
  | [] => return ()
  | value :: rest => do
      let _ ← setParameter fdParam 0 value
      setParameters fdParam rest

/-- `policy_writethrough` and `policy_writeback_interval`. -/
def inForce (m : Machine Bytes Globals) : Bool × Int :=
  (m.cache.policyWritethrough, m.cache.policyWritebackInterval)

def policyOf (value : Int) : Bool × Int := if value = -1 then (true, 0) else (false, value)

/-- The values of the parameter. -/
def Valid (value : Int) : Prop := value = -1 ∨ 0 ≤ value ∧ value < 2 ^ 31

variable {m m' : Machine Bytes Globals} {E : Failure → Machine Bytes Globals → Prop}
  {fd value : Int} {T T' : Finset Nat} {W : Set Nat} {n : Inode} {p ino : UInt32} {file : File}
  {bytes bytes' buffer : List UInt8}

/-- A program that stops at no assertion. -/
def Never : Failure → Machine Bytes Globals → Prop := fun _ _ => False

theorem toInt_of_valid (h : Valid value) : toInt value = value := by
  unfold toInt Int.bmod
  rcases h with rfl | ⟨hlo, hhi⟩
  · decide
  · rw [Int.emod_eq_of_lt hlo (by omega), if_pos (by omega)]

/-- What a transfer of the first `length` bytes of a file with block `p` does. -/
structure FirstMoved (T : Finset Nat) (isWrite : Bool) (p : UInt32) (buffer : Bytes) (length : Nat)
    (m m' : Machine Bytes Globals) (buffer' : Bytes) : Prop where
  evolves : Evolves T T {p.toNat} m m'
  globals : m'.globals = m.globals
  stable : Stable T m' p.toNat
  settled : isWrite = true ∨ Settled m p.toNat → Settled m' p.toNat
  moved : (visible m' p.toNat, buffer') = transferred isWrite (visible m p.toNat) 0 buffer 0 length

theorem openPointer_first (h : Sound m) (hT : T.card ≤ cacheSize) (hp : IsData p)
    (hmem : p.toNat ∈ T) (hstable : Stable T m p.toNat) :
    Runs (openPointer none p) m E fun r m' => r.1 = p ∧ r.2.1 = false ∧ r.2.2.blockid = p.toNat ∧
      Fresh T m' r.2.2 ∧ Evolves T T ∅ m m' ∧ m'.globals = m.globals ∧
        visible m' p.toNat = visible m p.toNat ∧ Stable T m' p.toNat ∧
          (Settled m p.toNat → Settled m' p.toNat) := by
  rw [openPointer, if_neg (ne_zero_of_isData hp)]
  refine (runs_openBlock h hT hmem fun hle => absurd hp.2 (not_lt.mpr hle)).bind ?_
  rintro block m₁ ⟨hid, hfresh, hev, hg⟩
  obtain ⟨hv, hs⟩ := hstable.evolves hev hp.2 (Set.notMem_empty _)
  exact runs_pure ⟨rfl, rfl, hid, hfresh, hev, hg, hv, hs,
    hev.settled_of_settled hp.2 (Set.notMem_empty _)⟩

theorem recur_first {isWrite : Bool} {buffer : Bytes} {length : Nat} (h : Sound m)
    (hT : T.card ≤ cacheSize) (hp : IsData p) (hmem : p.toNat ∈ T)
    (hstable : Stable T m p.toNat) :
    Runs (inodeModifyDataRecur isWrite 0 none p (.buffer buffer) 0 length) m E fun r m' =>
      r.1 = p ∧ r.2.2 = false ∧ ∃ buffer', r.2.1 = .buffer buffer' ∧
        FirstMoved T isWrite p buffer length m m' buffer' := by
  refine (openPointer_first h hT hp hmem hstable).bind ?_
  rintro ⟨_, _, block⟩ m₁ ⟨rfl, rfl, hid, hfresh, hev, hg, hv, hs, hsettled⟩
  dsimp only at hid hfresh
  cases isWrite with
  | false =>
      have htransfer : Runs (transfer false block (.buffer buffer) 0 length) m₁ E fun data m' =>
          data = .buffer (copy buffer 0 (visible m₁ block.blockid) 0 length) ∧ m' = m₁ := by
        refine (runs_load hev.sound hfresh).bind ?_
        rintro d m₁ ⟨rfl, rfl⟩
        exact runs_pure ⟨rfl, rfl⟩
      refine htransfer.bind ?_
      rintro _ m₁ ⟨rfl, rfl⟩
      refine runs_pure ⟨rfl, rfl, _, rfl, hev.mono (Set.empty_subset _), hg, hs,
        fun hor => hsettled (hor.resolve_left nofun), ?_⟩
      rw [hid, hv]
      rfl
  | true =>
      have htransfer : Runs (transfer true block (.buffer buffer) 0 length) m₁ E fun data m' =>
          data = .buffer buffer ∧ Evolves T T {block.blockid} m₁ m' ∧
            visible m' block.blockid = copy (visible m₁ block.blockid) 0 buffer 0 length ∧
              Settled m' block.blockid ∧ m'.globals = m₁.globals := by
        refine Runs.bind (runs_pure (Q := fun d m' => d = buffer ∧ m' = m₁) ⟨rfl, rfl⟩) ?_
        rintro _ m₁ ⟨rfl, rfl⟩
        refine (runs_load hev.sound hfresh).bind ?_
        rintro d m₁ ⟨rfl, rfl⟩
        exact runs_store_update hev.sound hfresh (hid ▸ hp.2) fun m₂ hev₂ hv₂ hs₂ hg₂ =>
          runs_pure ⟨rfl, hev₂, hv₂, hs₂, hg₂⟩
      refine htransfer.bind ?_
      rintro _ m₂ ⟨rfl, hev₂, hv₂, hs₂, hg₂⟩
      rw [hid] at hev₂ hv₂ hs₂
      refine runs_pure ⟨rfl, rfl, _, rfl, (hev.mono (Set.empty_subset _)).trans hev₂, hg₂.trans hg,
        Or.inl hs₂, fun _ => hs₂, ?_⟩
      rw [hv₂, hv]
      rfl

theorem inodeModifyData_first {isWrite : Bool} {buffer : Bytes} {length : UInt32} (h : Sound m)
    (hT : T.card ≤ cacheSize) (hp : IsData (n.dataDirect 0)) (hmem : (n.dataDirect 0).toNat ∈ T)
    (hstable : Stable T m (n.dataDirect 0).toNat) (hlength : length.toNat ≤ 4096)
    (hsize : length.toNat ≤ n.size.toNat) :
    Runs (inodeModifyData isWrite n buffer 0 length) m E fun r m' =>
      r.1 = n ∧ r.2.2 = false ∧
        FirstMoved T isWrite (n.dataDirect 0) buffer length.toNat m m' r.2.1 := by
  have hgrows : (n.size < 0 + length && n.type = 2) = false := by
    rw [Bool.and_eq_false_iff, UInt32.zero_add]
    exact Or.inl (decide_eq_false (by rw [UInt32.lt_iff_toNat_lt]; omega))
  unfold inodeModifyData
  refine runs_bind (runs_assert (fun hfalse => ?_) fun _ => ?_)
  · refine absurd hfalse ?_
    have hblock : blockSize = 4096 := rfl
    simpa [hblock] using hlength
  dsimp only
  rw [hgrows, dif_pos (show (0 : UInt32).toNat < l0Bound by decide)]
  refine (recur_first h hT hp hmem hstable).bind ?_
  rintro ⟨_, _, _⟩ m' ⟨rfl, rfl, buffer', rfl, hmoved⟩
  refine runs_pure ⟨?_, rfl, hmoved⟩
  simp only [Bool.false_eq_true, if_false]
  exact congrArg (fun f => { n with dataDirect := f }) (Function.update_eq_self _ _)

theorem fileLoop_once {isWrite : Bool} {buffer : Bytes} {length : Nat}
    {Q : File × Bytes × Bool → Machine Bytes Globals → Prop} (hpos : 0 < length)
    (hround : Runs (fileRound isWrite file buffer 0 length) m E fun r m' =>
      r.2.2.2 = length ∧ Q (r.1, r.2.1, r.2.2.1) m') :
    Runs (fileLoop isWrite length file buffer 0 length false) m E Q := by
  obtain ⟨left, rfl⟩ := Nat.exists_eq_succ_of_ne_zero hpos.ne'
  rw [fileLoop, if_neg (Nat.succ_ne_zero left)]
  refine hround.bind ?_
  rintro ⟨file', bytes, modified, size⟩ m' ⟨hsize, hq⟩
  have hstop : ∀ k done b, fileLoop isWrite k file' bytes done (left.succ - size) b =
      pure (file', bytes, b) := by
    intro k done b
    cases k with
    | zero => rfl
    | succ k => rw [fileLoop, if_pos (by simp only at hsize; omega)]
  dsimp only at hq ⊢
  rw [hstop, Bool.false_or]
  exact runs_pure hq

/-- The object of the file after a transfer from its beginning. -/
def advanced (file : File) (length : Nat) : File :=
  { file with filePtr := 0 + UInt32.ofNat length }

theorem fileTransfer_first {isWrite : Bool} {buffer : Bytes} {length : Nat} (h : Sound m)
    (hT : T.card ≤ cacheSize) (hp : IsData (file.inode.dataDirect 0))
    (hmem : (file.inode.dataDirect 0).toNat ∈ T)
    (hstable : Stable T m (file.inode.dataDirect 0).toNat) (hmode : file.mode = oRdwr)
    (hptr : file.filePtr = 0) (hpos : 0 < length) (hlength : length ≤ 16)
    (hsize : 16 ≤ file.inode.size.toNat) :
    Runs (fileTransfer isWrite file buffer length) m E fun r m' =>
      r.1 = advanced file length ∧
        FirstMoved T isWrite (file.inode.dataDirect 0) buffer length m m' r.2.1 := by
  obtain ⟨left, rfl⟩ := Nat.exists_eq_succ_of_ne_zero hpos.ne'
  have hblock : blockSize = 4096 := rfl
  have hzero : (0 : UInt32).toNat = 0 := rfl
  have hround : min (blockSize - file.filePtr.toNat % blockSize) (left + 1) = left + 1 := by
    rw [hptr, hblock, hzero]
    omega
  have hsmall : (UInt32.ofNat (left + 1)).toNat = left + 1 := by
    rw [UInt32.toNat_ofNat']
    omega
  have hfirst : Runs (fileRound isWrite file buffer 0 (left + 1)) m E fun r m' =>
      r.1 = advanced file (left + 1) ∧ r.2.2.1 = false ∧ r.2.2.2 = left + 1 ∧
        FirstMoved T isWrite (file.inode.dataDirect 0) buffer (left + 1) m m' r.2.1 := by
    unfold fileRound
    rw [hround, hptr]
    refine (inodeModifyData_first h hT hp hmem hstable (by omega) (by omega)).bind ?_
    rintro ⟨_, bytes, _⟩ m' ⟨rfl, rfl, hmoved⟩
    rw [hsmall] at hmoved
    refine runs_pure ⟨rfl, rfl, rfl, { hmoved with moved := ?_ }⟩
    have heq := hmoved.moved
    rw [funext fun i => congrArg buffer (Nat.zero_add i)] at heq
    rw [Prod.ext_iff] at heq ⊢
    refine ⟨heq.1, ?_⟩
    rw [← (transferred_shift isWrite (visible m (file.inode.dataDirect 0).toNat) 0 buffer 0
      (left + 1)).2, funext fun i => congrArg buffer (Nat.zero_add i)]
    exact congrArg (fun b => copy buffer 0 b 0 (left + 1)) heq.2
  rw [fileTransfer, if_neg (mode_and_ne_zero hmode isWrite)]
  have hloop : Runs (fileLoop isWrite (left + 1) file buffer 0 (left + 1) false) m E fun r m' =>
      r.1 = advanced file (left + 1) ∧ r.2.2 = false ∧
        FirstMoved T isWrite (file.inode.dataDirect 0) buffer (left + 1) m m' r.2.1 := by
    refine fileLoop_once hpos (hfirst.mono (fun _ _ he => he) ?_)
    rintro ⟨_, bytes, modified, size⟩ m' ⟨rfl, hfalse, hsize, hmoved⟩
    exact ⟨hsize, rfl, hfalse, hmoved⟩
  refine hloop.bind ?_
  rintro ⟨_, bytes, _⟩ m' ⟨rfl, rfl, hmoved⟩
  exact Runs.bind (runs_pure (Q := fun _ m'' => m'' = m') rfl) fun _ _ heq =>
    heq ▸ runs_pure ⟨rfl, hmoved⟩

end LabKernel.SystemParameters
