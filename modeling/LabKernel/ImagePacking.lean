import Mathlib.Data.List.Basic
import Mathlib.Logic.Function.Basic
import LabKernel.ByteMemory

/-!
The image that `createimage` writes (`tools/createimage.c`): the boot block,
the kernel and the tasks, each from a new sector on, and after them one sector
with a record for each task.

A path is the list of its bytes without the terminator.  An offset is a
natural number; one that `fseek` refuses is outside of every file.
-/

namespace LabKernel.ImagePacking

open LabKernel.ByteMemory

def sectorSize : Nat := 512

/-- `TASK_MAXNUM`. -/
def taskMaxnum : Nat := 16

def nbytes2sec (nbytes : Nat) : Nat :=
  nbytes / sectorSize + if nbytes % sectorSize ≠ 0 then 1 else 0

/-- `task_info_t`. -/
structure TaskInfo where
  entryPoint : UInt64
  sdcardBlockId : UInt32
  sdcardBlockNum : UInt32
  name : List UInt8
  deriving DecidableEq

/-- The 32 bytes of a record. -/
def TaskInfo.toBytes (t : TaskInfo) : Bytes := fun i =>
  if i < 8 then natBytes t.entryPoint.toNat i
  else if i < 12 then natBytes t.sdcardBlockId.toNat (i - 8)
  else if i < 16 then natBytes t.sdcardBlockNum.toNat (i - 12)
  else listBytes t.name (i - 16)

structure InputFile where
  name : List UInt8
  data : List UInt8

/-- The fields of `Elf64_Ehdr` that are used. -/
structure Ehdr where
  phoff : Nat
  phentsize : Nat
  phnum : Nat

/-- The fields of `Elf64_Phdr` that are used. -/
structure Phdr where
  type : Nat
  offset : Nat
  filesz : Nat
  memsz : Nat

/-- `PT_LOAD`. -/
def ptLoad : Nat := 1

def readEhdr (data : List UInt8) : Option Ehdr :=
  let d := listBytes data
  if 64 ≤ data.length ∧ d 1 = 0x45 ∧ d 2 = 0x4c ∧ d 3 = 0x46 then
    some ⟨getNat d 32 8, getNat d 54 2, getNat d 56 2⟩
  else none

def readPhdr (data : List UInt8) (ph : Nat) (ehdr : Ehdr) : Option Phdr :=
  let d := listBytes data
  let position := ehdr.phoff + ph * ehdr.phentsize
  if position + 56 ≤ data.length then
    some ⟨getNat d position 4, getNat d (position + 8) 8, getNat d (position + 32) 8,
      getNat d (position + 40) 8⟩
  else none

/-- `fputc(fgetc(fp), img)` writes `EOF` as `0xff`. -/
def fgetc (data : List UInt8) (position : Nat) : UInt8 := data.getD position 0xff

structure Packing where
  img : List UInt8
  phyaddr : Nat
  nbytesKernel : Nat
  taskinfo : Nat → TaskInfo

def Packing.start : Packing := ⟨[], 0, 0, fun _ => ⟨0, 0, 0, []⟩⟩

/-- `fputc(c, img)` and `(*phyaddr)++`. -/
def fputc (c : UInt8) (s : Packing) : Packing :=
  { s with img := s.img ++ [c], phyaddr := s.phyaddr + 1 }

def writeSegmentLoop (data : List UInt8) : Nat → Nat → Packing → Packing
  | 0, _, s => s
  | filesz + 1, position, s =>
      writeSegmentLoop data filesz (position + 1) (fputc (fgetc data position) s)

def writeSegment (data : List UInt8) (phdr : Phdr) (s : Packing) : Packing :=
  if phdr.memsz ≠ 0 ∧ phdr.type = ptLoad then writeSegmentLoop data phdr.filesz phdr.offset s
  else s

def writePaddingLoop : Nat → Packing → Packing
  | 0, s => s
  | count + 1, s => writePaddingLoop count (fputc 0 s)

def writePadding (newPhyaddr : Nat) (s : Packing) : Packing :=
  writePaddingLoop (newPhyaddr - s.phyaddr) s

/-- The bytes of `"main"`. -/
def mainName : List UInt8 := [0x6d, 0x61, 0x69, 0x6e]

/-- The loop over the program headers; the last arguments are the number of
rounds left and `ph`. -/
def packSegments (f : InputFile) (ehdr : Ehdr) : Nat → Nat → Packing → Option Packing
  | 0, _, s => some s
  | left + 1, ph, s => do
      let phdr ← readPhdr f.data ph ehdr
      if phdr.type ≠ ptLoad then packSegments f ehdr left (ph + 1) s
      else
        let s := writeSegment f.data phdr s
        let s := if f.name = mainName then
            { s with nbytesKernel := s.nbytesKernel + phdr.filesz % 2 ^ 32 }
          else s
        packSegments f ehdr left (ph + 1) s

/-- One round of the loop over the input files. -/
def packFile (fidx : Nat) (f : InputFile) (s : Packing) : Option Packing := do
  let blockId := s.phyaddr / sectorSize
  let ehdr ← readEhdr f.data
  let s ← packSegments f ehdr ehdr.phnum 0 s
  let s := writePadding (nbytes2sec s.phyaddr * sectorSize) s
  if 2 ≤ fidx then
    let taskidx := fidx - 2
    let info : TaskInfo := ⟨UInt64.ofNat (0x52000000 + taskidx * 0x10000), UInt32.ofNat blockId,
      UInt32.ofNat (s.phyaddr / sectorSize - blockId), f.name⟩
    return { s with taskinfo := Function.update s.taskinfo taskidx info }
  else return s

def packFiles : Nat → List InputFile → Packing → Option Packing
  | _, [], s => some s
  | fidx, f :: rest, s => do
      let s ← packFile fidx f s
      packFiles (fidx + 1) rest s

/-- `fseek` to a position and `fwrite` there; a gap is filled with zeros. -/
def overwrite (img : List UInt8) (position : Nat) (src : Bytes) (length : Nat) : List UInt8 :=
  (List.range (max img.length (position + length))).map
    (copy (listBytes img) position src 0 length)

def writeImgInfo (nbytesKernel tasknum : Nat) (img : List UInt8) (taskinfo : Nat → TaskInfo) :
    Option (List UInt8) :=
  let taskInfoSdcardId := img.length / sectorSize
  let img := overwrite img 0x1f0 (natBytes taskInfoSdcardId) 4
  let img := overwrite img 0x1f4 (natBytes tasknum) 2
  let img := overwrite img 0x1fc (natBytes (nbytes2sec nbytesKernel)) 2
  if img.length % sectorSize = 0 then
    some (img ++ (List.range (32 * taskMaxnum)).map fun i => (taskinfo (i / 32)).toBytes (i % 32))
  else none

/-- `create_image`.  More tasks than records, or an image whose size is no
`int`, are beyond what the program is defined for. -/
def createImage (files : List InputFile) : Option (List UInt8) := do
  let s ← packFiles 0 files .start
  if files.length ≤ taskMaxnum + 2 ∧ s.phyaddr < 2 ^ 31 then
    writeImgInfo s.nbytesKernel (files.length - 2) s.img s.taskinfo
  else none

/-- The program headers of a file. -/
def programHeaders (data : List UInt8) : List Phdr :=
  match readEhdr data with
  | none => []
  | some ehdr => (List.range ehdr.phnum).filterMap fun ph => readPhdr data ph ehdr

/-- The bytes of a segment in its file.  A segment without memory has none, and
behind the end of the file there is only `EOF`. -/
def segmentBytes (data : List UInt8) (phdr : Phdr) : List UInt8 :=
  if phdr.memsz = 0 then [] else (List.range' phdr.offset phdr.filesz).map (fgetc data)

/-- The segments that are loaded, one after the other in the order of their
headers. -/
def loadBytes (data : List UInt8) : List UInt8 :=
  ((programHeaders data).filter fun phdr => phdr.type = ptLoad).flatMap (segmentBytes data)

/-- The number of sectors of a file in the image. -/
def sectors (f : InputFile) : Nat := nbytes2sec (loadBytes f.data).length

variable {data : List UInt8} {f : InputFile} {s s' : Packing} {ehdr : Ehdr} {phdr : Phdr}
  {files : List InputFile} {fidx : Nat}

/-- Bytes are added at the end of the image. -/
def extend (l : List UInt8) (s : Packing) : Packing :=
  { s with img := s.img ++ l, phyaddr := s.phyaddr + l.length }

theorem extend_nil (s : Packing) : extend [] s = s := by
  simp [extend]

theorem extend_extend (l l' : List UInt8) (s : Packing) :
    extend l' (extend l s) = extend (l ++ l') s := by
  simp [extend, Nat.add_assoc]

theorem fputc_eq (c : UInt8) (s : Packing) : fputc c s = extend [c] s := rfl

theorem writeSegmentLoop_eq (filesz position : Nat) (s : Packing) :
    writeSegmentLoop data filesz position s =
      extend ((List.range' position filesz).map (fgetc data)) s := by
  induction filesz generalizing position s with
  | zero => rw [List.range'_zero, List.map_nil, extend_nil, writeSegmentLoop]
  | succ filesz ih =>
      rw [writeSegmentLoop, ih, fputc_eq, extend_extend, List.range'_succ, List.map_cons,
        List.singleton_append]

theorem segmentBytes_eq (hfile : phdr.offset + phdr.filesz ≤ data.length)
    (hmemory : phdr.filesz ≤ phdr.memsz) :
    segmentBytes data phdr = (data.drop phdr.offset).take phdr.filesz := by
  have hmap : ∀ position filesz, position + filesz ≤ data.length →
      (List.range' position filesz).map (fgetc data) = (data.drop position).take filesz := by
    intro position filesz h
    induction filesz generalizing position with
    | zero => rw [List.range'_zero, List.map_nil, List.take_zero]
    | succ filesz ih =>
        have hlt : position < data.length := by omega
        rw [List.range'_succ, List.map_cons, ih _ (by omega), List.drop_eq_getElem_cons hlt,
          List.take_succ_cons, fgetc, List.getD_eq_getElem _ _ hlt]
  unfold segmentBytes
  split
  next hzero => rw [show phdr.filesz = 0 by omega, List.take_zero]
  next => exact hmap _ _ hfile

theorem writePaddingLoop_eq (count : Nat) (s : Packing) :
    writePaddingLoop count s = extend (List.replicate count 0) s := by
  induction count generalizing s with
  | zero => rw [List.replicate_zero, extend_nil, writePaddingLoop]
  | succ count ih =>
      rw [writePaddingLoop, ih, fputc_eq, extend_extend, List.replicate_succ, List.singleton_append]

/-- The headers that rounds `ph` to `ph + left` of the loop read. -/
def headersFrom (data : List UInt8) (ehdr : Ehdr) (ph left : Nat) : List Phdr :=
  (List.range' ph left).filterMap fun ph => readPhdr data ph ehdr

theorem headersFrom_succ {ph left : Nat} (h : readPhdr data ph ehdr = some phdr) :
    headersFrom data ehdr ph (left + 1) = phdr :: headersFrom data ehdr (ph + 1) left := by
  rw [headersFrom, List.range'_succ]
  exact List.filterMap_cons_some h

/-- The segments with the given headers. -/
def loadBytesOf (data : List UInt8) (headers : List Phdr) : List UInt8 :=
  (headers.filter fun phdr => phdr.type = ptLoad).flatMap (segmentBytes data)

theorem writeSegment_eq (htype : phdr.type = ptLoad) (s : Packing) :
    writeSegment data phdr s = extend (segmentBytes data phdr) s := by
  unfold writeSegment segmentBytes
  rcases eq_or_ne phdr.memsz 0 with hzero | hne
  · rw [if_neg fun h => h.1 hzero, if_pos hzero, extend_nil]
  · rw [if_pos ⟨hne, htype⟩, if_neg hne, writeSegmentLoop_eq]

theorem packSegments_eq {left ph : Nat} (h : packSegments f ehdr left ph s = some s') :
    ∃ k, s' = { extend (loadBytesOf f.data (headersFrom f.data ehdr ph left)) s with
      nbytesKernel := k } := by
  induction left generalizing ph s with
  | zero =>
      obtain rfl := Option.some.inj h
      exact ⟨s.nbytesKernel, by simp [loadBytesOf, headersFrom, extend]⟩
  | succ left ih =>
      obtain ⟨phdr, hphdr, h⟩ := Option.bind_eq_some_iff.mp h
      rw [headersFrom_succ hphdr]
      split at h
      next hother =>
        obtain ⟨k, hk⟩ := ih h
        refine ⟨k, ?_⟩
        rw [hk, loadBytesOf, loadBytesOf, List.filter_cons_of_neg (by simpa using hother)]
      next hload =>
        have hload := not_not.mp hload
        rw [writeSegment_eq hload] at h
        obtain ⟨k, hk⟩ := ih h
        refine ⟨k, ?_⟩
        rw [hk, loadBytesOf, loadBytesOf, List.filter_cons_of_pos (by simpa using hload),
          List.flatMap_cons]
        split <;> simp [extend, Nat.add_assoc]

theorem loadBytesOf_headers (h : readEhdr data = some ehdr) :
    loadBytesOf data (headersFrom data ehdr 0 ehdr.phnum) = loadBytes data := by
  have hheaders : headersFrom data ehdr 0 ehdr.phnum = programHeaders data := by
    rw [headersFrom, programHeaders, h, ← List.range_eq_range']
  rw [hheaders]
  rfl

theorem le_nbytes2sec_mul (n : Nat) : n ≤ nbytes2sec n * sectorSize := by
  unfold nbytes2sec sectorSize
  split <;> omega

theorem nbytes2sec_add {n : Nat} (m : Nat) (hn : n % sectorSize = 0) :
    nbytes2sec (n + m) = n / sectorSize + nbytes2sec m := by
  unfold nbytes2sec sectorSize at *
  rw [show (n + m) % 512 = m % 512 by omega]
  omega

/-- Bytes filled up to the end of their last sector. -/
def padded (l : List UInt8) : List UInt8 :=
  l ++ List.replicate (nbytes2sec l.length * sectorSize - l.length) 0

theorem length_padded (l : List UInt8) :
    (padded l).length = nbytes2sec l.length * sectorSize := by
  rw [padded, List.length_append, List.length_replicate]
  have := le_nbytes2sec_mul l.length
  omega

theorem getD_padded (l : List UInt8) (i : Nat) : (padded l).getD i 0 = l.getD i 0 := by
  rcases Nat.lt_or_ge i l.length with hlt | hge
  · rw [padded, List.getD_append _ _ _ _ hlt]
  · rw [padded, List.getD_append_right _ _ _ _ hge, List.getD_eq_default l 0 hge,
      List.getD_eq_getElem?_getD, List.getElem?_replicate]
    split <;> rfl

/-- The record of task `taskidx`, which starts at sector `blockId`. -/
def infoOf (taskidx blockId : Nat) (f : InputFile) : TaskInfo :=
  ⟨UInt64.ofNat (0x52000000 + taskidx * 0x10000), UInt32.ofNat blockId,
    UInt32.ofNat (sectors f), f.name⟩

/-- Between two files: whole sectors, counted by `phyaddr`. -/
def Aligned (s : Packing) : Prop := s.phyaddr = s.img.length ∧ s.img.length % sectorSize = 0

theorem packFile_eq (hs : Aligned s) (h : packFile fidx f s = some s') :
    s'.img = s.img ++ padded (loadBytes f.data) ∧ Aligned s' ∧
      s'.taskinfo = if 2 ≤ fidx then
        Function.update s.taskinfo (fidx - 2) (infoOf (fidx - 2) (s.img.length / sectorSize) f)
      else s.taskinfo := by
  obtain ⟨hphyaddr, hsector⟩ := hs
  obtain ⟨ehdr, hehdr, h⟩ := Option.bind_eq_some_iff.mp h
  obtain ⟨s₁, hs₁, h⟩ := Option.bind_eq_some_iff.mp h
  obtain ⟨k, hk⟩ := packSegments_eq hs₁
  rw [loadBytesOf_headers hehdr] at hk
  set l := loadBytes f.data with hl
  have himg₁ : s₁.img = s.img ++ l := by rw [hk]; rfl
  have hphyaddr₁ : s₁.phyaddr = s.img.length + l.length := by
    rw [hk, ← hphyaddr]
    rfl
  have htaskinfo₁ : s₁.taskinfo = s.taskinfo := by rw [hk]; rfl
  have hle := le_nbytes2sec_mul l.length
  have hcount : nbytes2sec s₁.phyaddr * sectorSize - s₁.phyaddr =
      nbytes2sec l.length * sectorSize - l.length := by
    rw [hphyaddr₁, nbytes2sec_add _ hsector]
    unfold sectorSize at *
    omega
  set s₂ := writePadding (nbytes2sec s₁.phyaddr * sectorSize) s₁ with hs₂
  have hpadding : s₂ =
      extend (List.replicate (nbytes2sec l.length * sectorSize - l.length) 0) s₁ := by
    rw [hs₂, writePadding, hcount, writePaddingLoop_eq]
  have himg₂ : s₂.img = s.img ++ padded l := by
    rw [hpadding, extend, himg₁, padded, List.append_assoc]
  have hphyaddr₂ : s₂.phyaddr = s₂.img.length := by
    rw [himg₂, List.length_append, length_padded, hpadding, extend]
    dsimp only
    rw [hphyaddr₁, List.length_replicate]
    omega
  have hsector₂ : s₂.img.length % sectorSize = 0 := by
    rw [himg₂, List.length_append, length_padded]
    unfold sectorSize at *
    omega
  have hcount₂ : s₂.phyaddr / sectorSize - s.phyaddr / sectorSize = sectors f := by
    rw [hphyaddr₂, himg₂, hphyaddr, List.length_append, length_padded, sectors, ← hl]
    unfold sectorSize at *
    omega
  have htaskinfo₂ : s₂.taskinfo = s.taskinfo := by
    rw [hpadding]
    exact htaskinfo₁
  split at h
  next htask =>
    obtain rfl := Option.some.inj h
    refine ⟨himg₂, ⟨hphyaddr₂, hsector₂⟩, ?_⟩
    dsimp only
    rw [if_pos htask, htaskinfo₂, hcount₂, hphyaddr]
    rfl
  next htask =>
    obtain rfl := Option.some.inj h
    refine ⟨himg₂, ⟨hphyaddr₂, hsector₂⟩, ?_⟩
    rw [if_neg htask, htaskinfo₂]

/-- The sectors of some files. -/
def packed (files : List InputFile) : List UInt8 :=
  files.flatMap fun f => padded (loadBytes f.data)

theorem packFiles_eq (hs : Aligned s) (h : packFiles fidx files s = some s') :
    s'.img = s.img ++ packed files ∧ Aligned s' ∧
      ∀ taskidx < fidx - 2, s'.taskinfo taskidx = s.taskinfo taskidx := by
  induction files generalizing fidx s with
  | nil =>
      obtain rfl := Option.some.inj h
      exact ⟨(List.append_nil _).symm, hs, fun _ _ => rfl⟩
  | cons f rest ih =>
      obtain ⟨s₁, hs₁, h⟩ := Option.bind_eq_some_iff.mp h
      obtain ⟨himg₁, haligned₁, htaskinfo₁⟩ := packFile_eq hs hs₁
      obtain ⟨himg, haligned, htaskinfo⟩ := ih haligned₁ h
      refine ⟨?_, haligned, fun taskidx htaskidx => ?_⟩
      · rw [himg, himg₁, packed, packed, List.flatMap_cons, List.append_assoc]
      · rw [htaskinfo taskidx (by omega), htaskinfo₁]
        split
        next => exact Function.update_of_ne (by omega) ..
        next => rfl

theorem packFiles_append (files files' : List InputFile) :
    packFiles fidx (files ++ files') s =
      (packFiles fidx files s).bind (packFiles (fidx + files.length) files') := by
  induction files generalizing fidx s with
  | nil => rfl
  | cons f rest ih =>
      rw [List.cons_append, packFiles, packFiles, List.length_cons]
      cases hf : packFile fidx f s with
      | none => rfl
      | some s₁ =>
          simp only [Option.bind_eq_bind, Option.bind_some]
          rw [ih, Nat.add_assoc, Nat.add_comm 1]

theorem packFiles_taskinfo {before after : List InputFile} (htask : 2 ≤ before.length)
    (h : packFiles 0 (before ++ f :: after) .start = some s') :
    s'.taskinfo (before.length - 2) =
      infoOf (before.length - 2) ((packed before).length / sectorSize) f := by
  rw [packFiles_append] at h
  obtain ⟨s₁, hs₁, h⟩ := Option.bind_eq_some_iff.mp h
  obtain ⟨s₂, hs₂, h⟩ := Option.bind_eq_some_iff.mp h
  have hstart : Aligned .start := ⟨rfl, rfl⟩
  obtain ⟨himg₁, haligned₁, -⟩ := packFiles_eq hstart hs₁
  obtain ⟨-, haligned₂, htaskinfo₂⟩ := packFile_eq haligned₁ hs₂
  obtain ⟨-, -, htaskinfo⟩ := packFiles_eq haligned₂ h
  rw [htaskinfo _ (by omega), htaskinfo₂, if_pos (by omega), himg₁]
  simp only [Nat.zero_add, Function.update_self]
  rfl

variable {img image : List UInt8}

theorem listBytes_map_range (length : Nat) (src : Bytes) (i : Nat) :
    listBytes ((List.range length).map src) i = if i < length then src i else 0 := by
  rw [listBytes, List.getD_eq_getElem?_getD, List.getElem?_map]
  split
  next hlt => rw [List.getElem?_range hlt, Option.map_some, Option.getD_some]
  next hge => rw [List.getElem?_eq_none (by simpa using hge), Option.map_none, Option.getD_none]

theorem length_overwrite (position : Nat) (src : Bytes) (length : Nat) :
    (overwrite img position src length).length = max img.length (position + length) := by
  rw [overwrite, List.length_map, List.length_range]

theorem listBytes_overwrite (position : Nat) (src : Bytes) (length : Nat) :
    listBytes (overwrite img position src length) = copy (listBytes img) position src 0 length := by
  funext i
  rw [overwrite, listBytes_map_range]
  split
  next => rfl
  next hge =>
    rw [copy_outside (by omega), listBytes, List.getD_eq_default _ _ (by omega)]

theorem listBytes_append_left (l : List UInt8) {i : Nat} (hi : i < img.length) :
    listBytes (img ++ l) i = listBytes img i :=
  List.getD_append _ _ _ _ hi

theorem listBytes_append_right (l : List UInt8) (i : Nat) :
    listBytes (img ++ l) (img.length + i) = listBytes l i := by
  rw [listBytes, List.getD_append_right _ _ _ _ (by omega), Nat.add_sub_cancel_left]
  rfl

/-- What the kernel finds in an image.  The numbers are in the first sector,
the records in a sector of their own, and the sectors between hold what was
packed. -/
structure Finished (image img : List UInt8) (tasknum : Nat) (taskinfo : Nat → TaskInfo) :
    Prop where
  blockId : get32 (listBytes image) 0x1f0 = UInt32.ofNat (img.length / sectorSize)
  tasknum : get16 (listBytes image) 0x1f4 = UInt16.ofNat tasknum
  records : ∀ i < 512, listBytes image (img.length + i) = (taskinfo (i / 32)).toBytes (i % 32)
  packed : ∀ i, sectorSize ≤ i → i < img.length → listBytes image i = listBytes img i

theorem writeImgInfo_eq {nbytesKernel tasknum : Nat} {taskinfo : Nat → TaskInfo}
    (hlength : sectorSize ≤ img.length) (hint : img.length < 2 ^ 31) (htasknum : tasknum < 2 ^ 16)
    (h : writeImgInfo nbytesKernel tasknum img taskinfo = some image) :
    Finished image img tasknum taskinfo := by
  unfold sectorSize at hlength
  unfold writeImgInfo at h
  extract_lets taskInfoSdcardId img₁ img₂ img₃ at h
  obtain ⟨-, h⟩ := Option.ite_none_right_eq_some.mp h
  obtain rfl := Option.some.inj h
  have hlength₃ : img₃.length = img.length := by
    rw [length_overwrite, length_overwrite, length_overwrite]
    omega
  have hbytes : ∀ i < img.length, listBytes (img₃ ++ (List.range (32 * taskMaxnum)).map fun i =>
      (taskinfo (i / 32)).toBytes (i % 32)) i =
      copy (copy (copy (listBytes img) 0x1f0 (natBytes (img.length / sectorSize)) 0 4) 0x1f4
        (natBytes tasknum) 0 2) 0x1fc (natBytes (nbytes2sec nbytesKernel)) 0 2 i := by
    intro i hi
    rw [listBytes_append_left _ (by omega), listBytes_overwrite, listBytes_overwrite,
      listBytes_overwrite]
  refine ⟨get32_eq fun i hi => ?_, get16_eq fun i hi => ?_, fun i hi => ?_, fun i hi hi' => ?_⟩
  · rw [hbytes _ (by omega), copy_outside (by omega), copy_outside (by omega),
      copy_inside (by omega) (by omega), UInt32.toNat_ofNat', Nat.zero_add, Nat.add_sub_cancel_left,
      Nat.mod_eq_of_lt (by unfold sectorSize; omega)]
  · rw [hbytes _ (by omega), copy_outside (by omega), copy_inside (by omega) (by omega),
      UInt16.toNat_ofNat', Nat.zero_add, Nat.add_sub_cancel_left, Nat.mod_eq_of_lt htasknum]
  · rw [← hlength₃, listBytes_append_right, listBytes_map_range]
    exact if_pos hi
  · unfold sectorSize at hi
    rw [hbytes i hi', copy_outside (by omega), copy_outside (by omega), copy_outside (by omega)]

theorem packed_append (before after : List InputFile) :
    packed (before ++ f :: after) =
      packed before ++ (padded (loadBytes f.data) ++ packed after) := by
  rw [packed, List.flatMap_append, List.flatMap_cons]
  rfl

theorem length_packed_append (before after : List InputFile) :
    (packed (before ++ f :: after)).length =
      (packed before).length + sectors f * sectorSize + (packed after).length := by
  rw [packed_append, List.length_append, List.length_append, length_padded, Nat.add_assoc]
  rfl

theorem listBytes_packed {before after : List InputFile} {n : Nat}
    (hn : n < sectors f * sectorSize) :
    listBytes (packed (before ++ f :: after)) ((packed before).length + n) =
      (loadBytes f.data).getD n 0 := by
  have hlt : n < (padded (loadBytes f.data)).length := by
    rw [length_padded]
    exact hn
  rw [packed_append, listBytes_append_right, listBytes_append_left _ hlt]
  exact getD_padded _ n

theorem length_packed_mod (files : List InputFile) : (packed files).length % sectorSize = 0 := by
  induction files with
  | nil => rfl
  | cons f rest ih =>
      rw [packed, List.flatMap_cons, List.length_append, length_padded]
      change (_ + (packed rest).length) % _ = 0
      unfold sectorSize at *
      omega

theorem createImage_eq (hfirst : sectorSize ≤ (packed files).length)
    (h : createImage files = some image) :
    files.length ≤ taskMaxnum + 2 ∧ (packed files).length < 2 ^ 31 ∧
      ∃ taskinfo, Finished image (packed files) (files.length - 2) taskinfo ∧
        ∀ before f after, files = before ++ f :: after → 2 ≤ before.length →
          taskinfo (before.length - 2) =
            infoOf (before.length - 2) ((packed before).length / sectorSize) f := by
  obtain ⟨s, hs, h⟩ := Option.bind_eq_some_iff.mp h
  obtain ⟨⟨hcount, hint⟩, h⟩ := Option.ite_none_right_eq_some.mp h
  obtain ⟨himg, haligned, -⟩ := packFiles_eq ⟨rfl, rfl⟩ hs
  have himg : s.img = packed files := himg
  rw [haligned.1, himg] at hint
  rw [himg] at h
  refine ⟨hcount, hint, s.taskinfo, writeImgInfo_eq hfirst hint ?_ h, ?_⟩
  · unfold taskMaxnum at hcount
    omega
  · rintro before f after rfl htask
    exact packFiles_taskinfo htask hs

/-- All the headers of the file can be read. -/
def Readable (data : List UInt8) : Prop :=
  ∃ ehdr ∈ readEhdr data, ∀ ph < ehdr.phnum, (readPhdr data ph ehdr).isSome

theorem packSegments_isSome {left : Nat} (ph : Nat) (s : Packing)
    (h : ∀ n < ph + left, (readPhdr f.data n ehdr).isSome) :
    (packSegments f ehdr left ph s).isSome := by
  induction left generalizing ph s with
  | zero => rfl
  | succ left ih =>
      obtain ⟨phdr, hphdr⟩ := Option.isSome_iff_exists.mp (h ph (by omega))
      rw [packSegments, hphdr]
      dsimp only [Option.bind_eq_bind, Option.bind_some]
      split
      next => exact ih _ _ fun n hn => h n (by omega)
      next => exact ih _ _ fun n hn => h n (by omega)

theorem packFiles_isSome (fidx : Nat) (s : Packing) (h : ∀ f ∈ files, Readable f.data) :
    (packFiles fidx files s).isSome := by
  induction files generalizing fidx s with
  | nil => rfl
  | cons f rest ih =>
      obtain ⟨ehdr, hehdr, hphdr⟩ := h f List.mem_cons_self
      have hsegments : (packSegments f ehdr ehdr.phnum 0 s).isSome :=
        packSegments_isSome 0 s (by simpa using hphdr)
      obtain ⟨s₁, hs₁⟩ := Option.isSome_iff_exists.mp hsegments
      have hrest := fun fidx s => ih fidx s fun f hf => h f (List.mem_cons_of_mem _ hf)
      rw [packFiles, packFile, Option.mem_def.mp hehdr]
      dsimp only [Option.bind_eq_bind, Option.bind_some]
      rw [hs₁, Option.bind_some]
      split
      next => exact hrest _ _
      next => exact hrest _ _

theorem createImage_isSome (h : ∀ f ∈ files, Readable f.data)
    (hcount : files.length ≤ taskMaxnum + 2) (hfirst : sectorSize ≤ (packed files).length)
    (hint : (packed files).length < 2 ^ 31) : (createImage files).isSome := by
  obtain ⟨s, hs⟩ := Option.isSome_iff_exists.mp (packFiles_isSome 0 .start h)
  obtain ⟨himg, haligned, -⟩ := packFiles_eq ⟨rfl, rfl⟩ hs
  have himg : s.img = packed files := himg
  have hmod := length_packed_mod files
  rw [createImage, hs]
  dsimp only [Option.bind_eq_bind, Option.bind_some]
  rw [if_pos ⟨hcount, by rw [haligned.1, himg]; exact hint⟩, himg, writeImgInfo, if_pos]
  · rfl
  · unfold sectorSize at hfirst
    rw [length_overwrite, length_overwrite, length_overwrite, ← hmod]
    congr 1
    omega

end LabKernel.ImagePacking
