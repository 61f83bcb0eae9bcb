import LabKernel.SystemParameters

/-!
What a restart makes of the system parameters.

The text of a value is written over the beginning of the file, and what longer
texts left behind it stays there.  The policy survives a restart unless these
remains make another number of it.
-/

namespace LabKernel.ParameterRestart

open LabKernel.BitMaps
open LabKernel.BlockCache
open LabKernel.BlockFreeing
open LabKernel.BlockObject
open LabKernel.BlockOwnership
open LabKernel.ByteMemory
open LabKernel.CacheCoherence
open LabKernel.CacheTraffic
open LabKernel.CallSafety
open LabKernel.CalmMachines
open LabKernel.DecimalText
open LabKernel.DirectData
open LabKernel.Directories
open LabKernel.DirectoryCalls
open LabKernel.FileContents
open LabKernel.Formatting
open LabKernel.FsCode
open LabKernel.FsLayout
open LabKernel.FsPrimitives
open LabKernel.FsRuns
open LabKernel.FsTables
open LabKernel.FsView
open LabKernel.HandleSafety
open LabKernel.ProgramLogic
open LabKernel.SteadyPrograms
open LabKernel.SystemParameters

variable {m m' : Machine Bytes Globals} {E : Failure → Machine Bytes Globals → Prop}
  {fd value : Int} {T T' : Finset Nat} {W : Set Nat} {n dir : Inode} {p ino : UInt32} {file : File}
  {bytes bytes' : List UInt8} {s s' : FsState} {path : List UInt8} {lo hi q : Nat} {e : DirEntry}

/-- The root directory, as it shows. -/
def root (m : Machine Bytes Globals) : Inode := inodeAt m m.globals.superblock.rootInode.toNat

/-- The file `sysparams` has inode `ino` with the fields `n`, and the given
bytes are its first 16 ones. -/
structure Recorded (m : Machine Bytes Globals) (ino : UInt32) (n : Inode) (bytes : List UInt8) :
    Prop where
  calm : Calm {(n.dataDirect 0).toNat} m
  copied : Copied m
  magic0 : m.globals.superblock.magic0 = superblockMagic
  magic1 : m.globals.superblock.magic1 = superblockMagic
  root_lt : m.globals.superblock.rootInode.toNat < maxInodeNum
  blocks : ∀ i, direct (root m) i ≠ 0 →
    IsData (direct (root m) i) ∧ direct (root m) i ≠ n.dataDirect 0
  finds : ∃ q e, Finds (shown m) (root m) sysparams 0 1024 q e ∧ e.inode = ino
  ino_lt : ino.toNat < maxInodeNum
  inode : inodeAt m ino.toNat = n
  type : n.type = 2
  size : 16 ≤ n.size.toNat
  isData : IsData (n.dataDirect 0)
  bytes_eq : window (visible m (n.dataDirect 0).toNat) = bytes

theorem finds_congr (h : Finds s dir path lo hi q e) (hslot : ∀ q, slot s' dir q = slot s dir q) :
    Finds s' dir path lo hi q e where
  le := h.le
  lt := h.lt
  slot_eq := (hslot q).trans h.slot_eq
  name_eq := h.name_eq
  first q' hle hlt e' he' := h.first q' hle hlt e' ((hslot q').symm.trans he')

theorem Recorded.congr (h : Recorded m ino n bytes)
    (hcalm : Calm {(n.dataDirect 0).toNat} m')
    (hv : ∀ x < maxBlockNum, x ≠ (n.dataDirect 0).toNat → visible m' x = visible m x)
    (hsb : m'.globals.superblock = m.globals.superblock)
    (hbytes : window (visible m' (n.dataDirect 0).toNat) = bytes') :
    Recorded m' ino n bytes' := by
  have hmax : 517 < maxBlockNum := by decide
  have hlow : ∀ x < 517, visible m' x = visible m x := fun x hx =>
    hv x (hx.trans hmax) (by have := h.isData.1; omega)
  have hinode : ∀ k < maxInodeNum, inodeAt m' k = inodeAt m k := fun k hk => by
    rw [inodeAt, hlow _ (inodeBlock_lt hk)]
    rfl
  have hroot : root m' = root m := by
    rw [root, hsb]
    exact hinode _ h.root_lt
  refine ⟨hcalm, fun i hi => ?_, ?_, ?_, ?_, ?_, ?_, h.ino_lt, ?_, h.type,
    h.size, h.isData, hbytes⟩
  · rw [hlow 0 (by omega), hsb]
    exact h.copied i hi
  · rw [hsb]
    exact h.magic0
  · rw [hsb]
    exact h.magic1
  · rw [hsb]
    exact h.root_lt
  · rw [hroot]
    exact h.blocks
  · obtain ⟨q, e, hfinds, he⟩ := h.finds
    rw [hroot]
    refine ⟨q, e, finds_congr hfinds fun q => ?_, he⟩
    rcases eq_or_ne (direct (root m) (q / 128)) 0 with hzero | hne
    · rw [slot_of_zero hzero, slot_of_zero hzero]
    · obtain ⟨hdata, hapart⟩ := h.blocks _ hne
      have hsame : visible m' (direct (root m) (q / 128)).toNat =
          visible m (direct (root m) (q / 128)).toNat :=
        hv _ hdata.2 fun heq => hapart (UInt32.toNat_inj.mp heq)
      have hd : (shown m).data (direct (root m) (q / 128)).toNat = some _ := rfl
      have hd' : (shown m').data (direct (root m) (q / 128)).toNat = some _ := rfl
      rw [slot_of_data hne hd, slot_of_data hne hd', hsame]
  · rw [hinode _ h.ino_lt]
    exact h.inode

theorem Recorded.evolves (h : Recorded m ino n bytes)
    (hev : Evolves T T' {(n.dataDirect 0).toNat} m m')
    (hsb : m'.globals.superblock = m.globals.superblock)
    (hbytes : window (visible m' (n.dataDirect 0).toNat) = bytes') :
    Recorded m' ino n bytes' := by
  refine h.congr ?_ (fun x hx hne => ?_) hsb hbytes
  · refine h.calm.evolves hev ⟨hev.sound, hsb ▸ h.calm.ready.layout⟩ (Set.Subset.refl _) ?_
    exact fun x hx _ hx' => absurd hx hx'
  · exact hev.visible_of_settled hx hne (h.calm.settled x hx hne)

/-- The object behind the handle `fd` is the one of the file `sysparams`. -/
structure Stored (m : Machine Bytes Globals) (fd : Int) (file : File) (bytes : List UInt8) :
    Prop where
  recorded : Recorded m file.inodeIdx file.inode bytes
  stable : ∃ T : Finset Nat, T.card ≤ cacheSize ∧ (file.inode.dataDirect 0).toNat ∈ T ∧
    Stable T m (file.inode.dataDirect 0).toNat
  file_eq : m.globals.files[sizeT fd]? = some (some file)
  mode : file.mode = oRdwr

theorem Stored.ready (h : Stored m fd file bytes) : Ready m := h.recorded.calm.ready

/-- A step that writes at most the block of the file. -/
theorem Stored.evolves {file' : File} (h : Stored m fd file bytes) (hcard : T.card ≤ cacheSize)
    (hmem : (file.inode.dataDirect 0).toNat ∈ T)
    (hev : Evolves T T {(file.inode.dataDirect 0).toNat} m m')
    (hsb : m'.globals.superblock = m.globals.superblock)
    (hfile : m'.globals.files[sizeT fd]? = some (some file')) (hinode : file'.inode = file.inode)
    (hidx : file'.inodeIdx = file.inodeIdx) (hmode : file'.mode = file.mode)
    (hstable : Stable T m' (file.inode.dataDirect 0).toNat)
    (hbytes : window (visible m' (file.inode.dataDirect 0).toNat) = bytes') :
    Stored m' fd file' bytes' := by
  refine ⟨?_, ⟨T, hcard, ?_, ?_⟩, hfile, hmode.trans h.mode⟩
  · rw [hinode, hidx]
    exact h.recorded.evolves hev hsb hbytes
  · rw [hinode]
    exact hmem
  · rw [hinode]
    exact hstable

theorem policy_writebackFrom {c c' : Cache Bytes} {left start : Nat}
    (h : writebackFrom c left start = some c') :
    (c'.policyWritethrough, c'.policyWritebackInterval) =
      (c.policyWritethrough, c.policyWritebackInterval) := by
  induction left generalizing c start with
  | zero =>
      cases h
      rfl
  | succ left ih =>
      rw [writebackFrom] at h
      dsimp only at h
      split at h
      next =>
        obtain ⟨disk, -, h⟩ := Option.bind_eq_some_iff.mp h
        exact (ih h).trans rfl
      next => exact ih h

theorem policy_cacheSetPolicy {c c' : Cache Bytes} (h : cacheSetPolicy c value = some c') :
    (c'.policyWritethrough, c'.policyWritebackInterval) =
      if value = -1 ∨ 0 ≤ value then policyOf value
      else (c.policyWritethrough, c.policyWritebackInterval) := by
  unfold cacheSetPolicy at h
  split at h
  next heq =>
    rw [if_pos (Or.inl heq), policyOf, if_pos heq]
    exact policy_writebackFrom h
  next hne =>
    split at h
    next hle =>
      cases h
      rw [if_pos (Or.inr hle), policyOf, if_neg hne]
    next hlt =>
      cases h
      rw [if_neg (not_or.mpr ⟨hne, hlt⟩)]

theorem runs_setPolicy (h : Sound m) (value : Int) :
    Runs (onCache (cacheSetPolicy · value)) m E fun _ m' =>
      (∀ T : Finset Nat, Evolves T T ∅ m m') ∧ m'.globals = m.globals ∧
        inForce m' = if value = -1 ∨ 0 ≤ value then policyOf value else inForce m := by
  obtain ⟨c', hc', hundisturbed⟩ := setPolicy_undisturbed h.coherent value
  have hrun : (onCache (cacheSetPolicy · value) : Fs Unit).run m =
      (.ok (), { m with cache := c' }) := by
    simp only [onCache, hc']
  exact runs_of_ok hrun
    ⟨fun _ => evolves_undisturbed h hundisturbed, rfl, policy_cacheSetPolicy hc'⟩

theorem runs_rewind (h : Sound m) {k : Nat} (hfile : m.globals.files[k]? = some (some file)) :
    Runs (fsLseek k 0 seekSet) m E fun _ m' => Evolves T T ∅ m m' ∧
      visible m' = visible m ∧
      m'.globals = { m.globals with
        files := m.globals.files.set k (some { file with filePtr := 0 }) } := by
  refine (runs_getFile hfile).bind ?_
  rintro _ m ⟨rfl, rfl⟩
  simp only [lseek, if_true]
  refine (runs_modifyGlobals h _ (T := T)).bind ?_
  rintro _ m' ⟨hev, hv, -, hg⟩
  exact runs_pure ⟨hev, hv, hg⟩

theorem files_set {files : List (Option File)} {k : Nat} {object file' : Option File}
    (h : files[k]? = some object) : (files.set k file')[k]? = some file' := by
  obtain ⟨hlt, -⟩ := List.getElem?_eq_some_iff.mp h
  simp [hlt]

/-- The file after a value was written over its beginning. -/
def overwrite (bytes str : List UInt8) : List UInt8 := str ++ bytes.drop str.length

theorem window_copy {d : Bytes} {str : List UInt8} (h : str.length ≤ 16) :
    window (copy d 0 (listBytes str) 0 str.length) = overwrite (window d) str := by
  refine List.ext_getElem ?_ fun i hi _ => ?_
  · simp only [window, overwrite, List.length_map, List.length_range, List.length_append,
      List.length_drop]
    omega
  · rw [window, List.length_map, List.length_range] at hi
    simp only [window, overwrite, List.getElem_map, List.getElem_range]
    rcases lt_or_ge i str.length with hlt | hge
    · rw [copy_inside (Nat.zero_le _) (by omega), List.getElem_append_left hlt]
      simp [listBytes, hlt]
    · rw [copy_outside (by omega), List.getElem_append_right hge]
      simp only [List.getElem_drop, List.getElem_map, List.getElem_range]
      congr 1
      omega

theorem length_toText_le_of_valid (h : Valid value) : (toText value).length ≤ 10 := by
  rcases h with rfl | ⟨hlo, hhi⟩
  · decide
  · exact length_toText_le (by omega) (by omega)

theorem runs_setParameter (h : Stored m fd file bytes) (hv : Valid value) :
    Runs (setParameter fd 0 value) m Never fun _ m' => inForce m' = policyOf value ∧
      ∃ file', Stored m' fd file' (overwrite bytes (toText value)) ∧
        Settled m' (file'.inode.dataDirect 0).toNat := by
  have hpos := length_toText_pos value
  have hlength := length_toText_le_of_valid hv
  rw [setParameter, if_neg (not_not.mpr rfl), toInt_of_valid hv]
  refine (runs_setPolicy h.ready.sound value).bind ?_
  rintro _ m₁ ⟨hev₁, hg₁, hforce₁⟩
  rw [if_pos (hv.imp id And.left)] at hforce₁
  obtain ⟨T, hcard, hmem, hstable⟩ := h.stable
  have hp := h.recorded.isData
  obtain ⟨hv₁, hstable₁⟩ := hstable.evolves (hev₁ T) hp.2 (Set.notMem_empty _)
  have hfile₁ : m₁.globals.files[sizeT fd]? = some (some file) := hg₁.symm ▸ h.file_eq
  have hrewind := runs_rewind (T := T) (E := Never) (hev₁ T).sound hfile₁
  refine ((steady_fsLseek (f := fixtures) _ _ _).runs hrewind).bind ?_
  rintro _ m₂ ⟨⟨hev₂, hv₂, hg₂⟩, hfix₂⟩
  obtain ⟨-, hstable₂⟩ := hstable₁.evolves hev₂ hp.2 (Set.notMem_empty _)
  have hfile₂ : m₂.globals.files[sizeT fd]? = some (some { file with filePtr := 0 }) := by
    rw [hg₂]
    exact files_set hfile₁
  have hwrite : Runs (fsFwrite (sizeT fd) (listBytes (toText value)) (toText value).length) m₂ Never
      fun _ m' => Evolves T T {(file.inode.dataDirect 0).toNat} m₂ m' ∧
        m'.globals.superblock = m₂.globals.superblock ∧
        m'.globals.files[sizeT fd]? =
          some (some (advanced { file with filePtr := 0 } (toText value).length)) ∧
        Settled m' (file.inode.dataDirect 0).toNat ∧
        visible m' (file.inode.dataDirect 0).toNat =
          copy (visible m₂ (file.inode.dataDirect 0).toNat) 0 (listBytes (toText value)) 0
            (toText value).length := by
    refine (runs_getFile hfile₂).bind ?_
    rintro _ m₂ ⟨rfl, rfl⟩
    have htransfer := @fileTransfer_first m₂ Never T { file with filePtr := 0 } true
      (listBytes (toText value)) _ hev₂.sound hcard hp hmem hstable₂ h.mode rfl hpos (by omega)
      h.recorded.size
    refine htransfer.bind ?_
    rintro ⟨_, _, _⟩ m₃ ⟨rfl, hmoved⟩
    refine (runs_modifyGlobals hmoved.evolves.sound _ (T := T)).bind ?_
    rintro _ m₄ ⟨hev₄, hv₄, hs₄, hg₄⟩
    refine runs_pure ⟨hmoved.evolves.trans (hev₄.mono (Set.empty_subset _)), ?_, ?_, ?_, ?_⟩
    · rw [hg₄, hmoved.globals]
    · rw [hg₄, hmoved.globals]
      exact files_set hfile₂
    · rw [Settled, hv₄, hs₄]
      exact hmoved.settled (Or.inl rfl)
    · rw [hv₄]
      exact congrArg Prod.fst hmoved.moved
  refine ((steady_fsFwrite (f := fixtures) _ _ _).runs hwrite).bind ?_
  rintro _ m₃ ⟨⟨hev₃, hsb₃, hfile₃, hs₃, hv₃⟩, hfix₃⟩
  have hforce : inForce m₃ = inForce m₁ := (congrArg Prod.fst hfix₃).trans (congrArg Prod.fst hfix₂)
  refine runs_pure ⟨hforce.trans hforce₁, _, h.evolves hcard hmem ?_ ?_ hfile₃ rfl rfl rfl
    (Or.inl hs₃) ?_, hs₃⟩
  · exact ((hev₁ T).mono (Set.empty_subset _)).trans ((hev₂.mono (Set.empty_subset _)).trans hev₃)
  · rw [hsb₃, hg₂, hg₁]
  · rw [hv₃, hv₂, hv₁, window_copy (by omega), h.recorded.bytes_eq]

/-- The first bytes of the file after a sequence of values. -/
def bytesAfter (bytes : List UInt8) (values : List Int) : List UInt8 :=
  values.foldl (fun bytes value => overwrite bytes (toText value)) bytes

theorem runs_setParameters {rest : List Int} (h : Stored m fd file bytes)
    (hvalues : ∀ v ∈ value :: rest, Valid v) :
    Runs (setParameters fd (value :: rest)) m Never fun _ m' =>
      inForce m' = policyOf ((value :: rest).getLast (List.cons_ne_nil _ _)) ∧
        ∃ file', Stored m' fd file' (bytesAfter bytes (value :: rest)) ∧
          Settled m' (file'.inode.dataDirect 0).toNat := by
  induction rest generalizing m file bytes value with
  | nil =>
      refine (runs_setParameter h (hvalues value List.mem_cons_self)).bind ?_
      exact fun _ m₁ h₁ => runs_pure h₁
  | cons next rest ih =>
      obtain ⟨hvalue, hrest⟩ := List.forall_mem_cons.mp hvalues
      refine (runs_setParameter h hvalue).bind ?_
      rintro _ m₁ ⟨-, file₁, h₁, -⟩
      rw [List.getLast_cons (List.cons_ne_nil next rest)]
      exact ih h₁ hrest

theorem disk_of_clean {c : Cache Bytes} {v s : Nat → Bytes} {x : Nat} (h : Coherent c v s)
    (hclean : ∀ i < cacheSize, (c.slots i).dirty = false) (hx : x < maxBlockNum) :
    c.disk (sector x) = s x := by
  rcases em (∃ i < cacheSize, (c.slots i).blockid = x) with ⟨i, hi, rfl⟩ | hnone
  · exact h.clean_settled i hi hx (hclean i hi)
  · exact (h.absent x hx fun i hi heq => hnone ⟨i, hi, heq⟩).1

theorem runs_writeback (h : Sound m) (hs : ∀ x < maxBlockNum, Settled m x) :
    Runs (onCache cacheWriteback) m E fun _ m' =>
      ∀ x < maxBlockNum, m'.cache.disk (sector x) = visible m x := by
  obtain ⟨c', hrun, hc', -, hclean⟩ := cacheWriteback_spec h.coherent
  have hrun' : (onCache cacheWriteback : Fs Unit).run m = (.ok (), { m with cache := c' }) := by
    simp only [onCache, hrun]
  exact runs_of_ok hrun' fun x hx => (disk_of_clean hc' hclean hx).trans (hs x hx).symm

theorem get32_toBytes (sb : SuperBlock) {d : Bytes} (h : ∀ i < superBlockSize, d i = sb.toBytes i)
    {j : Nat} (hj : j < 14) : get32 d (4 * j) = sb.words.getD j 0 := by
  refine get32_eq fun i hi => ?_
  rw [h _ (by rw [superBlockSize]; omega), SuperBlock.toBytes,
    show (4 * j + i) / 4 = j by omega, show (4 * j + i) % 4 = i by omega]

/-- The super block is read back. -/
theorem ofBytes_toBytes {sb : SuperBlock} {d : Bytes}
    (h : ∀ i < superBlockSize, d i = sb.toBytes i) : SuperBlock.ofBytes d = sb := by
  have hwords : ∀ j < 14, get32 d (4 * j) = sb.words.getD j 0 := fun j => get32_toBytes sb h
  cases sb with
  | mk =>
      simp only [SuperBlock.ofBytes, SuperBlock.mk.injEq]
      exact ⟨hwords 0 (by decide), hwords 1 (by decide), hwords 2 (by decide), hwords 3 (by decide),
        hwords 4 (by decide), hwords 5 (by decide), hwords 6 (by decide), hwords 7 (by decide),
        hwords 8 (by decide), hwords 9 (by decide), hwords 10 (by decide), hwords 11 (by decide),
        hwords 12 (by decide), hwords 13 (by decide)⟩

/-- A machine after `init_filesystem` on the disk that another one left. -/
structure Started (m m' : Machine Bytes Globals) : Prop where
  calm : Calm ∅ m'
  visible_eq : ∀ x < maxBlockNum, visible m' x = visible m x
  superblock : m'.globals.superblock = m.globals.superblock
  cwdNode : m'.globals.cwdNode = m.globals.superblock.rootInode
  files : m'.globals.files = []
  inForce : inForce m' = (true, 0)

theorem runs_recognized (hcopied : Copied m)
    (hmagic : m.globals.superblock.magic0 = superblockMagic ∧
      m.globals.superblock.magic1 = superblockMagic)
    (hlayout : Layout m.globals.superblock) {m₀ m₁ : Machine Bytes Globals}
    (hdisk : ∀ x < maxBlockNum, m₀.cache.disk (sector x) = visible m x)
    (hpower : m₁ = poweredOn m₀) : Runs initFilesystem m₁ E fun _ m' => Started m m' := by
  have hcache : Runs (onCache fun c => some (cacheInit c)) m₁ E fun _ m₂ => Sound m₂ ∧
      (∀ x < maxBlockNum, visible m₂ x = visible m x ∧ Settled m₂ x) ∧ m₂.globals.files = [] ∧
        inForce m₂ = (true, 0) := by
    rw [hpower]
    have hcoherent : Coherent (boot { blankCache with disk := m₀.cache.disk } blankGlobals).cache
        _ _ := coherent_cacheInit _
    have hrun : (onCache fun c => some (cacheInit c) : Fs Unit).run (poweredOn m₀) =
        (.ok (), boot { blankCache with disk := m₀.cache.disk } blankGlobals) := rfl
    refine runs_of_ok hrun ⟨sound_boot _ (le_refl 0), fun x hx => ?_, rfl, rfl⟩
    obtain ⟨hv, hs⟩ := visible_eq_of_coherent hcoherent hx
    exact ⟨hv.trans (hdisk x hx), hv.trans hs.symm⟩
  unfold initFilesystem
  refine hcache.bind ?_
  rintro _ m₁ ⟨hsound, hboth, hfiles, hforce⟩
  refine ((Observed.openBlock (f := fixtures) 0).runs (runs_openBlock hsound (T := {0})
    (by simp [cacheSize]) (Finset.mem_singleton_self 0)
    fun hle => absurd hle (by decide))).bind ?_
  rintro block m₂ ⟨⟨hid, hfresh, hev, hg⟩, hfix⟩
  have hkept : ∀ x < maxBlockNum, visible m₂ x = visible m x ∧ Settled m₂ x := fun x hx => by
    obtain ⟨hv, hs⟩ := hboth x hx
    exact ⟨(hev.visible_of_settled hx (Set.notMem_empty x) hs).trans hv,
      hev.settled_of_settled hx (Set.notMem_empty x) hs⟩
  refine (runs_load hev.sound hfresh).bind ?_
  rintro _ m₂ ⟨rfl, rfl⟩
  rw [hid, (hkept 0 (by decide)).1]
  dsimp only
  rw [ofBytes_toBytes hcopied, if_pos hmagic]
  have hsound₃ := (evolves_globals (T := ∅) (W := ∅) hev.sound { m₂.globals with
    superblock := m.globals.superblock
    cwdNode := m.globals.superblock.rootInode }).sound
  refine runs_of_ok rfl ⟨⟨⟨hsound₃, hlayout⟩, fun x hx _ => (hkept x hx).2⟩,
    fun x hx => (hkept x hx).1, rfl, rfl, ?_, ?_⟩
  · exact (congrArg Globals.files hg).trans hfiles
  · exact (congrArg Prod.fst hfix).trans hforce

theorem runs_initFilesystem (h : Recorded m ino n bytes) {m₀ m₁ : Machine Bytes Globals}
    (hdisk : ∀ x < maxBlockNum, m₀.cache.disk (sector x) = visible m x)
    (hpower : m₁ = poweredOn m₀) : Runs initFilesystem m₁ E fun _ m' => Started m m' :=
  runs_recognized h.copied ⟨h.magic0, h.magic1⟩ h.calm.ready.layout hdisk hpower

theorem Started.recorded (h : Started m m') (hrecorded : Recorded m ino n bytes) :
    Recorded m' ino n bytes :=
  hrecorded.congr (h.calm.mono (Set.empty_subset _)) (fun x hx _ => h.visible_eq x hx) h.superblock
    (by rw [h.visible_eq _ hrecorded.isData.2]; exact hrecorded.bytes_eq)

theorem realizes_shown (h : Calm ∅ m) : Realizes m (shown m) := by
  have hmax : 517 < maxBlockNum := by decide
  refine ⟨h.ready, fun x hx => h.settled x (hx.trans hmax) (Set.notMem_empty x), fun _ _ => rfl,
    fun _ _ => rfl, fun _ _ => rfl, fun x _ hx d hd => ⟨Option.some.inj hd, ?_⟩, rfl, rfl,
    counted_shown m⟩
  exact h.settled x hx (Set.notMem_empty x)

theorem Calm.visible_eq (h : Calm ∅ m) (hev : Evolves T T' ∅ m m') {x : Nat}
    (hx : x < maxBlockNum) : visible m' x = visible m x :=
  hev.visible_of_settled hx (Set.notMem_empty x) (h.settled x hx (Set.notMem_empty x))

theorem readInode_calm (h : Calm ∅ m) (hino : ino.toNat < maxInodeNum) :
    Runs (readInode ino) m E fun a m' =>
      a = inodeAt m ino.toNat ∧ Evolves ∅ ∅ ∅ m m' ∧ m'.globals = m.globals := by
  have hmax : 517 < maxBlockNum := by decide
  have hlt := inodeBlock_lt hino
  refine (runs_readInode h.ready (T := {5 + ino.toNat / 64}) (by simp [cacheSize])
    (Finset.mem_singleton_self _) fun hle => absurd hle (by omega)).mono (fun _ _ he => he) ?_
  rintro a m' ⟨hev, hg, hx, rfl⟩
  refine ⟨?_, hev.forget, hg⟩
  rw [Calm.visible_eq h hev hx]
  rfl

theorem scanBlocks_evolves {left i f : Nat} (h : Sound m)
    (hdir : ∀ i, direct dir i ≠ 0 → IsData (direct dir i)) :
    Runs (scanBlocks dir path left i f) m E fun _ m' =>
      Evolves ∅ ∅ ∅ m m' ∧ m'.globals = m.globals := by
  induction left generalizing m i f with
  | zero => exact runs_pure ⟨Evolves.refl h (Finset.Subset.refl _), rfl⟩
  | succ left ih =>
      rw [scanBlocks]
      split
      next hne =>
        refine runs_open_load h (T := {(direct dir i).toNat}) (by simp [cacheSize])
          (Finset.mem_singleton_self _) (fun hle => absurd (hdir i hne).2 (not_lt.mpr hle))
          fun block m₁ _ _ hev hg => ?_
        split
        next => exact runs_pure ⟨hev.forget, hg⟩
        next =>
          refine (ih hev.sound).mono (fun _ _ he => he) ?_
          rintro _ m₂ ⟨hev₂, hg₂⟩
          exact ⟨hev.forget.trans hev₂, hg₂.trans hg⟩
      next => exact ih h

theorem getInode_found (h : Calm ∅ m) (hcwd : m.globals.cwdNode.toNat < maxInodeNum)
    (hblocks : HasBlocks (shown m) (shown m).here)
    (hfinds : Finds (shown m) (shown m).here path 0 1024 q e) (create : Bool) :
    Runs (getInodeByFilename path create 0) m E fun r m' =>
      r = e.inode ∧ Evolves ∅ ∅ ∅ m m' ∧ m'.globals = m.globals := by
  have hrealizes := realizes_shown h
  refine runs_cwdNode.bind ?_
  rintro _ m ⟨rfl, rfl⟩
  refine ((readInode_calm h hcwd).and (readInode_realizes (E := E) hrealizes hcwd)).mono
    (fun _ _ he => he.1) (fun _ _ hq => hq) |>.bind ?_
  rintro _ m₁ ⟨⟨rfl, hev₁, hg₁⟩, -, h₁⟩
  refine ((scanBlocks_realizes (E := E) h₁ hblocks).and (scanBlocks_evolves (E := E) hev₁.sound
    fun i hi => (hblocks i hi).1)).mono (fun _ _ he => he.1) (fun _ _ hq => hq) |>.bind ?_
  rintro ⟨found, f⟩ m₂ ⟨⟨-, hscan⟩, hev₂, hg₂⟩
  rcases hscan with ⟨q', e', hfinds', hr⟩ | ⟨-, hmiss, -⟩
  · simp only at hr
    subst hr
    exact runs_pure ⟨by rw [(hfinds.unique hfinds').2], hev₁.trans hev₂, hg₂.trans hg₁⟩
  · exact absurd hfinds.name_eq (hmiss q hfinds.le hfinds.lt e hfinds.slot_eq)

theorem runs_fsFopen (h : Calm ∅ m) (hrecorded : Recorded m ino n bytes)
    (hcwd : m.globals.cwdNode = m.globals.superblock.rootInode) (hfiles : m.globals.files = []) :
    Runs (fsFopen sysparams oRdwr) m E fun fd m' => fd = 0 ∧ Evolves ∅ ∅ ∅ m m' ∧
      visible m' (n.dataDirect 0).toNat = visible m (n.dataDirect 0).toNat ∧
        m'.globals = { m.globals with files := [some ⟨ino, oRdwr, 0, n⟩] } := by
  obtain ⟨q, e, hfinds, rfl⟩ := hrecorded.finds
  have hhere : (shown m).here = root m := congrArg (inodeAt m) (congrArg UInt32.toNat hcwd)
  have hblocks : HasBlocks (shown m) (shown m).here := by
    rw [hhere]
    exact fun i hi => ⟨(hrecorded.blocks i hi).1, _, rfl⟩
  refine (getInode_found h (hcwd ▸ hrecorded.root_lt) hblocks (hhere ▸ hfinds) true).bind ?_
  rintro _ m₁ ⟨rfl, hev₁, hg₁⟩
  have h₁ := h.idle hev₁ (congrArg Globals.superblock hg₁)
  refine (readInode_calm h₁ hrecorded.ino_lt).bind ?_
  rintro _ m₂ ⟨rfl, hev₂, hg₂⟩
  have hinode : inodeAt m₁ e.inode.toNat = n := by
    have hmax : 517 < maxBlockNum := by decide
    rw [inodeAt, Calm.visible_eq h hev₁ ((inodeBlock_lt hrecorded.ino_lt).trans hmax)]
    exact hrecorded.inode
  have hone : n.type ≠ 1 := by
    rw [hrecorded.type]
    decide
  have hzero : n.type ≠ 0 := by
    rw [hrecorded.type]
    decide
  rw [hinode, if_neg hone, if_neg hzero]
  have hev := hev₁.trans hev₂
  have hg := hg₂.trans hg₁
  refine runs_getGlobals.bind ?_
  rintro _ m₂ ⟨rfl, rfl⟩
  rw [hg, hfiles]
  refine (runs_modifyGlobals hev.sound _ (T := ∅)).bind ?_
  rintro _ m₃ ⟨hev₃, hv₃, -, hg₃⟩
  refine runs_pure ⟨rfl, hev.trans hev₃, ?_, ?_⟩
  · rw [hv₃]
    exact Calm.visible_eq h hev hrecorded.isData.2
  · rw [hg₃, hg, hfiles]
    rfl

theorem runs_fsFread {k : Nat} {buf : Bytes} (h : Sound m) (hp : IsData (file.inode.dataDirect 0))
    (hs : Settled m (file.inode.dataDirect 0).toNat) (hmode : file.mode = oRdwr)
    (hptr : file.filePtr = 0) (hsize : 16 ≤ file.inode.size.toNat)
    (hfile : m.globals.files[k]? = some (some file)) :
    Runs (fsFread k buf 16) m E fun r m' =>
      window r.2 = window (visible m (file.inode.dataDirect 0).toNat) ∧
        Evolves ∅ ∅ {(file.inode.dataDirect 0).toNat} m m' ∧
        visible m' (file.inode.dataDirect 0).toNat = visible m (file.inode.dataDirect 0).toNat ∧
        Settled m' (file.inode.dataDirect 0).toNat ∧
        m'.globals =
          { m.globals with files := m.globals.files.set k (some (advanced file 16)) } := by
  refine (runs_getFile hfile).bind ?_
  rintro _ m ⟨rfl, rfl⟩
  have htransfer := @fileTransfer_first m E {(file.inode.dataDirect 0).toNat} file false buf 16 h
    (by simp [cacheSize]) hp (Finset.mem_singleton_self _) (Or.inl hs) hmode hptr (by decide)
    (le_refl _) hsize
  refine htransfer.bind ?_
  rintro ⟨_, buffer', _⟩ m₁ ⟨rfl, hmoved⟩
  obtain ⟨hv, hbuffer⟩ := Prod.ext_iff.mp hmoved.moved
  refine (runs_modifyGlobals hmoved.evolves.sound _ (T := ∅)).bind ?_
  rintro _ m₂ ⟨hev₂, hv₂, hs₂, hg₂⟩
  refine runs_pure ⟨List.map_congr_left fun i hi => ?_,
    hmoved.evolves.forget.trans (hev₂.mono (Set.empty_subset _)), ?_, ?_, ?_⟩
  · have hlt := List.mem_range.mp hi
    dsimp only at hbuffer ⊢
    rw [hbuffer]
    refine (copy_inside (Nat.zero_le i) (by omega)).trans ?_
    rw [Nat.zero_add, Nat.sub_zero]
  · rw [hv₂]
    exact hv
  · rw [Settled, hv₂, hs₂]
    exact hmoved.settled (Or.inr hs)
  · rw [hg₂, hmoved.globals]

/-- The policy after `init_parameters` read the given bytes, from the initial
one on. -/
def decoded (bytes : List UInt8) : Bool × Int :=
  match readDigits 0 bytes with
  | some policy =>
      if toInt policy = -1 ∨ 0 ≤ toInt policy then policyOf (toInt policy) else (true, 0)
  | none => (true, 0)

theorem runs_initParameters {buf : Bytes} (h : Started m m')
    (hrecorded : Recorded m ino n bytes) :
    Runs (initParameters buf) m' Never fun fd m'' => inForce m'' = decoded bytes ∧
      ∃ file, Stored m'' fd file bytes ∧ Settled m'' (file.inode.dataDirect 0).toNat := by
  have hrecorded' := h.recorded hrecorded
  have hcwd : m'.globals.cwdNode = m'.globals.superblock.rootInode := by
    rw [h.superblock]
    exact h.cwdNode
  refine ((steady_fsFopen (f := fixtures) sysparams oRdwr).runs
    (runs_fsFopen h.calm hrecorded' hcwd h.files)).bind ?_
  rintro _ m₁ ⟨⟨rfl, hev₁, hv₁, hg₁⟩, hfix₁⟩
  have hp := hrecorded'.isData
  have hs₁ : Settled m₁ (n.dataDirect 0).toNat :=
    hev₁.settled_of_settled hp.2 (Set.notMem_empty _) (h.calm.settled _ hp.2 (Set.notMem_empty _))
  have hfile₁ : m₁.globals.files[sizeT 0]? = some (some ⟨ino, oRdwr, 0, n⟩) := by
    rw [hg₁]
    rfl
  have hread := @runs_fsFread m₁ Never ⟨ino, oRdwr, 0, n⟩ (sizeT 0) buf hev₁.sound hp hs₁ rfl rfl
    hrecorded'.size hfile₁
  refine ((steady_fsFread (f := fixtures) _ _ _).runs hread).bind ?_
  rintro ⟨_, buf'⟩ m₂ ⟨⟨hwindow, hev₂, hv₂, hs₂, hg₂⟩, hfix₂⟩
  dsimp only at hwindow hev₂ hv₂ hs₂ ⊢
  rw [hwindow, hv₁, hrecorded'.bytes_eq]
  have hforce : inForce m₂ = (true, 0) :=
    (congrArg Prod.fst hfix₂).trans ((congrArg Prod.fst hfix₁).trans h.inForce)
  have hstored : Stored m₂ 0 (advanced ⟨ino, oRdwr, 0, n⟩ 16) bytes := by
    refine ⟨hrecorded'.evolves ((hev₁.mono (Set.empty_subset _)).trans hev₂) ?_ ?_,
      ⟨{(n.dataDirect 0).toNat}, by simp [cacheSize], Finset.mem_singleton_self _, Or.inl hs₂⟩, ?_,
      rfl⟩
    · rw [hg₂, hg₁]
    · rw [hv₂, hv₁]
      exact hrecorded'.bytes_eq
    · rw [hg₂, hg₁]
      rfl
  unfold decoded
  cases readDigits 0 bytes with
  | some policy =>
      dsimp only
      refine (runs_setPolicy hev₂.sound (toInt policy)).bind ?_
      rintro _ m₃ ⟨hev₃, hg₃, hforce₃⟩
      rw [hforce] at hforce₃
      have hs₃ := (hev₃ ∅).settled_of_settled hp.2 (Set.notMem_empty _) hs₂
      refine runs_pure ⟨hforce₃, _, hstored.evolves (T := {(n.dataDirect 0).toNat})
        (by simp [cacheSize]) (Finset.mem_singleton_self _) ((hev₃ _).mono (Set.empty_subset _))
        (congrArg Globals.superblock hg₃) (hg₃.symm ▸ hstored.file_eq) rfl rfl rfl (Or.inl hs₃) ?_,
        hs₃⟩
      have hv₃ := (hev₃ ∅).visible_of_settled hp.2 (Set.notMem_empty _) hs₂
      exact (congrArg window hv₃).trans hstored.recorded.bytes_eq
  | none =>
      dsimp only
      exact runs_pure ⟨hforce, _, hstored, hs₂⟩

theorem Stored.settled (h : Stored m fd file bytes)
    (hs : Settled m (file.inode.dataDirect 0).toNat) {x : Nat} (hx : x < maxBlockNum) :
    Settled m x := by
  rcases eq_or_ne x (file.inode.dataDirect 0).toNat with heq | hne
  · rw [heq]
    exact hs
  · exact h.recorded.calm.settled x hx hne

theorem runs_restart {buf : Bytes} (h : Stored m fd file bytes)
    (hs : Settled m (file.inode.dataDirect 0).toNat) :
    Runs (restart buf) m Never fun fd' m' => inForce m' = decoded bytes ∧
      ∃ file', Stored m' fd' file' bytes ∧ Settled m' (file'.inode.dataDirect 0).toNat := by
  refine (runs_writeback h.ready.sound fun x hx => h.settled hs hx).bind ?_
  intro _ m₀ hdisk
  have hpower : Runs (modifyState poweredOn : Fs Unit) m₀ Never fun _ m' => m' = poweredOn m₀ :=
    runs_of_ok rfl rfl
  refine hpower.bind ?_
  intro _ m₁ heq
  refine (runs_initFilesystem h.recorded hdisk heq).bind ?_
  intro _ m₂ hstarted
  exact runs_initParameters hstarted h.recorded

/-- The characters that earlier, longer texts leave behind the text of the
last value. -/
def remains (bytes : List UInt8) (values : List Int) (last : Int) : List UInt8 :=
  text ((bytesAfter bytes values.dropLast).drop (toText last).length)

/-- The remains do not change the number that is read, as an `int`. -/
def Harmless (last : Int) (remains : List UInt8) : Prop :=
  last = -1 ∨ (∀ b ∈ remains, IsDigit b) ∧
    2 ^ 32 ∣ last * 10 ^ remains.length + extend 0 remains - last

theorem toInt_eq_iff {number : Int} (hlo : 0 ≤ value) (hhi : value < 2 ^ 31) :
    toInt number = value ↔ 2 ^ 32 ∣ number - value := by
  have hsize : ((2 ^ 32 : Nat) : Int) = 2 ^ 32 := rfl
  unfold toInt Int.bmod
  rw [hsize]
  dsimp only
  constructor
  · split
    next => omega
    next => omega
  · intro hdvd
    split
    next => omega
    next => omega

theorem decoded_eq_iff {rest : List UInt8} (hv : Valid value) :
    decoded (toText value ++ rest) = policyOf value ↔ Harmless value (text rest) := by
  rcases hv with rfl | ⟨hlo, hhi⟩
  · have hminus : toText (-1) = [45, 49] := by decide
    have hnone : readDigits 0 (toText (-1) ++ rest) = none := by
      rw [hminus]
      rfl
    rw [decoded, hnone]
    exact ⟨fun _ => Or.inl rfl, fun _ => rfl⟩
  · have hne : value ≠ -1 := by omega
    have hread : readDigits 0 (toText value ++ rest) = readDigits value rest := by
      rw [readDigits_append (isDigit_of_mem_toText hlo), extend_toText hlo]
    have hpolicy : policyOf value = (false, value) := if_neg hne
    rw [decoded, hread, Harmless, ← extend_eq, hpolicy]
    cases hrest : readDigits value rest with
    | none =>
        refine ⟨fun heq => absurd (congrArg Prod.fst heq) Bool.noConfusion, fun hor => ?_⟩
        obtain ⟨hdigits, -⟩ := hor.resolve_left hne
        rw [readDigits_eq_some.mpr ⟨hdigits, rfl⟩] at hrest
        cases hrest
    | some number =>
        obtain ⟨hdigits, rfl⟩ := readDigits_eq_some.mp hrest
        simp only [hne, false_or]
        rw [← toInt_eq_iff hlo hhi]
        constructor
        · intro heq
          refine ⟨hdigits, ?_⟩
          split at heq
          next hcase =>
            unfold policyOf at heq
            split at heq
            next => cases heq
            next => exact congrArg Prod.snd heq
          next => cases heq
        · rintro ⟨-, heq⟩
          rw [heq, if_pos (Or.inr hlo), hpolicy]

theorem bytesAfter_eq {values : List Int} (hne : values ≠ []) :
    bytesAfter bytes values = toText (values.getLast hne) ++
      (bytesAfter bytes values.dropLast).drop (toText (values.getLast hne)).length := by
  conv_lhs => rw [← List.dropLast_append_getLast hne]
  rw [bytesAfter, List.foldl_append]
  rfl

/-- After a restart the policy is the one that was set last, if and only if
the remains of earlier texts do no harm. -/
theorem policy_restored_iff {values : List Int} (h : Stored m fd file bytes) (hne : values ≠ [])
    (hvalues : ∀ v ∈ values, Valid v) (buf : Bytes) :
    ∃ m₁ fd' m₂, (setParameters fd values).run m = (.ok (), m₁) ∧
      (restart buf).run m₁ = (.ok fd', m₂) ∧
        (inForce m₂ = inForce m₁ ↔
          Harmless (values.getLast hne) (remains bytes values (values.getLast hne))) := by
  obtain ⟨value, rest, rfl⟩ := List.exists_cons_of_ne_nil hne
  obtain ⟨_, m₁, hrun₁, hforce₁, file₁, h₁, hs₁⟩ :=
    (runs_setParameters h hvalues).returns fun _ _ he => he
  have hrestart : Runs (restart buf) m₁ Never fun _ m' =>
      inForce m' = decoded (bytesAfter bytes (value :: rest)) ∧ _ := runs_restart h₁ hs₁
  obtain ⟨fd', m₂, hrun₂, hforce₂, -⟩ := hrestart.returns fun _ _ he => he
  refine ⟨m₁, fd', m₂, hrun₁, hrun₂, ?_⟩
  rw [hforce₁, hforce₂, bytesAfter_eq hne]
  exact decoded_eq_iff (hvalues _ (List.getLast_mem hne))

theorem openBlock_blockid (x : Nat) (m : Machine Bytes Globals) :
    Runs (openBlock x : Fs Block) m Any fun b _ => b.blockid = x := by
  refine (runs_self _ m).mono (fun _ _ _ => trivial) fun b m' hrun => ?_
  simp only [openBlock] at hrun
  split at hrun
  next =>
    cases hrun
    rfl
  next => cases hrun

theorem openPointer_blockid {reference : Option (Block × Nat)} :
    Runs (openPointer reference p) m Any fun r _ => r.2.2.blockid = r.1.toNat := by
  unfold openPointer
  split
  next =>
    refine runs_any_bind fun new m₁ => runs_any_bind fun _ m₂ => ?_
    refine (openBlock_blockid _ m₂).bind fun block m₃ hid => ?_
    exact runs_any_bind fun _ m₄ => runs_pure hid
  next => exact (openBlock_blockid _ m).bind fun block m₁ hid => runs_pure hid

/-- The block of a file that was read before it was written stays in the
cache for now. -/
structure Pending (T : Finset Nat) (p : UInt32) (m : Machine Bytes Globals) : Prop where
  calm : Calm {p.toNat} m
  card_le : T.card ≤ cacheSize
  mem : p.toNat ∈ T
  stable : Stable T m p.toNat

theorem readHole_pending {buffer : Bytes} (h : Calm ∅ m) (hT : T.card < cacheSize)
    (hmem : blockMapArea ⊆ T) (hzero : n.dataDirect 0 = 0) :
    Runs (inodeModifyData false n buffer 0 16) m Halted fun r m' =>
      Pending (insert (r.1.dataDirect 0).toNat T) (r.1.dataDirect 0) m' := by
  unfold inodeModifyData
  refine runs_bind (runs_assert (fun hfalse => absurd hfalse (by decide)) fun _ => ?_)
  extract_lets grows n' o
  have hsame : n'.dataDirect = n.dataDirect := by
    simp only [n']
    split <;> rfl
  rw [dif_pos (show o < l0Bound by decide)]
  have hindex : (⟨o / l0Size, directIndex_lt (show o < l0Bound by decide)⟩ : Fin 8) = 0 := by
    decide
  extract_lets i
  have hi : i = 0 := hindex
  rw [hsame, hi, hzero]
  have hopen : Runs (openPointer none 0) m Halted fun r m' =>
      Fresh (insert r.1.toNat T) m' r.2.2 ∧ r.2.2.blockid = r.1.toNat ∧
        Calm {r.1.toNat} m' := by
    have href : FreshReference T m none := trivial
    refine ((CalmMachines.runs_openPointer h hT hmem href).and openPointer_blockid).mono
      (fun _ _ he => he.1) ?_
    rintro r m' ⟨hopened, hid⟩
    have hcalm := hopened.calm
    rw [hid] at hcalm
    exact ⟨hopened.fresh, hid, hcalm.mono (by simp [opened, referenceBlock])⟩
  have hrecur : Runs (inodeModifyDataRecur false 0 none 0 (.buffer buffer) (o % l0Size)
      (16 : UInt32).toNat) m Halted fun r m' => Pending (insert r.1.toNat T) r.1 m' := by
    refine hopen.bind ?_
    rintro ⟨id, new, block⟩ m₁ ⟨hfresh, hid, hcalm⟩
    have htransfer : Runs (transfer false block (.buffer buffer) (o % l0Size)
        (16 : UInt32).toNat) m₁ Halted fun _ m' => m' = m₁ := by
      refine (runs_load hcalm.ready.sound hfresh).bind ?_
      rintro d m₁ ⟨rfl, rfl⟩
      exact runs_pure rfl
    refine htransfer.bind ?_
    rintro _ _ rfl
    exact runs_pure ⟨hcalm, (Finset.card_insert_le _ _).trans hT, Finset.mem_insert_self _ _,
      Or.inr ⟨block, hid, hfresh⟩⟩
  refine hrecur.bind ?_
  rintro ⟨id, data, new⟩ m₁ hpending
  refine runs_pure ?_
  have hself : Function.update n.dataDirect 0 id 0 = id := Function.update_self ..
  simp only [hself]
  exact hpending

theorem fsFread_hole {k : Nat} {buf : Bytes} (h : Calm ∅ m)
    (hfile : m.globals.files[k]? = some (some file)) (hzero : file.inode.dataDirect 0 = 0)
    (hptr : file.filePtr = 0) (hmode : file.mode = oRdwr)
    (hino : file.inodeIdx.toNat < maxInodeNum) :
    Runs (fsFread k buf 16) m Halted fun _ m' => Sound m' ∧ ∀ file',
      m'.globals.files[k]? = some (some file') → IsData (file'.inode.dataDirect 0) →
        ∃ T, Pending T (file'.inode.dataDirect 0) m' := by
  have hcard : (insert (5 + file.inodeIdx.toNat / 64) blockMapArea).card ≤ 5 := by
    have := Finset.card_insert_le (5 + file.inodeIdx.toNat / 64) blockMapArea
    have hfour : blockMapArea.card = 4 := by decide
    omega
  have hcache : cacheSize = 64 := rfl
  set T := insert (5 + file.inodeIdx.toNat / 64) blockMapArea with hTdef
  have hround : Runs (fileRound false file buf 0 16) m Halted fun r m' => r.2.2.2 = 16 ∧
      r.1.inodeIdx = file.inodeIdx ∧
        Pending (insert (r.1.inode.dataDirect 0).toNat T) (r.1.inode.dataDirect 0) m' := by
    have hsize : min (blockSize - file.filePtr.toNat % blockSize) 16 = 16 := by
      rw [hptr]
      decide
    unfold fileRound
    rw [hsize, hptr]
    have hT : T.card < cacheSize := by omega
    refine (readHole_pending h hT (Finset.subset_insert _ _) hzero).bind ?_
    rintro ⟨n', bytes, modified⟩ m₁ hpending
    exact runs_pure ⟨rfl, rfl, hpending⟩
  have htransfer : Runs (fileTransfer false file buf 16) m Halted fun r m' => Sound m' ∧
      (IsData (r.1.inode.dataDirect 0) → ∃ T, Pending T (r.1.inode.dataDirect 0) m') := by
    rw [fileTransfer, if_neg (mode_and_ne_zero hmode false)]
    have hloop := @fileLoop_once m Halted file false buf 16 (fun r m' =>
      r.1.inodeIdx = file.inodeIdx ∧
        Pending (insert (r.1.inode.dataDirect 0).toNat T) (r.1.inode.dataDirect 0) m')
      (by decide) hround
    refine hloop.bind ?_
    rintro ⟨file', bytes, modified⟩ m₁ ⟨hidx, hpending⟩
    dsimp only at hidx hpending
    cases modified with
    | false =>
        refine Runs.bind (runs_pure (Q := fun _ m' => m' = m₁) rfl) ?_
        rintro _ _ rfl
        exact runs_pure ⟨hpending.calm.ready.sound, fun _ => ⟨_, hpending⟩⟩
    | true =>
        have hlt := inodeBlock_lt hino
        have hmax : 517 < maxBlockNum := by decide
        have hmem : 5 + file'.inodeIdx.toNat / 64 ∈ insert (file'.inode.dataDirect 0).toNat T := by
          rw [hidx]
          exact Finset.mem_insert_of_mem (Finset.mem_insert_self _ _)
        refine Runs.bind ((runs_writeInode hpending.calm.ready hpending.card_le hmem fun hle =>
          absurd hle (by rw [hidx]; omega)).mono (fun _ _ he => he) fun _ _ hq => hq) ?_
        rintro _ m₂ ⟨hev, hg, -, hs, -⟩
        refine runs_pure ⟨hev.sound, fun hdata => ⟨_, ?_, hpending.card_le, hpending.mem, ?_⟩⟩
        · exact hpending.calm.written hev hs (congrArg Globals.superblock hg)
        · refine (hpending.stable.evolves hev hdata.2 fun heq => ?_).2
          have hlow := hdata.1
          rw [Set.mem_singleton_iff.mp heq, hidx] at hlow
          omega
  refine (runs_getFile hfile).bind ?_
  rintro _ _ ⟨rfl, rfl⟩
  refine htransfer.bind ?_
  rintro ⟨file₁, bytes, result⟩ m₁ ⟨hsound, hpending⟩
  have hready : Runs (setFile k (some file₁)) m₁ Halted fun _ m' =>
      m' = { m₁ with
        globals := { m₁.globals with files := m₁.globals.files.set k (some file₁) } } :=
    runs_of_ok rfl rfl
  refine hready.bind ?_
  rintro _ m₂ hm₂
  have hev : ∀ T, Evolves T T ∅ m₁ m₂ := fun T => hm₂ ▸ evolves_globals hsound _
  refine runs_pure ⟨(hev ∅).sound, fun file' hfile' hdata => ?_⟩
  have heq : file' = file₁ := by
    rw [hm₂] at hfile'
    obtain ⟨hlt, hget⟩ := List.getElem?_eq_some_iff.mp hfile'
    simpa using hget.symm
  subst heq
  obtain ⟨T', hT'⟩ := hpending hdata
  refine ⟨T', hT'.calm.idle (hev T') (by rw [hm₂]), hT'.card_le, hT'.mem, ?_⟩
  exact (hT'.stable.evolves (hev T') hdata.2 (Set.notMem_empty _)).2

/-- The file `sysparams` on a disk that was just formatted. -/
@[irreducible]
def created : Machine Bytes Globals := ((fsFopen sysparams oRdwr).run blankFormatted).2

theorem created_run : (fsFopen sysparams oRdwr).run blankFormatted = (.ok 0, created) := by
  have hreturned : returned ((fsFopen sysparams oRdwr).run blankFormatted).1 = some 0 := by
    rw [blankFormatted_eq]
    decide +kernel
  unfold created
  exact run_eq_of_returned hreturned

theorem created_eq : created = ((fsFopen sysparams oRdwr).run quickFormatted).2 := by
  unfold created
  rw [blankFormatted_eq]

theorem created_facts : created.strayed = false ∧
    created.globals.files.map (Option.map fun file =>
      ((file.inodeIdx, file.mode), file.filePtr, file.inode.dataDirect 0)) =
        [some ((1, oRdwr), 0, 0)] := by
  rw [created_eq]
  decide +kernel

theorem created_calm : Calm ∅ created := by
  have hwithin := (keeps_fsFopen (P := Within ∅) sysparams oRdwr blankFormatted
    (within_of_formatted formatted_blankFormatted)).ok created_run
  exact hwithin.calm created_facts.1

theorem created_file : ∃ file, created.globals.files = [some file] ∧ file.inodeIdx = 1 ∧
    file.mode = oRdwr ∧ file.filePtr = 0 ∧ file.inode.dataDirect 0 = 0 := by
  have hfields := created_facts.2
  generalize created.globals.files = files at hfields
  obtain ⟨entry, rfl, hentry⟩ := List.map_eq_singleton_iff.mp hfields
  obtain ⟨file, rfl, hfile⟩ := Option.map_eq_some_iff.mp hentry
  simp only [Prod.mk.injEq] at hfile
  exact ⟨file, rfl, hfile.1.1, hfile.1.2, hfile.2.1, hfile.2.2⟩

/-- The machine after the first start of the kernel. -/
@[irreducible]
def firstStart : Machine Bytes Globals := ((initParameters zeros).run blankFormatted).2

theorem firstStart_run : (initParameters zeros).run blankFormatted = (.ok 0, firstStart) := by
  have hreturned : returned ((initParameters zeros).run blankFormatted).1 = some 0 := by
    rw [blankFormatted_eq]
    decide +kernel
  unfold firstStart
  exact run_eq_of_returned hreturned

theorem firstStart_eq : firstStart = ((initParameters zeros).run quickFormatted).2 := by
  unfold firstStart
  rw [blankFormatted_eq]

theorem firstStart_pending : ∀ file, firstStart.globals.files[sizeT 0]? = some (some file) →
    IsData (file.inode.dataDirect 0) → ∃ T, Pending T (file.inode.dataDirect 0) firstStart := by
  have hruns : Runs (initParameters zeros) blankFormatted Any fun _ m' => ∀ file,
      m'.globals.files[sizeT 0]? = some (some file) → IsData (file.inode.dataDirect 0) →
        ∃ T, Pending T (file.inode.dataDirect 0) m' := by
    refine Runs.bind
      (runs_of_ok created_run (Q := fun fd m' => fd = 0 ∧ m' = created) ⟨rfl, rfl⟩) ?_
    rintro _ _ ⟨rfl, rfl⟩
    obtain ⟨file, hfiles, hidx, hmode, hptr, hzero⟩ := created_file
    have hfile : created.globals.files[sizeT 0]? = some (some file) := by
      rw [hfiles]
      rfl
    have hino : file.inodeIdx.toNat < maxInodeNum := by
      rw [hidx]
      decide
    refine ((fsFread_hole created_calm hfile hzero hptr hmode hino).mono
      (fun _ _ _ => trivial) fun _ _ hq => hq).bind ?_
    rintro ⟨result, buf⟩ m₁ ⟨hsound₁, hpending⟩
    dsimp only
    split
    next _ policy _ =>
      refine (runs_setPolicy hsound₁ (toInt policy)).bind ?_
      rintro _ m₂ ⟨hev, hg, -⟩
      refine runs_pure fun file' hfile' hdata => ?_
      rw [hg] at hfile'
      obtain ⟨T, hT⟩ := hpending file' hfile' hdata
      exact ⟨T, hT.calm.idle (hev T) (congrArg Globals.superblock hg), hT.card_le, hT.mem,
        (hT.stable.evolves (hev T) hdata.2 (Set.notMem_empty _)).2⟩
    next => exact runs_pure hpending
  exact hruns.ok firstStart_run

theorem inode_ext {n' : Inode}
    (h : (List.range 64).map n.toBytes = (List.range 64).map n'.toBytes) : n = n' := by
  rw [← n.ofBytes_toBytes, ← n'.ofBytes_toBytes]
  refine Inode.ofBytes_congr fun i hi => ?_
  rw [Nat.zero_add]
  exact List.map_inj_left.mp h i (List.mem_range.mpr hi)

theorem firstStart_file : ∃ file, firstStart.globals.files = [some file] ∧ file.inodeIdx = 1 ∧
    file.mode = oRdwr ∧ file.inode.dataDirect 0 = 518 ∧ file.inode.type = 2 ∧
      16 ≤ file.inode.size.toNat ∧ inodeAt firstStart 1 = file.inode := by
  have hfields : firstStart.globals.files.map (Option.map fun file : File =>
      ((file.inodeIdx, file.mode, file.inode.dataDirect 0, file.inode.type),
        decide (16 ≤ file.inode.size.toNat),
        decide ((List.range 64).map (inodeAt firstStart 1).toBytes =
          (List.range 64).map file.inode.toBytes))) =
      [some ((1, oRdwr, 518, 2), true, true)] := by
    rw [firstStart_eq]
    decide +kernel
  generalize firstStart.globals.files = files at hfields
  obtain ⟨entry, rfl, hentry⟩ := List.map_eq_singleton_iff.mp hfields
  obtain ⟨file, rfl, hfile⟩ := Option.map_eq_some_iff.mp hentry
  simp only [Prod.mk.injEq, decide_eq_true_eq] at hfile
  obtain ⟨⟨hidx, hmode, hpointer, htype⟩, hsize, hinode⟩ := hfile
  exact ⟨file, rfl, hidx, hmode, hpointer, htype, hsize, inode_ext hinode⟩

theorem firstStart_tables : (∀ i < superBlockSize,
    visible firstStart 0 i = firstStart.globals.superblock.toBytes i) ∧
      firstStart.globals.superblock.magic0 = superblockMagic ∧
      firstStart.globals.superblock.magic1 = superblockMagic ∧
      firstStart.globals.superblock.rootInode = 0 ∧
      (∀ i < 8, direct (inodeAt firstStart 0) i = if i = 0 then 517 else 0) ∧
      (List.range 3).map (slot (shown firstStart) (inodeAt firstStart 0)) =
        [some ⟨0, 1, dot⟩, some ⟨0, 1, dotDot⟩, some ⟨1, 1, sysparams⟩] ∧
      window (visible firstStart 518) = List.replicate 16 0 := by
  rw [firstStart_eq]
  decide +kernel

theorem firstStart_stored : ∃ file, Stored firstStart 0 file (List.replicate 16 0) := by
  obtain ⟨file, hfiles, hidx, hmode, hpointer, htype, hsize, hinode⟩ := firstStart_file
  obtain ⟨hcopied, hmagic0, hmagic1, hroot, hdirect, hslots, hwindow⟩ := firstStart_tables
  have hfile : firstStart.globals.files[sizeT 0]? = some (some file) := by
    rw [hfiles]
    rfl
  have hdata : IsData (file.inode.dataDirect 0) := by
    rw [hpointer]
    exact ⟨by decide, by decide⟩
  have hrooteq : root firstStart = inodeAt firstStart 0 := by
    rw [root, hroot]
    rfl
  have hslot : ∀ q (hq : q < 3), slot (shown firstStart) (root firstStart) q =
      [some ⟨0, 1, dot⟩, some ⟨0, 1, dotDot⟩, some ⟨1, 1, sysparams⟩].get ⟨q, hq⟩ := by
    intro q hq
    rw [hrooteq]
    simp only [← hslots, List.get_eq_getElem, List.getElem_map, List.getElem_range]
  obtain ⟨T, hpending⟩ := firstStart_pending file hfile hdata
  refine ⟨file, ⟨hpending.calm, hcopied, hmagic0, hmagic1, ?_, fun i hi => ?_,
    ⟨2, ⟨1, 1, sysparams⟩, ⟨Nat.zero_le _, by decide, hslot 2 (by decide), rfl, ?_⟩, hidx.symm⟩, ?_,
    ?_, htype, hsize, hdata, ?_⟩,
    ⟨T, hpending.card_le, hpending.mem, hpending.stable⟩, hfile, hmode⟩
  · rw [hroot]
    decide
  · rw [hrooteq] at hi ⊢
    rw [hpointer]
    have hlt : i < 8 := by
      by_contra hle
      exact hi (dif_neg hle)
    rw [hdirect i hlt] at hi ⊢
    rcases eq_or_ne i 0 with hzero | hne
    · rw [if_pos hzero]
      exact ⟨⟨by decide, by decide⟩, by decide⟩
    · exact absurd (if_neg hne) hi
  · intro q' _ hq' e' he'
    rw [hslot q' (by omega)] at he'
    have hcases : q' = 0 ∨ q' = 1 := by omega
    rcases hcases with rfl | rfl
    · cases he'
      decide
    · cases he'
      decide
  · rw [hidx]
    decide
  · rw [hidx]
    exact hinode
  · rw [hpointer]
    exact hwindow

/-- The value 5 is set after the value 100. -/
theorem policy_restored_firstStart : ∃ file, Stored firstStart 0 file (List.replicate 16 0) ∧
    ∃ m₁ fd' m₂, (setParameters 0 [100, 5]).run firstStart = (.ok (), m₁) ∧
      (restart zeros).run m₁ = (.ok fd', m₂) ∧
        (inForce m₂ = inForce m₁ ↔ Harmless 5 (remains (List.replicate 16 0) [100, 5] 5)) := by
  obtain ⟨file, h⟩ := firstStart_stored
  refine ⟨file, h, policy_restored_iff h (List.cons_ne_nil _ _) ?_ zeros⟩
  simp [Valid]

/-- The policies in force before and after a restart, for values set after the
first start. -/
def policies (values : List Int) : Option ((Bool × Int) × (Bool × Int)) :=
  match (setParameters 0 values).run firstStart with
  | (.ok _, m₁) =>
      match (restart zeros).run m₁ with
      | (.ok _, m₂) => some (inForce m₁, inForce m₂)
      | (.error _, _) => none
  | (.error _, _) => none

/-- The text `5` is written over the text `100`, and `500` is read. -/
theorem remains_restored : policies [100, 5] = some ((false, 5), (false, 500)) := by
  rw [policies, firstStart_eq]
  decide +kernel

end LabKernel.ParameterRestart
