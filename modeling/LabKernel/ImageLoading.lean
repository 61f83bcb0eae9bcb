import LabKernel.ImagePacking
import LabKernel.UserIsolation

/-!
The kernel's side of the image (`task_loader.cpp`): the table of the tasks is
read from the sector that the boot sector names, a task is found by its name,
and its sectors are read into the pages of a new address space.

The contents of the pages are kept beside the page tables.  The array `tasks`
is the area of its 512 bytes.
-/

namespace LabKernel.ImageLoading

open LabKernel.AddressSpace
open LabKernel.ByteMemory
open LabKernel.ImagePacking
open LabKernel.PageCalls
open LabKernel.PageRuns
open LabKernel.PageTable
open LabKernel.ProgramLogic
open LabKernel.TransitionSystem
open LabKernel.UserIsolation

/-- `tasks` and `task_num`. -/
structure TaskTable where
  tasks : Bytes
  taskNum : Int

def TaskTable.sdcardBlockId (t : TaskTable) (i : Nat) : UInt32 := get32 t.tasks (32 * i + 8)

def TaskTable.sdcardBlockNum (t : TaskTable) (i : Nat) : UInt32 := get32 t.tasks (32 * i + 12)

/-- The string `tasks[i].name`, which may run on to the end of the array. -/
def TaskTable.name (t : TaskTable) (i : Nat) : List UInt8 :=
  cString t.tasks (32 * i + 16) (512 - (32 * i + 16))

/-- `init_task_info`, with the sector at `0x50200000` and the disk. -/
def initTaskInfo (bootSector disk : Bytes) : TaskTable :=
  let blockId := get32 bootSector 0x1f0
  ⟨copy zeros 0 disk (sectorSize * blockId.toNat) sectorSize,
    (get16 bootSector 0x1f4).toBitVec.toInt⟩

/-- The loop of `find_task_idx_by_name`; the arguments are the number of rounds
left and `i`. -/
def findLoop (t : TaskTable) (taskname : List UInt8) : Nat → Nat → Int
  | 0, _ => -1
  | left + 1, i => if t.name i = taskname then i else findLoop t taskname left (i + 1)

def findTaskIdxByName (t : TaskTable) (taskname : List UInt8) : Int :=
  findLoop t taskname t.taskNum.toNat 0

/-- The state of the page tables, and what the pages hold. -/
structure Machine (Process : Type) where
  kernel : State Process
  frames : Ppn → Bytes

abbrev Loader (Process α : Type) := Program (Machine Process) Stop α

variable {Process α : Type}

def onKernel (program : Kernel Process α) : Loader Process α :=
  ⟨fun m => ((program.run m.kernel).1, { m with kernel := (program.run m.kernel).2 })⟩

/-- `bios_sd_read` into a page. -/
def biosSdRead (disk : Bytes) (page : Ppn) (numOfBlocks blockId : BitVec 32) :
    Loader Process Unit :=
  modifyState fun m => { m with
    frames := Function.update m.frames page
      (copy (m.frames page) 0 disk (sectorSize * blockId.toNat) (sectorSize * numOfBlocks.toNat)) }

/-- The loop of `load_task_img`; the first number is that of the rounds left. -/
def loadLoop (disk : Bytes) (pdir : PageDir) :
    Nat → Ptr → BitVec 64 → BitVec 64 → Loader Process Unit
  | 0, _, _, _ => pure ()
  | left + 1, va, sdcardId, blockNum => do
      let kva ← onKernel (allocPageForVa pdir va)
      biosSdRead disk kva ((if blockNum > 8 then 8 else blockNum).setWidth 32)
        (sdcardId.setWidth 32)
      loadLoop disk pdir left (va + 4096) (sdcardId + 8) (blockNum - 8)

/-- `load_task_img`. -/
def loadTaskImg (t : TaskTable) (disk : Bytes) (taskid : Nat) (pdir : PageDir) :
    Loader Process Bool :=
  if t.taskNum ≤ taskid then pure false
  else do
    let blockNum := (t.sdcardBlockNum taskid).toBitVec.signExtend 64
    let sdcardId := (t.sdcardBlockId taskid).toBitVec.signExtend 64
    let pages := blockNum / 8 + if blockNum ≠ 0 then 1 else 0
    loadLoop disk pdir pages.toNat 0x200000 sdcardId blockNum
    pure true

/-- `load_task_img` into the page directory of a new process. -/
def loadNew [DecidableEq Process] (t : TaskTable) (disk : Bytes) (taskid : Nat) (p : Process) :
    Loader Process Bool := do
  onKernel (createProcess p)
  let pdir ← onKernel (pagedirOf p)
  loadTaskImg t disk taskid pdir

/-- The task is loaded.  From `USER_ENTRYPOINT` on the process finds the bytes
of the segments up to the end of their last sector, and it reaches no page
that holds none of these bytes. -/
def Loads [DecidableEq Process] (t : TaskTable) (disk : Bytes) (taskid : Nat) (f : InputFile)
    (p : Process) (m : Machine Process) : Prop :=
  ∃ m', (loadNew t disk taskid p).run m = (.ok true, m') ∧
    (∀ n < sectors f * sectorSize, ∃ e x,
      UserMaps m'.kernel p (pageOf (0x200000 + BitVec.ofNat 64 n)) e x ∧
        m'.frames x (n % 4096) = (loadBytes f.data).getD n 0) ∧
    ∀ a e x, UserMaps m'.kernel p a e x →
      ∃ n < sectors f * sectorSize, a = pageOf (0x200000 + BitVec.ofNat 64 n)

section Supply

variable {boot : Memory} {bound n : Nat} {role : Ppn → Role Process} {s : State Process}
  {p : Process} {d : PageDir} {va : Ptr} {x y : Ppn} {pte : Ppn × Fin 512}

def Never (_ : Stop) (_ : State Process) : Prop := False

/-- The next calls of `kalloc` return at least `n` pages. -/
structure Supplied (n : Nat) (s : State Process) : Prop where
  nodup : s.supply.Nodup
  free : ∀ x ∈ s.supply, s.block x = .free
  enough : n ≤ s.supply.length

theorem Supplied.mono (hs : Supplied (n + 1) s) : Supplied n s :=
  ⟨hs.nodup, hs.free, Nat.le_of_succ_le hs.enough⟩

theorem supplied_kalloc {Q : Ppn → State Process → Prop} (hs : Supplied (n + 1) s)
    (h : ∀ page rest, s.block page = .free →
      Supplied n { s with supply := rest, block := Function.update s.block page .paging } →
        Q page { s with supply := rest, block := Function.update s.block page .paging }) :
    Runs kalloc s Never Q := by
  obtain ⟨hnodup, hfree, henough⟩ := hs
  unfold kalloc
  apply runs_bind
  apply runs_getState
  cases hsupply : s.supply with
  | nil =>
      rw [hsupply] at henough
      exact absurd henough (Nat.not_succ_le_zero n)
  | cons page rest =>
      rw [hsupply] at hnodup hfree henough
      dsimp only
      rw [if_pos (hfree page List.mem_cons_self)]
      refine h page rest (hfree page List.mem_cons_self) ⟨(List.nodup_cons.mp hnodup).2, ?_, ?_⟩
      · intro x hx
        have hne : x ≠ page := by
          rintro rfl
          exact (List.nodup_cons.mp hnodup).1 hx
        dsimp only
        rw [Function.update_of_ne hne]
        exact hfree x (List.mem_cons_of_mem _ hx)
      · exact Nat.le_of_succ_le_succ henough

theorem supplied_nextTable (hs : Supplied (n + 1) s) :
    Runs (nextTable pte) s Never fun _ s' => Supplied n s' := by
  unfold nextTable
  apply runs_bind
  apply runs_load
  split
  next =>
    apply runs_bind
    apply supplied_kalloc hs
    rintro page rest - ⟨hnodup, hfree, henough⟩
    exact ⟨hnodup, hfree, henough⟩
  next => exact hs.mono

theorem supplied_lookup (hs : Supplied (n + 2) s) :
    Runs (lookup d va) s Never fun _ s' => Supplied n s' := by
  unfold lookup
  apply runs_bind
  apply runs_load
  split
  next => exact hs.mono.mono
  next =>
    apply (supplied_nextTable hs).bind
    rintro table s₁ hs₁
    apply runs_bind
    apply runs_load
    split
    next => exact hs₁.mono
    next =>
      apply (supplied_nextTable hs₁).bind
      exact fun _ _ hs₂ => hs₂

theorem runs_lookup_reached {E : Stop → State Process → Prop}
    (h : Reaches s.memory d.root (pageOf va) y) :
    Runs (lookup d va) s E fun pte s' => pte = (y, getVpn va 0) ∧ s' = s := by
  obtain ⟨⟨hv, hdir, -⟩, hv', hdir', hy⟩ := h
  dsimp only [pageOf] at hv hdir hv' hdir' hy
  have hnext : ∀ {pte : Ppn × Fin 512}, (s.memory pte.1 pte.2).V = true →
      Runs (nextTable pte) s E fun table s' => table = (s.memory pte.1 pte.2).ppn ∧ s' = s := by
    intro pte hpte
    unfold nextTable
    apply runs_bind
    apply runs_load
    rw [if_neg (by rw [hpte]; decide)]
    exact ⟨rfl, rfl⟩
  unfold lookup
  apply runs_bind
  apply runs_load
  rw [if_neg (not_not.mpr hdir)]
  apply (hnext hv).bind
  rintro table s' ⟨rfl, rfl⟩
  apply runs_bind
  apply runs_load
  rw [if_neg (not_not.mpr hdir')]
  apply (hnext hv').bind
  rintro table s' ⟨rfl, rfl⟩
  rw [hy]
  exact ⟨rfl, rfl⟩

/-- The page `a` of process `p` is now mapped to `x`, and nothing else has
changed for the process. -/
structure Added (boot : Memory) (bound : Nat) (p : Process) (d : PageDir) (a : VirtualPage)
    (x : Ppn) (s s' : State Process) : Prop where
  sound : ∃ role, Sound boot bound role none s'
  pagedir : s'.pagedir = s.pagedir
  reaches : ∃ y, Reaches s'.memory d.root a y
  maps : ∀ a' e z, UserMaps s' p a' e z ↔
    (a' = a ∧ e = .setAsLeaf x ∧ z = x) ∨ UserMaps s p a' e z

theorem Sound.added (hs : Sound boot bound role none s) (hd : s.pagedir p = some d)
    {a : VirtualPage} (hy : role y = .leaves p a.vpn2 a.vpn1)
    (hreach : Reaches s.memory d.root a y) (hinvalid : (s.memory y a.vpn0).V = false)
    (hx : role x = .frame p a) :
    Added boot bound p d a x s
      { s with memory := writeEntry s.memory (y, a.vpn0) (.setAsLeaf x) } := by
  have hkept := hs.laid.reaches_writeEntry hd hy hreach (e := .setAsLeaf x) a.vpn0
  have hself : writeEntry s.memory (y, a.vpn0) (.setAsLeaf x) y a.vpn0 = .setAsLeaf x := if_pos rfl
  have hmapped : translation (writeEntry s.memory (y, a.vpn0) (.setAsLeaf x)) d.root a =
      some (.setAsLeaf x, x) := by
    rw [hkept.translate, hself]
    rfl
  have hnone : translation s.memory d.root a = none := by
    rw [hreach.translate, if_pos (Or.inl hinvalid)]
  refine ⟨⟨role, hs.writeNormal hd hy hreach hinvalid hx⟩, rfl, ⟨y, hkept⟩, ?_⟩
  intro a' e z
  unfold UserMaps
  rcases eq_or_ne a' a with rfl | hne
  · constructor
    · rintro ⟨d', hd', htranslate, -⟩
      obtain rfl := Option.some.inj (hd.symm.trans hd')
      dsimp only at htranslate
      rw [hmapped] at htranslate
      cases htranslate
      exact Or.inl ⟨rfl, rfl, rfl⟩
    · rintro (⟨-, rfl, rfl⟩ | ⟨d', hd', htranslate, -⟩)
      · exact ⟨d, hd, hmapped, rfl⟩
      · obtain rfl := Option.some.inj (hd.symm.trans hd')
        rw [hnone] at htranslate
        cases htranslate
  · have hsame : ∀ d', s.pagedir p = some d' →
        translation (writeEntry s.memory (y, a.vpn0) (.setAsLeaf x)) d'.root a' =
          translation s.memory d'.root a' :=
      fun d' hd' => hs.laid.translate_writeEntry hy hd' fun h => hne h.2
    constructor
    · rintro ⟨d', hd', htranslate, hu⟩
      exact Or.inr ⟨d', hd', hsame d' hd' ▸ htranslate, hu⟩
    · rintro (⟨rfl, -⟩ | ⟨d', hd', htranslate, hu⟩)
      · exact absurd rfl hne
      · exact ⟨d', hd', (hsame d' hd').symm ▸ htranslate, hu⟩

theorem runs_allocPageForVa_new (hs : Sound boot bound role none s) (hd : s.pagedir p = some d)
    (hbelow : va < d.userMemBound) (hva : (getVpn va 2).val < bound)
    (hnew : ∀ e x, ¬UserMaps s p (pageOf va) e x)
    (hlookup : Runs (lookup d va) s Never fun _ s₁ => Supplied (n + 1) s₁) :
    Runs (allocPageForVa d va) s Never fun x s' =>
      Supplied n s' ∧ Added boot bound p d (pageOf va) x s s' := by
  unfold allocPageForVa
  rw [if_neg (BitVec.not_le.mpr hbelow)]
  apply ((hlookup.and (runs_lookup hs.laid hd hva)).mono (fun _ _ h => h.1) fun _ _ h => h).bind
  rintro ⟨y, k⟩ s₁ ⟨hsupplied₁, role₁, hlaid₁, hgrown₁, hk, hy₁, hreach₁⟩
  dsimp only at hk hy₁ hreach₁
  subst hk
  have hs₁ := hs.grown hlaid₁ hgrown₁
  have hd₁ : s₁.pagedir p = some d := hgrown₁.pagedir ▸ hd
  have hinvalid₁ : (s₁.memory y (getVpn va 0)).V = false := by
    by_contra hinvalid
    have hv := Bool.eq_true_of_not_eq_false hinvalid
    obtain ⟨hxwr, hu, -⟩ := hlaid₁.leaves y p _ _ hy₁ _ hv
    apply hnew (s₁.memory y (getVpn va 0)) (s₁.memory y (getVpn va 0)).ppn
    rw [← userMaps_grown hgrown₁]
    refine ⟨d, hd₁, ?_, hu⟩
    rw [hreach₁.translate]
    exact if_neg fun h => h.elim (fun hfalse => hinvalid hfalse) hxwr
  apply runs_bind
  apply runs_load
  rw [hinvalid₁, if_neg (by decide)]
  apply runs_bind
  apply supplied_kalloc hsupplied₁
  intro x rest hfree hsupplied₂
  obtain ⟨hlaid₂, hgrown₂⟩ := hlaid₁.take hfree (Or.inr ⟨p, pageOf va, rfl⟩) rest
  set s₂ : State Process :=
    { s₁ with supply := rest, block := Function.update s₁.block x .paging } with hs₂
  have hsound₂ := hs₁.grown hlaid₂ hgrown₂
  have hy₂ := hgrown₂.role_eq hlaid₁ hy₁ nofun
  have hreach₂ : Reaches s₂.memory d.root (pageOf va) y := hreach₁
  have hadded := Sound.added hsound₂ hd₁ hy₂ hreach₂ hinvalid₁ (Function.update_self ..)
  set s₃ : State Process :=
    { s₂ with memory := writeEntry s₂.memory (y, getVpn va 0) (.setAsLeaf x) } with hs₃
  have hmap : Runs (mapVaKva d va x .normal) s₂ Never fun _ s' => s' = s₃ := by
    unfold mapVaKva
    apply (runs_lookup_reached hreach₂).bind
    rintro - - ⟨rfl, rfl⟩
    apply runs_bind
    apply runs_load
    dsimp only
    rw [show (s₂.memory y (getVpn va 0)).V = false from hinvalid₁]
    exact runs_bind (runs_modifyState rfl)
  apply hmap.bind
  rintro - - rfl
  have hself : s₃.memory y (getVpn va 0) = .setAsLeaf x := if_pos rfl
  apply runs_bind
  apply runs_load
  dsimp only
  rw [hself]
  refine ⟨⟨hsupplied₂.nodup, hsupplied₂.free, hsupplied₂.enough⟩, hadded.sound, hgrown₁.pagedir,
    hadded.reaches, ?_⟩
  intro a' e z
  refine (hadded.maps a' e z).trans ?_
  rw [userMaps_grown hgrown₂, userMaps_grown hgrown₁]
  rfl

theorem Sound.setSupply (hs : Sound boot bound role none s)
    (supply : List Ppn) : Sound boot bound role none { s with supply := supply } :=
  hs.setBlock fun _ _ => rfl

theorem runs_createProcess_new [DecidableEq Process] (hs : Sound boot bound role none s)
    (hcreated : s.created p = false) (hsupplied : Supplied (n + 1) s) :
    Runs (createProcess p) s Never fun _ s' => Supplied n s' ∧
      ∃ d role', Sound boot bound role' none s' ∧ s'.pagedir p = some d ∧
        d.userMemBound = 0x300000 ∧ ∀ a e x, ¬UserMaps s' p a e x := by
  unfold createProcess
  apply runs_bind
  apply runs_getState
  rw [hcreated, if_neg (by decide)]
  apply runs_bind
  apply supplied_kalloc hsupplied
  intro x rest hfree hsupplied₁
  have hself := Laid.withKernelVm_self hs.laid hfree
  have hsound : Sound boot bound (Function.update role x (.root p)) none
      { s with
        memory := withKernelVm s.memory x
        block := Function.update s.block x .paging
        supply := rest
        created := Function.update s.created p true
        pagedir := Function.update s.pagedir p (some ⟨x, 0x2000000000, 0x300000⟩) } :=
    hs.create hfree
  have hd : Function.update s.pagedir p (some ⟨x, 0x2000000000, 0x300000⟩) p =
      some ⟨x, 0x2000000000, 0x300000⟩ := Function.update_self ..
  refine ⟨⟨hsupplied₁.nodup, hsupplied₁.free, hsupplied₁.enough⟩, _, _, hsound, hd, rfl, ?_⟩
  rintro a e z ⟨d, hd', htranslate, hu⟩
  obtain rfl := Option.some.inj (hd.symm.trans hd')
  obtain ⟨y, hlow, ⟨⟨hv, -⟩, -⟩, -⟩ := hsound.laid.userLeaf hd htranslate hu
  dsimp only at hv
  rw [hself, hs.laid.kernel.low _ (hlow.trans_le hs.laid.range.2)] at hv
  cases hv

end Supply

theorem neZero_entries : @NeZero Nat Zero.ofOfNat0 512 := ⟨by decide⟩

attribute [local instance] neZero_entries in
/-- Page `k` of the initial user region. -/
def userPage (k : Nat) : VirtualPage := ⟨0, 1, Fin.ofNat 512 k⟩

theorem pageOf_entry {n : Nat} (hn : n < 2 ^ 21) :
    pageOf (0x200000 + BitVec.ofNat 64 n) = userPage (n / 4096) := by
  have hva : (0x200000 + BitVec.ofNat 64 n : Ptr).toNat = 0x200000 + n := by
    rw [BitVec.toNat_add, BitVec.toNat_ofNat]
    have hentry : (0x200000 : Ptr).toNat = 0x200000 := rfl
    rw [hentry]
    omega
  have hvpn : ∀ sizeid i, (0x200000 + n) / 2 ^ (12 + 9 * sizeid) % 512 = i → i < 512 →
      getVpn (0x200000 + BitVec.ofNat 64 n) sizeid = Fin.ofNat 512 i := by
    intro sizeid i hi hlt
    apply Fin.ext
    rw [getVpn_val, hva, hi]
    exact (Nat.mod_eq_of_lt hlt).symm
  unfold pageOf userPage
  congr 1
  · exact hvpn 2 0 (by omega) (by omega)
  · exact hvpn 1 1 (by omega) (by omega)
  · exact hvpn 0 (n / 4096) (by omega) (by omega)

theorem userPage_inj {j k : Nat} (hj : j < 512) (hk : k < 512) (h : userPage j = userPage k) :
    j = k := by
  have hvpn := congrArg (fun a => a.vpn0.val) h
  simp only [userPage, Fin.val_ofNat] at hvpn
  omega

section Loop

variable {boot : Memory} {bound n start num k : Nat} {p : Process} {d : PageDir}
  {disk : Bytes} {m : Machine Process}

/-- The first `k` pages of the task are loaded.  The task has `num` sectors on
the disk, from sector `start` on. -/
structure Filled (boot : Memory) (bound : Nat) (disk : Bytes) (start num : Nat) (p : Process)
    (d : PageDir) (k : Nat) (m : Machine Process) : Prop where
  sound : ∃ role, Sound boot bound role none m.kernel
  pagedir : m.kernel.pagedir p = some d
  reaches : k ≠ 0 → ∃ y, Reaches m.kernel.memory d.root (userPage 0) y
  maps : ∀ a, (∃ e x, UserMaps m.kernel p a e x) ↔ ∃ j < k, a = userPage j
  content : ∀ j < k, ∀ e x, UserMaps m.kernel p (userPage j) e x → ∀ i < 4096,
    4096 * j + i < sectorSize * num →
      m.frames x i = disk (sectorSize * start + (4096 * j + i))

theorem runs_onKernel {program : Kernel Process α} {E : Stop → Machine Process → Prop}
    {Q : α → Machine Process → Prop}
    (h : Runs program m.kernel (fun e s => E e { m with kernel := s })
      fun a s => Q a { m with kernel := s }) :
    Runs (onKernel program) m E Q := by
  unfold Runs at *
  split at h
  next hrun => simpa only [onKernel, hrun] using h
  next hrun => simpa only [onKernel, hrun] using h

theorem Filled.add {s' : State Process} {x : Ppn}
    (hm : Filled boot bound disk start num p d k m) (hk : k < 512)
    (hadded : Added boot bound p d (userPage k) x m.kernel s') :
    Filled boot bound disk start num p d (k + 1)
      ⟨s', Function.update m.frames x (copy (m.frames x) 0 disk (sectorSize * (start + 8 * k))
        (sectorSize * min 8 (num - 8 * k)))⟩ := by
  obtain ⟨role, hsound⟩ := hadded.sound
  have hnew : UserMaps s' p (userPage k) (.setAsLeaf x) x :=
    (hadded.maps _ _ _).mpr (Or.inl ⟨rfl, rfl, rfl⟩)
  refine ⟨hadded.sound, hadded.pagedir ▸ hm.pagedir, fun _ => ?_, fun a => ?_, ?_⟩
  · obtain ⟨y, hmiddle, hbottom⟩ := hadded.reaches
    exact ⟨y, hmiddle, hbottom⟩
  · constructor
    · rintro ⟨e, z, hmaps⟩
      rcases (hadded.maps a e z).mp hmaps with ⟨ha, -⟩ | hold
      · exact ⟨k, Nat.lt_succ_self k, ha⟩
      · obtain ⟨j, hj, ha⟩ := (hm.maps a).mp ⟨e, z, hold⟩
        exact ⟨j, Nat.lt_succ_of_lt hj, ha⟩
    · rintro ⟨j, hj, rfl⟩
      rcases Nat.lt_succ_iff_lt_or_eq.mp hj with hj | rfl
      · obtain ⟨e, z, hold⟩ := (hm.maps _).mpr ⟨j, hj, rfl⟩
        exact ⟨e, z, (hadded.maps _ e z).mpr (Or.inr hold)⟩
      · exact ⟨_, x, hnew⟩
  · intro j hj e z hmaps i hi hlt
    dsimp only at hmaps ⊢
    rcases Nat.lt_succ_iff_lt_or_eq.mp hj with hj | rfl
    · have hpages : userPage j ≠ userPage k := fun h => hj.ne (userPage_inj (by omega) hk h)
      have hne : z ≠ x := by
        rintro rfl
        exact hpages ((Sound.isolated hsound).normal _ _ _ _ hnew rfl _ _ _ hmaps).2
      rw [Function.update_of_ne hne]
      rcases (hadded.maps _ e z).mp hmaps with ⟨ha, -⟩ | hold
      · exact absurd ha hpages
      · exact hm.content j hj e z hold i hi hlt
    · have hz : z = x := by
        rcases (hadded.maps _ e z).mp hmaps with ⟨-, -, hz⟩ | hold
        · exact hz
        · obtain ⟨l, hl, heq⟩ := (hm.maps _).mp ⟨e, z, hold⟩
          exact absurd (userPage_inj hk (by omega) heq) hl.ne'
      rw [hz, Function.update_self]
      unfold sectorSize at *
      rw [copy_inside (by omega) (by omega)]
      congr 1
      omega

theorem toNat_sdcardId {id : Nat} (hid : id < 2 ^ 32) :
    ((BitVec.ofNat 64 id).setWidth 32).toNat = id := by
  rw [BitVec.toNat_setWidth, BitVec.toNat_ofNat]
  omega

theorem toNat_numOfBlocks {num : Nat} (hnum : num < 2 ^ 32) :
    ((if BitVec.ofNat 64 num > 8 then 8 else BitVec.ofNat 64 num).setWidth 32).toNat =
      min 8 num := by
  have hlt : BitVec.ofNat 64 num > 8 ↔ 8 < num := by
    rw [gt_iff_lt, BitVec.lt_def, BitVec.toNat_ofNat, Nat.mod_eq_of_lt (by omega)]
    rfl
  split
  next h => exact (Nat.min_eq_left (hlt.mp h).le).symm
  next h => rw [toNat_sdcardId hnum, Nat.min_eq_right (Nat.not_lt.mp (mt hlt.mpr h))]

/-- From round `k` on the loop fills the pages that are left, or leaves the
initial user region. -/
theorem runs_loadLoop (left : Nat) (hm : Filled boot bound disk start num p d k m)
    (hk : k ≤ 256) (hbound : d.userMemBound = 0x300000) (hrounds : k + left ≤ num / 8 + 1)
    (hnum : num < 2 ^ 22) (hstart : start + num < 2 ^ 32) {blockNum : BitVec 64}
    (hblockNum : left ≠ 0 → blockNum = BitVec.ofNat 64 (num - 8 * k))
    (hsupplied : Supplied (left + if k = 0 then 2 else 0) m.kernel) :
    Runs (loadLoop disk d left (0x200000 + BitVec.ofNat 64 (4096 * k))
        (BitVec.ofNat 64 (start + 8 * k)) blockNum) m
      (fun _ _ => 256 < k + left) fun _ m' =>
        k + left ≤ 256 ∧ Filled boot bound disk start num p d (k + left) m' := by
  induction left generalizing k m blockNum with
  | zero => exact ⟨hk, hm⟩
  | succ left ih =>
      have hva : (0x200000 + BitVec.ofNat 64 (4096 * k) : Ptr).toNat = 0x200000 + 4096 * k := by
        rw [BitVec.toNat_add, BitVec.toNat_ofNat]
        have hentry : (0x200000 : Ptr).toNat = 0x200000 := rfl
        rw [hentry]
        omega
      unfold loadLoop
      apply runs_bind
      apply runs_onKernel
      rcases Nat.lt_or_eq_of_le hk with hlt | rfl
      · obtain ⟨role, hsound⟩ := hm.sound
        have hpage := pageOf_entry (n := 4096 * k) (by omega)
        rw [Nat.mul_div_cancel_left k (by decide)] at hpage
        have hbelow : (0x200000 + BitVec.ofNat 64 (4096 * k) : Ptr) < d.userMemBound := by
          rw [hbound, BitVec.lt_def, hva]
          change _ < 0x300000
          omega
        have hlow : (getVpn (0x200000 + BitVec.ofNat 64 (4096 * k)) 2).val < bound := by
          have hrange := hsound.laid.range.1
          rw [getVpn_val, hva]
          omega
        have hnew : ∀ e x, ¬UserMaps m.kernel p
            (pageOf (0x200000 + BitVec.ofNat 64 (4096 * k))) e x := by
          intro e x hmaps
          obtain ⟨j, hj, heq⟩ := (hm.maps _).mp ⟨e, x, hmaps⟩
          rw [hpage] at heq
          exact hj.ne' (userPage_inj (by omega) (by omega) heq)
        have hlookup : Runs (lookup d (0x200000 + BitVec.ofNat 64 (4096 * k))) m.kernel Never
            fun _ s₁ => Supplied (left + 1) s₁ := by
          rcases eq_or_ne k 0 with rfl | hne
          · exact supplied_lookup hsupplied
          · obtain ⟨y, hreach⟩ := hm.reaches hne
            have hreach' : Reaches m.kernel.memory d.root
                (pageOf (0x200000 + BitVec.ofNat 64 (4096 * k))) y := by
              rw [hpage]
              exact ⟨hreach.middle, hreach.bottom⟩
            rw [if_neg hne] at hsupplied
            apply (runs_lookup_reached hreach').mono (fun _ _ h => h)
            rintro - - ⟨-, rfl⟩
            exact hsupplied
        apply (runs_allocPageForVa_new hsound hm.pagedir hbelow hlow hnew hlookup).mono
        · exact fun _ _ h => h.elim
        · rintro x s' ⟨hsupplied', hadded⟩
          rw [hpage] at hadded
          have hfilled := hm.add (by omega) hadded
          obtain rfl := hblockNum (Nat.succ_ne_zero left)
          apply runs_bind
          apply runs_modifyState
          have hva' : 0x200000 + BitVec.ofNat 64 (4096 * k) + 4096 =
              0x200000 + BitVec.ofNat 64 (4096 * (k + 1)) := by
            rw [Nat.mul_succ, BitVec.ofNat_add, BitVec.add_assoc]
            rfl
          have hsdcardId : BitVec.ofNat 64 (start + 8 * k) + 8 =
              BitVec.ofNat 64 (start + 8 * (k + 1)) := by
            rw [Nat.mul_succ, ← Nat.add_assoc, BitVec.ofNat_add (start + 8 * k)]
            rfl
          rw [toNat_sdcardId (by omega), toNat_numOfBlocks (by omega), hva', hsdcardId,
            show k + (left + 1) = k + 1 + left by omega]
          apply ih hfilled hlt (by omega)
          · -- Only the last round takes away more sectors than are left.
            intro hleft
            rw [show num - 8 * k = num - 8 * (k + 1) + 8 by omega, BitVec.ofNat_add]
            exact BitVec.add_sub_cancel ..
          · exact hsupplied'
      · unfold allocPageForVa
        rw [if_pos]
        · exact runs_fail (by omega)
        · rw [hbound]
          decide

end Loop

section Table

variable {t : TaskTable} {disk : Bytes} {boot kernel f : InputFile} {tasks : List InputFile}
  {image : List UInt8} {i : Nat}

/-- The table describes the tasks on the disk. -/
structure Lists (t : TaskTable) (disk : Bytes) (tasks : List InputFile) : Prop where
  taskNum : t.taskNum = tasks.length
  name : ∀ i f, tasks[i]? = some f → f.name.length ≤ 15 → 0 ∉ f.name → t.name i = f.name
  sectors : ∀ i f, tasks[i]? = some f → ∃ start,
    t.sdcardBlockId i = UInt32.ofNat start ∧ t.sdcardBlockNum i = UInt32.ofNat (sectors f) ∧
      start + sectors f < 2 ^ 22 ∧ ∀ n < sectors f * sectorSize,
        disk (sectorSize * start + n) = (loadBytes f.data).getD n 0

theorem sectorSize_le_padded {l : List UInt8} (hl : l ≠ []) : sectorSize ≤ (padded l).length := by
  have hpos := List.length_pos_iff.mpr hl
  have hle := le_nbytes2sec_mul l.length
  rw [length_padded]
  unfold sectorSize at *
  omega

theorem sectorSize_le_packed (hfirst : loadBytes boot.data ≠ [] ∨ loadBytes kernel.data ≠ [])
    (rest : List InputFile) : sectorSize ≤ (packed (boot :: kernel :: rest)).length := by
  rw [packed, List.flatMap_cons, List.flatMap_cons, List.length_append, List.length_append]
  rcases hfirst with hboot | hkernel
  · have := sectorSize_le_padded hboot
    omega
  · have := sectorSize_le_padded hkernel
    omega

section Records

variable {img : List UInt8} {tasknum : Nat} {taskinfo : Nat → TaskInfo}

theorem tasks_initTaskInfo (h : Finished image img tasknum taskinfo)
    (hmod : img.length % sectorSize = 0) (hint : img.length < 2 ^ 31) (hi : i < 16) {j : Nat}
    (hj : j < 32) :
    (initTaskInfo (listBytes image) (listBytes image)).tasks (32 * i + j) =
      (taskinfo i).toBytes j := by
  have hposition : sectorSize * (UInt32.ofNat (img.length / sectorSize)).toNat = img.length := by
    rw [UInt32.toNat_ofNat']
    unfold sectorSize at *
    omega
  have hrecord := h.records (32 * i + j) (by omega)
  rw [show (32 * i + j) / 32 = i by omega, show (32 * i + j) % 32 = j by omega] at hrecord
  unfold initTaskInfo
  dsimp only
  rw [h.blockId, copy_inside (Nat.zero_le _) (by unfold sectorSize; omega), hposition, Nat.sub_zero,
    hrecord]

theorem sdcardBlockId_initTaskInfo (h : Finished image img tasknum taskinfo)
    (hmod : img.length % sectorSize = 0) (hint : img.length < 2 ^ 31) (hi : i < 16) :
    (initTaskInfo (listBytes image) (listBytes image)).sdcardBlockId i =
      (taskinfo i).sdcardBlockId := by
  apply get32_eq
  intro j hj
  rw [Nat.add_assoc, tasks_initTaskInfo h hmod hint hi (by omega), TaskInfo.toBytes,
    if_neg (by omega), if_pos (by omega), Nat.add_sub_cancel_left]

theorem sdcardBlockNum_initTaskInfo (h : Finished image img tasknum taskinfo)
    (hmod : img.length % sectorSize = 0) (hint : img.length < 2 ^ 31) (hi : i < 16) :
    (initTaskInfo (listBytes image) (listBytes image)).sdcardBlockNum i =
      (taskinfo i).sdcardBlockNum := by
  apply get32_eq
  intro j hj
  rw [Nat.add_assoc, tasks_initTaskInfo h hmod hint hi (by omega), TaskInfo.toBytes,
    if_neg (by omega), if_neg (by omega), if_pos (by omega), Nat.add_sub_cancel_left]

theorem name_initTaskInfo (h : Finished image img tasknum taskinfo)
    (hmod : img.length % sectorSize = 0) (hint : img.length < 2 ^ 31) (hi : i < 16)
    (hlength : (taskinfo i).name.length ≤ 15) (hzero : 0 ∉ (taskinfo i).name) :
    (initTaskInfo (listBytes image) (listBytes image)).name i = (taskinfo i).name := by
  apply cString_eq (by omega) hzero
  intro j hj
  rw [Nat.add_assoc, tasks_initTaskInfo h hmod hint hi (by omega), TaskInfo.toBytes,
    if_neg (by omega), if_neg (by omega), if_neg (by omega), Nat.add_sub_cancel_left]

end Records

theorem lists_initTaskInfo (h : createImage (boot :: kernel :: tasks) = some image)
    (hfirst : loadBytes boot.data ≠ [] ∨ loadBytes kernel.data ≠ []) :
    Lists (initTaskInfo (listBytes image) (listBytes image)) (listBytes image) tasks := by
  obtain ⟨hcount, hint, taskinfo, himage, htaskinfo⟩ :=
    createImage_eq (sectorSize_le_packed hfirst tasks) h
  have hmod := length_packed_mod (boot :: kernel :: tasks)
  have hcount : tasks.length ≤ 16 := Nat.le_of_add_le_add_right (b := 2) hcount
  have hinfo : ∀ i f, tasks[i]? = some f → i < 16 ∧
      boot :: kernel :: tasks = (boot :: kernel :: tasks.take i) ++ f :: tasks.drop (i + 1) ∧
        taskinfo i =
        infoOf i ((packed (boot :: kernel :: tasks.take i)).length / sectorSize) f := by
    intro i f hf
    obtain ⟨hi, hf⟩ := List.getElem?_eq_some_iff.mp hf
    have hfiles : boot :: kernel :: tasks =
        (boot :: kernel :: tasks.take i) ++ f :: tasks.drop (i + 1) := by
      rw [List.cons_append, List.cons_append, ← hf, List.getElem_cons_drop, List.take_append_drop]
    have hlength : (boot :: kernel :: tasks.take i).length = i + 2 := by
      simpa using hi.le
    have hrecord := htaskinfo _ f _ hfiles (by omega)
    rw [hlength, Nat.add_sub_cancel] at hrecord
    exact ⟨by omega, hfiles, hrecord⟩
  refine ⟨?_, ?_, ?_⟩
  · have hnat : (UInt16.ofNat tasks.length).toBitVec.toNat = tasks.length := by
      rw [UInt16.toNat_toBitVec, UInt16.toNat_ofNat']
      omega
    change (get16 (listBytes image) 0x1f4).toBitVec.toInt = _
    rw [himage.tasknum]
    change (UInt16.ofNat tasks.length).toBitVec.toInt = _
    rw [BitVec.toInt_eq_toNat_of_lt (by omega), hnat]
  · intro i f hf hlength hzero
    obtain ⟨hi, -, hrecord⟩ := hinfo i f hf
    have hname : (taskinfo i).name = f.name := by rw [hrecord]; rfl
    rw [name_initTaskInfo himage hmod hint hi (hname ▸ hlength) (hname ▸ hzero), hname]
  · intro i f hf
    obtain ⟨hi, hfiles, hrecord⟩ := hinfo i f hf
    have hmod' := length_packed_mod (boot :: kernel :: tasks.take i)
    have hfirst' := sectorSize_le_packed hfirst (tasks.take i)
    have hlength := length_packed_append (f := f) (boot :: kernel :: tasks.take i)
      (tasks.drop (i + 1))
    rw [← hfiles] at hlength
    refine ⟨(packed (boot :: kernel :: tasks.take i)).length / sectorSize, ?_, ?_, ?_, ?_⟩
    · rw [sdcardBlockId_initTaskInfo himage hmod hint hi, hrecord]
      rfl
    · rw [sdcardBlockNum_initTaskInfo himage hmod hint hi, hrecord]
      rfl
    · unfold sectorSize at *
      omega
    · intro n hn
      rw [Nat.mul_div_cancel' (Nat.dvd_of_mod_eq_zero hmod'),
        himage.packed _ (hfirst'.trans (Nat.le_add_right ..)) (by omega), hfiles]
      exact listBytes_packed hn

theorem findLoop_eq {taskname : List UInt8} {left k : Nat} (hk : k ≤ i) (hi : i < k + left)
    (hname : t.name i = taskname) (hother : ∀ j < i, t.name j ≠ taskname) :
    findLoop t taskname left k = i := by
  induction left generalizing k with
  | zero => omega
  | succ left ih =>
      unfold findLoop
      rcases eq_or_ne k i with rfl | hne
      · rw [if_pos hname]
      · rw [if_neg (hother k (by omega))]
        exact ih (by omega) (by omega)

theorem Lists.find (ht : Lists t disk tasks)
    (hnames : ∀ f ∈ tasks, f.name.length ≤ 15 ∧ 0 ∉ f.name)
    (hdistinct : (tasks.map InputFile.name).Nodup) (hf : tasks[i]? = some f) :
    findTaskIdxByName t f.name = i := by
  have hname : ∀ j g, tasks[j]? = some g → t.name j = g.name := by
    intro j g hg
    obtain ⟨hlength, hzero⟩ := hnames g (List.mem_of_getElem? hg)
    exact ht.name j g hg hlength hzero
  obtain ⟨hi, hf'⟩ := List.getElem?_eq_some_iff.mp hf
  unfold findTaskIdxByName
  rw [ht.taskNum]
  apply findLoop_eq (Nat.zero_le i) (by simpa using hi) (hname i f hf)
  intro j hj heq
  have hj' : j < tasks.length := hj.trans hi
  rw [hname j _ (List.getElem?_eq_getElem hj')] at heq
  rw [← hf'] at heq
  have hinj := List.nodup_iff_injective_get.mp hdistinct
  have hfin := @hinj ⟨j, by simpa using hj'⟩ ⟨i, by simpa using hi⟩ (by simpa using heq)
  exact hj.ne (congrArg Fin.val hfin)

end Table

section Load

variable [DecidableEq Process] {boot : Memory} {bound : Nat} {role : Ppn → Role Process}
  {t : TaskTable} {disk : Bytes} {f : InputFile} {tasks : List InputFile} {i : Nat} {p : Process}
  {m : Machine Process}

theorem signExtend_ofNat {n : Nat} (hn : n < 2 ^ 31) :
    (UInt32.ofNat n).toBitVec.signExtend 64 = BitVec.ofNat 64 n := by
  have hnat : (UInt32.ofNat n).toBitVec.toNat = n := by
    rw [UInt32.toNat_toBitVec, UInt32.toNat_ofNat']
    omega
  have hmsb : (UInt32.ofNat n).toBitVec.msb = false := by
    rw [BitVec.msb_eq_false_iff_two_mul_lt, hnat]
    omega
  rw [BitVec.signExtend_eq_setWidth_of_msb_false hmsb]
  apply BitVec.eq_of_toNat_eq
  rw [BitVec.toNat_setWidth, hnat, BitVec.toNat_ofNat]

/-- The number of pages that `load_task_img` allocates. -/
def loadedPages (num : Nat) : Nat := num / 8 + if num ≠ 0 then 1 else 0

theorem toNat_loadedPages {num : Nat} (hnum : num < 2 ^ 22) :
    (BitVec.ofNat 64 num / 8 + if BitVec.ofNat 64 num ≠ 0 then 1 else 0).toNat =
      loadedPages num := by
  have hnat : (BitVec.ofNat 64 num).toNat = num := by
    rw [BitVec.toNat_ofNat]
    omega
  have hzero : BitVec.ofNat 64 num ≠ 0 ↔ num ≠ 0 := by
    rw [ne_eq, ← BitVec.toNat_inj, hnat]
    rfl
  have hdiv : (BitVec.ofNat 64 num / 8).toNat = num / 8 := by
    rw [BitVec.toNat_udiv, hnat]
    rfl
  unfold loadedPages
  rw [BitVec.toNat_add, hdiv]
  simp only [hzero]
  split
  next => exact Nat.mod_eq_of_lt (by change num / 8 + 1 < _; omega)
  next => exact Nat.mod_eq_of_lt (by change num / 8 + 0 < _; omega)

theorem runs_loadNew (ht : Lists t disk tasks) (hf : tasks[i]? = some f)
    (hs : Sound boot bound role none m.kernel) (hcreated : m.kernel.created p = false)
    (hsupplied : Supplied (sectors f / 8 + 4) m.kernel) :
    Runs (loadNew t disk i p) m (fun _ _ => 256 < loadedPages (sectors f)) fun b m' =>
      b = true ∧ loadedPages (sectors f) ≤ 256 ∧ ∃ d start,
        Filled boot bound disk start (sectors f) p d (loadedPages (sectors f)) m' ∧
        ∀ n < sectors f * sectorSize,
          disk (sectorSize * start + n) = (loadBytes f.data).getD n 0 := by
  obtain ⟨start, hid, hnum, hspace, hdisk⟩ := ht.sectors i f hf
  have hi := (List.getElem?_eq_some_iff.mp hf).1
  unfold loadNew
  apply runs_bind
  apply runs_onKernel
  apply (runs_createProcess_new hs hcreated hsupplied).mono (fun _ _ h => h.elim)
  rintro - s₁ ⟨hsupplied₁, d, role₁, hs₁, hd₁, hbound, hnone⟩
  apply runs_bind
  apply runs_onKernel
  have hpagedir : (pagedirOf p).run s₁ = (.ok d, s₁) := by
    have hstate : (getState : Kernel Process (State Process)).run s₁ = (.ok s₁, s₁) := rfl
    unfold pagedirOf
    rw [run_bind_ok hstate, hd₁]
    rfl
  apply runs_of_ok hpagedir
  unfold loadTaskImg
  rw [ht.taskNum, if_neg (by omega), hid, hnum, signExtend_ofNat (by omega),
    signExtend_ofNat (by omega)]
  dsimp only
  rw [toNat_loadedPages (by omega)]
  have hfilled : Filled boot bound disk start (sectors f) p d 0 ⟨s₁, m.frames⟩ := by
    refine ⟨⟨role₁, hs₁⟩, hd₁, fun h => absurd rfl h, fun a => ?_,
      fun j hj => absurd hj (Nat.not_lt_zero j)⟩
    constructor
    · rintro ⟨e, x, hmaps⟩
      exact absurd hmaps (hnone a e x)
    · rintro ⟨j, hj, -⟩
      exact absurd hj (Nat.not_lt_zero j)
  have hpages : loadedPages (sectors f) ≤ sectors f / 8 + 1 := by
    unfold loadedPages
    split
    next => exact le_rfl
    next => exact Nat.le_succ _
  have henough := hsupplied₁.enough
  have hsupplied' : Supplied (loadedPages (sectors f) + 2) s₁ :=
    ⟨hsupplied₁.nodup, hsupplied₁.free, by omega⟩
  have hloop := runs_loadLoop (loadedPages (sectors f)) hfilled (by omega) hbound (by omega)
    (by omega) (by omega) (fun _ => rfl) hsupplied'
  rw [Nat.zero_add] at hloop
  apply hloop.bind
  rintro - m' ⟨hle, hm'⟩
  exact ⟨rfl, hle, d, start, hm', hdisk⟩

/-- The pages that are loaded are just those needed, unless the last one is
full. -/
theorem loads_iff (ht : Lists t disk tasks) (hf : tasks[i]? = some f)
    (hs : Sound boot bound role none m.kernel) (hcreated : m.kernel.created p = false)
    (hsupplied : Supplied (sectors f / 8 + 4) m.kernel) (hfits : sectors f ≤ 2048) :
    Loads t disk i f p m ↔ sectors f = 0 ∨ sectors f % 8 ≠ 0 := by
  have hruns := runs_loadNew ht hf hs hcreated hsupplied
  have hpage : ∀ n < sectors f * sectorSize,
      pageOf (0x200000 + BitVec.ofNat 64 n) = userPage (n / 4096) := by
    intro n hn
    unfold sectorSize at hn
    exact pageOf_entry (by omega)
  constructor
  · rintro ⟨m', hrun, -, honly⟩
    obtain ⟨-, hle, d, start, hfilled, -⟩ := hruns.ok hrun
    by_contra hnot
    obtain ⟨hzero, hfull⟩ := not_or.mp hnot
    have hpages : loadedPages (sectors f) = sectors f / 8 + 1 := by
      unfold loadedPages
      rw [if_pos hzero]
    obtain ⟨e, x, hmaps⟩ := (hfilled.maps (userPage (sectors f / 8))).mpr
      ⟨_, by omega, rfl⟩
    obtain ⟨n, hn, heq⟩ := honly _ e x hmaps
    rw [hpage n hn] at heq
    unfold sectorSize at hn
    have := userPage_inj (by omega) (by omega) heq
    omega
  · intro hcond
    have hpages : loadedPages (sectors f) = (sectors f + 7) / 8 := by
      unfold loadedPages
      split
      next => omega
      next => omega
    obtain ⟨b, m', hrun, rfl, hle, d, start, hfilled, hdisk⟩ := hruns.returns (by omega)
    refine ⟨m', hrun, fun n hn => ?_, fun a e x hmaps => ?_⟩
    · have hn' := hn
      unfold sectorSize at hn'
      obtain ⟨e, x, hmaps⟩ := (hfilled.maps (userPage (n / 4096))).mpr ⟨_, by omega, rfl⟩
      refine ⟨e, x, by rwa [hpage n hn], ?_⟩
      rw [hfilled.content _ (by omega) e x hmaps _ (by omega) (by unfold sectorSize; omega),
        ← hdisk n hn, Nat.div_add_mod]
    · obtain ⟨j, hj, rfl⟩ := (hfilled.maps a).mp ⟨e, x, hmaps⟩
      have hlt : 4096 * j < sectors f * sectorSize := by
        unfold sectorSize
        omega
      refine ⟨4096 * j, hlt, ?_⟩
      rw [hpage _ hlt, Nat.mul_div_cancel_left j (by decide)]

/-- Every task of an accepted list of files is found.  It is loaded as it should
be into a new address space exactly if it does not end with a full page. -/
theorem packed_task_loads_iff {ioremaps : List (Ptr × Ptr)} {bootblock kernel : InputFile}
    {image : List UInt8} {s : State Process}
    (himage : createImage (bootblock :: kernel :: tasks) = some image)
    (hfirst : loadBytes bootblock.data ≠ [] ∨ loadBytes kernel.data ≠ [])
    (hnames : ∀ f ∈ tasks, f.name.length ≤ 15 ∧ 0 ∉ f.name)
    (hdistinct : (tasks.map InputFile.name).Nodup) (hf : tasks[i]? = some f) :
    let t := initTaskInfo (listBytes image) (listBytes image)
    findTaskIdxByName t f.name = i ∧
      (sectors f ≤ 2048 → ReachableUnder (system ioremaps) UserAddresses s →
        ∀ p supply frames, s.created p = false →
          Supplied (sectors f / 8 + 4) { s with supply := supply } →
            (Loads t (listBytes image) i f p ⟨{ s with supply := supply }, frames⟩ ↔
              sectors f = 0 ∨ sectors f % 8 ≠ 0)) := by
  have ht := lists_initTaskInfo himage hfirst
  refine ⟨ht.find hnames hdistinct hf, fun hfits hs p supply frames hcreated hsupplied => ?_⟩
  obtain ⟨role, hs⟩ := laidout_of_userAddresses hs
  exact loads_iff ht hf (Sound.setSupply hs supply) hcreated hsupplied hfits

end Load

section Executables

variable {payload : List UInt8} {position width i : Nat}

/-- The two headers of an executable whose segment has the given length. -/
def executableHeaders (length : Nat) : Bytes := fun i =>
  if i = 1 then 0x45
  else if i = 2 then 0x4c
  else if i = 3 then 0x46
  else if i = 32 then 64
  else if i = 54 then 56
  else if i = 56 ∨ i = 64 then 1
  else if i = 72 then 120
  else if 96 ≤ i ∧ i < 104 then natBytes length (i - 96)
  else if 104 ≤ i ∧ i < 112 then natBytes length (i - 104)
  else 0

def executable (payload : List UInt8) : List UInt8 :=
  (List.range 120).map (executableHeaders payload.length) ++ payload

theorem length_executable (payload : List UInt8) :
    (executable payload).length = 120 + payload.length := by
  rw [executable, List.length_append, List.length_map, List.length_range]

theorem listBytes_executable (hi : i < 120) :
    listBytes (executable payload) i = executableHeaders payload.length i := by
  rw [executable, listBytes_append_left _ (by simpa using hi), listBytes_map_range, if_pos hi]

theorem getNat_executable (h : position + width ≤ 120) :
    getNat (listBytes (executable payload)) position width =
      getNat (executableHeaders payload.length) position width :=
  getNat_congr fun _ _ => listBytes_executable (by omega)

theorem readEhdr_executable (payload : List UInt8) :
    readEhdr (executable payload) = some ⟨64, 56, 1⟩ := by
  unfold readEhdr
  rw [if_pos]
  · rw [getNat_executable (by decide), getNat_executable (by decide), getNat_executable (by decide)]
    rfl
  · rw [length_executable, listBytes_executable (by decide), listBytes_executable (by decide),
      listBytes_executable (by decide)]
    exact ⟨by omega, rfl, rfl, rfl⟩

theorem readPhdr_executable (hlength : payload.length < 2 ^ 64) :
    readPhdr (executable payload) 0 ⟨64, 56, 1⟩ =
      some ⟨ptLoad, 120, payload.length, payload.length⟩ := by
  have hnumber : ∀ position, position + 8 ≤ 120 →
      (∀ i < 8, executableHeaders payload.length (position + i) = natBytes payload.length i) →
        getNat (listBytes (executable payload)) position 8 = payload.length := by
    intro position hposition h
    have hbytes : getNat (executableHeaders payload.length) position 8 =
        getNat (natBytes payload.length) 0 8 :=
      getNat_congr fun i hi => by rw [h i hi, Nat.zero_add]
    rw [getNat_executable hposition, hbytes, getNat_natBytes]
    omega
  have hfilesz := hnumber 96 (by decide) fun i hi => by
    simp only [executableHeaders]
    rw [if_neg (by omega), if_neg (by omega), if_neg (by omega), if_neg (by omega),
      if_neg (by omega), if_neg (by omega), if_neg (by omega), if_pos (by omega),
      Nat.add_sub_cancel_left]
  have hmemsz := hnumber 104 (by decide) fun i hi => by
    simp only [executableHeaders]
    rw [if_neg (by omega), if_neg (by omega), if_neg (by omega), if_neg (by omega),
      if_neg (by omega), if_neg (by omega), if_neg (by omega), if_neg (by omega),
      if_pos (by omega), Nat.add_sub_cancel_left]
  unfold readPhdr
  dsimp only
  rw [if_pos (by rw [length_executable]; omega), hfilesz, hmemsz, getNat_executable (by decide),
    getNat_executable (by decide)]
  rfl

theorem readable_executable (hlength : payload.length < 2 ^ 64) :
    Readable (executable payload) := by
  refine ⟨_, readEhdr_executable payload, fun ph hph => ?_⟩
  obtain rfl : ph = 0 := Nat.lt_one_iff.mp hph
  rw [readPhdr_executable hlength]
  rfl

theorem loadBytes_executable (hlength : payload.length < 2 ^ 64) :
    loadBytes (executable payload) = payload := by
  have hheaders : programHeaders (executable payload) =
      [⟨ptLoad, 120, payload.length, payload.length⟩] := by
    rw [programHeaders, readEhdr_executable]
    exact List.filterMap_cons_some (readPhdr_executable hlength)
  have hdrop : (executable payload).drop 120 = payload :=
    List.drop_left' (by rw [List.length_map, List.length_range])
  unfold loadBytes
  rw [hheaders]
  change List.flatMap (segmentBytes (executable payload)) [⟨ptLoad, 120, _, _⟩] = payload
  rw [List.flatMap_singleton, segmentBytes_eq (by rw [length_executable]) le_rfl, hdrop,
    List.take_length]

/-- A task behind a boot block and a kernel of one byte each. -/
def oneTask (payload : List UInt8) : InputFile := ⟨[0x74], executable payload⟩

def smallFiles (payload : List UInt8) : List InputFile :=
  [⟨[0x62], executable [1]⟩, ⟨mainName, executable [2]⟩, oneTask payload]

theorem createImage_smallFiles (payload : List UInt8) (hlength : payload.length < 2 ^ 20) :
    ∃ image, createImage (smallFiles payload) = some image := by
  apply Option.isSome_iff_exists.mp
  have hbytes : ∀ l : List UInt8, l.length < 2 ^ 20 → loadBytes (executable l) = l :=
    fun l hl => loadBytes_executable (by omega)
  have hpacked : (packed (smallFiles payload)).length =
      512 + (512 + nbytes2sec payload.length * sectorSize) := by
    unfold smallFiles oneTask packed
    rw [List.flatMap_cons, List.flatMap_cons, List.flatMap_singleton, List.length_append,
      List.length_append, length_padded, length_padded, length_padded, hbytes _ (by decide),
      hbytes _ (by decide), hbytes _ hlength]
    rfl
  have hsectors : nbytes2sec payload.length ≤ 2048 := by
    unfold nbytes2sec sectorSize
    split <;> omega
  apply createImage_isSome
  · intro f hf
    rcases List.mem_cons.mp hf with rfl | hf
    · exact readable_executable (by decide)
    · rcases List.mem_cons.mp hf with rfl | hf
      · exact readable_executable (by decide)
      · obtain rfl := List.mem_singleton.mp hf
        exact readable_executable (by omega)
  · exact Nat.le_add_left 3 15
  · rw [hpacked]
    unfold sectorSize
    omega
  · rw [hpacked]
    unfold sectorSize
    omega

/-- Pages that can be allocated after boot. -/
def fivePages : List Ppn := [0x60000, 0x60001, 0x60002, 0x60003, 0x60004]

def fresh : Machine Nat := ⟨{ initial [] with supply := fivePages }, fun _ => zeros⟩

theorem supplied_fresh : Supplied 5 fresh.kernel := by
  refine ⟨by decide, fun x hx => if_neg ?_, le_rfl⟩
  have hpages : fivePages.all (fun x => ¬(x = pgdirPage ∨ x = ioPage)) = true := rfl
  simpa using List.all_eq_true.mp hpages x hx

theorem loadBytes_smallFiles : loadBytes (executable [1]) ≠ [] := by
  rw [loadBytes_executable (by decide)]
  decide

theorem sectors_oneTask (hlength : payload.length < 2 ^ 64) :
    sectors (oneTask payload) = nbytes2sec payload.length := by
  rw [sectors, oneTask, loadBytes_executable hlength]

theorem small_task_loads : ∃ image, createImage (smallFiles [7]) = some image ∧
    findTaskIdxByName (initTaskInfo (listBytes image) (listBytes image)) [0x74] = 0 ∧
      Loads (initTaskInfo (listBytes image) (listBytes image)) (listBytes image) 0 (oneTask [7]) 1
        fresh := by
  obtain ⟨image, himage⟩ := createImage_smallFiles [7] (by decide)
  have hsectors : sectors (oneTask [7]) = 1 := sectors_oneTask (by decide)
  have hsupplied : Supplied (sectors (oneTask [7]) / 8 + 4) fresh.kernel := by
    rw [hsectors]
    exact supplied_fresh.mono
  obtain ⟨hfind, hloads⟩ := packed_task_loads_iff (s := (initial [] : State Nat)) himage
    (Or.inl loadBytes_smallFiles) (i := 0) (f := oneTask [7]) (by decide) (by decide) rfl
  refine ⟨image, himage, hfind, ?_⟩
  apply (hloads (by omega) (.start (start_initial [])) 1 _ _ rfl hsupplied).mpr
  exact Or.inr (by rw [hsectors]; decide)

/-- A task of one full page gets a second page. -/
theorem full_page_not_loads : ∃ image,
    createImage (smallFiles (List.replicate 4096 7)) = some image ∧
    sectors (oneTask (List.replicate 4096 7)) = 8 ∧
      ¬Loads (initTaskInfo (listBytes image) (listBytes image)) (listBytes image) 0
        (oneTask (List.replicate 4096 7)) 1 fresh := by
  have hlength : (List.replicate 4096 (7 : UInt8)).length = 4096 := List.length_replicate
  obtain ⟨image, himage⟩ := createImage_smallFiles (List.replicate 4096 7)
    (by rw [hlength]; decide)
  have hsectors : sectors (oneTask (List.replicate 4096 7)) = 8 := by
    rw [sectors_oneTask (by rw [hlength]; decide), hlength]
    rfl
  have hsupplied : Supplied (sectors (oneTask (List.replicate 4096 7)) / 8 + 4) fresh.kernel := by
    rw [hsectors]
    exact supplied_fresh
  refine ⟨image, himage, hsectors, ?_⟩
  have hsound : Sound (bootMemory []) 257 (fun _ => .unused) none fresh.kernel :=
    Sound.setSupply (sound_initial [] (by decide)) fivePages
  have ht := lists_initTaskInfo himage (Or.inl loadBytes_smallFiles)
  rw [loads_iff ht rfl hsound rfl hsupplied (hsectors.trans_le (by decide)), hsectors]
  decide

end Executables

end LabKernel.ImageLoading
