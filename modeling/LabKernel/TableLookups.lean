import LabKernel.ProcessTermination

/-!
Processes and threads by number (`get_process` and `idle_cleanup` in
`process.cpp`, `get_thread` and `~Thread` in `thread.cpp`).

`idle_cleanup` deletes the processes that were killed, with their threads, and
clears their slots in the tables.  The look-ups read the object behind a slot
without asking whether the slot is clear.
-/

namespace LabKernel.TableLookups

open LabKernel.ProcessLife
open LabKernel.ProcessTermination
open LabKernel.TransitionSystem

/-- The tables, and all processes and threads ever created in the order of
their numbers; a clear slot is `none`. -/
structure State (Thread Process Obj : Type*) where
  life : ProcessLife.State Thread Process Obj
  processTable : List (Option Process)
  threadTable : List (Option Thread)
  tid : Thread → Nat
  processes : List Process
  threads : List Thread
  deletedProcesses : List Process
  deletedThreads : List Thread

variable {Thread Process Obj : Type*} [DecidableEq Thread] [DecidableEq Process]
  [DecidableEq Obj]

/-- What a look-up does. -/
inductive Lookup (α : Type*)
  | found (a : α)
  /-- It returns `nullptr`. -/
  | nothing
  /-- It dereferences a clear slot. -/
  | fault

/-- `get_process`. -/
def getProcess (s : State Thread Process Obj) (pid : Nat) : Lookup Process :=
  match s.processTable[pid]? with
  | none => .nothing
  | some none => .fault
  | some (some p) => if s.life.isKilled p then .nothing else .found p

/-- `get_thread`. -/
def getThread (s : State Thread Process Obj) (tid : Nat) : Lookup Thread :=
  match s.threadTable[tid]? with
  | none => .nothing
  | some none => .fault
  | some (some t) => if s.life.exited t then .nothing else .found t

/-- The process with the number, if it exists and is not killed. -/
def processWithPid (s : State Thread Process Obj) (pid : Nat) : Lookup Process :=
  match s.processes[pid]? with
  | none => .nothing
  | some p => if p ∈ s.deletedProcesses ∨ s.life.isKilled p then .nothing else .found p

/-- The thread with the number, if it exists and has not exited. -/
def threadWithTid (s : State Thread Process Obj) (tid : Nat) : Lookup Thread :=
  match s.threads[tid]? with
  | none => .nothing
  | some t => if t ∈ s.deletedThreads ∨ s.life.exited t then .nothing else .found t

/-- The constructor of `Process` puts it at the end of the table. -/
def addProcess (s : State Thread Process Obj) (p : Process) : State Thread Process Obj :=
  { s with
    processTable := s.processTable ++ [some p]
    processes := s.processes ++ [p] }

/-- The constructor of `Thread`. -/
def addThread (s : State Thread Process Obj) (t : Thread) : State Thread Process Obj :=
  { s with
    tid := Function.update s.tid t s.threadTable.length
    threadTable := s.threadTable ++ [some t]
    threads := s.threads ++ [t] }

/-- `~Thread` with its wait queue. -/
def deleteThread (s : State Thread Process Obj) (t : Thread) : State Thread Process Obj :=
  { s with
    threadTable := s.threadTable.set (s.tid t) none
    deletedThreads := s.deletedThreads ++ [t]
    life := wakeupAll { s.life with
      waitExitedQueue := Function.update s.life.waitExitedQueue t [] }
      (s.life.waitExitedQueue t) }

/-- `~Process` with its wait queue. -/
def deleteProcess (s : State Thread Process Obj) (p : Process) : State Thread Process Obj :=
  let freed := (s.life.threads p).foldl deleteThread s
  { freed with
    deletedProcesses := freed.deletedProcesses ++ [p]
    life := wakeupAll { freed.life with
      waitKillQueue := Function.update freed.life.waitKillQueue p [] }
      (freed.life.waitKillQueue p) }

/-- One round of the loop of `idle_cleanup`.  There is no result when the lock
of the process is held for good or a thread has not exited. -/
def cleanupSlot (s : State Thread Process Obj) (pid : Nat) : Option (State Thread Process Obj) :=
  match s.processTable[pid]? with
  | some (some p) =>
      if s.life.isKilled p then
        if s.life.processOwnLock p ∨ ∃ t ∈ s.life.threads p, s.life.exited t = false then none
        else
          let deleted := deleteProcess s p
          some { deleted with processTable := deleted.processTable.set pid none }
      else some s
  | _ => some s

def cleanupSlots (s : State Thread Process Obj) : List Nat → Option (State Thread Process Obj)
  | [] => some s
  | pid :: rest => (cleanupSlot s pid).bind fun s' => cleanupSlots s' rest

def idleCleanup (s : State Thread Process Obj) : Option (State Thread Process Obj) :=
  cleanupSlots s (List.range s.processTable.length)

inductive Action (Thread Process Obj : Type*)
  | exec (p : Process) (t : Thread)
  | createThread (t : Thread)
  | sysKill (pid : Nat)
  | sysKillThread (tid : Nat)
  /-- A call that names no other process or thread, or the scheduler. -/
  | other (a : ProcessLife.Action Thread Process Obj)
  | idleCleanup

/-- The action creates nothing and looks nothing up. -/
def Plain : ProcessLife.Action Thread Process Obj → Prop
  | .call .sysExit | .call .sysExitThread | .register _ | .unregister _ | .schedule _ => True
  | .call (.sysKill _) | .call (.sysKillThread _) | .exec _ _ | .createThread _ => False

/-- A look-up that dereferences a clear slot has no step. -/
inductive TableStep (idle : Thread) : State Thread Process Obj → Action Thread Process Obj →
    State Thread Process Obj → Prop
  | exec {s : State Thread Process Obj} {p : Process} {t : Thread}
      {life : ProcessLife.State Thread Process Obj} (step : Step idle s.life (.exec p t) life) :
      TableStep idle s (.exec p t) { addThread (addProcess s p) t with life := life }
  | createThread {s : State Thread Process Obj} {t : Thread}
      {life : ProcessLife.State Thread Process Obj}
      (step : Step idle s.life (.createThread t) life) :
      TableStep idle s (.createThread t) { addThread s t with life := life }
  | sysKill {s : State Thread Process Obj} {pid : Nat} {p : Process}
      {life : ProcessLife.State Thread Process Obj} (lookup : getProcess s pid = .found p)
      (step : Step idle s.life (.call (.sysKill p)) life) :
      TableStep idle s (.sysKill pid) { s with life := life }
  | sysKillNothing {s : State Thread Process Obj} {pid : Nat}
      (lookup : getProcess s pid = .nothing) : TableStep idle s (.sysKill pid) s
  | sysKillThread {s : State Thread Process Obj} {tid : Nat} {t : Thread}
      {life : ProcessLife.State Thread Process Obj} (lookup : getThread s tid = .found t)
      (step : Step idle s.life (.call (.sysKillThread t)) life) :
      TableStep idle s (.sysKillThread tid) { s with life := life }
  | sysKillThreadNothing {s : State Thread Process Obj} {tid : Nat}
      (lookup : getThread s tid = .nothing) : TableStep idle s (.sysKillThread tid) s
  | other {s : State Thread Process Obj} {a : ProcessLife.Action Thread Process Obj}
      {life : ProcessLife.State Thread Process Obj} (plain : Plain a)
      (step : Step idle s.life a life) : TableStep idle s (.other a) { s with life := life }
  | idleCleanup {s s' : State Thread Process Obj} (isIdle : s.life.currentThread = idle)
      (cleanup : idleCleanup s = some s') : TableStep idle s .idleCleanup s'

/-- The tables hold the idle process and the idle thread. -/
structure Booted (idle : Thread) (s : State Thread Process Obj) : Prop where
  life : Start idle s.life
  processTable : s.processTable = [some (s.life.process idle)]
  threadTable : s.threadTable = [some idle]
  tid : s.tid idle = 0
  processes : s.processes = [s.life.process idle]
  threads : s.threads = [idle]
  deletedProcesses : s.deletedProcesses = []
  deletedThreads : s.deletedThreads = []

def system (idle : Thread) : System (State Thread Process Obj) (Action Thread Process Obj) where
  start := Booted idle
  step := TableStep idle

/-- `idle_cleanup` has not deleted the process with the number. -/
def ProcessKept (s : State Thread Process Obj) (pid : Nat) : Prop :=
  ∀ p, s.processes[pid]? = some p → p ∉ s.deletedProcesses

/-- It has not deleted the thread with the number. -/
def ThreadKept (s : State Thread Process Obj) (tid : Nat) : Prop :=
  ∀ t, s.threads[tid]? = some t → t ∉ s.deletedThreads

variable {s s' : State Thread Process Obj} {l l' : ProcessLife.State Thread Process Obj}
  {idle : Thread}

/-- The same processes and threads have been created. -/
structure Created (l l' : ProcessLife.State Thread Process Obj) : Prop where
  threads : l'.threadCreated = l.threadCreated
  processes : l'.processCreated = l.processCreated

section

omit [DecidableEq Thread] [DecidableEq Process] [DecidableEq Obj]

theorem Created.refl (l : ProcessLife.State Thread Process Obj) : Created l l := ⟨rfl, rfl⟩

theorem Created.trans {l'' : ProcessLife.State Thread Process Obj} (h : Created l l')
    (h' : Created l' l'') : Created l l'' :=
  ⟨h'.threads.trans h.threads, h'.processes.trans h.processes⟩

theorem andThen_created {o : Outcome (ProcessLife.State Thread Process Obj)}
    {f : ProcessLife.State Thread Process Obj → Outcome (ProcessLife.State Thread Process Obj)}
    (ho : ∀ l₁, o.state = some l₁ → Created l l₁)
    (hf : ∀ l₁ l₂, (f l₁).state = some l₂ → Created l₁ l₂)
    (h : (o.andThen f).state = some l') : Created l l' := by
  cases o with
  | returned l₁ => exact (ho l₁ rfl).trans (hf l₁ l' h)
  | left l₁ => exact ho l' h
  | stuck => cases h

theorem forEach_created {α : Type*}
    {f : ProcessLife.State Thread Process Obj → α →
      Outcome (ProcessLife.State Thread Process Obj)}
    (hf : ∀ l a l', (f l a).state = some l' → Created l l') (as : List α)
    (h : (Outcome.forEach f as l).state = some l') : Created l l' := by
  induction as generalizing l l' with
  | nil =>
      obtain rfl := Option.some.inj h
      exact Created.refl l
  | cons a rest ih => exact andThen_created (hf l a) (fun _ _ => ih) h

end

theorem finishKill_created (l : ProcessLife.State Thread Process Obj) (p : Process) :
    Created l (finishKill l p) := by
  have hreparent : ∀ l : ProcessLife.State Thread Process Obj, Created l (reparentAll l p) := by
    intro l
    unfold reparentAll
    split
    · exact Created.refl l
    · next q _ =>
        obtain ⟨parent, children, hrest⟩ := (foldl_reparent q (l.children p) l).rest
        rw [hrest]
        exact ⟨rfl, rfl⟩
  exact ⟨(hreparent _).threads, (hreparent _).processes⟩

theorem kill_exit_created (depth : Nat) :
    (∀ (l l' : ProcessLife.State Thread Process Obj) p, (kill depth l p).state = some l' →
      Created l l') ∧
      ∀ (l l' : ProcessLife.State Thread Process Obj) t, (exit depth l t).state = some l' →
        Created l l' := by
  induction depth with
  | zero =>
      constructor
      · intro l l' p h
        rw [kill] at h
        cases h
      · intro l l' t h
        rw [exit] at h
        cases h
  | succ depth ih =>
      obtain ⟨hkill, hexit⟩ := ih
      constructor
      · intro l l' p h
        rw [kill] at h
        split at h
        · obtain rfl := Option.some.inj h
          exact Created.refl l
        · split at h
          · cases h
          · have hmarked : Created l (markKilled l p) := by
              obtain ⟨hfixed, -⟩ := wakeupAll_fixed { l with
                processOwnLock := Function.update l.processOwnLock p true
                isKilled := Function.update l.isKilled p true
                waitKillQueue := Function.update l.waitKillQueue p [] } (l.waitKillQueue p)
              exact ⟨hfixed.threadCreated, hfixed.processCreated⟩
            refine andThen_created (fun l₁ hl₁ => hmarked.trans ?_) ?_ h
            · exact forEach_created (fun l t l' => hexit l l' t) _ hl₁
            · intro l₁ l₂ hl₂
              obtain rfl := Option.some.inj hl₂
              exact finishKill_created l₁ p
      · intro l l' t h
        rw [exit] at h
        split at h
        · obtain rfl := Option.some.inj h
          exact Created.refl l
        · have hmarked : Created l (markExited l t) := by
            obtain ⟨hfixed, -⟩ := markExited_fixed l t
            exact ⟨hfixed.threadCreated, hfixed.processCreated⟩
          refine andThen_created (fun l₁ hl₁ => hmarked.trans ?_) ?_ h
          · split at hl₁
            · exact hkill _ _ _ hl₁
            · obtain rfl := Option.some.inj hl₁
              exact Created.refl _
          · intro l₁ l₂ hl₂
            split at hl₂
            · obtain rfl := Option.some.inj hl₂
              exact Created.refl _
            · obtain rfl := Option.some.inj hl₂
              exact Created.refl _

omit [DecidableEq Thread] [DecidableEq Process] [DecidableEq Obj] in
theorem doScheduler_created (h : (doScheduler l).state = some l') : Created l l' := by
  unfold doScheduler at h
  split at h
  · obtain rfl := Option.some.inj h
    exact Created.refl l
  · obtain rfl := Option.some.inj h
    exact Created.refl l

theorem perform_created {c : Call Thread Process} (h : (perform l c).state = some l') :
    Created l l' := by
  obtain ⟨hkill, hexit⟩ := @kill_exit_created Thread Process Obj _ _ _ callDepth
  cases c with
  | sysExit =>
      exact andThen_created (fun l₁ => hkill l l₁ _) (fun _ _ => doScheduler_created) h
  | sysKill p =>
      rw [perform] at h
      split at h
      · obtain rfl := Option.some.inj h
        exact Created.refl l
      · refine andThen_created (fun l₁ => hkill l l₁ _) (fun l₁ l₂ hl₂ => ?_) h
        split at hl₂
        · exact doScheduler_created hl₂
        · obtain rfl := Option.some.inj hl₂
          exact Created.refl _
  | sysExitThread => exact hexit l l' _ h
  | sysKillThread t =>
      rw [perform] at h
      split at h
      · obtain rfl := Option.some.inj h
        exact Created.refl l
      · exact hexit l l' _ h

/-- A slot of a table, from which the deleted objects are cleared. -/
def slot {α : Type*} [DecidableEq α] (deleted : List α) (a : α) : Option α :=
  if a ∈ deleted then none else some a

theorem map_slot_snoc {α : Type*} [DecidableEq α] {deleted created : List α} {a : α}
    (hsub : deleted ⊆ created) (ha : a ∉ created) :
    created.map (slot deleted) ++ [some a] = (created ++ [a]).map (slot deleted) := by
  have hnot : a ∉ deleted := fun h => ha (hsub h)
  simp [slot, hnot]

theorem map_slot_set {α : Type*} [DecidableEq α] {deleted created : List α} {a : α} {i : Nat}
    (hnodup : created.Nodup) (hi : created[i]? = some a) :
    (created.map (slot deleted)).set i none = created.map (slot (deleted ++ [a])) := by
  refine List.ext_getElem? fun j => ?_
  rw [List.getElem?_set, List.getElem?_map, List.getElem?_map]
  obtain ⟨hlt, hget⟩ := List.getElem?_eq_some_iff.mp hi
  rcases eq_or_ne i j with rfl | hne
  · simp only [if_pos hlt, if_true, List.length_map, hi, Option.map_some, slot, List.mem_append,
      List.mem_singleton, or_true]
  · rw [if_neg hne]
    cases hj : created[j]? with
    | none => rfl
    | some b =>
        have hab : b ≠ a := by
          rintro rfl
          exact hne (hnodup.getElem_inj_iff.mp
            (hget.trans (List.getElem?_eq_some_iff.mp hj).2.symm))
        simp [slot, hab]

/-- The tables hold what was created and not deleted. -/
structure Recorded (s : State Thread Process Obj) : Prop where
  life : ProcessTermination.Inv s.life
  processTable : s.processTable = s.processes.map (slot s.deletedProcesses)
  threadTable : s.threadTable = s.threads.map (slot s.deletedThreads)
  processes_nodup : s.processes.Nodup
  threads_nodup : s.threads.Nodup
  processes_created : ∀ p ∈ s.processes, s.life.processCreated p = true
  threads_created : ∀ t ∈ s.threads, s.life.threadCreated t = true
  tid : ∀ t, s.life.threadCreated t = true → s.threads[s.tid t]? = some t
  deletedProcesses : s.deletedProcesses ⊆ s.processes
  deletedThreads : s.deletedThreads ⊆ s.threads

omit [DecidableEq Obj] in
theorem Recorded.of_created (h : Recorded s) (hinv : ProcessTermination.Inv l)
    (hcreated : Created s.life l) : Recorded { s with life := l } := by
  refine ⟨hinv, h.processTable, h.threadTable, h.processes_nodup, h.threads_nodup, ?_, ?_, ?_,
    h.deletedProcesses, h.deletedThreads⟩
  · intro p hp
    exact (congrFun hcreated.processes p).trans (h.processes_created p hp)
  · intro t ht
    exact (congrFun hcreated.threads t).trans (h.threads_created t ht)
  · intro t ht
    exact h.tid t ((congrFun hcreated.threads t).symm.trans ht)

theorem inv_wakeupAll (h : ProcessTermination.Inv l) (que : List Thread) :
    ProcessTermination.Inv (wakeupAll l que) ∧ Fixed l (wakeupAll l que) ∧
      (wakeupAll l que).exited = l.exited := by
  obtain ⟨hfixed, hexited, hactive⟩ := wakeupAll_fixed l que
  refine ⟨h.of_fixed hfixed ⟨?_, ?_, ?_⟩, hfixed, hexited⟩
  · rw [hfixed.threads]
    exact h.nodup
  · rw [hfixed.threads, hfixed.threadCreated, hfixed.process]
    exact h.mem_threads
  · rw [hfixed.threads, hexited, hactive]
    exact h.active

theorem Recorded.deleteThread (h : Recorded s) {t : Thread} (ht : s.life.threadCreated t = true) :
    Recorded (deleteThread s t) ∧ Fixed s.life (deleteThread s t).life ∧
      (TableLookups.deleteThread s t).processTable = s.processTable ∧
      (TableLookups.deleteThread s t).processes = s.processes ∧
      (TableLookups.deleteThread s t).deletedProcesses = s.deletedProcesses := by
  have hemptied : ProcessTermination.Inv { s.life with
      waitExitedQueue := Function.update s.life.waitExitedQueue t [] } := by
    have hinv := h.life
    exact ⟨⟨hinv.nodup, hinv.mem_threads, hinv.active⟩, hinv.lock_killed, hinv.objects_nodup,
      hinv.children, hinv.children_created, hinv.children_parent, hinv.ranked,
      hinv.parent_created, hinv.thread_process, hinv.current_created⟩
  obtain ⟨hinv, hfixed, -⟩ := inv_wakeupAll hemptied (s.life.waitExitedQueue t)
  have hfixed' : Fixed s.life (TableLookups.deleteThread s t).life :=
    ⟨hfixed.process, hfixed.current, hfixed.threads, hfixed.isKilled, hfixed.lock, hfixed.parent,
      hfixed.children, hfixed.objects, hfixed.unregistered, hfixed.threadCreated,
      hfixed.processCreated⟩
  refine ⟨?_, hfixed', rfl, rfl, rfl⟩
  refine ⟨hinv, h.processTable, ?_, h.processes_nodup, h.threads_nodup, ?_, ?_, ?_,
    h.deletedProcesses, ?_⟩
  · change s.threadTable.set (s.tid t) none = _
    rw [h.threadTable]
    exact map_slot_set h.threads_nodup (h.tid t ht)
  · rw [hfixed'.processCreated]
    exact h.processes_created
  · rw [hfixed'.threadCreated]
    exact h.threads_created
  · rw [hfixed'.threadCreated]
    exact h.tid
  · exact List.append_subset.mpr ⟨h.deletedThreads,
      List.cons_subset.mpr ⟨List.mem_of_getElem? (h.tid t ht), List.nil_subset _⟩⟩

theorem Recorded.deleteThreads (h : Recorded s) {ts : List Thread}
    (hts : ∀ t ∈ ts, s.life.threadCreated t = true) :
    Recorded (ts.foldl TableLookups.deleteThread s) ∧
      Fixed s.life (ts.foldl TableLookups.deleteThread s).life ∧
      (ts.foldl TableLookups.deleteThread s).processTable = s.processTable ∧
      (ts.foldl TableLookups.deleteThread s).processes = s.processes ∧
      (ts.foldl TableLookups.deleteThread s).deletedProcesses = s.deletedProcesses := by
  induction ts generalizing s with
  | nil => exact ⟨h, Fixed.refl _, rfl, rfl, rfl⟩
  | cons t rest ih =>
      obtain ⟨hone, hfixed, htable, hprocesses, hdeleted⟩ :=
        h.deleteThread (hts t List.mem_cons_self)
      have hrest : ∀ u ∈ rest, (TableLookups.deleteThread s t).life.threadCreated u = true := by
        intro u hu
        rw [hfixed.threadCreated]
        exact hts u (List.mem_cons_of_mem t hu)
      obtain ⟨hall, hfixed', htable', hprocesses', hdeleted'⟩ := ih hone hrest
      exact ⟨hall, hfixed.trans hfixed', htable'.trans htable, hprocesses'.trans hprocesses,
        hdeleted'.trans hdeleted⟩

/-- The process behind a slot is deleted and the slot cleared. -/
theorem Recorded.deleteProcess (h : Recorded s) {pid : Nat} {p : Process}
    (hpid : s.processes[pid]? = some p) :
    Recorded { deleteProcess s p with
      processTable := (deleteProcess s p).processTable.set pid none } := by
  have hthreads : ∀ t ∈ s.life.threads p, s.life.threadCreated t = true := fun t ht =>
    ((h.life.mem_threads p t).mp ht).1
  obtain ⟨hfreed, hfixed, htable, hprocesses, hdeleted⟩ := h.deleteThreads hthreads
  have hemptied : ProcessTermination.Inv
      { ((s.life.threads p).foldl TableLookups.deleteThread s).life with
        waitKillQueue := Function.update
          ((s.life.threads p).foldl TableLookups.deleteThread s).life.waitKillQueue p [] } := by
    have hinv := hfreed.life
    exact ⟨⟨hinv.nodup, hinv.mem_threads, hinv.active⟩, hinv.lock_killed, hinv.objects_nodup,
      hinv.children, hinv.children_created, hinv.children_parent, hinv.ranked,
      hinv.parent_created, hinv.thread_process, hinv.current_created⟩
  obtain ⟨hinv, hwoken, -⟩ := inv_wakeupAll hemptied
    (((s.life.threads p).foldl TableLookups.deleteThread s).life.waitKillQueue p)
  have hkept := hfreed.of_created hinv ⟨hwoken.threadCreated, hwoken.processCreated⟩
  refine ⟨hinv, ?_, hkept.threadTable, hkept.processes_nodup, hkept.threads_nodup,
    hkept.processes_created, hkept.threads_created, hkept.tid, ?_, hkept.deletedThreads⟩
  · change ((s.life.threads p).foldl TableLookups.deleteThread s).processTable.set pid none =
      ((s.life.threads p).foldl TableLookups.deleteThread s).processes.map
        (slot (((s.life.threads p).foldl TableLookups.deleteThread s).deletedProcesses ++ [p]))
    rw [htable, hprocesses, hdeleted, h.processTable]
    exact map_slot_set h.processes_nodup hpid
  · refine List.append_subset.mpr ⟨hkept.deletedProcesses, List.cons_subset.mpr ⟨?_,
      List.nil_subset _⟩⟩
    change p ∈ ((s.life.threads p).foldl TableLookups.deleteThread s).processes
    rw [hprocesses]
    exact List.mem_of_getElem? hpid

omit [DecidableEq Obj] in
theorem Recorded.processes_getElem? (h : Recorded s) {pid : Nat} {p : Process}
    (hp : s.processTable[pid]? = some (some p)) : s.processes[pid]? = some p := by
  rw [h.processTable, List.getElem?_map, Option.map_eq_some_iff] at hp
  obtain ⟨q, hq, hslot⟩ := hp
  unfold slot at hslot
  split at hslot
  · cases hslot
  · rw [hq, hslot]

theorem Recorded.cleanupSlot (h : Recorded s) {pid : Nat}
    (hslot : cleanupSlot s pid = some s') : Recorded s' := by
  unfold TableLookups.cleanupSlot at hslot
  split at hslot
  · next p hp =>
      split at hslot
      · split at hslot
        · cases hslot
        · obtain rfl := Option.some.inj hslot
          exact h.deleteProcess (h.processes_getElem? hp)
      · obtain rfl := Option.some.inj hslot
        exact h
  · obtain rfl := Option.some.inj hslot
    exact h

theorem Recorded.cleanupSlots (h : Recorded s) {pids : List Nat}
    (hslots : cleanupSlots s pids = some s') : Recorded s' := by
  induction pids generalizing s with
  | nil =>
      obtain rfl := Option.some.inj hslots
      exact h
  | cons pid rest ih =>
      obtain ⟨middle, hslot, hrest⟩ := Option.bind_eq_some_iff.mp hslots
      exact ih (h.cleanupSlot hslot) hrest

omit [DecidableEq Obj] in
theorem Recorded.addProcess (h : Recorded s) {p : Process}
    (hp : s.life.processCreated p = false) (hinv : ProcessTermination.Inv l)
    (hthreads : l.threadCreated = s.life.threadCreated)
    (hprocesses : l.processCreated = Function.update s.life.processCreated p true) :
    Recorded { addProcess s p with life := l } := by
  have hnew : p ∉ s.processes := by
    intro hmem
    rw [h.processes_created p hmem] at hp
    cases hp
  refine ⟨hinv, ?_, h.threadTable, ?_, h.threads_nodup, ?_, ?_, ?_, ?_, h.deletedThreads⟩
  · change s.processTable ++ [some p] = _
    rw [h.processTable]
    exact map_slot_snoc h.deletedProcesses hnew
  · change (s.processes ++ [p]).Nodup
    rw [← List.concat_eq_append]
    exact h.processes_nodup.concat hnew
  · intro q hq
    change l.processCreated q = true
    rw [hprocesses]
    rcases eq_or_ne q p with rfl | hne
    · exact Function.update_self ..
    · rw [Function.update_of_ne hne]
      refine h.processes_created q ?_
      exact (List.mem_append.mp hq).resolve_right fun hlast => hne (List.mem_singleton.mp hlast)
  · intro t ht
    exact (congrFun hthreads t).trans (h.threads_created t ht)
  · intro t ht
    exact h.tid t ((congrFun hthreads t).symm.trans ht)
  · exact fun q hq => List.mem_append_left _ (h.deletedProcesses hq)

omit [DecidableEq Obj] in
theorem Recorded.addThread (h : Recorded s) {t : Thread} (ht : s.life.threadCreated t = false)
    (hinv : ProcessTermination.Inv l)
    (hthreads : l.threadCreated = Function.update s.life.threadCreated t true)
    (hprocesses : ∀ p ∈ s.processes, l.processCreated p = true) :
    Recorded { addThread s t with life := l } := by
  have hnew : t ∉ s.threads := by
    intro hmem
    rw [h.threads_created t hmem] at ht
    cases ht
  have hlength : s.threadTable.length = s.threads.length := by rw [h.threadTable, List.length_map]
  refine ⟨hinv, h.processTable, ?_, h.processes_nodup, ?_, hprocesses, ?_, ?_,
    h.deletedProcesses, ?_⟩
  · change s.threadTable ++ [some t] = _
    rw [h.threadTable]
    exact map_slot_snoc h.deletedThreads hnew
  · change (s.threads ++ [t]).Nodup
    rw [← List.concat_eq_append]
    exact h.threads_nodup.concat hnew
  · intro u hu
    change l.threadCreated u = true
    rw [hthreads]
    rcases eq_or_ne u t with rfl | hne
    · exact Function.update_self ..
    · rw [Function.update_of_ne hne]
      refine h.threads_created u ?_
      exact (List.mem_append.mp hu).resolve_right fun hlast => hne (List.mem_singleton.mp hlast)
  · intro u hu
    change l.threadCreated u = true at hu
    change (s.threads ++ [t])[Function.update s.tid t s.threadTable.length u]? = some u
    rcases eq_or_ne u t with rfl | hne
    · rw [Function.update_self, hlength, getElem?_snoc]
      exact Or.inr ⟨rfl, rfl⟩
    · rw [hthreads, Function.update_of_ne hne] at hu
      rw [Function.update_of_ne hne, getElem?_snoc]
      exact Or.inl (h.tid u hu)
  · exact fun u hu => List.mem_append_left _ (h.deletedThreads hu)

theorem Recorded.step {a : Action Thread Process Obj} (h : Recorded s)
    (hstep : TableStep idle s a s') : Recorded s' := by
  cases hstep with
  | @exec p t life step =>
      have hinv := inv_step h.life step
      cases step with
      | exec running free newProcess newThread =>
          have hparent := h.life.thread_process _ h.life.current_created
          have hadded := h.addProcess newProcess (createProcess_inv h.life hparent newProcess)
            rfl rfl
          exact hadded.addThread newThread hinv rfl hadded.processes_created
  | @createThread t life step =>
      have hinv := inv_step h.life step
      cases step with
      | createThread running free newThread =>
          exact h.addThread newThread hinv rfl h.processes_created
  | sysKill lookup step =>
      have hinv := inv_step h.life step
      cases step with
      | call running target victim ends => exact h.of_created hinv (perform_created ends)
  | sysKillNothing lookup => exact h
  | sysKillThread lookup step =>
      have hinv := inv_step h.life step
      cases step with
      | call running target victim ends => exact h.of_created hinv (perform_created ends)
  | sysKillThreadNothing lookup => exact h
  | other plain step =>
      have hinv := inv_step h.life step
      cases step with
      | call running target victim ends => exact h.of_created hinv (perform_created ends)
      | exec running free newProcess newThread => cases plain
      | createThread running free newThread => cases plain
      | register new => exact h.of_created hinv ⟨rfl, rfl⟩
      | unregister => exact h.of_created hinv ⟨rfl, rfl⟩
      | schedule created ready => exact h.of_created hinv ⟨rfl, rfl⟩
  | idleCleanup isIdle cleanup => exact h.cleanupSlots cleanup

theorem recorded_booted (h : Booted idle s) : Recorded s := by
  refine ⟨inv_start h.life, ?_, ?_, ?_, ?_, ?_, ?_, ?_, ?_, ?_⟩
  · rw [h.processTable, h.processes, h.deletedProcesses]
    rfl
  · rw [h.threadTable, h.threads, h.deletedThreads]
    rfl
  · rw [h.processes]
    exact List.nodup_singleton _
  · rw [h.threads]
    exact List.nodup_singleton _
  · intro p hp
    rw [h.processes, List.mem_singleton] at hp
    exact (h.life.process p).mpr hp
  · intro t ht
    rw [h.threads, List.mem_singleton] at ht
    exact (h.life.thread t).mpr ht
  · intro t ht
    obtain rfl := (h.life.thread t).mp ht
    rw [h.threads, h.tid]
    rfl
  · rw [h.deletedProcesses]
    exact List.nil_subset _
  · rw [h.deletedThreads]
    exact List.nil_subset _

omit [DecidableEq Obj] in
theorem Recorded.getProcess_eq_iff (h : Recorded s) (pid : Nat) :
    getProcess s pid = processWithPid s pid ↔ ProcessKept s pid := by
  unfold getProcess processWithPid ProcessKept
  rw [h.processTable, List.getElem?_map]
  cases hpid : s.processes[pid]? with
  | none => simp
  | some p =>
      by_cases hp : p ∈ s.deletedProcesses
      · simp [slot, hp]
      · simp [slot, hp]

omit [DecidableEq Obj] in
theorem Recorded.getThread_eq_iff (h : Recorded s) (tid : Nat) :
    getThread s tid = threadWithTid s tid ↔ ThreadKept s tid := by
  unfold getThread threadWithTid ThreadKept
  rw [h.threadTable, List.getElem?_map]
  cases htid : s.threads[tid]? with
  | none => simp
  | some t =>
      by_cases ht : t ∈ s.deletedThreads
      · simp [slot, ht]
      · simp [slot, ht]

/-- A look-up is right if and only if `idle_cleanup` has not deleted what it
looks for. -/
theorem lookups_iff_kept (h : Reachable (system idle) s) (pid tid : Nat) :
    (getProcess s pid = processWithPid s pid ↔ ProcessKept s pid) ∧
      (getThread s tid = threadWithTid s tid ↔ ThreadKept s tid) := by
  have hrecorded : Recorded s := by
    refine h.invariant (P := Recorded) ?_ fun _ _ _ hs _ hstep => hs.step hstep
    exact fun s hs => recorded_booted hs
  exact ⟨hrecorded.getProcess_eq_iff pid, hrecorded.getThread_eq_iff tid⟩

/-- Only process 0 with its idle thread 0 exists. -/
def bootedTables : State Nat Nat Nat where
  life := booted
  processTable := [some 0]
  threadTable := [some 0]
  tid _ := 0
  processes := [0]
  threads := [0]
  deletedProcesses := []
  deletedThreads := []

theorem bootedTables_booted : Booted 0 bootedTables :=
  ⟨booted_start, rfl, rfl, rfl, rfl, rfl, rfl, rfl⟩

/-- Process 1 runs, its thread has the number 1. -/
def oneProcess : State Nat Nat Nat :=
  { addThread (addProcess bootedTables 1) 1 with life := started booted 1 }

theorem oneProcess_reachable : Reachable (system 0) oneProcess :=
  ReachableUnder.step (ReachableUnder.start bootedTables_booted) trivial
    (TableStep.exec (Step.exec (by decide) (by decide) (by decide) (by decide)))

theorem oneProcess_lookups :
    getProcess oneProcess 1 = .found 1 ∧ getThread oneProcess 2 = .nothing ∧
      (getProcess oneProcess 1 = processWithPid oneProcess 1 ↔ ProcessKept oneProcess 1) ∧
      (getThread oneProcess 2 = threadWithTid oneProcess 2 ↔ ThreadKept oneProcess 2) :=
  ⟨rfl, rfl, lookups_iff_kept oneProcess_reachable 1 2⟩

def runningProcess : State Nat Nat Nat :=
  { oneProcess with life := { oneProcess.life with currentThread := 1 } }

/-- The only thread of process 1 exits. -/
def exitedLife : ProcessLife.State Nat Nat Nat :=
  ((perform runningProcess.life .sysExitThread).state).getD runningProcess.life

/-- The idle thread runs again. -/
def exitedProcess : State Nat Nat Nat :=
  { runningProcess with life := { exitedLife with currentThread := 0 } }

theorem exitedProcess_reachable : Reachable (system 0) exitedProcess := by
  have hschedule : TableStep 0 oneProcess (.other (.schedule 1)) runningProcess :=
    TableStep.other (a := .schedule 1) trivial (Step.schedule (by decide) (Or.inr (by decide)))
  have hexit : TableStep 0 runningProcess (.other (.call .sysExitThread))
      { runningProcess with life := exitedLife } :=
    TableStep.other (a := .call .sysExitThread) trivial (Step.call (by decide) nofun nofun rfl)
  have hback : TableStep 0 { runningProcess with life := exitedLife } (.other (.schedule 0))
      exitedProcess :=
    TableStep.other (a := .schedule 0) trivial (Step.schedule (by decide) (Or.inl rfl))
  have hruns := ReachableUnder.step oneProcess_reachable trivial hschedule
  exact ReachableUnder.step (ReachableUnder.step hruns trivial hexit) trivial hback

/-- The slots of process 1 and of its thread are cleared, and `get_process(1)`
dereferences a null pointer. -/
theorem lookup_of_deleted_faults :
    ¬ ∀ s : State Nat Nat Nat, Reachable (system 0) s → ∀ pid tid,
      getProcess s pid = processWithPid s pid ∧ getThread s tid = threadWithTid s tid := by
  intro hall
  have htable : (idleCleanup exitedProcess).map (fun s => s.processTable) =
      some [some 0, none] := by decide
  have hprocesses : (idleCleanup exitedProcess).map (fun s => s.processes) = some [0, 1] := by
    decide
  obtain ⟨s, hcleanup, hs⟩ := Option.map_eq_some_iff.mp htable
  have hreach : Reachable (system 0) s :=
    ReachableUnder.step (a := .idleCleanup) exitedProcess_reachable trivial
      (TableStep.idleCleanup rfl hcleanup)
  have hfault : getProcess s 1 = .fault := by
    rw [getProcess, hs]
    rfl
  rw [hcleanup, Option.map_some, Option.some.injEq] at hprocesses
  rw [(hall s hreach 1 1).1, processWithPid, hprocesses] at hfault
  change (if _ then Lookup.nothing else Lookup.found 1) = _ at hfault
  split at hfault
  · cases hfault
  · cases hfault

end LabKernel.TableLookups
