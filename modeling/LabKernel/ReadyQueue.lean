import Mathlib.Data.List.Perm.Subperm
import Mathlib.Data.List.Nodup
import Mathlib.Data.Int.Notation

/-!
The ready queue of `schedule.cpp`: the status of a thread and the loop of
`do_scheduler` that picks the next thread to run.

The loop erases an entry whose thread is not ready and then advances the
iterator that `erase` returned, so the entry behind an erased one is passed
over.  Erasing the last entry makes the iterator advance from `end()`; in the
circular list of the C++ library this leads back to the first entry, and the
loop starts over on the shorter list.
-/

namespace LabKernel.ReadyQueue

/-- `Thread::Status`. -/
inductive Status
  | blocked
  | running
  | ready
  | exited
  deriving DecidableEq, Repr

/-- `Thread::status`, from the fields it reads. -/
def status (exited : Bool) (blockCnt : Int) (running : Bool) : Status :=
  if exited then .exited
  else if blockCnt ≠ 0 then .blocked
  else if running then .running
  else .ready

theorem status_eq_ready {exited running : Bool} {blockCnt : Int} :
    status exited blockCnt running = .ready ↔
      exited = false ∧ blockCnt = 0 ∧ running = false := by
  unfold status
  split_ifs with hexited hblocked hrunning
  · simp [hexited]
  · simp [hblocked]
  · simp [hrunning]
  · simp_all

variable {Thread : Type*}

/-- What the scan of the ready queue found, and the queue it leaves. -/
structure Scan (Thread : Type*) where
  next : Option Thread
  queue : List Thread
  deriving DecidableEq

/-- How one walk over the queue ends: with a result, or back at `begin()`. -/
inductive Walk (Thread : Type*)
  | stop (scan : Scan Thread)
  | restart (queue : List Thread)

/-- The loop with the entries before the iterator in `passed` and those from
it on in `rest`. -/
def walk (ready : Thread → Bool) (mask : Thread → Bool) (passed : List Thread) :
    List Thread → Walk Thread
  | [] => .stop ⟨none, passed⟩
  | [t] =>
      if !ready t then .restart passed
      else if !mask t then .stop ⟨none, passed ++ [t]⟩
      else .stop ⟨some t, passed⟩
  | t :: u :: rest =>
      if !ready t then walk ready mask (passed ++ [u]) rest
      else if !mask t then walk ready mask (passed ++ [t]) (u :: rest)
      else .stop ⟨some t, passed ++ u :: rest⟩

/-- The loop, allowed to start over `rounds` times. -/
def scanRounds (ready : Thread → Bool) (mask : Thread → Bool) :
    Nat → List Thread → Scan Thread
  | 0, queue => ⟨none, queue⟩
  | rounds + 1, queue =>
      match walk ready mask [] queue with
      | .stop scan => scan
      | .restart shorter => scanRounds ready mask rounds shorter

/-- The loop of `do_scheduler` over `ready_queue`.  Each time it starts over
the queue is shorter, so that it ends within the rounds. -/
def scan (ready : Thread → Bool) (mask : Thread → Bool) (queue : List Thread) : Scan Thread :=
  scanRounds ready mask (queue.length + 1) queue

/-- What is known of the loop's result on a queue. -/
structure Scanned (ready : Thread → Bool) (mask : Thread → Bool) (queue : List Thread)
    (result : Scan Thread) : Prop where
  kept : ∀ t ∈ queue, ready t → t ∈ result.queue ∨ result.next = some t
  taken : ∀ t, result.next = some t → ready t ∧ mask t
  subperm : (result.next.toList ++ result.queue).Subperm queue

namespace Scanned

variable {ready mask : Thread → Bool} {queue : List Thread} {result : Scan Thread}

theorem queue_subset (h : Scanned ready mask queue result) : result.queue ⊆ queue := fun _ ht =>
  h.subperm.subset (List.mem_append_right _ ht)

theorem next_mem (h : Scanned ready mask queue result) {t : Thread}
    (hnext : result.next = some t) : t ∈ queue := by
  apply h.subperm.subset
  rw [hnext]
  exact List.mem_append_left _ (List.mem_singleton_self t)

theorem nodup (h : Scanned ready mask queue result) (hqueue : queue.Nodup) :
    (result.next.toList ++ result.queue).Nodup := by
  obtain ⟨middle, hperm, hsub⟩ := h.subperm
  exact hperm.nodup_iff.mp (hsub.nodup hqueue)

end Scanned

variable {ready mask : Thread → Bool}

/-- A walk loses only entries that are not ready, whichever way it ends. -/
def Walked (ready mask : Thread → Bool) (queue : List Thread) : Walk Thread → Prop
  | .stop scan => Scanned ready mask queue scan
  | .restart shorter =>
      shorter.length < queue.length ∧ shorter.Sublist queue ∧
        ∀ t ∈ queue, ready t → t ∈ shorter

theorem Walked.drop {passed rest : List Thread} {t : Thread} {w : Walk Thread}
    (ht : ready t = false) (h : Walked ready mask (passed ++ rest) w) :
    Walked ready mask (passed ++ t :: rest) w := by
  have hsub : (passed ++ rest).Sublist (passed ++ t :: rest) :=
    (List.sublist_cons_self t rest).append_left passed
  have hkeep : ∀ u ∈ passed ++ t :: rest, ready u → u ∈ passed ++ rest := by
    intro u hu hready
    rcases List.mem_append.mp hu with hpassed | hrest
    · exact List.mem_append_left _ hpassed
    · rcases List.mem_cons.mp hrest with rfl | hrest
      · simp [ht] at hready
      · exact List.mem_append_right _ hrest
  cases w with
  | stop scan =>
      constructor
      · intro u hu hready
        exact h.kept u (hkeep u hu hready) hready
      · exact h.taken
      · exact h.subperm.trans hsub.subperm
  | restart shorter =>
      refine ⟨?_, h.2.1.trans hsub, fun u hu hready => h.2.2 u (hkeep u hu hready) hready⟩
      have hlength := hsub.length_le
      have hshort := h.1
      omega

theorem walk_walked (ready mask : Thread → Bool) (passed rest : List Thread) :
    Walked ready mask (passed ++ rest) (walk ready mask passed rest) := by
  fun_induction walk ready mask passed rest with
  | case1 passed =>
      refine ⟨fun t ht _ => Or.inl (by simpa using ht), ?_, ?_⟩
      · intro t ht
        cases ht
      · simpa using List.Subperm.refl passed
  | case2 passed t ht =>
      simp only [Bool.not_eq_true'] at ht
      refine ⟨by simp, by simp, ?_⟩
      intro u hu hready
      rcases List.mem_append.mp hu with hpassed | hlast
      · exact hpassed
      · rw [List.mem_singleton.mp hlast, ht] at hready
        cases hready
  | case3 passed t ht hmask =>
      refine ⟨fun u hu _ => Or.inl hu, ?_, ?_⟩
      · intro u hu
        cases hu
      · exact List.Subperm.refl (passed ++ [t])
  | case4 passed t ht hmask =>
      simp only [Bool.not_eq_true', Bool.not_eq_false] at ht hmask
      refine ⟨?_, ?_, ?_⟩
      · intro u hu _
        rcases List.mem_append.mp hu with hpassed | hlast
        · exact Or.inl hpassed
        · exact Or.inr (congrArg some (List.mem_singleton.mp hlast).symm)
      · rintro u hu
        obtain rfl : t = u := Option.some.inj hu
        exact ⟨ht, hmask⟩
      · exact List.perm_append_comm.subperm
  | case5 passed t u rest ht ih =>
      simp only [Bool.not_eq_true'] at ht
      have hsplit : passed ++ [u] ++ rest = passed ++ u :: rest := by simp
      rw [hsplit] at ih
      exact ih.drop ht
  | case6 passed t u rest ht hmask ih =>
      have hsplit : passed ++ [t] ++ u :: rest = passed ++ t :: u :: rest := by simp
      rwa [hsplit] at ih
  | case7 passed t u rest ht hmask =>
      simp only [Bool.not_eq_true', Bool.not_eq_false] at ht hmask
      refine ⟨?_, ?_, ?_⟩
      · intro v hv _
        rcases List.mem_append.mp hv with hpassed | hrest
        · exact Or.inl (List.mem_append_left _ hpassed)
        · rcases List.mem_cons.mp hrest with rfl | hrest
          · exact Or.inr rfl
          · exact Or.inl (List.mem_append_right _ hrest)
      · rintro v hv
        obtain rfl : t = v := Option.some.inj hv
        exact ⟨ht, hmask⟩
      · have hperm : (t :: (passed ++ u :: rest)).Perm (passed ++ t :: u :: rest) :=
          List.perm_middle.symm
        exact hperm.subperm

theorem scanRounds_scanned (rounds : Nat) (queue : List Thread) :
    Scanned ready mask queue (scanRounds ready mask rounds queue) := by
  induction rounds generalizing queue with
  | zero =>
      refine ⟨fun t ht _ => Or.inl ht, ?_, ?_⟩
      · intro t ht
        cases ht
      · exact List.Subperm.refl queue
  | succ rounds ih =>
      have hwalked := walk_walked ready mask [] queue
      rw [List.nil_append] at hwalked
      unfold scanRounds
      split
      · next scan hwalk =>
          rw [hwalk] at hwalked
          exact hwalked
      · next shorter hwalk =>
          rw [hwalk] at hwalked
          obtain ⟨-, hsub, hkeep⟩ := hwalked
          have hscanned := ih shorter
          exact ⟨fun t ht hready => hscanned.kept t (hkeep t ht hready) hready,
            hscanned.taken, hscanned.subperm.trans hsub.subperm⟩

theorem scan_scanned (ready mask : Thread → Bool) (queue : List Thread) :
    Scanned ready mask queue (scan ready mask queue) :=
  scanRounds_scanned _ queue

/-- The entry after an erased one is passed over, here a ready thread. -/
example : scan (fun t => decide (t ≠ 1)) (fun _ => true) [1, 2, 3] = ⟨some 3, [2]⟩ := by
  decide

/-- Erasing the last entry leads back to the first. -/
example : scan (fun t => decide (t ≠ 1 ∧ t ≠ 3)) (fun _ => true) [1, 2, 3] = ⟨some 2, []⟩ := by
  decide

end LabKernel.ReadyQueue
