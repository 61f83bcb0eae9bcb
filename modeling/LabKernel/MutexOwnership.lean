import Mathlib.Data.Finset.Card
import Mathlib.Data.Fintype.Basic
import LabKernel.TransitionSystem
import LabKernel.WaitQueue

/-!
Mutexes and the death of processes (`mutex_lock` in `locks.cpp`,
`Process::kill`).

Every call runs up to its context switch without interruption, so that a call
of `mutex_acquire` has two parts: up to `do_block`, and the assignment of the
owner after the thread has been woken.  A killed process releases the mutexes
it has registered; `release` hands a mutex to the first thread of the queue,
whatever has become of that thread's process.
-/

set_option linter.unusedSectionVars false

namespace LabKernel.MutexOwnership

open LabKernel.TransitionSystem
open LabKernel.WaitQueue

/-- The life of a `mutex_lock`; a destroyed one never comes back, since
`mutex_init` then creates another. -/
inductive Phase
  | unborn
  | live
  | destroyed
  deriving DecidableEq, Repr

inductive Pc (Mutex : Type*)
  | outside
  /-- In `acquire`, from `do_block` on. -/
  | waiting (m : Mutex)
  deriving DecidableEq

structure State (Thread Process Mutex : Type*) where
  phase : Mutex → Phase
  owner : Mutex → Option Thread
  waitQueue : Mutex → List Thread
  /-- The `SpinLock` of the mutex was left locked. -/
  locked : Mutex → Bool
  refCount : Mutex → Nat
  /-- The mutexes among `kernel_objects`. -/
  registered : Process → List Mutex
  isKilled : Process → Bool
  blockCnt : Thread → Int
  pc : Thread → Pc Mutex

inductive Action (Thread Process Mutex : Type*)
  | init (t : Thread) (m : Mutex)
  | acquire (t : Thread) (m : Mutex)
  | resume (t : Thread)
  | release (t : Thread) (m : Mutex) (stray : Process)
  | kill (t : Thread) (p : Process) (stray : Mutex → Process)

variable {Thread Process Mutex : Type*} [DecidableEq Thread] [DecidableEq Process]
  [DecidableEq Mutex] (process : Thread → Process)

/-- The thread can make a call: it has not exited and is not inside one. -/
def Free (s : State Thread Process Mutex) (t : Thread) : Prop :=
  s.isKilled (process t) = false ∧ s.pc t = .outside

instance (s : State Thread Process Mutex) (t : Thread) : Decidable (Free process s t) :=
  inferInstanceAs (Decidable (_ ∧ _))

/-- `mutex_init` for a key whose mutex is `m`. -/
def init (s : State Thread Process Mutex) (p : Process) (m : Mutex) : State Thread Process Mutex :=
  { s with
    phase := Function.update s.phase m .live
    registered := if m ∈ s.registered p then s.registered
      else Function.update s.registered p (s.registered p ++ [m])
    refCount := if m ∈ s.registered p then s.refCount
      else Function.update s.refCount m (s.refCount m + 1) }

/-- `mutex_lock::acquire` up to `do_block` or its return. -/
def acquire (s : State Thread Process Mutex) (t : Thread) (m : Mutex) :
    State Thread Process Mutex :=
  if s.owner m = some t then
    { s with locked := Function.update s.locked m true }
  else if s.owner m ≠ none then
    { s with
      waitQueue := Function.update s.waitQueue m (s.waitQueue m ++ [t])
      blockCnt := block s.blockCnt t
      pc := Function.update s.pc t (.waiting m) }
  else
    { s with owner := Function.update s.owner m (some t) }

/-- `mutex_lock::release`.  When there is no owner, the read of
`owner->process` is undefined and yields `stray`. -/
def release (s : State Thread Process Mutex) (p : Process) (m : Mutex) (stray : Process) :
    State Thread Process Mutex :=
  if (s.owner m).elim stray process ≠ p then s
  else
    let woken := wakeupOne (s.waitQueue m) s.blockCnt
    { s with
      owner := Function.update s.owner m woken.thread
      waitQueue := Function.update s.waitQueue m woken.que
      blockCnt := woken.blockCnt }

/-- `~mutex_lock` with its wait queue. -/
def destroy (s : State Thread Process Mutex) (m : Mutex) : State Thread Process Mutex :=
  { s with
    phase := Function.update s.phase m .destroyed
    waitQueue := Function.update s.waitQueue m []
    blockCnt := (s.waitQueue m).foldl wakeup s.blockCnt }

/-- `mutex_lock::on_process_unregister`; it waits forever for a lock that was
left locked. -/
def onProcessUnregister (s : State Thread Process Mutex) (p : Process) (m : Mutex)
    (stray : Process) : Option (State Thread Process Mutex) :=
  if s.locked m then none
  else
    let released := release process s p m stray
    let counted := { released with
      refCount := Function.update released.refCount m (released.refCount m - 1) }
    some (if counted.refCount m = 0 then destroy counted m else counted)

/-- The loop of `Process::kill` over the registered mutexes. -/
def unregisterAll (p : Process) (stray : Mutex → Process) :
    List Mutex → State Thread Process Mutex → Option (State Thread Process Mutex)
  | [], s => some s
  | m :: rest, s =>
      (onProcessUnregister process s p m (stray m)).bind (unregisterAll p stray rest)

/-- One call, or the rest of a call after the thread was woken. -/
def next (s : State Thread Process Mutex) :
    Action Thread Process Mutex → Option (State Thread Process Mutex)
  | .init t m =>
      if Free process s t ∧ s.phase m ≠ .destroyed then some (init s (process t) m) else none
  | .acquire t m =>
      if Free process s t ∧ s.phase m = .live ∧ s.locked m = false then some (acquire s t m)
      else none
  | .resume t =>
      match s.pc t with
      | .outside => none
      | .waiting m =>
          if s.isKilled (process t) = false ∧ s.blockCnt t = 0 then
            some { s with
              owner := Function.update s.owner m (some t)
              pc := Function.update s.pc t .outside }
          else none
  | .release t m stray =>
      if Free process s t ∧ s.phase m = .live ∧ s.locked m = false then
        some (release process s (process t) m stray)
      else none
  | .kill t p stray =>
      if Free process s t ∧ process t ≠ p ∧ s.isKilled p = false then
        unregisterAll process p stray (s.registered p)
          { s with isKilled := Function.update s.isKilled p true }
      else none

/-- No mutex has been created. -/
structure Start (s : State Thread Process Mutex) : Prop where
  phase : ∀ m, s.phase m = .unborn
  owner : ∀ m, s.owner m = none
  waitQueue : ∀ m, s.waitQueue m = []
  refCount : ∀ m, s.refCount m = 0
  registered : ∀ p, s.registered p = []
  isKilled : ∀ p, s.isKilled p = false
  pc : ∀ t, s.pc t = .outside

def system : System (State Thread Process Mutex) (Action Thread Process Mutex) :=
  ofFunction Start (next process)

/-- No mutex is owned by a thread of a killed process, and a mutex for which a
live thread waits is owned by a live thread. -/
def LiveOwners (s : State Thread Process Mutex) : Prop :=
  ∀ m, s.phase m = .live →
    (∀ o, s.owner m = some o → s.isKilled (process o) = false) ∧
      ∀ t ∈ s.waitQueue m, s.isKilled (process t) = false →
        ∃ o, s.owner m = some o ∧ s.isKilled (process o) = false

/-- A mutex is acquired only by processes that have initialised it, and no
process is killed while one of its threads is in the queue of a mutex. -/
def Orderly (s : State Thread Process Mutex) : Action Thread Process Mutex → Prop
  | .acquire t m => m ∈ s.registered (process t)
  | .kill _ p _ => ∀ m, s.phase m = .live → ∀ t ∈ s.waitQueue m, process t ≠ p
  | _ => True

/-- The invariant, where the calls of `on_process_unregister` in `pending` are
still to be made. -/
structure Sound (s : State Thread Process Mutex) (pending : List (Process × Mutex)) : Prop where
  owner : ∀ m o, s.phase m = .live → s.owner m = some o →
    (s.isKilled (process o) = false ∧ m ∈ s.registered (process o)) ∨ (process o, m) ∈ pending
  queue : ∀ m, ∀ t ∈ s.waitQueue m, s.isKilled (process t) = false ∧
    m ∈ s.registered (process t)
  queue_owner : ∀ m, s.waitQueue m ≠ [] → s.owner m ≠ none
  waiting : ∀ t m, s.pc t = .waiting m → m ∈ s.registered (process t)
  registered_live : ∀ p m, m ∈ s.registered p → s.isKilled p = false → s.phase m = .live
  pending_live : ∀ p m, (p, m) ∈ pending → s.phase m = .live
  unborn : ∀ m, s.phase m = .unborn → s.owner m = none
  nodup : ∀ p, (s.registered p).Nodup
  counts : ∃ users : Mutex → Finset Process,
    (∀ m p, p ∈ users m ↔ m ∈ s.registered p ∧ s.isKilled p = false) ∧
      ∀ m, s.refCount m = (users m).card + (pending.map Prod.snd).count m

variable {process} {s s' : State Thread Process Mutex} {pending : List (Process × Mutex)}
  {p : Process} {m : Mutex} {t : Thread}

theorem Sound.liveOwners (hs : Sound process s []) : LiveOwners process s := by
  intro m hm
  have hlive : ∀ o, s.owner m = some o → s.isKilled (process o) = false := by
    intro o ho
    rcases hs.owner m o hm ho with h | h
    · exact h.1
    · cases h
  refine ⟨hlive, fun t ht _ => ?_⟩
  obtain ⟨o, ho⟩ := Option.ne_none_iff_exists'.mp
    (hs.queue_owner m (List.ne_nil_of_mem ht))
  exact ⟨o, ho, hlive o ho⟩

/-- A release hands the mutex to a live thread that has registered it, or
leaves it free; a mutex without an owner has no waiting thread. -/
theorem Sound.release (hs : Sound process s pending) (p : Process) (m : Mutex) (stray : Process) :
    Sound process (release process s p m stray) pending ∧
      (MutexOwnership.release process s p m stray).phase = s.phase ∧
      (MutexOwnership.release process s p m stray).refCount = s.refCount ∧
      ∀ o, (MutexOwnership.release process s p m stray).owner m = some o →
        (s.isKilled (process o) = false ∧ m ∈ s.registered (process o)) ∨
          (s.owner m = some o ∧ process o ≠ p) := by
  unfold MutexOwnership.release
  split
  · next hother =>
      refine ⟨hs, rfl, rfl, fun o ho => Or.inr ⟨ho, ?_⟩⟩
      rw [ho] at hother
      exact hother
  · next hown =>
      dsimp only
      cases hqueue : s.waitQueue m with
      | nil =>
          have hque : Function.update s.waitQueue m [] = s.waitQueue := by
            rw [← hqueue, Function.update_eq_self]
          simp only [wakeupOne, hque]
          refine ⟨⟨?_, hs.queue, ?_, hs.waiting, hs.registered_live, hs.pending_live, ?_, hs.nodup,
            hs.counts⟩, trivial, trivial, fun o ho => ?_⟩
          · intro m' o hm' ho
            dsimp only at ho
            rcases eq_or_ne m' m with rfl | hne
            · rw [Function.update_self] at ho
              cases ho
            · rw [Function.update_of_ne hne] at ho
              exact hs.owner m' o hm' ho
          · intro m' hm'
            dsimp only at hm' ⊢
            have hne : m' ≠ m := by
              rintro rfl
              exact hm' hqueue
            rw [Function.update_of_ne hne]
            exact hs.queue_owner m' hm'
          · intro m' hm'
            dsimp only
            rcases eq_or_ne m' m with rfl | hne
            · exact Function.update_self ..
            · rw [Function.update_of_ne hne]
              exact hs.unborn m' hm'
          · rw [Function.update_self] at ho
            cases ho
      | cons t rest =>
          have ht := hs.queue m t (hqueue ▸ List.mem_cons_self)
          simp only [wakeupOne]
          refine ⟨⟨?_, ?_, ?_, hs.waiting, hs.registered_live, hs.pending_live, ?_, hs.nodup,
            hs.counts⟩, trivial, trivial, fun o ho => ?_⟩
          · intro m' o hm' ho
            dsimp only at ho
            rcases eq_or_ne m' m with rfl | hne
            · rw [Function.update_self] at ho
              cases ho
              exact Or.inl ht
            · rw [Function.update_of_ne hne] at ho
              exact hs.owner m' o hm' ho
          · intro m' u hu
            dsimp only at hu
            rcases eq_or_ne m' m with rfl | hne
            · rw [Function.update_self] at hu
              exact hs.queue m' u (hqueue ▸ List.mem_cons_of_mem t hu)
            · rw [Function.update_of_ne hne] at hu
              exact hs.queue m' u hu
          · intro m' hm'
            dsimp only at hm' ⊢
            rcases eq_or_ne m' m with rfl | hne
            · rw [Function.update_self]
              exact Option.some_ne_none t
            · rw [Function.update_of_ne hne] at hm' ⊢
              exact hs.queue_owner m' hm'
          · intro m' hm'
            have hne : m' ≠ m := by
              rintro rfl
              have hlive := hs.registered_live _ m' ht.2 ht.1
              rw [hm'] at hlive
              cases hlive
            dsimp only
            rw [Function.update_of_ne hne]
            exact hs.unborn m' hm'
          · rw [Function.update_self] at ho
            cases ho
            exact Or.inl ht

/-- A call of `on_process_unregister` that is still to come is made. -/
theorem Sound.unregister {rest : List (Process × Mutex)} {stray : Process}
    (hs : Sound process s ((p, m) :: rest))
    (hcall : onProcessUnregister process s p m stray = some s') :
    Sound process s' rest := by
  obtain ⟨hreleased, hphase, hcount, howner⟩ := hs.release p m stray
  have hsame : (MutexOwnership.release process s p m stray).isKilled = s.isKilled ∧
      (MutexOwnership.release process s p m stray).registered = s.registered := by
    unfold MutexOwnership.release
    split <;> exact ⟨rfl, rfl⟩
  obtain ⟨users, husers, hcards⟩ := hreleased.counts
  have hm := hs.pending_live p m List.mem_cons_self
  unfold onProcessUnregister at hcall
  split at hcall
  · cases hcall
  · cases hcall
    dsimp only
    generalize hr : MutexOwnership.release process s p m stray = r at *
    have hcounted : Sound process
        { r with refCount := Function.update r.refCount m (r.refCount m - 1) } rest := by
      refine ⟨?_, hreleased.queue, hreleased.queue_owner, hreleased.waiting,
        hreleased.registered_live, ?_, hreleased.unborn, hreleased.nodup, users, husers, ?_⟩
      · intro m' o hm' ho
        rcases hreleased.owner m' o hm' ho with hok | hpending
        · exact Or.inl hok
        · rcases List.mem_cons.mp hpending with heq | hrest
          · obtain ⟨hp, rfl⟩ := Prod.mk.inj heq
            rcases howner o ho with hok | ⟨-, hne⟩
            · rw [← hsame.1, ← hsame.2] at hok
              exact Or.inl hok
            · exact absurd hp hne
          · exact Or.inr hrest
      · exact fun q m' hmem => hreleased.pending_live q m' (List.mem_cons_of_mem _ hmem)
      · intro m'
        dsimp only
        have hcard := hcards m'
        rw [List.map_cons, List.count_cons] at hcard
        rcases eq_or_ne m' m with rfl | hne
        · rw [Function.update_self, hcard]
          simp
        · rw [Function.update_of_ne hne, hcard]
          simp [Ne.symm hne]
    split
    · next hzero =>
        rw [Function.update_self] at hzero
        obtain ⟨users', husers', hcards'⟩ := hcounted.counts
        have hnone := hcards' m
        dsimp only at hnone
        rw [Function.update_self, hzero] at hnone
        have hempty : users' m = ∅ := Finset.card_eq_zero.mp (by omega)
        have hrest : m ∉ rest.map Prod.snd := List.count_eq_zero.mp (by omega)
        have hunused : ∀ q, m ∈ r.registered q → r.isKilled q = false → False := by
          intro q hq hlive
          have hmem := (husers' m q).mpr ⟨hq, hlive⟩
          rw [hempty] at hmem
          cases hmem
        have hqueue : r.waitQueue m = [] := by
          rw [List.eq_nil_iff_forall_not_mem]
          intro t ht
          exact hunused _ (hreleased.queue m t ht).2 (hreleased.queue m t ht).1
        have hkeep : Function.update r.waitQueue m [] = r.waitQueue := by
          rw [← hqueue, Function.update_eq_self]
        refine ⟨?_, ?_, ?_, hcounted.waiting, ?_, ?_, ?_, hcounted.nodup, users', husers',
          hcards'⟩
        · intro m' o hm' ho
          dsimp only [destroy] at hm' ho
          have hne : m' ≠ m := by
            rintro rfl
            rw [Function.update_self] at hm'
            cases hm'
          rw [Function.update_of_ne hne] at hm'
          exact hcounted.owner m' o hm' ho
        · intro m' t ht
          dsimp only [destroy] at ht
          rw [hkeep] at ht
          exact hcounted.queue m' t ht
        · intro m' hm'
          dsimp only [destroy] at hm'
          rw [hkeep] at hm'
          exact hcounted.queue_owner m' hm'
        · intro q m' hmem hlive
          dsimp only [destroy]
          have hne : m' ≠ m := by
            rintro rfl
            exact hunused q hmem hlive
          rw [Function.update_of_ne hne]
          exact hcounted.registered_live q m' hmem hlive
        · intro q m' hmem
          dsimp only [destroy]
          have hne : m' ≠ m := by
            rintro rfl
            exact hrest (List.mem_map_of_mem hmem)
          rw [Function.update_of_ne hne]
          exact hcounted.pending_live q m' hmem
        · intro m' hm'
          dsimp only [destroy] at hm'
          have hne : m' ≠ m := by
            rintro rfl
            rw [Function.update_self] at hm'
            cases hm'
          rw [Function.update_of_ne hne] at hm'
          exact hcounted.unborn m' hm'
    · exact hcounted

theorem Sound.unregisterAll {ms : List Mutex} {stray : Mutex → Process}
    (hs : Sound process s (ms.map (p, ·)))
    (hcall : unregisterAll process p stray ms s = some s') : Sound process s' [] := by
  induction ms generalizing s with
  | nil =>
      cases hcall
      exact hs
  | cons m rest ih =>
      obtain ⟨s₁, hfirst, hrest⟩ := Option.bind_eq_some_iff.mp hcall
      exact ih (hs.unregister hfirst) hrest

theorem Sound.init (hs : Sound process s []) (hp : s.isKilled p = false)
    (hm : s.phase m ≠ .destroyed) : Sound process (init s p m) [] := by
  obtain ⟨users, husers, hcards⟩ := hs.counts
  have hmember : ∀ q m', m' ∈ (MutexOwnership.init s p m).registered q ↔
      m' ∈ s.registered q ∨ (q = p ∧ m' = m) := by
    intro q m'
    dsimp only [MutexOwnership.init]
    split
    · next hmem =>
        constructor
        · exact Or.inl
        · rintro (h | ⟨rfl, rfl⟩)
          · exact h
          · exact hmem
    · rcases eq_or_ne q p with rfl | hne
      · simp
      · simp [hne]
  refine ⟨?_, ?_, hs.queue_owner, ?_, ?_, ?_, ?_, ?_, ?_⟩
  · intro m' o hm' ho
    dsimp only [MutexOwnership.init] at hm'
    rcases eq_or_ne m' m with rfl | hne
    · have hlive : s.phase m' = .live := by
        cases hphase : s.phase m' with
        | unborn =>
            have hnone : s.owner m' = some o := ho
            rw [hs.unborn m' hphase] at hnone
            cases hnone
        | live => rfl
        | destroyed => exact absurd hphase hm
      rcases hs.owner m' o hlive ho with hok | hpending
      · exact Or.inl ⟨hok.1, (hmember _ _).mpr (Or.inl hok.2)⟩
      · cases hpending
    · rw [Function.update_of_ne hne] at hm'
      rcases hs.owner m' o hm' ho with hok | hpending
      · exact Or.inl ⟨hok.1, (hmember _ _).mpr (Or.inl hok.2)⟩
      · cases hpending
  · exact fun m' t ht => ⟨(hs.queue m' t ht).1, (hmember _ _).mpr (Or.inl (hs.queue m' t ht).2)⟩
  · exact fun t m' hpc => (hmember _ _).mpr (Or.inl (hs.waiting t m' hpc))
  · intro q m' hmem hlive
    dsimp only [MutexOwnership.init]
    rcases eq_or_ne m' m with rfl | hne
    · exact Function.update_self ..
    · rw [Function.update_of_ne hne]
      rcases (hmember q m').mp hmem with hold | ⟨-, heq⟩
      · exact hs.registered_live q m' hold hlive
      · exact absurd heq hne
  · intro q m' hmem
    cases hmem
  · intro m' hm'
    dsimp only [MutexOwnership.init] at hm'
    rcases eq_or_ne m' m with rfl | hne
    · rw [Function.update_self] at hm'
      cases hm'
    · rw [Function.update_of_ne hne] at hm'
      exact hs.unborn m' hm'
  · intro q
    dsimp only [MutexOwnership.init]
    split
    · exact hs.nodup q
    · next hnew =>
        rcases eq_or_ne q p with rfl | hne
        · rw [Function.update_self]
          simpa using (hs.nodup q).concat hnew
        · rw [Function.update_of_ne hne]
          exact hs.nodup q
  · refine ⟨fun m' => if m' = m then insert p (users m) else users m', ?_, ?_⟩
    · intro m' q
      rw [hmember]
      change _ ↔ _ ∧ s.isKilled q = false
      dsimp only
      rcases eq_or_ne m' m with rfl | hne
      · rw [if_pos rfl, Finset.mem_insert, husers]
        constructor
        · rintro (rfl | ⟨hmem, hlive⟩)
          · exact ⟨Or.inr ⟨rfl, rfl⟩, hp⟩
          · exact ⟨Or.inl hmem, hlive⟩
        · rintro ⟨hmem | ⟨rfl, -⟩, hlive⟩
          · exact Or.inr ⟨hmem, hlive⟩
          · exact Or.inl rfl
      · rw [if_neg hne, husers]
        simp [hne]
    · intro m'
      have hcard := hcards m'
      dsimp only [MutexOwnership.init]
      split
      · next hmem =>
          rcases eq_or_ne m' m with rfl | hne
          · rw [if_pos rfl, Finset.insert_eq_of_mem ((husers m' p).mpr ⟨hmem, hp⟩)]
            exact hcard
          · rw [if_neg hne]
            exact hcard
      · next hnew =>
          rcases eq_or_ne m' m with rfl | hne
          · have hnot : p ∉ users m' := fun h => hnew ((husers m' p).mp h).1
            rw [if_pos rfl, Finset.card_insert_of_notMem hnot, Function.update_self, hcard]
            simp
          · rw [if_neg hne, Function.update_of_ne hne]
            exact hcard

theorem Sound.acquire (hs : Sound process s []) (hfree : Free process s t)
    (hlive : s.phase m = .live) (hregistered : m ∈ s.registered (process t)) :
    Sound process (acquire s t m) [] := by
  unfold MutexOwnership.acquire
  split_ifs with hown hheld
  · exact ⟨hs.owner, hs.queue, hs.queue_owner, hs.waiting, hs.registered_live, hs.pending_live,
      hs.unborn, hs.nodup, hs.counts⟩
  · refine ⟨hs.owner, ?_, ?_, ?_, hs.registered_live, hs.pending_live, hs.unborn, hs.nodup,
      hs.counts⟩
    · intro m' u hu
      dsimp only at hu
      rcases eq_or_ne m' m with rfl | hne
      · rw [Function.update_self] at hu
        rcases List.mem_append.mp hu with hold | hself
        · exact hs.queue m' u hold
        · rw [List.mem_singleton.mp hself]
          exact ⟨hfree.1, hregistered⟩
      · rw [Function.update_of_ne hne] at hu
        exact hs.queue m' u hu
    · intro m' hm'
      dsimp only at hm'
      rcases eq_or_ne m' m with rfl | hne
      · exact hheld
      · rw [Function.update_of_ne hne] at hm'
        exact hs.queue_owner m' hm'
    · intro u m' hpc
      dsimp only at hpc
      rcases eq_or_ne u t with rfl | hne
      · rw [Function.update_self] at hpc
        cases hpc
        exact hregistered
      · rw [Function.update_of_ne hne] at hpc
        exact hs.waiting u m' hpc
  · refine ⟨?_, hs.queue, ?_, hs.waiting, hs.registered_live, hs.pending_live, ?_, hs.nodup,
      hs.counts⟩
    · intro m' o hm' ho
      dsimp only at ho
      rcases eq_or_ne m' m with rfl | hne
      · rw [Function.update_self] at ho
        cases ho
        exact Or.inl ⟨hfree.1, hregistered⟩
      · rw [Function.update_of_ne hne] at ho
        exact hs.owner m' o hm' ho
    · intro m' hm'
      dsimp only
      rcases eq_or_ne m' m with rfl | hne
      · rw [Function.update_self]
        exact Option.some_ne_none t
      · rw [Function.update_of_ne hne]
        exact hs.queue_owner m' hm'
    · intro m' hm'
      have hne : m' ≠ m := by
        rintro rfl
        rw [hlive] at hm'
        cases hm'
      dsimp only
      rw [Function.update_of_ne hne]
      exact hs.unborn m' hm'

theorem Sound.resume (hs : Sound process s []) (hpc : s.pc t = .waiting m)
    (ht : s.isKilled (process t) = false) :
    Sound process { s with
      owner := Function.update s.owner m (some t)
      pc := Function.update s.pc t .outside } [] := by
  have hregistered := hs.waiting t m hpc
  refine ⟨?_, hs.queue, ?_, ?_, hs.registered_live, hs.pending_live, ?_, hs.nodup, hs.counts⟩
  · intro m' o hm' ho
    dsimp only at ho
    rcases eq_or_ne m' m with rfl | hne
    · rw [Function.update_self] at ho
      cases ho
      exact Or.inl ⟨ht, hregistered⟩
    · rw [Function.update_of_ne hne] at ho
      exact hs.owner m' o hm' ho
  · intro m' hm'
    dsimp only
    rcases eq_or_ne m' m with rfl | hne
    · rw [Function.update_self]
      exact Option.some_ne_none t
    · rw [Function.update_of_ne hne]
      exact hs.queue_owner m' hm'
  · intro u m' hu
    dsimp only at hu
    rcases eq_or_ne u t with rfl | hne
    · rw [Function.update_self] at hu
      cases hu
    · rw [Function.update_of_ne hne] at hu
      exact hs.waiting u m' hu
  · intro m' hm'
    have hne : m' ≠ m := by
      rintro rfl
      have hlive := hs.registered_live _ m' hregistered ht
      rw [hm'] at hlive
      cases hlive
    dsimp only
    rw [Function.update_of_ne hne]
    exact hs.unborn m' hm'

/-- The victim has no thread in a queue, so only what it owns has to be
released. -/
theorem Sound.kill {stray : Mutex → Process} (hs : Sound process s []) (hp : s.isKilled p = false)
    (hqueues : ∀ m, s.phase m = .live → ∀ t ∈ s.waitQueue m, process t ≠ p)
    (hcall : MutexOwnership.unregisterAll process p stray (s.registered p)
      { s with isKilled := Function.update s.isKilled p true } = some s') :
    Sound process s' [] := by
  have hother : ∀ q, q ≠ p → Function.update s.isKilled p true q = s.isKilled q := fun q hne =>
    Function.update_of_ne hne ..
  have hpending : ((s.registered p).map fun m => (p, m)).map Prod.snd = s.registered p := by
    rw [List.map_map]
    exact List.map_id _
  have hmarked : Sound process { s with isKilled := Function.update s.isKilled p true }
      ((s.registered p).map (p, ·)) := by
    obtain ⟨users, husers, hcards⟩ := hs.counts
    refine ⟨?_, ?_, hs.queue_owner, hs.waiting, ?_, ?_, hs.unborn, hs.nodup,
      fun m => (users m).erase p, ?_, ?_⟩
    · intro m o hm ho
      rcases hs.owner m o hm ho with hok | hnil
      · rcases eq_or_ne (process o) p with heq | hne
        · right
          rw [heq] at hok ⊢
          exact List.mem_map_of_mem hok.2
        · exact Or.inl ⟨(hother _ hne).trans hok.1, hok.2⟩
      · cases hnil
    · intro m t ht
      obtain ⟨hlive, hregistered⟩ := hs.queue m t ht
      have hne := hqueues m (hs.registered_live _ m hregistered hlive) t ht
      exact ⟨(hother _ hne).trans hlive, hregistered⟩
    · intro q m hmem hlive
      dsimp only at hlive
      have hne : q ≠ p := by
        rintro rfl
        rw [Function.update_self] at hlive
        cases hlive
      rw [hother q hne] at hlive
      exact hs.registered_live q m hmem hlive
    · intro q m hmem
      obtain ⟨m', hm', heq⟩ := List.mem_map.mp hmem
      cases heq
      exact hs.registered_live p m hm' hp
    · intro m q
      rw [Finset.mem_erase, husers]
      change _ ↔ m ∈ s.registered q ∧ Function.update s.isKilled p true q = false
      rcases eq_or_ne q p with rfl | hne
      · simp
      · simp [hne]
    · intro m
      have hcard := hcards m
      rw [List.map_nil, List.count_nil, Nat.add_zero] at hcard
      rw [hpending]
      change s.refCount m = _
      rw [hcard]
      rcases Classical.em (m ∈ s.registered p) with hmem | hmem
      · rw [List.count_eq_one_of_mem (hs.nodup p) hmem,
          Finset.card_erase_add_one ((husers m p).mpr ⟨hmem, hp⟩)]
      · dsimp only
        rw [List.count_eq_zero_of_not_mem hmem,
          Finset.erase_eq_of_notMem fun h => hmem ((husers m p).mp h).1]
        rfl
  exact hmarked.unregisterAll hcall

theorem sound_step {a : Action Thread Process Mutex} (hs : Sound process s [])
    (hallowed : Orderly process s a) (hstep : next process s a = some s') :
    Sound process s' [] := by
  cases a with
  | init t m =>
      obtain ⟨⟨hfree, hm⟩, ⟨⟩⟩ := Option.ite_none_right_eq_some.mp hstep
      exact hs.init hfree.1 hm
  | acquire t m =>
      obtain ⟨⟨hfree, hm, -⟩, ⟨⟩⟩ := Option.ite_none_right_eq_some.mp hstep
      exact hs.acquire hfree hm hallowed
  | resume t =>
      simp only [next] at hstep
      split at hstep
      · cases hstep
      · next m hpc =>
          obtain ⟨⟨ht, -⟩, ⟨⟩⟩ := Option.ite_none_right_eq_some.mp hstep
          exact hs.resume hpc ht
  | release t m stray =>
      obtain ⟨-, ⟨⟩⟩ := Option.ite_none_right_eq_some.mp hstep
      exact (hs.release (process t) m stray).1
  | kill t p stray =>
      obtain ⟨⟨-, -, hp⟩, hcall⟩ := Option.ite_none_right_eq_some.mp hstep
      exact hs.kill hp hallowed hcall

theorem sound_start (hs : Start s) : Sound process s [] := by
  refine ⟨?_, ?_, ?_, ?_, ?_, ?_, fun m _ => hs.owner m, ?_, fun _ => ∅, ?_, ?_⟩
  · intro m o hm
    rw [hs.phase] at hm
    cases hm
  · intro m t ht
    rw [hs.waitQueue] at ht
    cases ht
  · intro m hm
    exact absurd (hs.waitQueue m) hm
  · intro t m hpc
    rw [hs.pc] at hpc
    cases hpc
  · intro p m hm
    rw [hs.registered] at hm
    cases hm
  · intro p m hm
    cases hm
  · intro p
    rw [hs.registered]
    exact List.nodup_nil
  · intro m p
    rw [hs.registered]
    simp
  · intro m
    rw [hs.refCount]
    rfl

/-- In every orderly run no mutex is owned by a thread of a killed process, and
a mutex for which a live thread waits has a live owner. -/
theorem liveOwners_of_orderly (hs : ReachableUnder (system process) (Orderly process) s) :
    LiveOwners process s := by
  apply Sound.liveOwners
  apply hs.invariant (P := fun s => Sound process s [])
  · exact fun s hstart => sound_start hstart
  · exact fun s a s' hs hallowed hstep => sound_step hs hallowed hstep

instance [Fintype Mutex] : ∀ (s : State Thread Process Mutex) a, Decidable (Orderly process s a)
  | _, .init .. => isTrue trivial
  | s, .acquire t m => inferInstanceAs (Decidable (m ∈ s.registered (process t)))
  | _, .resume .. => isTrue trivial
  | _, .release .. => isTrue trivial
  | s, .kill _ p _ =>
      inferInstanceAs (Decidable (∀ m, s.phase m = .live → ∀ t ∈ s.waitQueue m, process t ≠ p))

def idle : State Nat Nat Unit where
  phase _ := .unborn
  owner _ := none
  waitQueue _ := []
  locked _ := false
  refCount _ := 0
  registered _ := []
  isKilled _ := false
  blockCnt _ := 0
  pc _ := .outside

theorem start_idle : Start idle := by
  constructor <;> intro _ <;> rfl

/-- Three processes initialise the mutex, process 0 acquires it and process 1
waits for it. -/
def contended : List (Action Nat Nat Unit) :=
  [.init 0 (), .init 1 (), .init 2 (), .acquire 0 (), .acquire 1 ()]

/-- The owner is killed: the mutex goes to the waiting process. -/
theorem killed_owner_liveOwners :
    let s := permittedState (Orderly id) (next id) idle (contended ++ [.kill 2 0 fun _ => 0])
    s.isKilled 0 = true ∧ s.owner () = some 1 ∧ LiveOwners id s :=
  ⟨by decide +kernel, by decide +kernel,
    liveOwners_of_orderly (permittedState_reachableUnder start_idle _)⟩

/-- The waiting process is killed, and then the mutex is released: it goes to
the dead thread. -/
theorem killed_waiter_owns :
    ¬ ∀ s : State Nat Nat Unit, Reachable (system id) s → LiveOwners id s := by
  intro hall
  let actions : List (Action Nat Nat Unit) := contended ++ [.kill 2 1 fun _ => 0, .release 0 () 0]
  let s := permittedState (fun _ _ => True) (next id) idle actions
  have howner : s.owner () = some 1 := by decide +kernel
  have hlive := (hall s (permittedState_reachableUnder start_idle actions) ()
    (by decide +kernel)).1 1 howner
  have hkilled : s.isKilled 1 = true := by decide +kernel
  rw [id, hkilled] at hlive
  cases hlive

end LabKernel.MutexOwnership
