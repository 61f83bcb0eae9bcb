import LabKernel.MutexOwnership

/-!
How the calls on a mutex end (`mutex_lock` in `locks.cpp`, `Process::kill`).

On one hart a call runs without interruption up to `do_block`.  It returns,
blocks, spins forever on a `SpinLock` that nobody will release, or reads the
process of an owner that is not there.
-/

namespace LabKernel.MutexCalls

open LabKernel.MutexOwnership
open LabKernel.TransitionSystem
open LabKernel.WaitQueue

/-- How a call ends. -/
inductive Outcome (σ : Type*)
  | returns (s : σ)
  | blocks (s : σ)
  | spins
  | nullOwner

/-- The rest of a call, if the first part returned. -/
def Outcome.bind {σ : Type*} (o : Outcome σ) (f : σ → Outcome σ) : Outcome σ :=
  match o with
  | .returns s => f s
  | .blocks s => .blocks s
  | .spins => .spins
  | .nullOwner => .nullOwner

/-- The call returns or blocks, in a state with the property. -/
def Outcome.Ends {σ : Type*} (o : Outcome σ) (P : σ → Prop) : Prop :=
  match o with
  | .returns s | .blocks s => P s
  | .spins | .nullOwner => False

theorem Outcome.Ends.mono {σ : Type*} {o : Outcome σ} {P Q : σ → Prop} (h : o.Ends P)
    (hPQ : ∀ s, P s → Q s) : o.Ends Q := by
  cases o with
  | returns s => exact hPQ s h
  | blocks s => exact hPQ s h
  | spins => exact h
  | nullOwner => exact h

inductive Call (Thread Process Mutex : Type*)
  | mutexInit (t : Thread) (m : Mutex)
  | mutexAcquire (t : Thread) (m : Mutex)
  /-- The rest of `mutex_acquire` after the thread was woken. -/
  | resume (t : Thread)
  | mutexRelease (t : Thread) (m : Mutex)
  /-- `Process::kill` by a thread of another process, or by the last thread of
  the process when it exits. -/
  | kill (t : Thread) (p : Process)
  /-- `Process::kill` by a thread of the process that has not exited.  The loop
  over the threads reaches it and it enters the scheduler for good. -/
  | killSelf (t : Thread)

variable {Thread Process Mutex : Type*} [DecidableEq Thread] [DecidableEq Process]
  [DecidableEq Mutex] (process : Thread → Process)

/-- `mutex_acquire`; the pool has no mutex under the handle of a destroyed one. -/
def mutexAcquire (s : State Thread Process Mutex) (t : Thread) (m : Mutex) :
    Outcome (State Thread Process Mutex) :=
  if s.phase m ≠ .live then .returns s
  else if s.locked m then .spins
  else if s.owner m = some t ∨ s.owner m = none then .returns (acquire s t m)
  else .blocks (acquire s t m)

/-- `mutex_lock::release`. -/
def releaseLock (s : State Thread Process Mutex) (p : Process) (m : Mutex) :
    Outcome (State Thread Process Mutex) :=
  if s.locked m then .spins
  else if s.owner m = none then .nullOwner
  else .returns (release process s p m p)

def mutexRelease (s : State Thread Process Mutex) (t : Thread) (m : Mutex) :
    Outcome (State Thread Process Mutex) :=
  if s.phase m ≠ .live then .returns s else releaseLock process s (process t) m

/-- `KernelObject::on_process_unregister`. -/
def dropReference (s : State Thread Process Mutex) (m : Mutex) : State Thread Process Mutex :=
  let counted := { s with refCount := Function.update s.refCount m (s.refCount m - 1) }
  if counted.refCount m = 0 then destroy counted m else counted

/-- `mutex_lock::on_process_unregister`. -/
def unregister (s : State Thread Process Mutex) (p : Process) (m : Mutex) :
    Outcome (State Thread Process Mutex) :=
  (releaseLock process s p m).bind fun released => .returns (dropReference released m)

/-- The loop of `Process::kill` over the registered mutexes. -/
def unregisterEach (p : Process) : List Mutex → State Thread Process Mutex →
    Outcome (State Thread Process Mutex)
  | [], s => .returns s
  | m :: rest, s => (unregister process s p m).bind (unregisterEach p rest)

def markKilled (s : State Thread Process Mutex) (p : Process) : State Thread Process Mutex :=
  { s with isKilled := Function.update s.isKilled p true }

def call (s : State Thread Process Mutex) : Call Thread Process Mutex →
    Outcome (State Thread Process Mutex)
  | .mutexInit t m => .returns (init s (process t) m)
  | .mutexAcquire t m => mutexAcquire s t m
  | .resume t =>
      match s.pc t with
      | .outside => .returns s
      | .waiting m =>
          .returns { s with
            owner := Function.update s.owner m (some t)
            pc := Function.update s.pc t .outside }
  | .mutexRelease t m => mutexRelease process s t m
  | .kill _ p => unregisterEach process p (s.registered p) (markKilled s p)
  | .killSelf t => .returns (markKilled s (process t))

/-- The call can be made. -/
def Enabled (s : State Thread Process Mutex) : Call Thread Process Mutex → Prop
  | .mutexInit t m => Free process s t ∧ s.phase m ≠ .destroyed
  | .mutexAcquire t _ | .mutexRelease t _ | .killSelf t => Free process s t
  | .resume t => s.pc t ≠ .outside ∧ s.isKilled (process t) = false ∧ s.blockCnt t = 0
  | .kill t p => Free process s t ∧ s.isKilled p = false

instance (s : State Thread Process Mutex) (a : Call Thread Process Mutex) :
    Decidable (Enabled process s a) :=
  match a with
  | .mutexInit _ _ | .kill _ _ => inferInstanceAs (Decidable (_ ∧ _))
  | .mutexAcquire _ _ | .mutexRelease _ _ | .killSelf _ =>
      inferInstanceAs (Decidable (Free _ _ _))
  | .resume _ => inferInstanceAs (Decidable (_ ∧ _ ∧ _))

def next (s : State Thread Process Mutex) (a : Call Thread Process Mutex) :
    Option (State Thread Process Mutex) :=
  if Enabled process s a then
    match call process s a with
    | .returns s' | .blocks s' => some s'
    | .spins | .nullOwner => none
  else none

/-- No mutex has been created, and no `SpinLock` is locked. -/
def system : System (State Thread Process Mutex) (Call Thread Process Mutex) :=
  ofFunction (fun s => Start s ∧ ∀ m, s.locked m = false) (next process)

/-- A mutex that belongs to another process keeps its owner and its queue. -/
def KeepsOthers (s s' : State Thread Process Mutex) (p : Process) (m : Mutex) : Prop :=
  ∀ o, s.owner m = some o → process o ≠ p →
    s'.phase m = .destroyed ∨ s'.owner m = s.owner m ∧ s'.waitQueue m = s.waitQueue m

/-- A release by another process than the owner's changes nothing. -/
def Respects (s s' : State Thread Process Mutex) : Call Thread Process Mutex → Prop
  | .mutexRelease t m => s.phase m = .live →
      s'.phase m = .live ∧ KeepsOthers process s s' (process t) m
  | .kill _ p => ∀ m, KeepsOthers process s s' p m
  | _ => True

/-- The call returns or blocks, and every `SpinLock` is free then. -/
def Clean (s : State Thread Process Mutex) (a : Call Thread Process Mutex) : Prop :=
  (call process s a).Ends fun s' => (∀ m, s'.locked m = false) ∧ Respects process s s' a

/-- No thread acquires a mutex that it owns, and a mutex that is released, or
that a process has registered when it is killed, has an owner. -/
def Proper (s : State Thread Process Mutex) : Call Thread Process Mutex → Prop
  | .mutexAcquire t m => s.phase m = .live → s.owner m ≠ some t
  | .mutexRelease _ m => s.phase m = .live → s.owner m ≠ none
  | .kill _ p => ∀ m ∈ s.registered p, s.owner m ≠ none
  | .mutexInit _ _ | .resume _ | .killSelf _ => True

variable {process} {s s' : State Thread Process Mutex} {p : Process} {m : Mutex} {t : Thread}

/-- Only the mutexes of the list may have changed, and no `SpinLock` has. -/
structure Only (ms : List Mutex) (s s' : State Thread Process Mutex) : Prop where
  locked : s'.locked = s.locked
  registered : s'.registered = s.registered
  others : ∀ m, m ∉ ms → s'.owner m = s.owner m ∧ s'.waitQueue m = s.waitQueue m ∧
    s'.phase m = s.phase m

section

omit [DecidableEq Thread] [DecidableEq Process] [DecidableEq Mutex]

theorem Only.refl (ms : List Mutex) (s : State Thread Process Mutex) : Only ms s s :=
  ⟨rfl, rfl, fun _ _ => ⟨rfl, rfl, rfl⟩⟩

theorem Only.trans {ms : List Mutex} {s'' : State Thread Process Mutex} (h : Only ms s s')
    (h' : Only ms s' s'') : Only ms s s'' := by
  refine ⟨h'.locked.trans h.locked, h'.registered.trans h.registered, fun m hm => ?_⟩
  obtain ⟨howner, hqueue, hphase⟩ := h.others m hm
  obtain ⟨howner', hqueue', hphase'⟩ := h'.others m hm
  exact ⟨howner'.trans howner, hqueue'.trans hqueue, hphase'.trans hphase⟩

theorem Only.mono {ms ms' : List Mutex} (h : Only ms s s') (hsub : ms ⊆ ms') : Only ms' s s' :=
  ⟨h.locked, h.registered, fun m hm => h.others m fun hin => hm (hsub hin)⟩

theorem Only.keeps {ms : List Mutex} (h : Only ms s s') (hm : m ∉ ms) :
    KeepsOthers process s s' p m := fun _ _ _ =>
  Or.inr ⟨(h.others m hm).1, (h.others m hm).2.1⟩

end

theorem release_only (process : Thread → Process) (s : State Thread Process Mutex) (p : Process)
    (m : Mutex) :
    Only [m] s (release process s p m p) ∧ (release process s p m p).phase = s.phase := by
  unfold release
  split
  · exact ⟨Only.refl [m] s, rfl⟩
  · refine ⟨⟨rfl, rfl, fun m' hm => ?_⟩, rfl⟩
    rw [List.mem_singleton] at hm
    exact ⟨Function.update_of_ne hm .., Function.update_of_ne hm .., rfl⟩

theorem release_other {o : Thread} (ho : s.owner m = some o) (hp : process o ≠ p) :
    release process s p m p = s := by
  rw [release, ho, Option.elim_some, if_pos hp]

omit [DecidableEq Process] in
theorem dropReference_cases (s : State Thread Process Mutex) (m : Mutex) :
    Only [m] s (dropReference s m) ∧ ((dropReference s m).phase m = .destroyed ∨
      (dropReference s m).owner m = s.owner m ∧
        (dropReference s m).waitQueue m = s.waitQueue m) := by
  unfold dropReference
  dsimp only
  split
  · refine ⟨⟨rfl, rfl, fun m' hm => ?_⟩, Or.inl (Function.update_self ..)⟩
    rw [List.mem_singleton] at hm
    exact ⟨rfl, Function.update_of_ne hm .., Function.update_of_ne hm ..⟩
  · exact ⟨⟨rfl, rfl, fun _ _ => ⟨rfl, rfl, rfl⟩⟩, Or.inr ⟨rfl, rfl⟩⟩

/-- The state after the end of a registration that succeeds. -/
def unregistered (process : Thread → Process) (s : State Thread Process Mutex) (p : Process)
    (m : Mutex) : State Thread Process Mutex :=
  dropReference (release process s p m p) m

theorem unregister_owned (hlocked : s.locked m = false) (howner : s.owner m ≠ none) :
    unregister process s p m = .returns (unregistered process s p m) := by
  rw [unregister, releaseLock, if_neg (by simp [hlocked]), if_neg howner]
  rfl

theorem unregister_unowned (hlocked : s.locked m = false) (howner : s.owner m = none) :
    unregister process s p m = .nullOwner := by
  rw [unregister, releaseLock, if_neg (by simp [hlocked]), if_pos howner]
  rfl

theorem unregistered_only (process : Thread → Process) (s : State Thread Process Mutex)
    (p : Process) (m : Mutex) :
    Only [m] s (unregistered process s p m) :=
  (release_only process s p m).1.trans (dropReference_cases _ m).1

theorem unregistered_keeps (s : State Thread Process Mutex) (p : Process) (m : Mutex) :
    KeepsOthers process s (unregistered process s p m) p m := by
  intro o ho hp
  rw [unregistered, release_other ho hp]
  exact (dropReference_cases s m).2

theorem unregisterEach_owned (process : Thread → Process) (p : Process) {ms : List Mutex}
    (hnodup : ms.Nodup) (hlocked : ∀ m, s.locked m = false) (howner : ∀ m ∈ ms, s.owner m ≠ none) :
    ∃ s', unregisterEach process p ms s = .returns s' ∧ Only ms s s' ∧
      ∀ m, KeepsOthers process s s' p m := by
  induction ms generalizing s with
  | nil => exact ⟨s, rfl, Only.refl [] s, fun m => (Only.refl [] s).keeps (by simp)⟩
  | cons m rest ih =>
      obtain ⟨hm, hnodup⟩ := List.nodup_cons.mp hnodup
      have honly := unregistered_only process s p m
      have howners : ∀ m' ∈ rest, (unregistered process s p m).owner m' ≠ none := by
        intro m' hm'
        rw [(honly.others m' (by simpa using ne_of_mem_of_not_mem hm' hm)).1]
        exact howner m' (List.mem_cons_of_mem m hm')
      obtain ⟨s', hrest, hlater, hkeeps⟩ :=
        ih hnodup (fun m' => by rw [honly.locked, hlocked]) howners
      refine ⟨s', ?_, (honly.mono (by simp)).trans (hlater.mono (List.subset_cons_self m rest)), ?_⟩
      · rw [unregisterEach, unregister_owned (hlocked m) (howner m List.mem_cons_self)]
        exact hrest
      · intro m' o ho hp
        rcases eq_or_ne m' m with rfl | hne
        · obtain ⟨howner', hqueue', hphase'⟩ := hlater.others m' hm
          rw [howner', hqueue', hphase']
          exact unregistered_keeps s p m' o ho hp
        · obtain ⟨howner', hqueue', -⟩ := honly.others m' (by simpa using hne)
          rw [← howner', ← hqueue']
          exact hkeeps m' o (howner'.trans ho) hp

theorem unregisterEach_unowned {ms : List Mutex} (hnodup : ms.Nodup)
    (hlocked : ∀ m, s.locked m = false) (howner : ∃ m ∈ ms, s.owner m = none) :
    unregisterEach process p ms s = .nullOwner := by
  induction ms generalizing s with
  | nil =>
      obtain ⟨m, hm, -⟩ := howner
      cases hm
  | cons m rest ih =>
      obtain ⟨hm, hnodup⟩ := List.nodup_cons.mp hnodup
      rcases eq_or_ne (s.owner m) none with hnone | howned
      · rw [unregisterEach, unregister_unowned (hlocked m) hnone]
        rfl
      · have honly := unregistered_only process s p m
        rw [unregisterEach, unregister_owned (hlocked m) howned]
        refine ih hnodup (fun m' => by rw [honly.locked, hlocked]) ?_
        obtain ⟨m', hm', hnone⟩ := howner
        have hne : m' ≠ m := by
          rintro rfl
          exact howned hnone
        refine ⟨m', (List.mem_cons.mp hm').resolve_left hne, ?_⟩
        rw [(honly.others m' (by simpa using hne)).1, hnone]

/-- No `SpinLock` was left locked, and a process has a mutex registered once. -/
structure Tidy (s : State Thread Process Mutex) : Prop where
  unlocked : ∀ m, s.locked m = false
  nodup : ∀ p, (s.registered p).Nodup

omit [DecidableEq Thread] [DecidableEq Process] [DecidableEq Mutex] in
theorem Tidy.only {ms : List Mutex} (h : Tidy s) (honly : Only ms s s') : Tidy s' :=
  ⟨fun m => by rw [honly.locked, h.unlocked], fun p => by rw [honly.registered]; exact h.nodup p⟩

omit [DecidableEq Process] in
theorem tidy_acquire (h : Tidy s) (howner : s.phase m = .live → s.owner m ≠ some t) :
    (mutexAcquire s t m).Ends Tidy := by
  rcases eq_or_ne (s.phase m) .live with hm | hm
  · have hkept : Tidy (acquire s t m) := by
      have hfields : (acquire s t m).locked = s.locked ∧
          (acquire s t m).registered = s.registered := by
        rw [acquire, if_neg (howner hm)]
        split <;> exact ⟨rfl, rfl⟩
      refine ⟨fun m' => ?_, fun p => ?_⟩
      · rw [hfields.1, h.unlocked]
      · rw [hfields.2]
        exact h.nodup p
    rw [mutexAcquire, if_neg (by simp [hm]), if_neg (by simp [h.unlocked])]
    split
    · exact hkept
    · exact hkept
  · rw [mutexAcquire, if_pos hm]
    exact h

omit [DecidableEq Process] in
theorem tidy_acquire_owner (h : Tidy s) (hm : s.phase m = .live) (howner : s.owner m = some t) :
    ∃ s', mutexAcquire s t m = .returns s' ∧ s'.locked m = true := by
  refine ⟨acquire s t m, ?_, ?_⟩
  · rw [mutexAcquire, if_neg (by simp [hm]), if_neg (by simp [h.unlocked]),
      if_pos (Or.inl howner)]
  · rw [acquire, if_pos howner]
    exact Function.update_self ..

theorem tidy_releaseLock (h : Tidy s) (p : Process) (howner : s.owner m ≠ none) :
    releaseLock process s p m = .returns (release process s p m p) ∧
      Tidy (release process s p m p) ∧ (release process s p m p).phase = s.phase ∧
      KeepsOthers process s (release process s p m p) p m := by
  obtain ⟨honly, hphase⟩ := release_only process s p m
  refine ⟨?_, h.only honly, hphase, fun o ho hp => ?_⟩
  · rw [releaseLock, if_neg (by simp [h.unlocked]), if_neg howner]
  · rw [release_other ho hp]
    exact Or.inr ⟨rfl, rfl⟩

omit [DecidableEq Thread] in
theorem tidy_init (h : Tidy s) (p : Process) (m : Mutex) : Tidy (init s p m) := by
  refine ⟨h.unlocked, fun q => ?_⟩
  unfold init
  dsimp only
  split
  · exact h.nodup q
  · next hm =>
      rcases eq_or_ne q p with rfl | hne
      · rw [Function.update_self]
        rw [← List.concat_eq_append]
        exact (h.nodup q).concat hm
      · rw [Function.update_of_ne hne]
        exact h.nodup q

/-- A call that keeps to the condition, in a state in which no `SpinLock` was
left locked. -/
theorem Tidy.ends (process : Thread → Process) {a : Call Thread Process Mutex} (h : Tidy s)
    (ha : Proper s a) :
    (call process s a).Ends fun s' => Tidy s' ∧ Respects process s s' a := by
  cases a with
  | mutexInit t m => exact ⟨tidy_init h (process t) m, trivial⟩
  | mutexAcquire t m => exact (tidy_acquire h ha).mono fun s' hs' => ⟨hs', trivial⟩
  | resume t =>
      simp only [call]
      split
      · exact ⟨h, trivial⟩
      · exact ⟨⟨h.unlocked, h.nodup⟩, trivial⟩
  | mutexRelease t m =>
      simp only [call, mutexRelease]
      split
      · next hm => exact ⟨h, fun hlive => absurd hlive hm⟩
      · next hm =>
          obtain ⟨hcall, htidy, hphase, hkeeps⟩ :=
            tidy_releaseLock h (process t) (ha (not_not.mp hm))
          rw [hcall]
          exact ⟨htidy, fun hlive => ⟨hphase ▸ hlive, hkeeps⟩⟩
  | kill t p =>
      have hmarked : Tidy (markKilled s p) := ⟨h.unlocked, h.nodup⟩
      obtain ⟨s', hcall, honly, hkeeps⟩ :=
        unregisterEach_owned process p (h.nodup p) hmarked.unlocked ha
      simp only [call, hcall]
      exact ⟨hmarked.only honly, hkeeps⟩
  | killSelf t => exact ⟨⟨h.unlocked, h.nodup⟩, trivial⟩

theorem Tidy.proper_of_clean {a : Call Thread Process Mutex} (h : Tidy s)
    (hclean : Clean process s a) : Proper s a := by
  cases a with
  | mutexInit t m => trivial
  | mutexAcquire t m =>
      intro hm howner
      obtain ⟨s', hcall, hlocked⟩ := tidy_acquire_owner h hm howner
      rw [Clean, call, hcall] at hclean
      have hfree := hclean.1 m
      rw [hlocked] at hfree
      cases hfree
  | resume t => trivial
  | mutexRelease t m =>
      intro hm hnone
      rw [Clean, call, mutexRelease, if_neg (by simp [hm]), releaseLock,
        if_neg (by simp [h.unlocked]), if_pos hnone] at hclean
      exact hclean
  | kill t p =>
      intro m hm hnone
      have hcall : call process s (.kill t p) = .nullOwner :=
        unregisterEach_unowned (h.nodup p) h.unlocked ⟨m, hm, hnone⟩
      rw [Clean, hcall] at hclean
      exact hclean
  | killSelf t => trivial

theorem Tidy.next {a : Call Thread Process Mutex} (h : Tidy s) (ha : Proper s a)
    (hnext : MutexCalls.next process s a = some s') : Tidy s' := by
  obtain ⟨-, hcall⟩ := Option.ite_none_right_eq_some.mp hnext
  have hends := h.ends process ha
  split at hcall
  · next hreturns =>
      rw [hreturns] at hends
      exact Option.some.inj hcall ▸ hends.1
  · next hblocks =>
      rw [hblocks] at hends
      exact Option.some.inj hcall ▸ hends.1
  · cases hcall
  · cases hcall

/-- In every run in which no thread acquires a mutex that it owns, and only
mutexes with an owner are released or lose a killed process, a call is clean if
and only if it keeps to this condition too. -/
theorem clean_iff_proper (h : ReachableUnder (system process) Proper s)
    (a : Call Thread Process Mutex) : Clean process s a ↔ Proper s a := by
  have htidy : Tidy s := by
    refine h.invariant (P := Tidy) ?_ fun _ _ _ hs hallowed hnext => hs.next hallowed hnext
    rintro s ⟨hstart, hlocked⟩
    refine ⟨hlocked, fun p => ?_⟩
    rw [hstart.registered]
    exact List.nodup_nil
  constructor
  · exact htidy.proper_of_clean
  · intro ha
    exact (htidy.ends process ha).mono fun s' hs' => ⟨hs'.1.unlocked, hs'.2⟩

instance [Fintype Mutex] (s : State Thread Process Mutex) (a : Call Thread Process Mutex) :
    Decidable (Proper s a) :=
  match a with
  | .mutexAcquire _ _ | .mutexRelease _ _ => inferInstanceAs (Decidable (_ → _ ≠ _))
  | .kill _ p => inferInstanceAs (Decidable (∀ m ∈ s.registered p, s.owner m ≠ none))
  | .mutexInit _ _ | .resume _ | .killSelf _ => .isTrue trivial

/-- Both processes initialise the mutex, thread 0 acquires it and thread 1
waits for it. -/
def contendedCalls : List (Call Nat Nat Unit) :=
  [.mutexInit 0 (), .mutexInit 1 (), .mutexAcquire 0 (), .mutexAcquire 1 ()]

theorem idle_start : (system (id : Nat → Nat)).start (idle : State Nat Nat Unit) :=
  ⟨start_idle, fun _ => rfl⟩

/-- A third process may kill that of the owner; the owner must not acquire the
mutex again. -/
theorem contended_clean :
    let s := permittedState Proper (next id) idle contendedCalls
    s.waitQueue () = [1] ∧ Clean id s (.kill 2 0) ∧ ¬Clean id s (.mutexAcquire 0 ()) := by
  have hreach : ReachableUnder (system id) Proper
      (permittedState Proper (next id) idle contendedCalls) :=
    permittedState_reachableUnder idle_start _
  refine ⟨by decide +kernel, ?_, ?_⟩
  · exact (clean_iff_proper hreach (.kill 2 0)).mpr (by decide +kernel)
  · rw [clean_iff_proper hreach (.mutexAcquire 0 ())]
    decide +kernel

/-- Thread 0 acquires the mutex twice. -/
theorem reacquired_mutex_locked :
    ¬ ∀ s : State Nat Nat Unit, Reachable (system id) s → ∀ a, Enabled id s a →
      Clean id s a := by
  intro hall
  let calls : List (Call Nat Nat Unit) := [.mutexInit 0 (), .mutexAcquire 0 ()]
  let s := permittedState (fun _ _ => True) (next id) idle calls
  have hclean := hall s (permittedState_reachableUnder idle_start calls) (.mutexAcquire 0 ())
    (by decide +kernel)
  have hlocked : (acquire s 0 ()).locked () = true := by decide +kernel
  have hcall : call id s (.mutexAcquire 0 ()) = .returns (acquire s 0 ()) := by
    rw [call, mutexAcquire, if_neg (by decide +kernel), if_neg (by decide +kernel),
      if_pos (by decide +kernel)]
  rw [Clean, hcall] at hclean
  exact absurd (hclean.1 ()) (by simp [hlocked])

end LabKernel.MutexCalls
