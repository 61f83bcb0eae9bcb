import Mathlib.Data.Fintype.Basic
import LabKernel.TransitionSystem

/-!
How `Process` and `Thread` objects get their ids (`process.cpp`, `thread.cpp`).

Both constructors read the size of their table into the id before they take the
global lock under which they append themselves to it, so a construction is two
steps.  `sys_exec` constructs a process and then its first thread,
`sys_create_thread` a thread of the calling process, with that process's
`process_own_lock` held.  Objects are numbered in the order of construction.
-/

namespace LabKernel.ObjectIds

open LabKernel.TransitionSystem

/-- `process_table` or `thread_table`, the ids of the objects, and how many
constructions have begun. -/
structure Table where
  entries : List Nat
  idOf : Nat → Nat
  made : Nat

/-- The initialiser list: the id of the next object is the table's size. -/
def Table.readSize (t : Table) : Table :=
  { t with idOf := Function.update t.idOf t.made t.entries.length, made := t.made + 1 }

/-- `push_back(this)` under the global lock. -/
def Table.pushBack (t : Table) (o : Nat) : Table :=
  { t with entries := t.entries ++ [o] }

/-- A table with `n` objects under their own numbers. -/
def Table.boot (n : Nat) : Table := ⟨List.range n, fun o => o, n⟩

/-- Where a hart is in `sys_exec` or `sys_create_thread`. -/
inductive Stage where
  | idle
  /-- In the constructor of process `p`, before `push_back`. -/
  | pushProcess (p : Nat)
  /-- In `sys_exec`, before `p->create_thread()`. -/
  | createThread (p : Nat)
  /-- In `create_thread` of process `p`, in the constructor of thread `t`
  before `push_back`. -/
  | pushThread (p t : Nat)
  deriving DecidableEq, Repr

/-- Between the read of the size of `process_table` and `push_back`. -/
def Stage.pushesProcess : Stage → Bool
  | .pushProcess _ => true
  | _ => false

/-- Between the read of the size of `thread_table` and `push_back`. -/
def Stage.pushesThread : Stage → Bool
  | .pushThread _ _ => true
  | _ => false

/-- About to read the size of `thread_table`. -/
def Stage.createsThread : Stage → Bool
  | .createThread _ => true
  | _ => false

variable {Hart : Type*} [DecidableEq Hart]

structure State (Hart : Type*) where
  processTable : Table
  threadTable : Table
  ownLock : Nat → Bool
  stage : Hart → Stage

/-- After `init_processor` of the given number of cores: the idle process and
one idle thread for each core. -/
def booted (cores : Nat) : State Hart where
  processTable := .boot 1
  threadTable := .boot cores
  ownLock := fun _ => false
  stage := fun _ => .idle

inductive Action (Hart : Type*) where
  | sysExec (h : Hart)
  | sysCreateThread (h : Hart) (p : Nat)
  /-- The next step of the call that the hart is in. -/
  | go (h : Hart)
  deriving DecidableEq

/-- `create_thread` of process `p` up to the initialiser list of `Thread`. -/
def beginThread (s : State Hart) (h : Hart) (p : Nat) : Option (State Hart) :=
  if s.ownLock p = false then
    some { s with
      threadTable := s.threadTable.readSize
      ownLock := Function.update s.ownLock p true
      stage := Function.update s.stage h (.pushThread p s.threadTable.made) }
  else none

def next (s : State Hart) : Action Hart → Option (State Hart)
  | .sysExec h =>
      if s.stage h = .idle then
        some { s with
          processTable := s.processTable.readSize
          stage := Function.update s.stage h (.pushProcess s.processTable.made) }
      else none
  | .sysCreateThread h p =>
      if s.stage h = .idle ∧ p ∈ s.processTable.entries then beginThread s h p else none
  | .go h =>
      match s.stage h with
      | .idle => none
      | .pushProcess p =>
          some { s with
            processTable := s.processTable.pushBack p
            stage := Function.update s.stage h (.createThread p) }
      | .createThread p => beginThread s h p
      | .pushThread p t =>
          some { s with
            threadTable := s.threadTable.pushBack t
            ownLock := Function.update s.ownLock p false
            stage := Function.update s.stage h .idle }

/-- All runs of the two calls on any number of harts. -/
def system : System (State Hart) (Action Hart) :=
  ofFunction (fun s => ∃ cores, s = booted cores) next

/-- Every object stands in the table under its id, and ids are unique. -/
structure Table.Indexed (t : Table) : Prop where
  entry : ∀ o < t.made, t.entries[t.idOf o]? = some o
  unique : ∀ o < t.made, ∀ o' < t.made, t.idOf o = t.idOf o' → o = o'

/-- The ids are right whenever no construction is in progress. -/
def UniqueIds (s : State Hart) : Prop :=
  (∀ h, s.stage h = .idle) → s.processTable.Indexed ∧ s.threadTable.Indexed

/-- A table's size is read only while no other hart is between its own read
and its `push_back` to that table. -/
def Alone (s : State Hart) : Action Hart → Prop
  | .sysExec _ => ∀ h, (s.stage h).pushesProcess = false
  | .sysCreateThread _ _ => ∀ h, (s.stage h).pushesThread = false
  | .go h => (s.stage h).createsThread = true → ∀ h', (s.stage h').pushesThread = false

instance [Fintype Hart] (s : State Hart) : ∀ a, Decidable (Alone s a)
  | .sysExec _ => inferInstanceAs (Decidable (∀ h, (s.stage h).pushesProcess = false))
  | .sysCreateThread _ _ => inferInstanceAs (Decidable (∀ h, (s.stage h).pushesThread = false))
  | .go h => inferInstanceAs
      (Decidable ((s.stage h).createsThread = true → ∀ h', (s.stage h').pushesThread = false))

/-- The table is right except for the object being constructed. -/
structure Table.Growing (t : Table) (pending : Option Nat) : Prop where
  index : ∀ i o, t.entries[i]? = some o → t.idOf o = i
  made : ∀ o < t.made, o ∈ t.entries ∨ pending = some o
  bound : ∀ o ∈ t.entries, o < t.made
  next : ∀ o, pending = some o → t.idOf o = t.entries.length ∧ o < t.made

theorem growing_boot (n : Nat) : (Table.boot n).Growing none := by
  constructor
  · intro i o hget
    obtain ⟨hlt, heq⟩ := List.getElem?_eq_some_iff.mp hget
    exact heq.symm.trans (List.getElem_range hlt)
  · exact fun o ho => Or.inl (List.mem_range.mpr ho)
  · exact fun o ho => List.mem_range.mp ho
  · exact nofun

theorem Table.Growing.readSize {t : Table} (h : t.Growing none) :
    t.readSize.Growing (some t.made) := by
  have hold : ∀ o ∈ t.entries, t.readSize.idOf o = t.idOf o := by
    intro o ho
    exact Function.update_of_ne (h.bound o ho).ne ..
  constructor
  · intro i o hget
    rw [hold o (List.mem_of_getElem? hget)]
    exact h.index i o hget
  · intro o ho
    rcases Nat.lt_succ_iff_lt_or_eq.mp ho with ho | rfl
    · exact (h.made o ho).imp id nofun
    · exact Or.inr rfl
  · exact fun o ho => Nat.lt_succ_of_lt (h.bound o ho)
  · rintro o ⟨⟩
    exact ⟨Function.update_self .., Nat.lt_succ_self _⟩

theorem Table.Growing.pushBack {t : Table} {o : Nat} (h : t.Growing (some o)) :
    (t.pushBack o).Growing none := by
  obtain ⟨hid, hmade⟩ := h.next o rfl
  constructor
  · intro i o' hget
    rcases Nat.lt_or_ge i t.entries.length with hlt | hge
    · simp only [Table.pushBack, List.getElem?_append_left hlt] at hget
      exact h.index i o' hget
    · simp only [Table.pushBack, List.getElem?_append_right hge, List.getElem?_singleton] at hget
      split at hget
      · next hzero =>
          cases hget
          exact hid.trans (by omega)
      · cases hget
  · intro o' ho'
    refine Or.inl (List.mem_append.mpr ((h.made o' ho').imp id fun heq => ?_))
    cases heq
    exact List.mem_singleton_self o
  · intro o' ho'
    rcases List.mem_append.mp ho' with ho' | ho'
    · exact h.bound o' ho'
    · exact List.mem_singleton.mp ho' ▸ hmade
  · exact nofun

theorem Table.Growing.indexed {t : Table} (h : t.Growing none) : t.Indexed := by
  have hentry : ∀ o < t.made, t.entries[t.idOf o]? = some o := by
    intro o ho
    obtain ⟨i, hget⟩ := List.mem_iff_getElem?.mp ((h.made o ho).resolve_right nofun)
    rw [h.index i o hget]
    exact hget
  refine ⟨hentry, fun o ho o' ho' heq => ?_⟩
  have hget := hentry o ho
  rw [heq, hentry o' ho', Option.some.injEq] at hget
  exact hget.symm

/-- At most one hart is in a construction of each kind, and it is the one that
the table waits for. -/
structure Inv (s : State Hart) (process thread : Option (Hart × Nat)) : Prop where
  processTable : s.processTable.Growing (process.map Prod.snd)
  threadTable : s.threadTable.Growing (thread.map Prod.snd)
  pushProcess : ∀ h p, s.stage h = .pushProcess p ↔ process = some (h, p)
  pushThread : ∀ h t, (∃ p, s.stage h = .pushThread p t) ↔ thread = some (h, t)

omit [DecidableEq Hart] in
theorem inv_booted (cores : Nat) : Inv (booted cores : State Hart) none none := by
  constructor
  · exact growing_boot 1
  · exact growing_boot cores
  · simp [booted]
  · simp [booted]

section Step

variable {s s' : State Hart} {process thread : Option (Hart × Nat)} {h : Hart} {p t : Nat}

omit [DecidableEq Hart] in
theorem Inv.no_process (hs : Inv s process thread)
    (halone : ∀ h, (s.stage h).pushesProcess = false) : process = none := by
  rcases process with _ | ⟨h, p⟩
  · rfl
  · have hfalse := halone h
    rw [(hs.pushProcess h p).mpr rfl] at hfalse
    cases hfalse

omit [DecidableEq Hart] in
theorem Inv.no_thread (hs : Inv s process thread)
    (halone : ∀ h, (s.stage h).pushesThread = false) : thread = none := by
  rcases thread with _ | ⟨h, t⟩
  · rfl
  · obtain ⟨p, hp⟩ := (hs.pushThread h t).mpr rfl
    have hfalse := halone h
    rw [hp] at hfalse
    cases hfalse

theorem inv_sysExec (hs : Inv s process thread) (hidle : s.stage h = .idle)
    (halone : ∀ h, (s.stage h).pushesProcess = false) :
    Inv { s with
      processTable := s.processTable.readSize
      stage := Function.update s.stage h (.pushProcess s.processTable.made) }
      (some (h, s.processTable.made)) thread := by
  obtain rfl := hs.no_process halone
  constructor
  · exact hs.processTable.readSize
  · exact hs.threadTable
  · intro h' p
    rcases eq_or_ne h' h with rfl | hne
    · simp
    · have := hs.pushProcess h' p
      simpa [hne, hne.symm] using this
  · intro h' t
    rw [← hs.pushThread h' t]
    rcases eq_or_ne h' h with rfl | hne
    · simp [hidle]
    · simp [hne]

theorem inv_pushProcess (hs : Inv s process thread) (hstage : s.stage h = .pushProcess p) :
    Inv { s with
      processTable := s.processTable.pushBack p
      stage := Function.update s.stage h (.createThread p) } none thread := by
  obtain rfl := (hs.pushProcess h p).mp hstage
  constructor
  · exact hs.processTable.pushBack
  · exact hs.threadTable
  · intro h' p'
    rcases eq_or_ne h' h with rfl | hne
    · simp
    · have := hs.pushProcess h' p'
      simpa [hne, hne.symm] using this
  · intro h' t
    rw [← hs.pushThread h' t]
    rcases eq_or_ne h' h with rfl | hne
    · simp [hstage]
    · simp [hne]

theorem inv_beginThread (hs : Inv s process thread)
    (hstage : s.stage h = .idle ∨ s.stage h = .createThread p)
    (halone : ∀ h, (s.stage h).pushesThread = false) (hbegin : beginThread s h p = some s') :
    Inv s' process (some (h, s.threadTable.made)) := by
  obtain rfl := hs.no_thread halone
  simp only [beginThread, Option.ite_none_right_eq_some, Option.some.injEq] at hbegin
  obtain ⟨-, rfl⟩ := hbegin
  constructor
  · exact hs.processTable
  · exact hs.threadTable.readSize
  · intro h' p'
    rw [← hs.pushProcess h' p']
    rcases eq_or_ne h' h with rfl | hne
    · rcases hstage with hstage | hstage <;> simp [hstage]
    · simp [hne]
  · intro h' t
    rcases eq_or_ne h' h with rfl | hne
    · simp
    · have := hs.pushThread h' t
      simpa [hne, hne.symm] using this

theorem inv_pushThread (hs : Inv s process thread) (hstage : s.stage h = .pushThread p t) :
    Inv { s with
      threadTable := s.threadTable.pushBack t
      ownLock := Function.update s.ownLock p false
      stage := Function.update s.stage h .idle } process none := by
  obtain rfl := (hs.pushThread h t).mp ⟨p, hstage⟩
  constructor
  · exact hs.processTable
  · exact hs.threadTable.pushBack
  · intro h' p'
    rw [← hs.pushProcess h' p']
    rcases eq_or_ne h' h with rfl | hne
    · simp [hstage]
    · simp [hne]
  · intro h' t'
    rcases eq_or_ne h' h with rfl | hne
    · simp
    · have := hs.pushThread h' t'
      simpa [hne, hne.symm] using this

theorem inv_next (hs : Inv s process thread) {a : Action Hart} (halone : Alone s a)
    (hnext : next s a = some s') : ∃ process thread, Inv s' process thread := by
  cases a with
  | sysExec h =>
      simp only [next, Option.ite_none_right_eq_some, Option.some.injEq] at hnext
      obtain ⟨hidle, rfl⟩ := hnext
      exact ⟨_, _, inv_sysExec hs hidle halone⟩
  | sysCreateThread h p =>
      simp only [next, Option.ite_none_right_eq_some] at hnext
      exact ⟨_, _, inv_beginThread hs (Or.inl hnext.1.1) halone hnext.2⟩
  | go h =>
      rcases hstage : s.stage h with _ | p | p | ⟨p, t⟩
      · simp [next, hstage] at hnext
      · simp only [next, hstage, Option.some.injEq] at hnext
        exact hnext ▸ ⟨_, _, inv_pushProcess hs hstage⟩
      · simp only [next, hstage] at hnext
        exact ⟨_, _, inv_beginThread hs (Or.inr hstage) (halone (by rw [hstage]; rfl)) hnext⟩
      · simp only [next, hstage, Option.some.injEq] at hnext
        exact hnext ▸ ⟨_, _, inv_pushThread hs hstage⟩

omit [DecidableEq Hart] in
theorem Inv.uniqueIds (hs : Inv s process thread) : UniqueIds s := by
  intro hidle
  have hprocess : process = none := hs.no_process fun h => by rw [hidle h]; rfl
  have hthread : thread = none := hs.no_thread fun h => by rw [hidle h]; rfl
  subst hprocess hthread
  exact ⟨hs.processTable.indexed, hs.threadTable.indexed⟩

end Step

/-- Ids are table positions in every run whose constructions of one kind do
not overlap. -/
theorem uniqueIds_of_alone {s : State Hart} (h : ReachableUnder system Alone s) : UniqueIds s := by
  have hinv : ∃ process thread, Inv s process thread := by
    refine h.invariant (P := fun s => ∃ process thread, Inv s process thread) ?_ ?_
    · rintro s ⟨cores, rfl⟩
      exact ⟨none, none, inv_booted cores⟩
    · rintro s a s' ⟨process, thread, hs⟩ halone hnext
      exact inv_next hs halone hnext
  obtain ⟨process, thread, hs⟩ := hinv
  exact hs.uniqueIds

/-- Two harts execute `shell`; while the first constructs the thread, the
second constructs its process. -/
def staggered : State (Fin 2) :=
  permittedState Alone next (booted 2)
    [.sysExec 0, .go 0, .go 0, .sysExec 1, .go 0, .go 1, .go 1, .go 1]

theorem staggered_uniqueIds :
    staggered.processTable.entries = [0, 1, 2] ∧ staggered.threadTable.entries = [0, 1, 2, 3] ∧
      UniqueIds staggered := by
  refine ⟨by decide +kernel, by decide +kernel, uniqueIds_of_alone ?_⟩
  exact permittedState_reachableUnder ⟨2, rfl⟩ _

/-- Both harts read the size of `process_table` before either appends. -/
def simultaneous : State (Fin 2) :=
  permittedState (fun _ _ => True) next (booted 2)
    [.sysExec 0, .sysExec 1, .go 0, .go 1, .go 0, .go 0, .go 1, .go 1]

theorem simultaneous_exec_shares_pid :
    ¬ ∀ s : State (Fin 2), Reachable system s → UniqueIds s := by
  intro hall
  have hreach : Reachable system simultaneous := permittedState_reachableUnder ⟨2, rfl⟩ _
  have hindexed := (hall _ hreach (by decide +kernel)).1
  have hsame : (1 : Nat) = 2 := by
    refine hindexed.unique 1 ?_ 2 ?_ ?_ <;> decide +kernel
  exact absurd hsame (by decide)

end LabKernel.ObjectIds
