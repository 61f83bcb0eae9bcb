import LabKernel.KernelObjects

/-!
Histories of one `IdPool` (`container.cpp`): `init` with arbitrary keys and the
destruction of objects, which calls `remove` once for each.

What `init` does with the calling process's register is in `KernelObjects` and
does not touch the pool.  `create_fn` returns some object that is not live;
objects are named by their addresses.
-/

namespace LabKernel.HandlePool

open LabKernel.KernelObjects
open LabKernel.TransitionSystem
open LabKernel.TrieLookup

/-- What happened to a pool, with the handle it concerns. -/
inductive Event where
  | init (key handle : Nat)
  | destroy (handle : Nat)
  deriving DecidableEq, Repr

/-- The pool and the live objects.  `created` lists, by handle, the key and the
object of every creation; `log` is all that happened. -/
structure State where
  pool : IdPool
  objects : Nat → Option Object
  created : List (Nat × Nat)
  log : List Event

def State.initial : State := ⟨⟨Trie.initial, []⟩, fun _ => none, [], []⟩

inductive Action where
  /-- `IdPool::init`; `addr` is what `create_fn` returns if it is called. -/
  | init (key addr : Nat)
  | destroy (addr : Nat)

/-- The branch of `IdPool::init` for a new key. -/
def create (kind : Pool) (s : State) (key addr : Nat) : Option State :=
  match s.pool.keymap.insert key addr with
  | none => none
  | some (index, keymap) =>
      let handle := s.pool.table.length
      some {
        pool := { keymap := keymap, table := s.pool.table ++ [some addr] }
        objects := Function.update s.objects addr (some ⟨0, kind, handle, index⟩)
        created := s.created ++ [(key, addr)]
        log := s.log ++ [.init key handle] }

/-- One step.  An `init` that finds an object reads its handle; there is no
result if the object is gone. -/
def next (kind : Pool) (s : State) : Action → Option State
  | .init key addr =>
      if key < 2 ^ 64 then
        match s.pool.keymap.lookup key with
        | some o => (s.objects o).map fun obj => { s with log := s.log ++ [.init key obj.handle] }
        | none => if s.objects addr = none then create kind s key addr else none
      else none
  | .destroy addr =>
      (s.objects addr).map fun obj =>
        { s with
          pool := s.pool.remove obj
          objects := Function.update s.objects addr none
          log := s.log ++ [.destroy obj.handle] }

/-- All histories of a pool. -/
def system (kind : Pool) : System State Action :=
  ofFunction (fun s => s = State.initial) (next kind)

/-- Handles stand for keys and objects as long as the object lives. -/
structure Consistent (kind : Pool) (s : State) : Prop where
  same_handle : ∀ i j k k' h h' : Nat, i < j → s.log[i]? = some (.init k h) →
    s.log[j]? = some (.init k' h') →
      (h = h' ↔ k = k' ∧ ∀ m, i < m → m < j → s.log[m]? ≠ some (.destroy h))
  get_created : ∀ h k o : Nat, s.created[h]? = some (k, o) →
    s.pool.get h = if Event.destroy h ∈ s.log then none else some o
  get_other : ∀ h : Nat, s.created[h]? = none → s.pool.get h = none
  lookup : ∀ k < 2 ^ 64, ∀ o, s.pool.keymap.lookup k = some o ↔
    ∃ h : Nat, s.created[h]? = some (k, o) ∧ Event.destroy h ∉ s.log
  alive : ∀ k < 2 ^ 64, ∀ o, s.pool.keymap.lookup k = some o → (s.objects o).isSome
  destroy_frame : ∀ o obj s', s.objects o = some obj → next kind s (.destroy o) = some s' →
    (∀ h, h ≠ obj.handle → s'.pool.get h = s.pool.get h) ∧
      ∀ k < 2 ^ 64, s.pool.keymap.lookup k ≠ some o →
        s'.pool.keymap.lookup k = s.pool.keymap.lookup k

/-- An object knows its handle and the node of its key. -/
structure Placed (s : State) (o : Nat) (obj : Object) : Prop where
  live : Event.destroy obj.handle ∉ s.log
  created : ∃ k < 2 ^ 64, s.created[obj.handle]? = some (k, o) ∧
    s.pool.keymap.locate (keyBits k) = some obj.trieIdx

structure Inv (s : State) : Prop where
  wf : s.pool.keymap.Wf
  length_eq : s.created.length = s.pool.table.length
  table : ∀ h k o : Nat, s.created[h]? = some (k, o) →
    s.pool.table[h]? = some (if Event.destroy h ∈ s.log then none else some o)
  keys : ∀ h k o : Nat, s.created[h]? = some (k, o) → k < 2 ^ 64
  placed : ∀ o obj, s.objects o = some obj → Placed s o obj
  owner : ∀ h k o : Nat, s.created[h]? = some (k, o) → Event.destroy h ∉ s.log →
    ∃ obj, s.objects o = some obj ∧ obj.handle = h
  lookup : ∀ k < 2 ^ 64, ∀ o, s.pool.keymap.lookup k = some o ↔
    ∃ h : Nat, s.created[h]? = some (k, o) ∧ Event.destroy h ∉ s.log
  inits : ∀ i k h : Nat, s.log[i]? = some (.init k h) → ∃ o, s.created[h]? = some (k, o)
  destroys : ∀ h : Nat, Event.destroy h ∈ s.log → h < s.created.length
  later : ∀ i m k h : Nat, s.log[i]? = some (.init k h) → s.log[m]? = some (.destroy h) → i < m
  same_handle : ∀ i j k k' h h' : Nat, i < j → s.log[i]? = some (.init k h) →
    s.log[j]? = some (.init k' h') →
      (h = h' ↔ k = k' ∧ ∀ m, i < m → m < j → s.log[m]? ≠ some (.destroy h))

theorem inv_initial : Inv State.initial := by
  have hlookup : ∀ k, (Trie.initial : Trie Nat).lookup k = none := by
    intro k
    have hval : ∀ i, ((Trie.initial : Trie Nat).node i).val = none := by
      rintro (_ | i) <;> rfl
    simp [Trie.lookup, Trie.find, hval]
  constructor <;> simp [State.initial, Trie.wf_initial, hlookup]

section Step

variable {s : State} {key h o : Nat} {obj : Object}

/-- The log after an `init` that returned handle `h`, which no destruction has
touched and which earlier calls have returned exactly for this key. -/
theorem Inv.log_init (hs : Inv s) (hlive : Event.destroy h ∉ s.log)
    (hsame : ∀ i k h' : Nat, s.log[i]? = some (.init k h') →
      (h' = h ↔ k = key ∧ Event.destroy h' ∉ s.log)) :
    (∀ i m k h' : Nat, (s.log ++ [.init key h])[i]? = some (.init k h') →
      (s.log ++ [.init key h])[m]? = some (.destroy h') → i < m) ∧
    ∀ i j k k' h₁ h₂ : Nat, i < j → (s.log ++ [.init key h])[i]? = some (.init k h₁) →
      (s.log ++ [.init key h])[j]? = some (.init k' h₂) →
        (h₁ = h₂ ↔ k = k' ∧
          ∀ m, i < m → m < j → (s.log ++ [.init key h])[m]? ≠ some (.destroy h₁)) := by
  have hold : ∀ {m e : Nat}, (s.log ++ [.init key h])[m]? = some (.destroy e) →
      s.log[m]? = some (.destroy e) := by
    intro m e hm
    rcases getElem?_snoc.mp hm with hm | ⟨-, hm⟩
    · exact hm
    · cases hm
  constructor
  · intro i m k h' hi hm
    replace hm := hold hm
    rcases getElem?_snoc.mp hi with hi | ⟨-, heq⟩
    · exact hs.later i m k h' hi hm
    · cases heq
      exact absurd (List.mem_of_getElem? hm) hlive
  · intro i j k k' h₁ h₂ hij hi hj
    have hlen : j ≤ s.log.length := by
      obtain ⟨hlt, -⟩ := List.getElem?_eq_some_iff.mp hj
      rw [List.length_append, List.length_singleton] at hlt
      omega
    have hi' : s.log[i]? = some (.init k h₁) := by
      rwa [getElem?_snoc_of_ne (by omega)] at hi
    have hbetween : (∀ m, i < m → m < j → (s.log ++ [.init key h])[m]? ≠ some (.destroy h₁)) ↔
        ∀ m, i < m → m < j → s.log[m]? ≠ some (.destroy h₁) := by
      refine forall_congr' fun m => imp_congr_right fun _ => imp_congr_right fun hm => ?_
      rw [getElem?_snoc_of_ne (by omega)]
    rw [hbetween]
    rcases getElem?_snoc.mp hj with hj | ⟨rfl, heq⟩
    · exact hs.same_handle i j k k' h₁ h₂ hij hi' hj
    · cases heq
      rw [hsame i k h₁ hi']
      refine and_congr_right fun _ => ⟨fun hnot m _ _ hm => hnot (List.mem_of_getElem? hm), ?_⟩
      intro hnone hmem
      obtain ⟨m, hm⟩ := List.mem_iff_getElem?.mp hmem
      obtain ⟨hlt, -⟩ := List.getElem?_eq_some_iff.mp hm
      exact hnone m (hs.later i m k h₁ hi' hm) hlt hm

theorem mem_log_init {e : Nat} : Event.destroy e ∈ s.log ++ [.init key h] ↔
    Event.destroy e ∈ s.log := by
  simp

theorem Inv.handle_of_lookup (hs : Inv s) (hkey : key < 2 ^ 64)
    (hlookup : s.pool.keymap.lookup key = some o) (hobj : s.objects o = some obj) :
    s.created[obj.handle]? = some (key, o) ∧ Event.destroy obj.handle ∉ s.log := by
  obtain ⟨h, hcreated, hlive⟩ := (hs.lookup key hkey o).mp hlookup
  obtain ⟨obj', hobj', rfl⟩ := hs.owner h key o hcreated hlive
  rw [hobj, Option.some.injEq] at hobj'
  exact hobj' ▸ ⟨hcreated, hlive⟩

theorem inv_init_found (hs : Inv s) (hkey : key < 2 ^ 64)
    (hlookup : s.pool.keymap.lookup key = some o) (hobj : s.objects o = some obj) :
    Inv { s with log := s.log ++ [.init key obj.handle] } := by
  obtain ⟨hcreated, hlive⟩ := hs.handle_of_lookup hkey hlookup hobj
  have hsame : ∀ i k h' : Nat, s.log[i]? = some (.init k h') →
      (h' = obj.handle ↔ k = key ∧ Event.destroy h' ∉ s.log) := by
    intro i k h' hi
    obtain ⟨o', hcreated'⟩ := hs.inits i k h' hi
    constructor
    · rintro rfl
      rw [hcreated, Option.some.injEq, Prod.mk.injEq] at hcreated'
      exact ⟨hcreated'.1.symm, hlive⟩
    · rintro ⟨rfl, hlive'⟩
      have hlookup' := (hs.lookup k hkey o').mpr ⟨h', hcreated', hlive'⟩
      rw [hlookup, Option.some.injEq] at hlookup'
      obtain ⟨obj', hobj', rfl⟩ := hs.owner h' k o' hcreated' hlive'
      rw [← hlookup', hobj, Option.some.injEq] at hobj'
      rw [hobj']
  obtain ⟨hlater, hsame⟩ := hs.log_init hlive hsame
  refine { hs with
    table := ?_, placed := ?_, owner := ?_, lookup := ?_, inits := ?_, destroys := ?_
    later := hlater, same_handle := hsame }
  · simpa only [mem_log_init] using hs.table
  · intro o' obj' hobj'
    obtain ⟨hlive', hplace⟩ := hs.placed o' obj' hobj'
    exact ⟨fun hmem => hlive' (mem_log_init.mp hmem), hplace⟩
  · simpa only [mem_log_init] using hs.owner
  · simpa only [mem_log_init] using hs.lookup
  · intro i k h' hi
    rcases getElem?_snoc.mp hi with hi | ⟨-, hi⟩
    · exact hs.inits i k h' hi
    · cases hi
      exact ⟨o, hcreated⟩
  · simpa only [mem_log_init] using hs.destroys

theorem inv_create (hs : Inv s) (hkey : key < 2 ^ 64) {kind : Pool} {s' : State}
    (hlookup : s.pool.keymap.lookup key = none) (hfree : s.objects o = none)
    (hcreate : create kind s key o = some s') : Inv s' := by
  obtain ⟨⟨index, keymap⟩, hinsert, hspec⟩ :=
    Trie.insert_spec (v := o) hs.wf (Or.inl hlookup)
  simp only [create, hinsert, Option.some.injEq] at hcreate
  subst hcreate
  have hlength := hs.length_eq
  have hfresh : Event.destroy s.pool.table.length ∉ s.log := by
    intro hmem
    have := hs.destroys _ hmem
    omega
  have hsame : ∀ i k h' : Nat, s.log[i]? = some (.init k h') →
      (h' = s.pool.table.length ↔ k = key ∧ Event.destroy h' ∉ s.log) := by
    intro i k h' hi
    obtain ⟨o', hcreated⟩ := hs.inits i k h' hi
    obtain ⟨hlt, -⟩ := List.getElem?_eq_some_iff.mp hcreated
    constructor
    · intro heq
      omega
    · rintro ⟨rfl, hlive⟩
      rw [(hs.lookup k hkey o').mpr ⟨h', hcreated, hlive⟩] at hlookup
      cases hlookup
  obtain ⟨hlater, hsame⟩ := hs.log_init hfresh hsame
  have hold : ∀ {h' k o' : Nat}, s.created[h']? = some (k, o') →
      (s.created ++ [(key, o)])[h']? = some (k, o') :=
    fun hget => getElem?_snoc.mpr (Or.inl hget)
  have hnew : (s.created ++ [(key, o)])[s.pool.table.length]? = some (key, o) :=
    getElem?_snoc.mpr (Or.inr ⟨hlength.symm, rfl⟩)
  have hother : ∀ {o' : Nat}, o' ≠ o → ∀ x, Function.update s.objects o x o' = s.objects o' :=
    fun hne x => Function.update_of_ne hne ..
  constructor
  · exact hspec.wf
  · simp [hlength]
  · intro h' k o' hget
    simp only [mem_log_init]
    rcases getElem?_snoc.mp hget with hget | ⟨rfl, heq⟩
    · exact getElem?_snoc.mpr (Or.inl (hs.table h' k o' hget))
    · cases heq
      rw [hlength, if_neg hfresh]
      exact getElem?_snoc.mpr (Or.inr ⟨rfl, rfl⟩)
  · intro h' k o' hget
    rcases getElem?_snoc.mp hget with hget | ⟨-, heq⟩
    · exact hs.keys h' k o' hget
    · cases heq
      exact hkey
  · intro o' obj' hobj'
    rcases eq_or_ne o' o with rfl | hne
    · simp only [Function.update_self, Option.some.injEq] at hobj'
      subst hobj'
      refine ⟨fun hmem => hfresh (mem_log_init.mp hmem), key, hkey, hnew, ?_⟩
      exact hspec.result_of_unmapped hlookup
    · simp only [hother hne] at hobj'
      obtain ⟨hlive, k, hk, hcreated, hlocate⟩ := hs.placed o' obj' hobj'
      exact ⟨fun hmem => hlive (mem_log_init.mp hmem), k, hk, hold hcreated,
        hspec.stable _ _ hlocate⟩
  · intro h' k o' hget hlive
    rw [mem_log_init] at hlive
    rcases getElem?_snoc.mp hget with hget | ⟨rfl, heq⟩
    · obtain ⟨obj', hobj', rfl⟩ := hs.owner h' k o' hget hlive
      have hne : o' ≠ o := by
        rintro rfl
        rw [hfree] at hobj'
        cases hobj'
      exact ⟨obj', (hother hne _).trans hobj', rfl⟩
    · cases heq
      exact ⟨_, Function.update_self .., hlength.symm⟩
  · intro k hk o'
    simp only [mem_log_init]
    have hfind := hspec.find (keyBits k)
    change keymap.lookup k = _ at hfind
    rw [hfind]
    constructor
    · intro hvalue
      split at hvalue
      · next heq =>
          cases hvalue
          rw [keyBits_injective hk hkey heq]
          exact ⟨_, hnew, hfresh⟩
      · obtain ⟨h', hget, hlive⟩ := (hs.lookup k hk o').mp hvalue
        exact ⟨h', hold hget, hlive⟩
    · rintro ⟨h', hget, hlive⟩
      rcases getElem?_snoc.mp hget with hget | ⟨-, heq⟩
      · have hvalue := (hs.lookup k hk o').mpr ⟨h', hget, hlive⟩
        have hne : keyBits k ≠ keyBits key := by
          intro heq
          rw [keyBits_injective hk hkey heq, hlookup] at hvalue
          cases hvalue
        rw [if_neg hne]
        exact hvalue
      · cases heq
        rw [if_pos rfl]
  · intro i k h' hi
    rcases getElem?_snoc.mp hi with hi | ⟨-, hi⟩
    · obtain ⟨o', hget⟩ := hs.inits i k h' hi
      exact ⟨o', hold hget⟩
    · cases hi
      exact ⟨o, hnew⟩
  · intro h' hmem
    have hlt := hs.destroys h' (mem_log_init.mp hmem)
    simp only [List.length_append, List.length_singleton]
    omega
  · exact hlater
  · exact hsame

theorem Inv.remove (hs : Inv s) (hobj : s.objects o = some obj) :
    ∃ k < 2 ^ 64, s.created[obj.handle]? = some (k, o) ∧
      (s.pool.remove obj).table = s.pool.table.set obj.handle none ∧
      (s.pool.remove obj).keymap.Wf ∧
      (s.pool.remove obj).keymap.locate = s.pool.keymap.locate ∧
      ∀ k' < 2 ^ 64, (s.pool.remove obj).keymap.lookup k' =
        if k' = k then none else s.pool.keymap.lookup k' := by
  obtain ⟨-, k, hk, hcreated, hlocate⟩ := hs.placed o obj hobj
  have hlt : obj.handle < s.pool.table.length := by
    obtain ⟨hlt, -⟩ := List.getElem?_eq_some_iff.mp hcreated
    rw [← hs.length_eq]
    exact hlt
  have hindex := hs.wf.bound _ _ hlocate
  have heq : s.pool.remove obj = ⟨s.pool.keymap.setVal obj.trieIdx none,
      s.pool.table.set obj.handle none⟩ := by
    simp [IdPool.remove, hlt, Trie.removeByIdx, hindex]
  refine ⟨k, hk, hcreated, by rw [heq], ?_, ?_, ?_⟩
  · rw [heq]
    exact hs.wf.setVal _ _
  · rw [heq]
    exact Trie.locate_setVal ..
  · intro k' hk'
    rw [heq]
    have hfind := Trie.find_setVal hs.wf hlocate none (keyBits k')
    rcases eq_or_ne k' k with rfl | hne
    · rw [if_pos rfl]
      rw [if_pos rfl] at hfind
      exact hfind
    · rw [if_neg hne]
      rw [if_neg fun hbits => hne (keyBits_injective hk' hk hbits)] at hfind
      exact hfind

theorem mem_log_destroy {e : Nat} : Event.destroy e ∈ s.log ++ [.destroy h] ↔
    Event.destroy e ∈ s.log ∨ e = h := by
  simp

theorem inv_destroy (hs : Inv s) (hobj : s.objects o = some obj) :
    Inv { s with
      pool := s.pool.remove obj
      objects := Function.update s.objects o none
      log := s.log ++ [.destroy obj.handle] } := by
  obtain ⟨key, hkey, hcreated, htable, hwf, hlocate, hlookup⟩ := hs.remove hobj
  obtain ⟨hlive, -⟩ := hs.placed o obj hobj
  have hlt : obj.handle < s.pool.table.length := by
    obtain ⟨hlt, -⟩ := List.getElem?_eq_some_iff.mp hcreated
    rw [← hs.length_eq]
    exact hlt
  have hinit : ∀ {i k h' : Nat}, (s.log ++ [.destroy obj.handle])[i]? = some (.init k h') →
      s.log[i]? = some (.init k h') := by
    intro i k h' hi
    rcases getElem?_snoc.mp hi with hi | ⟨-, hi⟩
    · exact hi
    · cases hi
  refine { hs with
    wf := hwf, length_eq := ?_, table := ?_, placed := ?_, owner := ?_, lookup := ?_
    inits := fun i k h' hi => hs.inits i k h' (hinit hi), destroys := ?_, later := ?_
    same_handle := ?_ }
  · dsimp only
    rw [htable, List.length_set]
    exact hs.length_eq
  · intro h' k o' hget
    dsimp only
    rw [htable, List.getElem?_set]
    simp only [mem_log_destroy]
    rcases eq_or_ne obj.handle h' with rfl | hne
    · simp [hlt]
    · rw [if_neg hne, hs.table h' k o' hget]
      simp [hne.symm]
  · intro o' obj' hobj'
    rcases eq_or_ne o' o with rfl | hne
    · simp at hobj'
    · simp only [Function.update_of_ne hne] at hobj'
      obtain ⟨hlive', k, hk, hcreated', hplace⟩ := hs.placed o' obj' hobj'
      refine ⟨fun hmem => ?_, k, hk, hcreated', by dsimp only; rw [hlocate]; exact hplace⟩
      rcases mem_log_destroy.mp hmem with hmem | heq
      · exact hlive' hmem
      · rw [heq, hcreated, Option.some.injEq, Prod.mk.injEq] at hcreated'
        exact hne hcreated'.2.symm
  · intro h' k o' hget hlive'
    rw [mem_log_destroy, not_or] at hlive'
    obtain ⟨obj', hobj', rfl⟩ := hs.owner h' k o' hget hlive'.1
    have hne : o' ≠ o := by
      rintro rfl
      rw [hobj, Option.some.injEq] at hobj'
      exact hlive'.2 (by rw [hobj'])
    exact ⟨obj', (Function.update_of_ne hne ..).trans hobj', rfl⟩
  · intro k hk o'
    dsimp only
    rw [hlookup k hk]
    simp only [mem_log_destroy, not_or]
    constructor
    · intro hvalue
      split at hvalue
      · cases hvalue
      · next hne =>
          obtain ⟨h', hget, hlive'⟩ := (hs.lookup k hk o').mp hvalue
          refine ⟨h', hget, hlive', ?_⟩
          rintro rfl
          rw [hcreated, Option.some.injEq, Prod.mk.injEq] at hget
          exact hne hget.1.symm
    · rintro ⟨h', hget, hlive', hother⟩
      have hne : k ≠ key := by
        rintro rfl
        -- the key would lead to two objects
        have hfirst := (hs.lookup k hk o').mpr ⟨h', hget, hlive'⟩
        have hsecond := (hs.lookup k hk o).mpr ⟨_, hcreated, hlive⟩
        rw [hfirst, Option.some.injEq] at hsecond
        obtain ⟨obj', hobj', rfl⟩ := hs.owner h' k o' hget hlive'
        rw [hsecond, hobj, Option.some.injEq] at hobj'
        exact hother (by rw [hobj'])
      rw [if_neg hne]
      exact (hs.lookup k hk o').mpr ⟨h', hget, hlive'⟩
  · intro h' hmem
    rcases mem_log_destroy.mp hmem with hmem | rfl
    · exact hs.destroys h' hmem
    · rw [hs.length_eq]
      exact hlt
  · intro i m k h' hi hm
    replace hi := hinit hi
    obtain ⟨hilt, -⟩ := List.getElem?_eq_some_iff.mp hi
    rcases getElem?_snoc.mp hm with hm | ⟨rfl, -⟩
    · exact hs.later i m k h' hi hm
    · exact hilt
  · intro i j k k' h₁ h₂ hij hi hj
    have hi' := hinit hi
    have hj' := hinit hj
    obtain ⟨hjlt, -⟩ := List.getElem?_eq_some_iff.mp hj'
    rw [hs.same_handle i j k k' h₁ h₂ hij hi' hj']
    refine and_congr_right fun _ => ?_
    refine forall_congr' fun m => imp_congr_right fun _ => imp_congr_right fun hm => ?_
    dsimp only
    rw [getElem?_snoc_of_ne (by omega)]

theorem inv_next (hs : Inv s) {kind : Pool} {a : Action} {s' : State}
    (hnext : next kind s a = some s') : Inv s' := by
  cases a with
  | init key addr =>
      simp only [next, Option.ite_none_right_eq_some] at hnext
      obtain ⟨hkey, hnext⟩ := hnext
      split at hnext
      · next o hlookup =>
          obtain ⟨obj, hobj, rfl⟩ := Option.map_eq_some_iff.mp hnext
          exact inv_init_found hs hkey hlookup hobj
      · next hlookup =>
          obtain ⟨hfree, hcreate⟩ := Option.ite_none_right_eq_some.mp hnext
          exact inv_create hs hkey hlookup hfree hcreate
  | destroy addr =>
      obtain ⟨obj, hobj, rfl⟩ := Option.map_eq_some_iff.mp hnext
      exact inv_destroy hs hobj

theorem Inv.consistent (hs : Inv s) (kind : Pool) : Consistent kind s := by
  constructor
  · exact hs.same_handle
  · intro h k o hget
    rw [IdPool.get, hs.table h k o hget]
    rfl
  · intro h hget
    have hle := List.getElem?_eq_none_iff.mp hget
    rw [hs.length_eq] at hle
    rw [IdPool.get, List.getElem?_eq_none hle]
    rfl
  · exact hs.lookup
  · intro k hk o hlookup
    obtain ⟨h, hcreated, hlive⟩ := (hs.lookup k hk o).mp hlookup
    obtain ⟨obj, hobj, -⟩ := hs.owner h k o hcreated hlive
    rw [hobj]
    rfl
  · intro o obj s' hobj hnext
    obtain ⟨obj', hobj', rfl⟩ := Option.map_eq_some_iff.mp hnext
    rw [hobj, Option.some.injEq] at hobj'
    subst hobj'
    obtain ⟨key, hkey, hcreated, htable, -, -, hlookup⟩ := hs.remove hobj
    obtain ⟨hlive, -⟩ := hs.placed o obj hobj
    constructor
    · intro h hne
      dsimp only [IdPool.get]
      rw [htable, List.getElem?_set_ne hne.symm]
    · intro k hk hother
      dsimp only
      rw [hlookup k hk]
      split
      · next heq =>
          subst heq
          exact absurd ((hs.lookup k hk o).mpr ⟨_, hcreated, hlive⟩) hother
      · rfl

end Step

theorem inv_of_reachable {kind : Pool} {s : State} (h : Reachable (system kind) s) : Inv s := by
  refine h.invariant (P := Inv) ?_ fun _ _ _ hs _ hnext => inv_next hs hnext
  rintro s rfl
  exact inv_initial

/-- Every history of a pool is consistent. -/
theorem pool_consistent {kind : Pool} {s : State} (h : Reachable (system kind) s) :
    Consistent kind s :=
  (inv_of_reachable h).consistent kind

/-- Keys 0, 1 and 3, each a prefix of the next; the object of key 1 is
destroyed and made again at the same address. -/
def prefixKeys : State :=
  permittedState (fun _ _ => True) (next .mailbox) State.initial
    [.init 0 16, .init 1 32, .init 3 48, .init 1 64, .destroy 32, .init 1 32, .init 0 64]

theorem prefixKeys_consistent :
    prefixKeys.log = [.init 0 0, .init 1 1, .init 3 2, .init 1 1, .destroy 1, .init 1 3,
        .init 0 0] ∧
      prefixKeys.pool.table = [some 16, none, some 48, some 32] ∧
      Consistent .mailbox prefixKeys := by
  refine ⟨by decide +kernel, by decide +kernel, ?_⟩
  have hstart : (system .mailbox).start State.initial := rfl
  have hreach : Reachable (system .mailbox) prefixKeys := permittedState_reachableUnder hstart _
  exact pool_consistent hreach

end LabKernel.HandlePool
