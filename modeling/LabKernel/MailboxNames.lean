import Mathlib.Data.Nat.Digits.Defs
import Mathlib.Data.Nat.ModEq
import LabKernel.HandlePool

/-!
Mailboxes by name (`sys_mbox_open` in `locks.cpp`).

The key of a name is a 64-bit hash of its bytes, and the pool of the mailboxes
knows the key only.  The bytes of a name end before the first zero byte.
-/

namespace LabKernel.MailboxNames

open LabKernel.HandlePool
open LabKernel.TransitionSystem

/-- The loop of `sys_mbox_open`.  `char` is unsigned on RISC-V. -/
def mboxKey (name : List UInt8) : Nat :=
  name.foldl (fun key c => (key * 131 + c.toNat) % 2 ^ 64) 0

/-- The bytes of a name as the digits of a number in base 131, the first byte
being the most significant one. -/
def nameValue (name : List UInt8) : Nat :=
  Nat.ofDigits 131 (name.map UInt8.toNat).reverse

theorem nameValue_snoc (name : List UInt8) (c : UInt8) :
    nameValue (name ++ [c]) = nameValue name * 131 + c.toNat := by
  simp only [nameValue, List.map_append, List.map_cons, List.map_nil, List.reverse_append,
    List.reverse_singleton, List.singleton_append, Nat.ofDigits_cons]
  ring

theorem mboxKey_eq (name : List UInt8) : mboxKey name = nameValue name % 2 ^ 64 := by
  induction name using List.reverseRecOn with
  | nil => rfl
  | append_singleton name c ih =>
      have hstep : mboxKey (name ++ [c]) = (mboxKey name * 131 + c.toNat) % 2 ^ 64 := by
        simp [mboxKey]
      rw [hstep, ih, nameValue_snoc]
      omega

theorem mboxKey_eq_iff {a b : List UInt8} :
    mboxKey a = mboxKey b ↔ nameValue a ≡ nameValue b [MOD 2 ^ 64] := by
  rw [mboxKey_eq, mboxKey_eq, Nat.ModEq]

/-- What happened to the mailboxes: a name was opened, with the handle that
`sys_mbox_open` returned, or the mailbox of a handle was destroyed. -/
inductive Call
  | opened (name : List UInt8) (handle : Nat)
  | destroyed (handle : Nat)
  deriving DecidableEq

structure State where
  pool : HandlePool.State
  calls : List Call

def State.initial : State := ⟨HandlePool.State.initial, []⟩

inductive Action
  /-- `sys_mbox_open`; `addr` is what `new` returns if it is called. -/
  | sysMboxOpen (name : List UInt8) (addr : Nat)
  /-- The last process that uses the mailbox at `addr` closes it. -/
  | destroy (addr : Nat)

/-- The handle of the last event of a pool. -/
def lastHandle (s : HandlePool.State) : Nat :=
  match s.log.getLast? with
  | some (.init _ handle) | some (.destroy handle) => handle
  | none => 0

/-- One step.  A name is a string of bytes other than zero. -/
def next (s : State) : Action → Option State
  | .sysMboxOpen name addr =>
      if 0 ∈ name then none
      else
        (HandlePool.next .mailbox s.pool (.init (mboxKey name) addr)).map fun pool =>
          ⟨pool, s.calls ++ [.opened name (lastHandle pool)]⟩
  | .destroy addr =>
      (HandlePool.next .mailbox s.pool (.destroy addr)).map fun pool =>
        ⟨pool, s.calls ++ [.destroyed (lastHandle pool)]⟩

/-- All histories of the mailboxes. -/
def system : System State Action :=
  ofFunction (fun s => s = State.initial) next

/-- What the pool sees of a call. -/
def Call.event : Call → Event
  | .opened name handle => .init (mboxKey name) handle
  | .destroyed handle => .destroy handle

/-- The pool has a history of its own, of which the calls are the names. -/
structure Refines (s : State) : Prop where
  reachable : Reachable (HandlePool.system .mailbox) s.pool
  log : s.pool.log = s.calls.map Call.event

theorem log_init {s s' : HandlePool.State} {key addr : Nat}
    (hnext : HandlePool.next .mailbox s (.init key addr) = some s') :
    s'.log = s.log ++ [.init key (lastHandle s')] := by
  simp only [HandlePool.next, Option.ite_none_right_eq_some] at hnext
  obtain ⟨-, hnext⟩ := hnext
  split at hnext
  · obtain ⟨obj, -, rfl⟩ := Option.map_eq_some_iff.mp hnext
    simp [lastHandle]
  · obtain ⟨-, hcreate⟩ := Option.ite_none_right_eq_some.mp hnext
    unfold create at hcreate
    split at hcreate
    · cases hcreate
    · obtain rfl := Option.some.inj hcreate
      simp [lastHandle]

theorem log_destroy {s s' : HandlePool.State} {addr : Nat}
    (hnext : HandlePool.next .mailbox s (.destroy addr) = some s') :
    s'.log = s.log ++ [.destroy (lastHandle s')] := by
  obtain ⟨obj, -, rfl⟩ := Option.map_eq_some_iff.mp hnext
  simp [lastHandle]

theorem refines_initial : Refines State.initial :=
  ⟨ReachableUnder.start rfl, rfl⟩

theorem Refines.next {s s' : State} (hs : Refines s) {a : Action}
    (hnext : MailboxNames.next s a = some s') : Refines s' := by
  cases a with
  | sysMboxOpen name addr =>
      simp only [MailboxNames.next] at hnext
      split at hnext
      · cases hnext
      · obtain ⟨pool, hpool, rfl⟩ := Option.map_eq_some_iff.mp hnext
        refine ⟨ReachableUnder.step hs.reachable trivial hpool, ?_⟩
        simp [log_init hpool, hs.log, Call.event]
  | destroy addr =>
      obtain ⟨pool, hpool, rfl⟩ := Option.map_eq_some_iff.mp hnext
      refine ⟨ReachableUnder.step hs.reachable trivial hpool, ?_⟩
      simp [log_destroy hpool, hs.log, Call.event]

theorem refines_of_reachable {s : State} (h : Reachable system s) : Refines s := by
  refine h.invariant (P := Refines) ?_ fun _ _ _ hs _ hnext => hs.next hnext
  rintro s rfl
  exact refines_initial

theorem Refines.log_getElem? {s : State} (hs : Refines s) {i : Nat} {c : Call}
    (hc : s.calls[i]? = some c) : s.pool.log[i]? = some c.event := by
  rw [hs.log, List.getElem?_map, hc]
  rfl

/-- Two calls return the same handle, as long as no mailbox is destroyed
between them, if and only if the names have the same value modulo `2 ^ 64`. -/
theorem same_handle_iff_nameValue {s : State} (hs : Reachable system s) {i j : Nat}
    {a b : List UInt8} {h h' : Nat} (hij : i < j) (ha : s.calls[i]? = some (.opened a h))
    (hb : s.calls[j]? = some (.opened b h'))
    (hkept : ∀ m g, i < m → m < j → s.calls[m]? ≠ some (.destroyed g)) :
    h = h' ↔ nameValue a ≡ nameValue b [MOD 2 ^ 64] := by
  have hrefines := refines_of_reachable hs
  have hconsistent := (inv_of_reachable hrefines.reachable).same_handle i j _ _ h h' hij
    (hrefines.log_getElem? ha) (hrefines.log_getElem? hb)
  rw [hconsistent, mboxKey_eq_iff, and_iff_left_iff_imp]
  rintro - m him hmj hm
  rw [hrefines.log, List.getElem?_map, Option.map_eq_some_iff] at hm
  obtain ⟨c, hc, hevent⟩ := hm
  cases c with
  | opened name handle => cases hevent
  | destroyed g => exact hkept m g him hmj hc

/-- Two names of two bytes, of the values 2 · 131 + 1 and 1 · 131 + 132. -/
def collidingNames : State :=
  permittedState (fun _ _ => True) next State.initial
    [.sysMboxOpen [2, 1] 16, .sysMboxOpen [1, 132] 32, .sysMboxOpen [1, 133] 32]

theorem collidingNames_reachable : Reachable system collidingNames := by
  have hstart : system.start State.initial := rfl
  exact permittedState_reachableUnder hstart _

theorem collidingNames_same_handle :
    collidingNames.calls = [.opened [2, 1] 0, .opened [1, 132] 0, .opened [1, 133] 1] ∧
      ((0 : Nat) = 0 ↔ nameValue [2, 1] ≡ nameValue [1, 132] [MOD 2 ^ 64]) ∧
      ((0 : Nat) = 1 ↔ nameValue [2, 1] ≡ nameValue [1, 133] [MOD 2 ^ 64]) := by
  have hcalls : collidingNames.calls =
      [.opened [2, 1] 0, .opened [1, 132] 0, .opened [1, 133] 1] := by decide +kernel
  have hkept : ∀ m g, 0 < m → m < 2 → collidingNames.calls[m]? ≠ some (.destroyed g) := by
    intro m g hm hlt
    obtain rfl : m = 1 := by omega
    simp [hcalls]
  refine ⟨hcalls, ?_, ?_⟩
  · exact same_handle_iff_nameValue collidingNames_reachable (i := 0) (j := 1) (by decide)
      (by rw [hcalls]; rfl) (by rw [hcalls]; rfl) fun m g hm hlt => by omega
  · exact same_handle_iff_nameValue collidingNames_reachable (i := 0) (j := 2) (by decide)
      (by rw [hcalls]; rfl) (by rw [hcalls]; rfl) hkept

theorem different_names_same_handle :
    ¬ ∀ (s : State), Reachable system s → ∀ (i j : Nat) (a b : List UInt8) (h h' : Nat), i < j →
      s.calls[i]? = some (.opened a h) → s.calls[j]? = some (.opened b h') →
      (∀ m g, i < m → m < j → s.calls[m]? ≠ some (.destroyed g)) → (h = h' ↔ a = b) := by
  intro hall
  have hfirst : collidingNames.calls[0]? = some (.opened [2, 1] 0) := by decide +kernel
  have hsecond : collidingNames.calls[1]? = some (.opened [1, 132] 0) := by decide +kernel
  have hsame := hall _ collidingNames_reachable 0 1 _ _ 0 0 (by decide) hfirst hsecond
    fun m g hm hlt => by omega
  exact absurd (hsame.mp rfl) (by decide)

end LabKernel.MailboxNames
