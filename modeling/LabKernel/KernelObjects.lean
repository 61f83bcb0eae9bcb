import Mathlib.Data.Finset.Card
import LabKernel.TransitionSystem
import LabKernel.TrieLookup

/-!
Kernel objects that processes share by handle (`container.hpp`,
`container.cpp`, `process.hpp`): the pools of files, mailboxes, barriers and
conditions, the register of every process, and the reference count by which an
object is destroyed.

An object is named by its address.  `new` is not part of the model: it may
return any address whose low 32 bits differ from zero and from those of every
live object, as the blocks of the kernel heap do.
-/

namespace LabKernel.KernelObjects

open LabKernel.TransitionSystem
open LabKernel.TrieLookup

/-- The pools whose objects keep `KernelObject::on_process_unregister`. -/
inductive Pool
  | file
  | mailbox
  | barrier
  | condition
  deriving DecidableEq, Repr

/-- A live `IdObject`. -/
structure Object where
  refCount : Nat
  pool : Pool
  handle : Nat
  trieIdx : Nat

structure IdPool where
  keymap : Trie Nat
  table : List (Option Nat)

structure State (Process : Type*) where
  objects : Nat → Option Object
  pools : Pool → IdPool
  kernelObjects : Process → Trie Nat
  isKilled : Process → Bool
  /-- The processes that have opened an object and not closed it since. -/
  opened : Nat → Finset Process

variable {Process : Type*} [DecidableEq Process]

/-- `Process::obj2key`. -/
def obj2key (obj : Nat) : Nat := obj % 2 ^ 32

/-- `--ref_count` on a 64-bit counter. -/
def decrement (refCount : Nat) : Nat := if refCount = 0 then 2 ^ 64 - 1 else refCount - 1

/-- `IdPool::get`. -/
def IdPool.get (pool : IdPool) (handle : Nat) : Option Nat := (pool.table[handle]?).join

/-- `IdPool::remove`. -/
def IdPool.remove (pool : IdPool) (obj : Object) : IdPool :=
  if obj.handle < pool.table.length then
    { keymap := pool.keymap.removeByIdx obj.trieIdx, table := pool.table.set obj.handle none }
  else pool

/-- `KernelObject::on_process_unregister`.  There is no result when the object
is no longer there. -/
def onProcessUnregister (s : State Process) (o : Nat) : Option (State Process) :=
  match s.objects o with
  | none => none
  | some obj =>
      if decrement obj.refCount = 0 then
        some { s with
          objects := Function.update s.objects o none
          pools := Function.update s.pools obj.pool ((s.pools obj.pool).remove obj) }
      else
        some { s with
          objects := Function.update s.objects o
            (some { obj with refCount := decrement obj.refCount }) }

/-- `Process::register_kernel_object`. -/
def registerKernelObject (s : State Process) (p : Process) (o : Nat) : Option (State Process) :=
  match (s.kernelObjects p).insert (obj2key o) o with
  | none => none
  | some (index, trie) =>
      some { s with
        kernelObjects := Function.update s.kernelObjects p trie
        objects := if index ≠ 0 then
            Function.update s.objects o
              ((s.objects o).map fun obj => { obj with refCount := obj.refCount + 1 })
          else s.objects
        opened := Function.update s.opened o (insert p (s.opened o)) }

/-- `Process::unregister_kernel_object`. -/
def unregisterKernelObject (s : State Process) (p : Process) (o : Nat) :
    Option (State Process) :=
  let (found, trie) := (s.kernelObjects p).remove (obj2key o)
  let closed := { s with opened := Function.update s.opened o ((s.opened o).erase p) }
  if found then
    onProcessUnregister
      { closed with kernelObjects := Function.update s.kernelObjects p trie } o
  else
    some closed

/-- `new` may return this address. -/
def Fresh (s : State Process) (addr : Nat) : Prop :=
  obj2key addr ≠ 0 ∧ ∀ o, (s.objects o).isSome → obj2key o ≠ obj2key addr

/-- The object that `IdPool::init` creates for a new key. -/
def createObject (s : State Process) (pool : Pool) (key addr : Nat) : Option (State Process) :=
  match (s.pools pool).keymap.insert key addr with
  | none => none
  | some (index, keymap) =>
      some { s with
        objects := Function.update s.objects addr
          (some ⟨0, pool, (s.pools pool).table.length, index⟩)
        pools := Function.update s.pools pool
          { keymap := keymap, table := (s.pools pool).table ++ [some addr] }
        opened := Function.update s.opened addr ∅ }

inductive Action (Process : Type*)
  /-- `IdPool::init`; `addr` is what `new` returns if the key has no object. -/
  | init (p : Process) (pool : Pool) (key addr : Nat)
  | close (p : Process) (pool : Pool) (handle : Nat)
  /-- `Process::kill` by a thread of another process or by an exited thread. -/
  | kill (p : Process)
  /-- `Process::kill` by a thread of `p` itself that has not exited.  The loop
  over the threads reaches the caller, which enters the scheduler for good. -/
  | killSelf (p : Process)

/-- The loop of `Process::kill` over the registered objects. -/
def unregisterAll (s : State Process) : List Nat → Option (State Process)
  | [] => some s
  | o :: rest => (onProcessUnregister s o).bind fun s' => unregisterAll s' rest

/-- One call.  `init` and `close` are called by a process that has not been
killed. -/
def call (s : State Process) : Action Process → Option (State Process)
  | .init p pool key addr =>
      if s.isKilled p = false ∧ key < 2 ^ 64 then
        match (s.pools pool).keymap.lookup key with
        | some o => registerKernelObject s p o
        | none => (createObject s pool key addr).bind fun s' => registerKernelObject s' p addr
      else none
  | .close p pool handle =>
      if s.isKilled p = false then
        match (s.pools pool).get handle with
        | none => some s
        | some o => unregisterKernelObject s p o
      else none
  | .kill p =>
      if s.isKilled p = false then
        unregisterAll { s with isKilled := Function.update s.isKilled p true }
          (s.kernelObjects p).foreach
      else some s
  | .killSelf p =>
      if s.isKilled p = false then
        some { s with isKilled := Function.update s.isKilled p true }
      else none

/-- When a call creates an object, its address comes from `new`. -/
def FromHeap (s : State Process) : Action Process → Prop
  | .init _ pool key addr => (s.pools pool).keymap.lookup key = none → Fresh s addr
  | _ => True

def State.initial : State Process where
  objects _ := none
  pools _ := ⟨Trie.initial, []⟩
  kernelObjects _ := Trie.initial
  isKilled _ := false
  opened _ := ∅

def system : System (State Process) (Action Process) where
  start s := s = State.initial
  step s a s' := FromHeap s a ∧ call s a = some s'

/-- The live processes that have opened the object and not closed it since. -/
def users (s : State Process) (o : Nat) : Finset Process :=
  (s.opened o).filter fun p => s.isKilled p = false

/-- Reference counts are right, and no live process has a destroyed object
registered. -/
def Counted (s : State Process) : Prop :=
  (∀ o obj, s.objects o = some obj → obj.refCount = (users s o).card) ∧
    ∀ p o, s.isKilled p = false → (s.kernelObjects p).lookup (obj2key o) = some o →
      (s.objects o).isSome

/-- A live object is closed only by a process that has opened it and not closed
it since, or whose register never grew a node for it; and a process that still
uses an object is not killed by one of its own running threads. -/
def Orderly (s : State Process) : Action Process → Prop
  | .close p pool handle => ∀ o, (s.pools pool).get handle = some o →
      p ∈ s.opened o ∨ (s.kernelObjects p).locate (keyBits (obj2key o)) = none
  | .killSelf p => ∀ o, p ∉ s.opened o
  | _ => True

end LabKernel.KernelObjects
