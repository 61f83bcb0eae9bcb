import Mathlib.Data.List.Infix
import LabKernel.TransitionSystem
import LabKernel.WaitQueue

/-!
The kernel mailbox (`mailbox` in `locks.cpp`) as a step relation.

Each stretch of `send` and `recv` executed with the mailbox lock held is one
step.  `do_block` ends such a stretch; a thread that was woken re-takes the
lock at any later time and continues after the test that made it sleep.
-/

namespace LabKernel.Mailbox

open LabKernel.TransitionSystem
open LabKernel.WaitQueue

variable {Thread : Type*} [DecidableEq Thread]

/-- `MAX_MSG_SIZE`. -/
def maxMsgSize : Nat := 4096

/-- Where a thread is with respect to the mailbox. -/
inductive Pc where
  | outside
  /-- Asleep in `send`; the bytes are those not yet pushed. -/
  | inSend (first : UInt8) (rest : List UInt8)
  /-- Asleep in `recv` with `remaining` further bytes to fetch after the
  next one. -/
  | inRecv (remaining : Nat)
  deriving DecidableEq, Repr

/-- The mailbox, the block counters of the threads, and their positions.
`pushed` and `popped` are the bytes that went through `msg_queue` so far;
`emptyPop` records that `front` or `pop` was applied to an empty queue. -/
structure State (Thread : Type*) where
  msgQueue : List UInt8
  sendWaitQueue : List Thread
  recvWaitQueue : List Thread
  blockCnt : Thread → Int
  pc : Thread → Pc
  pushed : List UInt8
  popped : List UInt8
  emptyPop : Bool

/-- The state of a newly constructed mailbox. -/
def State.initial : State Thread where
  msgQueue := []
  sendWaitQueue := []
  recvWaitQueue := []
  blockCnt := fun _ => 0
  pc := fun _ => .outside
  pushed := []
  popped := []
  emptyPop := false

inductive Action (Thread : Type*) where
  | send (t : Thread) (msg : List UInt8)
  | recv (t : Thread) (msgLength : Nat)
  | resume (t : Thread)

/-- The two statements of the loop body of `send` after the test. -/
def pushByte (s : State Thread) (b : UInt8) : State Thread :=
  let woken := wakeupOne s.recvWaitQueue s.blockCnt
  { s with
    msgQueue := s.msgQueue ++ [b]
    recvWaitQueue := woken.que
    blockCnt := woken.blockCnt
    pushed := s.pushed ++ [b] }

/-- The statements of the loop body of `recv` after the test. -/
def popByte (s : State Thread) : State Thread :=
  let woken := wakeupOne s.sendWaitQueue s.blockCnt
  match s.msgQueue with
  | [] => { s with emptyPop := true }
  | b :: rest =>
      { s with
        msgQueue := rest
        sendWaitQueue := woken.que
        blockCnt := woken.blockCnt
        popped := s.popped ++ [b] }

/-- Both `send` and `recv` put the thread on `recv_wait_queue`. -/
def doBlock (s : State Thread) (t : Thread) (pc : Pc) : State Thread :=
  { s with
    recvWaitQueue := s.recvWaitQueue ++ [t]
    blockCnt := block s.blockCnt t
    pc := Function.update s.pc t pc }

def leave (s : State Thread) (t : Thread) : State Thread :=
  { s with pc := Function.update s.pc t .outside }

/-- The loop of `send`, up to its end or to the next `do_block`. -/
def sendLoop (s : State Thread) (t : Thread) : List UInt8 → State Thread
  | [] => leave s t
  | b :: rest =>
      if s.msgQueue.length ≥ maxMsgSize then
        doBlock s t (.inSend b rest)
      else
        sendLoop (pushByte s b) t rest

/-- The loop of `recv`, up to its end or to the next `do_block`. -/
def recvLoop (s : State Thread) (t : Thread) : Nat → State Thread
  | 0 => leave s t
  | remaining + 1 =>
      if s.msgQueue = [] then
        doBlock s t (.inRecv remaining)
      else
        recvLoop (popByte s) t remaining

/-- One step: a call enters the lock, or a woken thread re-takes it and goes
on without repeating its test. Nothing follows a pop of the empty queue. -/
def next (s : State Thread) : Action Thread → Option (State Thread)
  | .send t msg =>
      if s.emptyPop = false ∧ s.pc t = .outside then some (sendLoop s t msg) else none
  | .recv t msgLength =>
      if s.emptyPop = false ∧ s.pc t = .outside then some (recvLoop s t msgLength) else none
  | .resume t =>
      if s.emptyPop = false ∧ s.blockCnt t = 0 then
        match s.pc t with
        | .outside => none
        | .inSend b rest => some (sendLoop (pushByte s b) t rest)
        | .inRecv remaining => some (recvLoop (popByte s) t remaining)
      else none

/-- All runs of any set of senders and receivers on one mailbox. -/
def system : System (State Thread) (Action Thread) :=
  ofFunction (fun s => s = State.initial) next

/-- No pop of the empty queue, the size bound, and the stream property. -/
def StreamSafe (s : State Thread) : Prop :=
  s.emptyPop = false ∧ s.msgQueue.length ≤ maxMsgSize ∧ s.popped <+: s.pushed

/-- A thread that slept on a full (empty) mailbox finds it not full (not
empty) when it re-takes the lock. -/
def ConditionStillHolds (s : State Thread) : Action Thread → Prop
  | .resume t =>
      match s.pc t with
      | .outside => True
      | .inSend _ _ => s.msgQueue.length < maxMsgSize
      | .inRecv _ => s.msgQueue ≠ []
  | _ => True

/-- The queue is what was pushed less what was popped. -/
structure Inv (s : State Thread) : Prop where
  no_emptyPop : s.emptyPop = false
  bounded : s.msgQueue.length ≤ maxMsgSize
  stream : s.pushed = s.popped ++ s.msgQueue

omit [DecidableEq Thread] in
theorem Inv.streamSafe {s : State Thread} (h : Inv s) : StreamSafe s :=
  ⟨h.no_emptyPop, h.bounded, h.stream ▸ List.prefix_append _ _⟩

omit [DecidableEq Thread] in
theorem inv_initial : Inv (State.initial : State Thread) := by
  constructor <;> simp [State.initial]

theorem inv_leave {s : State Thread} (h : Inv s) (t : Thread) : Inv (leave s t) :=
  ⟨h.no_emptyPop, h.bounded, h.stream⟩

theorem inv_doBlock {s : State Thread} (h : Inv s) (t : Thread) (pc : Pc) :
    Inv (doBlock s t pc) :=
  ⟨h.no_emptyPop, h.bounded, h.stream⟩

theorem inv_pushByte {s : State Thread} (h : Inv s) (b : UInt8)
    (hroom : s.msgQueue.length < maxMsgSize) : Inv (pushByte s b) := by
  refine ⟨h.no_emptyPop, ?_, ?_⟩
  · simp only [pushByte, List.length_append, List.length_singleton]
    omega
  · simp [pushByte, h.stream]

theorem inv_popByte {s : State Thread} (h : Inv s) (hbyte : s.msgQueue ≠ []) :
    Inv (popByte s) := by
  have hbounded := h.bounded
  have hstream := h.stream
  rcases hqueue : s.msgQueue with _ | ⟨b, rest⟩
  · exact absurd hqueue hbyte
  · rw [hqueue] at hbounded hstream
    refine ⟨by simp [popByte, hqueue, h.no_emptyPop], ?_, ?_⟩
    · simp only [List.length_cons] at hbounded
      simp only [popByte, hqueue]
      omega
    · simp [popByte, hqueue, hstream]

theorem inv_sendLoop (t : Thread) (msg : List UInt8) {s : State Thread} (h : Inv s) :
    Inv (sendLoop s t msg) := by
  induction msg generalizing s with
  | nil => exact inv_leave h t
  | cons b rest ih =>
      simp only [sendLoop]
      split
      · exact inv_doBlock h t _
      · next hroom => exact ih (inv_pushByte h b (by omega))

theorem inv_recvLoop (t : Thread) (remaining : Nat) {s : State Thread} (h : Inv s) :
    Inv (recvLoop s t remaining) := by
  induction remaining generalizing s with
  | zero => exact inv_leave h t
  | succ remaining ih =>
      simp only [recvLoop]
      split
      · exact inv_doBlock h t _
      · next hbyte => exact ih (inv_popByte h hbyte)

theorem inv_next {s s' : State Thread} (h : Inv s) {a : Action Thread}
    (hallowed : ConditionStillHolds s a) (hnext : next s a = some s') : Inv s' := by
  cases a with
  | send t msg =>
      simp only [next, Option.ite_none_right_eq_some, Option.some.injEq] at hnext
      exact hnext.2 ▸ inv_sendLoop t msg h
  | recv t msgLength =>
      simp only [next, Option.ite_none_right_eq_some, Option.some.injEq] at hnext
      exact hnext.2 ▸ inv_recvLoop t msgLength h
  | resume t =>
      simp only [next, Option.ite_none_right_eq_some] at hnext
      obtain ⟨-, hnext⟩ := hnext
      simp only [ConditionStillHolds] at hallowed
      rcases hpc : s.pc t with _ | ⟨b, rest⟩ | remaining
      · simp [hpc] at hnext
      · simp only [hpc, Option.some.injEq] at hnext hallowed
        exact hnext ▸ inv_sendLoop t rest (inv_pushByte h b hallowed)
      · simp only [hpc, Option.some.injEq] at hnext hallowed
        exact hnext ▸ inv_recvLoop t remaining (inv_popByte h hallowed)

/-- The mailbox is a byte stream in every run in which each woken thread
still finds room, respectively a byte, when it re-takes the lock. -/
theorem streamSafe_of_conditionStillHolds {s : State Thread}
    (h : ReachableUnder system ConditionStillHolds s) : StreamSafe s := by
  have hinv : Inv s := h.invariant (fun _ hs => hs ▸ inv_initial)
    fun _ _ _ hs hallowed hnext => inv_next hs hallowed hnext
  exact hinv.streamSafe

/-- A receiver that waits for a byte, is woken by a sender and then fetches
it. -/
def servedReceiver : State Nat :=
  recvLoop (popByte (sendLoop (recvLoop State.initial 0 1) 1 [7, 8])) 0 0

theorem servedReceiver_streamSafe :
    servedReceiver.popped = [7] ∧ servedReceiver.msgQueue = [8] ∧
      StreamSafe servedReceiver := by
  refine ⟨by decide, by decide, streamSafe_of_conditionStillHolds ?_⟩
  have hwait : ReachableUnder system ConditionStillHolds
      (recvLoop (State.initial : State Nat) 0 1) :=
    ReachableUnder.step (a := .recv 0 1) (ReachableUnder.start rfl) trivial rfl
  have hsent : ReachableUnder system ConditionStillHolds
      (sendLoop (recvLoop (State.initial : State Nat) 0 1) 1 [7, 8]) :=
    ReachableUnder.step (a := .send 1 [7, 8]) hwait trivial rfl
  have hbyte : ConditionStillHolds
      (sendLoop (recvLoop (State.initial : State Nat) 0 1) 1 [7, 8]) (.resume 0) := by
    change (sendLoop (recvLoop (State.initial : State Nat) 0 1) 1 [7, 8]).msgQueue ≠ []
    decide
  exact ReachableUnder.step (a := .resume 0) hsent hbyte rfl

/-- A receiver is woken by the only byte sent, a second one fetches that byte
first, and the first one goes on as if it were still there. -/
def overtakenReceiver : List (Action Nat) :=
  [.recv 0 1, .send 1 [7], .recv 2 1, .resume 0]

theorem overtaken_receiver_pops_empty :
    ¬ ∀ s : State Nat, Reachable system s → StreamSafe s := by
  intro hall
  have hstart : Reachable (system : System (State Nat) (Action Nat)) State.initial :=
    ReachableUnder.start rfl
  have hreach := reachable_of_replay hstart overtakenReceiver rfl
  exact absurd (hall _ hreach).1 (by decide)

end LabKernel.Mailbox
