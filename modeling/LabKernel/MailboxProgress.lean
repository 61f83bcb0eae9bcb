import LabKernel.Mailbox

/-!
When a mailbox leaves a thread asleep although it could go on.

`recv` signals `send_wait_queue`, but a sender that finds the mailbox full
sleeps in `recv_wait_queue`.  As long as no sender has to sleep, every byte
that waiting receivers could fetch is announced to one of them: there are
never more bytes than receivers that were woken and have not gone on yet.
-/

namespace LabKernel.MailboxProgress

open LabKernel.Mailbox
open LabKernel.TransitionSystem
open LabKernel.WaitQueue

variable {Thread : Type*} [DecidableEq Thread] {s s' : State Thread} {t u : Thread}
  {w : List Thread}

/-- The operation of a sleeping thread could proceed. -/
def CouldProceed (s : State Thread) (t : Thread) : Prop :=
  match s.pc t with
  | .outside => False
  | .inSend _ _ => s.msgQueue.length < maxMsgSize
  | .inRecv _ => s.msgQueue ≠ []

/-- Every thread inside the mailbox sleeps without having been woken, and one
of them could proceed. -/
def Stranded (s : State Thread) : Prop :=
  (∀ t, s.pc t ≠ .outside → s.blockCnt t ≠ 0) ∧ ∃ t, CouldProceed s t

/-- The message fits into the mailbox when `send` takes the lock. -/
def Fits (s : State Thread) : Action Thread → Prop
  | .send _ msg => s.msgQueue.length + msg.length ≤ maxMsgSize
  | _ => True

def Receiving (s : State Thread) (t : Thread) : Prop := ∃ remaining, s.pc t = .inRecv remaining

/-- The threads asleep in the mailbox and those woken but not yet gone on,
which are the threads of `w`, while thread `t` holds the lock. -/
structure Held (s : State Thread) (w : List Thread) (t : Thread) : Prop where
  no_sender : ∀ u, u ≠ t → s.pc u = .outside ∨ Receiving s u
  sendWaitQueue : s.sendWaitQueue = []
  awake : s.blockCnt t = 0
  not_queued : t ∉ s.recvWaitQueue
  not_woken : t ∉ w
  nodup : s.recvWaitQueue.Nodup
  queued : ∀ u ∈ s.recvWaitQueue, Receiving s u ∧ s.blockCnt u = 1
  asleep : ∀ u, u ≠ t → Receiving s u → u ∈ s.recvWaitQueue ∨ u ∈ w
  woken : ∀ u ∈ w, Receiving s u ∧ s.blockCnt u = 0
  outside : ∀ u, u ≠ t → s.pc u = .outside → s.blockCnt u = 0
  enough : s.recvWaitQueue ≠ [] → s.msgQueue.length ≤ w.length

/-- The same when no thread holds the lock. -/
structure Free (s : State Thread) (w : List Thread) : Prop where
  no_sender : ∀ u, s.pc u = .outside ∨ Receiving s u
  sendWaitQueue : s.sendWaitQueue = []
  nodup : s.recvWaitQueue.Nodup
  woken_nodup : w.Nodup
  queued : ∀ u ∈ s.recvWaitQueue, Receiving s u ∧ s.blockCnt u = 1
  asleep : ∀ u, Receiving s u → u ∈ s.recvWaitQueue ∨ u ∈ w
  woken : ∀ u ∈ w, Receiving s u ∧ s.blockCnt u = 0
  outside : ∀ u, s.pc u = .outside → s.blockCnt u = 0
  enough : s.recvWaitQueue ≠ [] → s.msgQueue.length ≤ w.length

omit [DecidableEq Thread] in
theorem Receiving.ne_outside (h : Receiving s t) : s.pc t ≠ .outside := by
  obtain ⟨remaining, hpc⟩ := h
  rw [hpc]
  exact Pc.noConfusion

omit [DecidableEq Thread] in
theorem Free.not_stranded (h : Free s w) : ¬Stranded s := by
  rintro ⟨hblocked, t, hcould⟩
  have hempty : w = [] := by
    refine List.eq_nil_iff_forall_not_mem.mpr fun u hu => ?_
    exact hblocked u (h.woken u hu).1.ne_outside (h.woken u hu).2
  rcases h.no_sender t with hpc | hreceiving
  · simp only [CouldProceed, hpc] at hcould
  · have hqueued : t ∈ s.recvWaitQueue := by
      rcases h.asleep t hreceiving with hq | hw
      · exact hq
      · rw [hempty] at hw
        cases hw
    obtain ⟨remaining, hpc⟩ := hreceiving
    simp only [CouldProceed, hpc] at hcould
    have hlength := h.enough (List.ne_nil_of_mem hqueued)
    rw [hempty, List.length_nil, Nat.le_zero, List.length_eq_zero_iff] at hlength
    exact hcould hlength

theorem held_leave (h : Held s w t) (hw : w.Nodup) : Free (leave s t) w := by
  have hpc : ∀ u, u ≠ t → (leave s t).pc u = s.pc u := fun u hu =>
    Function.update_of_ne hu ..
  have hself : (leave s t).pc t = .outside := Function.update_self ..
  have hreceiving : ∀ u, Receiving (leave s t) u ↔ u ≠ t ∧ Receiving s u := by
    intro u
    rcases eq_or_ne u t with rfl | hne
    · simp [Receiving, hself]
    · simp [Receiving, hpc u hne, hne]
  constructor
  · intro u
    rcases eq_or_ne u t with rfl | hne
    · exact Or.inl hself
    · rw [hpc u hne, hreceiving]
      exact (h.no_sender u hne).imp id fun hu => ⟨hne, hu⟩
  · exact h.sendWaitQueue
  · exact h.nodup
  · exact hw
  · intro u hu
    refine ⟨(hreceiving u).mpr ⟨?_, (h.queued u hu).1⟩, (h.queued u hu).2⟩
    rintro rfl
    exact h.not_queued hu
  · intro u hu
    obtain ⟨hne, hu⟩ := (hreceiving u).mp hu
    exact h.asleep u hne hu
  · intro u hu
    refine ⟨(hreceiving u).mpr ⟨?_, (h.woken u hu).1⟩, (h.woken u hu).2⟩
    rintro rfl
    exact h.not_woken hu
  · intro u hu
    rcases eq_or_ne u t with rfl | hne
    · exact h.awake
    · exact h.outside u hne (hpc u hne ▸ hu)
  · exact h.enough

theorem held_doBlock (h : Held s w t) (hw : w.Nodup) (hempty : s.msgQueue = [])
    (remaining : Nat) : Free (doBlock s t (.inRecv remaining)) w := by
  have hpc : ∀ u, u ≠ t → (doBlock s t (.inRecv remaining)).pc u = s.pc u := fun u hu =>
    Function.update_of_ne hu ..
  have hself : (doBlock s t (.inRecv remaining)).pc t = .inRecv remaining :=
    Function.update_self ..
  have hcnt : ∀ u, u ≠ t → (doBlock s t (.inRecv remaining)).blockCnt u = s.blockCnt u :=
    fun u hu => block_of_ne hu
  have hreceiving : ∀ u, u ≠ t →
      (Receiving (doBlock s t (.inRecv remaining)) u ↔ Receiving s u) := by
    intro u hne
    simp [Receiving, hpc u hne]
  have hcases : ∀ u ∈ (doBlock s t (.inRecv remaining)).recvWaitQueue,
      (u ≠ t ∧ u ∈ s.recvWaitQueue) ∨ u = t := by
    intro u hu
    rcases List.mem_append.mp hu with hold | hnew
    · refine Or.inl ⟨?_, hold⟩
      rintro rfl
      exact h.not_queued hold
    · exact Or.inr (List.mem_singleton.mp hnew)
  constructor
  · intro u
    rcases eq_or_ne u t with rfl | hne
    · exact Or.inr ⟨remaining, hself⟩
    · rw [hpc u hne, hreceiving u hne]
      exact h.no_sender u hne
  · exact h.sendWaitQueue
  · refine List.nodup_append.mpr ⟨h.nodup, List.nodup_singleton t, ?_⟩
    rintro a ha b hb rfl
    rw [List.mem_singleton.mp hb] at ha
    exact h.not_queued ha
  · exact hw
  · intro u hu
    rcases hcases u hu with ⟨hne, hu⟩ | rfl
    · rw [hreceiving u hne, hcnt u hne]
      exact h.queued u hu
    · refine ⟨⟨remaining, hself⟩, ?_⟩
      simp [doBlock, h.awake]
  · intro u hu
    rcases eq_or_ne u t with rfl | hne
    · exact Or.inl (List.mem_append_right _ (List.mem_singleton_self u))
    · exact (h.asleep u hne ((hreceiving u hne).mp hu)).imp (List.mem_append_left _) id
  · intro u hu
    have hne : u ≠ t := by
      rintro rfl
      exact h.not_woken hu
    rw [hreceiving u hne, hcnt u hne]
    exact h.woken u hu
  · intro u hu
    have hne : u ≠ t := by
      rintro rfl
      rw [hself] at hu
      cases hu
    rw [hcnt u hne]
    exact h.outside u hne (hpc u hne ▸ hu)
  · intro _
    simp [doBlock, hempty]

theorem held_popByte (h : Held s w t) : Held (popByte s) w t := by
  rcases hqueue : s.msgQueue with _ | ⟨b, rest⟩
  · simp only [popByte, hqueue]
    exact ⟨h.no_sender, h.sendWaitQueue, h.awake, h.not_queued, h.not_woken, h.nodup, h.queued,
      h.asleep, h.woken, h.outside, by simp⟩
  · have hcnt : (popByte s).blockCnt = s.blockCnt := by
      simp [popByte, hqueue, wakeupOne, h.sendWaitQueue]
    have hsend : (popByte s).sendWaitQueue = [] := by
      simp [popByte, hqueue, wakeupOne, h.sendWaitQueue]
    have hpc : (popByte s).pc = s.pc := by simp [popByte, hqueue]
    have hrecv : (popByte s).recvWaitQueue = s.recvWaitQueue := by simp [popByte, hqueue]
    have hreceiving : ∀ u, Receiving (popByte s) u ↔ Receiving s u := by simp [Receiving, hpc]
    constructor
    · simpa only [hpc, hreceiving] using h.no_sender
    · exact hsend
    · rw [hcnt]
      exact h.awake
    · rw [hrecv]
      exact h.not_queued
    · exact h.not_woken
    · rw [hrecv]
      exact h.nodup
    · simpa only [hrecv, hreceiving, hcnt] using h.queued
    · simpa only [hrecv, hreceiving] using h.asleep
    · simpa only [hreceiving, hcnt] using h.woken
    · simpa only [hpc, hcnt] using h.outside
    · intro hne
      rw [hrecv] at hne
      have hlength := h.enough hne
      rw [hqueue, List.length_cons] at hlength
      have : (popByte s).msgQueue = rest := by simp [popByte, hqueue]
      rw [this]
      omega

/-- A byte that is pushed while receivers wait is announced to the first of
them. -/
theorem held_pushByte (h : Held s w t) (hw : w.Nodup) (b : UInt8) :
    ∃ w', Held (pushByte s b) w' t ∧ w'.Nodup := by
  rcases hqueue : s.recvWaitQueue with _ | ⟨v, rest⟩
  · refine ⟨w, ?_, hw⟩
    have hcnt : (pushByte s b).blockCnt = s.blockCnt := by simp [pushByte, wakeupOne, hqueue]
    have hrecv : (pushByte s b).recvWaitQueue = s.recvWaitQueue := by
      simp [pushByte, wakeupOne, hqueue]
    constructor
    · exact h.no_sender
    · exact h.sendWaitQueue
    · rw [hcnt]
      exact h.awake
    · rw [hrecv]
      exact h.not_queued
    · exact h.not_woken
    · rw [hrecv]
      exact h.nodup
    · rw [hrecv, hcnt]
      exact h.queued
    · rw [hrecv]
      exact h.asleep
    · rw [hcnt]
      exact h.woken
    · rw [hcnt]
      exact h.outside
    · intro hne
      rw [hrecv] at hne
      exact absurd hqueue hne
  · have hv : v ∈ s.recvWaitQueue := hqueue ▸ List.mem_cons_self
    have hvt : v ≠ t := by
      rintro rfl
      exact h.not_queued hv
    have hvw : v ∉ w := by
      intro hmem
      have hzero := (h.woken v hmem).2
      rw [(h.queued v hv).2] at hzero
      cases hzero
    have hnodup := h.nodup
    rw [hqueue, List.nodup_cons] at hnodup
    have hcnt : ∀ u, u ≠ v → (pushByte s b).blockCnt u = s.blockCnt u := by
      intro u hu
      simp [pushByte, wakeupOne, hqueue, wakeup_of_ne hu]
    have hcntv : (pushByte s b).blockCnt v = 0 := by
      simp [pushByte, wakeupOne, hqueue, (h.queued v hv).2]
    have hrecv : (pushByte s b).recvWaitQueue = rest := by simp [pushByte, wakeupOne, hqueue]
    have hmem : ∀ u, u ∈ s.recvWaitQueue ↔ u = v ∨ u ∈ rest := by simp [hqueue]
    refine ⟨v :: w, ?_, List.nodup_cons.mpr ⟨hvw, hw⟩⟩
    constructor
    · exact h.no_sender
    · exact h.sendWaitQueue
    · rw [hcnt t hvt.symm]
      exact h.awake
    · rw [hrecv]
      exact fun ht => h.not_queued ((hmem t).mpr (Or.inr ht))
    · exact fun ht => h.not_woken ((List.mem_cons.mp ht).resolve_left hvt.symm)
    · rw [hrecv]
      exact hnodup.2
    · intro u hu
      rw [hrecv] at hu
      have huv : u ≠ v := by
        rintro rfl
        exact hnodup.1 hu
      rw [hcnt u huv]
      exact h.queued u ((hmem u).mpr (Or.inr hu))
    · intro u hne hu
      rw [hrecv]
      rcases h.asleep u hne hu with hold | hold
      · rcases (hmem u).mp hold with rfl | hrest
        · exact Or.inr List.mem_cons_self
        · exact Or.inl hrest
      · exact Or.inr (List.mem_cons_of_mem v hold)
    · intro u hu
      rcases List.mem_cons.mp hu with rfl | hold
      · exact ⟨(h.queued u hv).1, hcntv⟩
      · have huv : u ≠ v := by
          rintro rfl
          exact hvw hold
        rw [hcnt u huv]
        exact h.woken u hold
    · intro u hne hu
      have huv : u ≠ v := by
        rintro rfl
        exact (h.queued u hv).1.ne_outside hu
      rw [hcnt u huv]
      exact h.outside u hne hu
    · intro _
      have hlength := h.enough (by rw [hqueue]; exact List.cons_ne_nil v rest)
      simp only [pushByte, List.length_append, List.length_cons, List.length_nil]
      omega

theorem held_sendLoop (h : Held s w t) (hw : w.Nodup) (msg : List UInt8)
    (hfits : s.msgQueue.length + msg.length ≤ maxMsgSize) : ∃ w', Free (sendLoop s t msg) w' := by
  induction msg generalizing s w with
  | nil => exact ⟨w, held_leave h hw⟩
  | cons b rest ih =>
      rw [List.length_cons] at hfits
      rw [sendLoop, if_neg (by omega)]
      obtain ⟨w', h', hw'⟩ := held_pushByte h hw b
      refine ih h' hw' ?_
      simp only [pushByte, List.length_append, List.length_singleton]
      omega

theorem held_recvLoop (h : Held s w t) (hw : w.Nodup) (remaining : Nat) :
    ∃ w', Free (recvLoop s t remaining) w' := by
  induction remaining generalizing s with
  | zero => exact ⟨w, held_leave h hw⟩
  | succ remaining ih =>
      rw [recvLoop]
      split
      next hempty => exact ⟨w, held_doBlock h hw hempty remaining⟩
      next => exact ih (held_popByte h)

omit [DecidableEq Thread] in
theorem Free.enter (h : Free s w) (ht : s.pc t = .outside) : Held s w t where
  no_sender u _ := h.no_sender u
  sendWaitQueue := h.sendWaitQueue
  awake := h.outside t ht
  not_queued hq := (h.queued t hq).1.ne_outside ht
  not_woken hw := (h.woken t hw).1.ne_outside ht
  nodup := h.nodup
  queued := h.queued
  asleep u _ := h.asleep u
  woken := h.woken
  outside u _ := h.outside u
  enough := h.enough

theorem Free.resume (h : Free s w) (ht : Receiving s t) (hcnt : s.blockCnt t = 0) :
    Held (popByte s) (w.erase t) t := by
  have hnot : t ∉ s.recvWaitQueue := by
    intro hq
    rw [(h.queued t hq).2] at hcnt
    cases hcnt
  have hmem : t ∈ w := (h.asleep t ht).resolve_left hnot
  have hwoken : ∀ u, u ∈ w.erase t ↔ u ≠ t ∧ u ∈ w := fun u => h.woken_nodup.mem_erase_iff
  have hsend := h.sendWaitQueue
  have hstate : (popByte s).pc = s.pc ∧ (popByte s).blockCnt = s.blockCnt ∧
      (popByte s).sendWaitQueue = [] ∧ (popByte s).recvWaitQueue = s.recvWaitQueue ∧
      (popByte s).msgQueue.length = s.msgQueue.length - 1 := by
    rcases hqueue : s.msgQueue with _ | ⟨b, rest⟩ <;>
      simp [popByte, hqueue, wakeupOne, hsend]
  obtain ⟨hpc, hcnts, hsendQueue, hrecv, hlength⟩ := hstate
  have hreceiving : ∀ u, Receiving (popByte s) u ↔ Receiving s u := by simp [Receiving, hpc]
  constructor
  · intro u _
    rw [hpc, hreceiving]
    exact h.no_sender u
  · exact hsendQueue
  · rw [hcnts]
    exact hcnt
  · rw [hrecv]
    exact hnot
  · exact fun hu => ((hwoken t).mp hu).1 rfl
  · rw [hrecv]
    exact h.nodup
  · intro u hu
    rw [hrecv] at hu
    rw [hreceiving, hcnts]
    exact h.queued u hu
  · intro u hne hu
    rw [hrecv, hwoken]
    exact (h.asleep u ((hreceiving u).mp hu)).imp id fun hw => ⟨hne, hw⟩
  · intro u hu
    rw [hreceiving, hcnts]
    exact h.woken u ((hwoken u).mp hu).2
  · intro u _ hu
    rw [hcnts]
    exact h.outside u (hpc ▸ hu)
  · intro hne
    rw [hrecv] at hne
    have hle := h.enough hne
    rw [hlength, List.length_erase_of_mem hmem]
    omega

theorem free_next (h : Free s w) {a : Action Thread} (hfits : Fits s a)
    (hnext : next s a = some s') : ∃ w', Free s' w' := by
  cases a with
  | send t msg =>
      simp only [next, Option.ite_none_right_eq_some, Option.some.injEq] at hnext
      obtain ⟨⟨-, hpc⟩, rfl⟩ := hnext
      exact held_sendLoop (h.enter hpc) h.woken_nodup msg hfits
  | recv t msgLength =>
      simp only [next, Option.ite_none_right_eq_some, Option.some.injEq] at hnext
      obtain ⟨⟨-, hpc⟩, rfl⟩ := hnext
      exact held_recvLoop (h.enter hpc) h.woken_nodup msgLength
  | resume t =>
      simp only [next, Option.ite_none_right_eq_some] at hnext
      obtain ⟨⟨-, hcnt⟩, hnext⟩ := hnext
      rcases h.no_sender t with hpc | ⟨remaining, hpc⟩
      · simp only [hpc] at hnext
        cases hnext
      · simp only [hpc, Option.some.injEq] at hnext
        subst hnext
        exact held_recvLoop (h.resume ⟨remaining, hpc⟩ hcnt) (h.woken_nodup.erase t) remaining

omit [DecidableEq Thread] in
theorem free_initial : Free (State.initial : State Thread) [] := by
  constructor <;> simp [State.initial, Receiving]

/-- No thread is stranded in any run in which every message fits into the
mailbox when it is sent. -/
theorem not_stranded_of_fits (h : ReachableUnder system Fits s) : ¬Stranded s := by
  have hfree : ∃ w, Free s w := by
    refine h.invariant (P := fun s => ∃ w, Free s w) ?_ ?_
    · rintro s rfl
      exact ⟨[], free_initial⟩
    · rintro s a s' ⟨w, hw⟩ hfits hnext
      exact free_next hw hfits hnext
  obtain ⟨w, hw⟩ := hfree
  exact hw.not_stranded

/-- A receiver waits for two bytes of which one has been sent. -/
def halfServed : State Nat := sendLoop (recvLoop State.initial 0 2) 1 [7]

theorem halfServed_not_stranded : halfServed.msgQueue = [7] ∧ ¬Stranded halfServed := by
  have hwait : ReachableUnder system Fits (recvLoop (State.initial : State Nat) 0 2) :=
    ReachableUnder.step (a := .recv 0 2) (ReachableUnder.start rfl) trivial rfl
  have hsent : ReachableUnder system Fits halfServed := by
    refine ReachableUnder.step (a := .send 1 [7]) hwait ?_ rfl
    change ([] : List UInt8).length + [(7 : UInt8)].length ≤ maxMsgSize
    decide
  exact ⟨by decide, not_stranded_of_fits hsent⟩

/-- The mailbox holds the given bytes, and thread 0 sleeps in `send` with one
more. -/
def asleepSender (filling : List UInt8) : State Nat :=
  doBlock { (State.initial : State Nat) with msgQueue := filling, pushed := filling } 0
    (.inSend 7 [])

theorem sendLoop_fill (queued filling : List UInt8)
    (hfull : queued.length + filling.length = maxMsgSize) :
    sendLoop { (State.initial : State Nat) with msgQueue := queued, pushed := queued } 0
      (filling ++ [7]) = asleepSender (queued ++ filling) := by
  induction filling generalizing queued with
  | nil =>
      rw [List.length_nil, Nat.add_zero] at hfull
      rw [List.nil_append, sendLoop, if_pos hfull.ge, List.append_nil]
      rfl
  | cons c rest ih =>
      rw [List.length_cons] at hfull
      have hroom : ¬queued.length ≥ maxMsgSize := by omega
      rw [List.cons_append, sendLoop, if_neg hroom]
      refine (ih (queued ++ [c]) ?_).trans ?_
      · rw [List.length_append, List.length_singleton]
        omega
      · rw [List.append_assoc, List.singleton_append]

theorem fetch_strands (c : UInt8) (rest : List UInt8) (hroom : rest.length < maxMsgSize) :
    Stranded (recvLoop (asleepSender (c :: rest)) 1 1) := by
  have hpc : ∀ t, (recvLoop (asleepSender (c :: rest)) 1 1).pc t =
      if t = 0 then .inSend 7 [] else .outside := by
    intro t
    rcases eq_or_ne t 0 with rfl | hne
    · simp [recvLoop, asleepSender, doBlock, popByte, leave]
    · rcases eq_or_ne t 1 with rfl | hne'
      · simp [recvLoop, asleepSender, doBlock, popByte, leave]
      · simp [recvLoop, asleepSender, doBlock, popByte, leave, hne, hne', State.initial]
  refine ⟨fun t ht => ?_, 0, ?_⟩
  · rcases eq_or_ne t 0 with rfl | hne
    · simp [recvLoop, asleepSender, doBlock, popByte, leave, State.initial, wakeupOne]
    · rw [hpc, if_neg hne] at ht
      exact absurd rfl ht
  · rw [CouldProceed, hpc, if_pos rfl]
    simpa [recvLoop, asleepSender, doBlock, popByte, leave] using hroom

/-- A message of one byte more than the mailbox holds is sent, and one byte is
fetched: the sender stays asleep. -/
theorem overfilled_sender_stranded :
    ¬ ∀ s : State Nat, Reachable system s → ¬Stranded s := by
  intro hall
  obtain ⟨c, rest, hfull⟩ : ∃ c rest, (c :: rest : List UInt8).length = maxMsgSize :=
    ⟨7, List.replicate 4095 7, by rw [List.length_cons, List.length_replicate]; rfl⟩
  have hsent : Reachable system (asleepSender (c :: rest)) := by
    refine ReachableUnder.step (a := .send 0 ((c :: rest) ++ [7])) (ReachableUnder.start rfl)
      trivial (congrArg some ?_)
    exact sendLoop_fill [] (c :: rest) (by rw [List.length_nil, Nat.zero_add, hfull])
  have hfetched : Reachable system (recvLoop (asleepSender (c :: rest)) 1 1) :=
    ReachableUnder.step (a := .recv 1 1) hsent trivial rfl
  rw [List.length_cons] at hfull
  exact hall _ hfetched (fetch_strands c rest (by omega))

end LabKernel.MailboxProgress
