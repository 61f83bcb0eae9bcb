import LabKernel.TransitionSystem
import LabKernel.WaitQueue

/-!
The transmit ring of the e1000 driver (`e1000_transmit` in `drivers/e1000.cpp`,
`sys_net_send` in `net.cpp`) together with the device.

Every access of the driver to a register, a descriptor or a byte of a packet
buffer is one step, and the device may send a packet between any two of them.
The write of TDT is the driver's last access: the call returns 0 with it.
Addresses of packet buffers are their indices in `tx_pkt_buffer`.
-/

namespace LabKernel.TransmitRing

open LabKernel.TransitionSystem
open LabKernel.WaitQueue

variable {Thread : Type*} [DecidableEq Thread]

/-- `TXDESCS`. -/
def txDescs : Nat := 64

/-- `TX_PKT_SIZE`. -/
def txPktSize : Nat := 2048

/-- The fields of `e1000_tx_desc` that say what is sent. -/
structure TxDesc where
  addr : Nat
  length : UInt16

/-- Where `e1000_transmit` is. -/
inductive Stage where
  | readHead
  | readTail (tdh : Nat)
  /-- In `memcpy`, with the given number of bytes copied. -/
  | copy (tdt copied : Nat)
  | writeTail (tdt : Nat)
  deriving DecidableEq, Repr

/-- A call of `sys_net_send` that holds `net_buffer_lock`. -/
structure Call (Thread : Type*) where
  thread : Thread
  packet : List UInt8
  stage : Stage

/-- The ring, the threads asleep in `sys_net_send`, and the call under way.
`sent` and `accepted` are the packets that the device sent and those for which
`e1000_transmit` returned 0; `refused` holds, for each return of -1, how many
accepted packets were unsent when the call read TDH, and `unsent` is that
number for the call under way. -/
structure State (Thread : Type*) where
  txDescArray : Nat → TxDesc
  txPktBuffer : Nat → Nat → UInt8
  tdh : Nat
  tdt : Nat
  call : Option (Call Thread)
  asleep : Thread → Option (List UInt8)
  sendWaitQueue : List Thread
  blockCnt : Thread → Int
  sent : List (List UInt8)
  accepted : List (List UInt8)
  refused : List Nat
  unsent : Nat

/-- After `e1000_configure_tx`, with whatever the buffers hold. -/
def configured (txPktBuffer : Nat → Nat → UInt8) : State Thread where
  txDescArray := fun i => ⟨i, 0⟩
  txPktBuffer := txPktBuffer
  tdh := 0
  tdt := 0
  call := none
  asleep := fun _ => none
  sendWaitQueue := []
  blockCnt := fun _ => 0
  sent := []
  accepted := []
  refused := []
  unsent := 0

inductive Action (Thread : Type*) where
  | send (t : Thread) (packet : List UInt8)
  /-- A woken thread takes the lock and tries again. -/
  | retry (t : Thread)
  /-- One access of the call under way. -/
  | driver
  | device
  /-- The TXQE branch of `handle_e1000_irq`. -/
  | irq

/-- The packet described by descriptor TDH is sent, then TDH moves on. -/
def deviceSend (s : State Thread) : State Thread :=
  let desc := s.txDescArray s.tdh
  { s with
    tdh := (s.tdh + 1) % txDescs
    sent := s.sent ++ [(List.range desc.length.toNat).map (s.txPktBuffer desc.addr)] }

/-- The body of the loop of `sys_net_send` when the ring was full. -/
def refuse (s : State Thread) (c : Call Thread) : State Thread :=
  { s with
    call := none
    asleep := Function.update s.asleep c.thread (some c.packet)
    sendWaitQueue := s.sendWaitQueue ++ [c.thread]
    blockCnt := block s.blockCnt c.thread
    refused := s.refused ++ [s.unsent] }

/-- One access of `e1000_transmit`. -/
def transmit (s : State Thread) (c : Call Thread) : State Thread :=
  match c.stage with
  | .readHead =>
      { s with
        call := some { c with stage := .readTail s.tdh }
        unsent := s.accepted.length - s.sent.length }
  | .readTail tdh =>
      if (s.tdt + 1) % txDescs = tdh then refuse s c
      else { s with call := some { c with stage := .copy s.tdt 0 } }
  | .copy tdt copied =>
      if h : copied < c.packet.length then
        { s with
          txPktBuffer := Function.update s.txPktBuffer tdt
            (Function.update (s.txPktBuffer tdt) copied c.packet[copied])
          call := some { c with stage := .copy tdt (copied + 1) } }
      else
        { s with
          txDescArray := Function.update s.txDescArray tdt
            { s.txDescArray tdt with length := c.packet.length.toUInt16 }
          call := some { c with stage := .writeTail tdt } }
  | .writeTail tdt =>
      { s with
        tdt := (tdt + 1) % txDescs
        call := none
        accepted := s.accepted ++ [c.packet] }

def next (s : State Thread) : Action Thread → Option (State Thread)
  | .send t packet =>
      if s.call.isNone ∧ s.asleep t = none ∧ packet.length ≤ txPktSize then
        some { s with call := some ⟨t, packet, .readHead⟩ }
      else none
  | .retry t =>
      match s.asleep t with
      | none => none
      | some packet =>
          if s.call.isNone ∧ s.blockCnt t = 0 then
            some { s with
              call := some ⟨t, packet, .readHead⟩
              asleep := Function.update s.asleep t none }
          else none
  | .driver => s.call.map (transmit s)
  | .device => if s.tdh ≠ s.tdt then some (deviceSend s) else none
  | .irq =>
      if s.call.isNone then
        some { s with
          sendWaitQueue := []
          blockCnt := (wakeupAll s.sendWaitQueue s.blockCnt).2 }
      else none

/-- All runs of any set of sending threads against the device. -/
def system : System (State Thread) (Action Thread) :=
  ofFunction (fun s => ∃ buffer, s = configured buffer) next

/-- Descriptor `i` lies between TDH and TDT on the ring. -/
def Owned (s : State Thread) (i : Nat) : Prop :=
  if s.tdh ≤ s.tdt then s.tdh ≤ i ∧ i < s.tdt
  else (s.tdh ≤ i ∧ i < txDescs) ∨ i < s.tdt

/-- What the device sent is the beginning of what was accepted, only a full
ring refuses, and what the device still has to send stays as it is. -/
structure Delivers (s : State Thread) : Prop where
  sent : s.sent <+: s.accepted
  refused : ∀ n ∈ s.refused, n = txDescs - 1
  kept : ∀ a s', next s a = some s' → ∀ i, Owned s i →
    s'.txDescArray i = s.txDescArray i ∧ s'.txPktBuffer i = s.txPktBuffer i

/-- Descriptor and buffer `i` describe the packet. -/
structure Holds (desc : Nat → TxDesc) (buffer : Nat → Nat → UInt8) (i : Nat)
    (packet : List UInt8) : Prop where
  length_eq : (desc i).length.toNat = packet.length
  byte : ∀ j b, packet[j]? = some b → buffer i j = b

/-- What the call under way has done.  The head it read may be out of date:
the device has sent at least `h` packets since. -/
def Progress (s : State Thread) (packet : List UInt8) : Stage → Prop
  | .readHead => True
  | .readTail tdh => ∃ h ≤ s.sent.length, tdh = h % txDescs ∧
      s.accepted.length = h + s.unsent ∧ s.unsent < txDescs
  | .copy tdt copied => tdt = s.tdt ∧ s.accepted.length + 1 < s.sent.length + txDescs ∧
      ∀ j < copied, ∀ b, packet[j]? = some b → s.txPktBuffer tdt j = b
  | .writeTail tdt => tdt = s.tdt ∧ s.accepted.length + 1 < s.sent.length + txDescs ∧
      Holds s.txDescArray s.txPktBuffer tdt packet

/-- The `k`-th accepted packet lies in slot `k` modulo the ring until it is
sent. -/
structure Inv (s : State Thread) : Prop where
  tdh : s.tdh = s.sent.length % txDescs
  tdt : s.tdt = s.accepted.length % txDescs
  room : s.accepted.length < s.sent.length + txDescs
  sent : s.sent <+: s.accepted
  addr : ∀ i, (s.txDescArray i).addr = i
  holds : ∀ k packet, s.sent.length ≤ k → s.accepted[k]? = some packet →
    Holds s.txDescArray s.txPktBuffer (k % txDescs) packet
  asleep : ∀ t packet, s.asleep t = some packet → packet.length ≤ txPktSize
  short : ∀ c, s.call = some c → c.packet.length ≤ txPktSize
  progress : ∀ c, s.call = some c → Progress s c.packet c.stage
  refused : ∀ n ∈ s.refused, n = txDescs - 1

omit [DecidableEq Thread] in
theorem inv_configured (buffer : Nat → Nat → UInt8) : Inv (configured buffer : State Thread) := by
  constructor <;> simp [configured, txDescs]

omit [DecidableEq Thread] in
theorem Inv.slot_ne {s : State Thread} (h : Inv s) {k : Nat} {packet : List UInt8}
    (hk : s.sent.length ≤ k) (hget : s.accepted[k]? = some packet) : k % txDescs ≠ s.tdt := by
  obtain ⟨hlt, -⟩ := List.getElem?_eq_some_iff.mp hget
  have hroom := h.room
  rw [h.tdt]
  unfold txDescs at *
  omega

omit [DecidableEq Thread] in
theorem Owned.ne_tdt {s : State Thread} {i : Nat} (h : Owned s i) : i ≠ s.tdt := by
  unfold Owned at h
  split at h <;> omega

theorem Holds.read {desc : Nat → TxDesc} {buffer : Nat → Nat → UInt8} {i : Nat}
    {packet : List UInt8} (h : Holds desc buffer i packet) (haddr : (desc i).addr = i) :
    (List.range (desc i).length.toNat).map (buffer (desc i).addr) = packet := by
  rw [h.length_eq, haddr]
  refine List.ext_getElem (by simp) fun j hj hj' => ?_
  rw [List.getElem_map, List.getElem_range]
  exact h.byte j _ (List.getElem?_eq_getElem hj')

omit [DecidableEq Thread] in
theorem inv_deviceSend {s : State Thread} (h : Inv s) (hbusy : s.tdh ≠ s.tdt) :
    Inv (deviceSend s) := by
  have hroom := h.room
  have hle := h.sent.length_le
  have hlt : s.sent.length < s.accepted.length := by
    rw [h.tdh, h.tdt] at hbusy
    refine Nat.lt_of_le_of_ne hle fun heq => ?_
    rw [heq] at hbusy
    exact hbusy rfl
  have hget : s.accepted[s.sent.length]? = some s.accepted[s.sent.length] :=
    List.getElem?_eq_getElem hlt
  have hread := (h.holds _ _ (Nat.le_refl _) hget).read (h.addr _)
  rw [← h.tdh] at hread
  have hlength : (deviceSend s).sent.length = s.sent.length + 1 := by
    simp [deviceSend]
  constructor
  · rw [hlength]
    simp only [deviceSend, h.tdh, txDescs]
    omega
  · exact h.tdt
  · rw [hlength]
    change s.accepted.length < _
    omega
  · simp only [deviceSend, hread]
    refine List.prefix_iff_eq_take.mpr ?_
    rw [List.length_append, List.length_singleton, ← List.take_append_getElem hlt,
      ← List.prefix_iff_eq_take.mp h.sent]
  · exact h.addr
  · intro k packet hk hpacket
    rw [hlength] at hk
    exact h.holds k packet (by omega) hpacket
  · exact h.asleep
  · exact h.short
  · intro c hc
    have hold := h.progress c hc
    rcases hstage : c.stage with _ | tdh | ⟨tdt, copied⟩ | tdt <;>
      simp only [hstage, Progress, hlength] at hold ⊢
    · obtain ⟨n, hn, hrest⟩ := hold
      exact ⟨n, by omega, hrest⟩
    · exact ⟨hold.1, by have := hold.2.1; simp only [deviceSend]; omega, hold.2.2⟩
    · exact ⟨hold.1, by have := hold.2.1; simp only [deviceSend]; omega, hold.2.2⟩
  · exact h.refused

section Driver

variable {s : State Thread} {c : Call Thread} {tdt : Nat}

omit [DecidableEq Thread] in
theorem Inv.holds_of_eq_off (h : Inv s) (desc : Nat → TxDesc) (buffer : Nat → Nat → UInt8)
    (hdesc : ∀ i, i ≠ s.tdt → desc i = s.txDescArray i)
    (hbuffer : ∀ i, i ≠ s.tdt → buffer i = s.txPktBuffer i) {k : Nat} {packet : List UInt8}
    (hk : s.sent.length ≤ k) (hget : s.accepted[k]? = some packet) :
    Holds desc buffer (k % txDescs) packet := by
  have hne := h.slot_ne hk hget
  constructor
  · rw [hdesc _ hne]
    exact (h.holds k packet hk hget).length_eq
  · rw [hbuffer _ hne]
    exact (h.holds k packet hk hget).byte

omit [DecidableEq Thread] in
theorem inv_readHead (h : Inv s) (hc : s.call = some c) :
    Inv { s with
      call := some { c with stage := .readTail s.tdh }
      unsent := s.accepted.length - s.sent.length } := by
  have hle := h.sent.length_le
  have hroom := h.room
  refine { h with short := ?_, progress := ?_ }
  · rintro _ ⟨⟩
    exact h.short c hc
  · rintro _ ⟨⟩
    exact ⟨s.sent.length, Nat.le_refl _, h.tdh, by dsimp only; omega, by dsimp only; omega⟩

theorem inv_refuse (h : Inv s) (hc : s.call = some c) {tdh : Nat}
    (hprogress : Progress s c.packet (.readTail tdh)) (hfull : (s.tdt + 1) % txDescs = tdh) :
    Inv (refuse s c) := by
  obtain ⟨n, hn, rfl, hlength, hunsent⟩ := hprogress
  refine { h with asleep := ?_, short := nofun, progress := nofun, refused := ?_ }
  · intro t packet ht
    rcases eq_or_ne t c.thread with rfl | hne
    · simp only [refuse, Function.update_self, Option.some.injEq] at ht
      exact ht ▸ h.short c hc
    · simp only [refuse, Function.update_of_ne hne] at ht
      exact h.asleep t packet ht
  · intro m hm
    rcases List.mem_append.mp hm with hm | hm
    · exact h.refused m hm
    · rw [List.mem_singleton.mp hm]
      rw [h.tdt, hlength] at hfull
      unfold txDescs at *
      omega

omit [DecidableEq Thread] in
theorem inv_enter_copy (h : Inv s) (hc : s.call = some c) {tdh : Nat}
    (hprogress : Progress s c.packet (.readTail tdh)) (hroom : (s.tdt + 1) % txDescs ≠ tdh) :
    Inv { s with call := some { c with stage := .copy s.tdt 0 } } := by
  obtain ⟨n, hn, rfl, hlength, hunsent⟩ := hprogress
  refine { h with short := ?_, progress := ?_ }
  · rintro _ ⟨⟩
    exact h.short c hc
  · rintro _ ⟨⟩
    refine ⟨rfl, ?_, nofun⟩
    rw [h.tdt, hlength] at hroom
    dsimp only
    unfold txDescs at *
    omega

omit [DecidableEq Thread] in
theorem inv_copy_byte (h : Inv s) (hc : s.call = some c) {copied : Nat}
    (hprogress : Progress s c.packet (.copy tdt copied)) (hlt : copied < c.packet.length) :
    Inv { s with
      txPktBuffer := Function.update s.txPktBuffer tdt
        (Function.update (s.txPktBuffer tdt) copied c.packet[copied])
      call := some { c with stage := .copy tdt (copied + 1) } } := by
  obtain ⟨rfl, hroom, hbytes⟩ := hprogress
  refine { h with holds := fun k p hk hp => ?_, short := ?_, progress := ?_ }
  · exact h.holds_of_eq_off _ _ (fun _ _ => rfl) (fun i hi => Function.update_of_ne hi ..) hk hp
  · rintro _ ⟨⟩
    exact h.short c hc
  · rintro _ ⟨⟩
    refine ⟨rfl, hroom, fun j hj b hb => ?_⟩
    dsimp only
    rw [Function.update_self]
    rcases eq_or_ne j copied with rfl | hne
    · rw [Function.update_self]
      rw [List.getElem?_eq_getElem hlt, Option.some.injEq] at hb
      exact hb
    · rw [Function.update_of_ne hne]
      exact hbytes j (by omega) b hb

omit [DecidableEq Thread] in
theorem inv_write_length (h : Inv s) (hc : s.call = some c) {copied : Nat}
    (hprogress : Progress s c.packet (.copy tdt copied)) (hend : ¬copied < c.packet.length) :
    Inv { s with
      txDescArray := Function.update s.txDescArray tdt
        { s.txDescArray tdt with length := c.packet.length.toUInt16 }
      call := some { c with stage := .writeTail tdt } } := by
  obtain ⟨rfl, hroom, hbytes⟩ := hprogress
  have hshort := h.short c hc
  refine { h with addr := ?_, holds := fun k p hk hp => ?_, short := ?_, progress := ?_ }
  · intro i
    dsimp only
    rcases eq_or_ne i s.tdt with rfl | hne
    · rw [Function.update_self]
      exact h.addr _
    · rw [Function.update_of_ne hne]
      exact h.addr _
  · exact h.holds_of_eq_off _ _ (fun i hi => Function.update_of_ne hi ..) (fun _ _ => rfl) hk hp
  · rintro _ ⟨⟩
    exact hshort
  · rintro _ ⟨⟩
    refine ⟨rfl, hroom, ?_, fun j b hb => ?_⟩
    · dsimp only
      rw [Function.update_self]
      -- the descriptor's 16-bit length field holds every admissible length
      refine Nat.mod_eq_of_lt ?_
      unfold txPktSize at hshort
      change c.packet.length < 65536
      omega
    · obtain ⟨hj, -⟩ := List.getElem?_eq_some_iff.mp hb
      exact hbytes j (by dsimp only at hj; omega) b hb

omit [DecidableEq Thread] in
theorem inv_write_tail (h : Inv s) (hprogress : Progress s c.packet (.writeTail tdt)) :
    Inv { s with
      tdt := (tdt + 1) % txDescs
      call := none
      accepted := s.accepted ++ [c.packet] } := by
  obtain ⟨rfl, hroom, hholds⟩ := hprogress
  refine { h with
    tdt := ?_, room := ?_, sent := h.sent.trans (List.prefix_append ..), holds := ?_
    short := nofun, progress := nofun }
  · dsimp only
    rw [h.tdt, List.length_append, List.length_singleton]
    unfold txDescs
    omega
  · simpa using hroom
  · intro k packet hk hget
    rcases Nat.lt_or_ge k s.accepted.length with hlt | hge
    · rw [List.getElem?_append_left hlt] at hget
      exact h.holds k packet hk hget
    · rw [List.getElem?_append_right hge, List.getElem?_singleton] at hget
      split at hget
      · next hzero =>
          rw [Option.some.injEq] at hget
          have hk : k % txDescs = s.tdt := by
            rw [h.tdt]
            congr 1
            omega
          rw [hk, ← hget]
          exact hholds
      · cases hget

theorem inv_transmit (h : Inv s) (hc : s.call = some c) : Inv (transmit s c) := by
  have hprogress := h.progress c hc
  unfold transmit
  split
  · exact inv_readHead h hc
  · next tdh hstage =>
      rw [hstage] at hprogress
      split
      · next hfull => exact inv_refuse h hc hprogress hfull
      · next hroom => exact inv_enter_copy h hc hprogress hroom
  · next tdt copied hstage =>
      rw [hstage] at hprogress
      split
      · next hlt => exact inv_copy_byte h hc hprogress hlt
      · next hend => exact inv_write_length h hc hprogress hend
  · next tdt hstage =>
      rw [hstage] at hprogress
      exact inv_write_tail h hprogress

theorem transmit_off_tdt (h : Inv s) (hc : s.call = some c) {i : Nat} (hi : i ≠ s.tdt) :
    (transmit s c).txDescArray i = s.txDescArray i ∧
      (transmit s c).txPktBuffer i = s.txPktBuffer i := by
  have hprogress := h.progress c hc
  unfold transmit
  split
  · exact ⟨rfl, rfl⟩
  · split <;> exact ⟨rfl, rfl⟩
  · next tdt copied hstage =>
      rw [hstage] at hprogress
      obtain ⟨rfl, -⟩ := hprogress
      split
      · exact ⟨rfl, Function.update_of_ne hi ..⟩
      · exact ⟨Function.update_of_ne hi .., rfl⟩
  · exact ⟨rfl, rfl⟩

end Driver

theorem inv_next {s s' : State Thread} (h : Inv s) {a : Action Thread}
    (hnext : next s a = some s') : Inv s' := by
  cases a with
  | send t packet =>
      simp only [next, Option.ite_none_right_eq_some, Option.some.injEq] at hnext
      obtain ⟨⟨-, -, hshort⟩, rfl⟩ := hnext
      refine { h with short := ?_, progress := ?_ }
      · rintro _ ⟨⟩
        exact hshort
      · rintro _ ⟨⟩
        exact trivial
  | retry t =>
      simp only [next] at hnext
      split at hnext
      · cases hnext
      · next packet hpacket =>
          simp only [Option.ite_none_right_eq_some, Option.some.injEq] at hnext
          obtain ⟨-, rfl⟩ := hnext
          refine { h with asleep := ?_, short := ?_, progress := ?_ }
          · intro u p hu
            rcases eq_or_ne u t with rfl | hne
            · simp at hu
            · simp only [Function.update_of_ne hne] at hu
              exact h.asleep u p hu
          · rintro _ ⟨⟩
            exact h.asleep t packet hpacket
          · rintro _ ⟨⟩
            exact trivial
  | driver =>
      simp only [next, Option.map_eq_some_iff] at hnext
      obtain ⟨c, hc, rfl⟩ := hnext
      exact inv_transmit h hc
  | device =>
      simp only [next, Option.ite_none_right_eq_some, Option.some.injEq] at hnext
      exact hnext.2 ▸ inv_deviceSend h hnext.1
  | irq =>
      simp only [next, Option.ite_none_right_eq_some, Option.some.injEq] at hnext
      obtain ⟨hnone, rfl⟩ := hnext
      have hcall : s.call = none := Option.isNone_iff_eq_none.mp hnone
      refine { h with progress := fun c hc => ?_ }
      rw [hcall] at hc
      cases hc

theorem Inv.kept {s s' : State Thread} (h : Inv s) {a : Action Thread}
    (hnext : next s a = some s') {i : Nat} (hi : Owned s i) :
    s'.txDescArray i = s.txDescArray i ∧ s'.txPktBuffer i = s.txPktBuffer i := by
  cases a with
  | send t packet =>
      simp only [next, Option.ite_none_right_eq_some, Option.some.injEq] at hnext
      exact hnext.2 ▸ ⟨rfl, rfl⟩
  | retry t =>
      simp only [next] at hnext
      split at hnext
      · cases hnext
      · simp only [Option.ite_none_right_eq_some, Option.some.injEq] at hnext
        exact hnext.2 ▸ ⟨rfl, rfl⟩
  | driver =>
      simp only [next, Option.map_eq_some_iff] at hnext
      obtain ⟨c, hc, rfl⟩ := hnext
      exact transmit_off_tdt h hc hi.ne_tdt
  | device =>
      simp only [next, Option.ite_none_right_eq_some, Option.some.injEq] at hnext
      exact hnext.2 ▸ ⟨rfl, rfl⟩
  | irq =>
      simp only [next, Option.ite_none_right_eq_some, Option.some.injEq] at hnext
      exact hnext.2 ▸ ⟨rfl, rfl⟩

/-- Whatever the relative speed of driver and device, accepted packets are
sent unchanged, in order, once. -/
theorem transmit_delivers {s : State Thread} (h : Reachable system s) : Delivers s := by
  have hinv : Inv s := by
    refine h.invariant (P := Inv) ?_ fun _ _ _ hs _ hnext => inv_next hs hnext
    rintro s ⟨buffer, rfl⟩
    exact inv_configured buffer
  exact ⟨hinv.sent, hinv.refused, fun _ _ hnext _ hi => hinv.kept hnext hi⟩

/-- The device sends a first packet while a second one is being copied. -/
def overlapped : State Nat :=
  permittedState (fun _ _ => True) next (configured fun _ _ => 0)
    [.send 0 [7], .driver, .driver, .driver, .driver, .driver, .send 1 [8, 9], .driver, .device,
      .driver, .driver, .driver, .driver, .driver]

theorem overlapped_delivers :
    overlapped.sent = [[7]] ∧ overlapped.accepted = [[7], [8, 9]] ∧ overlapped.tdt = 2 ∧
      Delivers overlapped := by
  refine ⟨by decide +kernel, by decide +kernel, by decide +kernel, ?_⟩
  have hreach : Reachable system overlapped :=
    permittedState_reachableUnder ⟨fun _ _ => 0, rfl⟩ _
  exact transmit_delivers hreach

end LabKernel.TransmitRing
