import LabKernel.TransitionSystem

/-!
The receive ring of the e1000 driver (`e1000_poll` in `drivers/e1000.cpp`)
together with the device.

Every access of the driver to a register, a descriptor or a byte of a packet
buffer is one step.  The device fills descriptors in ring order: it writes the
bytes of a packet, then the length, then the DD bit, and it advances RDH over a
descriptor at any time after it began with it.  Calls of `e1000_poll` follow
each other, as `net_buffer_lock` makes them.  Addresses of packet buffers are
their indices in `rx_pkt_buffer`.
-/

namespace LabKernel.ReceiveRing

open LabKernel.TransitionSystem

/-- `RXDESCS`. -/
def rxDescs : Nat := 64

/-- `RX_PKT_SIZE`. -/
def rxPktSize : Nat := 2048

/-- `E1000_RXD_STAT_DD`. -/
def statDD : UInt8 := 1

/-- The fields of `e1000_rx_desc` that device and driver use. -/
structure RxDesc where
  addr : Nat
  length : UInt16
  status : UInt8

/-- Where the device is with the descriptor it is filling. -/
inductive WriteBack where
  /-- The given number of bytes is written. -/
  | data (written : Nat)
  /-- The length is written, the DD bit not yet set. -/
  | status
  deriving DecidableEq, Repr

/-- Where `e1000_poll` is. -/
inductive Stage where
  | readHead
  | readTail (rdh : Nat)
  | readStatus (next : Nat)
  | readLength (next : Nat)
  /-- In `memcpy`, with the bytes copied so far. -/
  | copy (next length : Nat) (bytes : List UInt8)
  deriving DecidableEq, Repr

/-- The ring, what the device has done, and the poll under way.  The device
has begun with the packets `begun`, completed the first `completed` of them and
advanced RDH over the first `advanced`; `results` are the bytes and lengths
that successful polls returned. -/
structure State where
  rxDescArray : Nat → RxDesc
  rxPktBuffer : Nat → Nat → UInt8
  rdh : Nat
  rdt : Nat
  begun : List (List UInt8)
  completed : Nat
  advanced : Nat
  writeBack : WriteBack
  poll : Option Stage
  results : List (List UInt8 × Nat)

/-- After `e1000_configure_rx`, with whatever the buffers hold. -/
def configured (rxPktBuffer : Nat → Nat → UInt8) : State where
  rxDescArray := fun i => ⟨i, 0, 0⟩
  rxPktBuffer := rxPktBuffer
  rdh := 0
  rdt := rxDescs - 1
  begun := []
  completed := 0
  advanced := 0
  writeBack := .data 0
  poll := none
  results := []

inductive Action where
  /-- The device begins to fill the next descriptor with a packet. -/
  | arrive (packet : List UInt8)
  /-- The device advances RDH over a descriptor. -/
  | advance
  /-- One write of the device to the descriptor it is filling. -/
  | write
  /-- A call of `e1000_poll`. -/
  | poll
  /-- One access of the poll under way. -/
  | driver

/-- The next write of the device for the packet it is writing back. -/
def deviceWrite (s : State) (packet : List UInt8) : State :=
  let i := s.completed % rxDescs
  match s.writeBack with
  | .data written =>
      if h : written < packet.length then
        let addr := (s.rxDescArray i).addr
        { s with
          rxPktBuffer := Function.update s.rxPktBuffer addr
            (Function.update (s.rxPktBuffer addr) written packet[written])
          writeBack := .data (written + 1) }
      else
        { s with
          rxDescArray := Function.update s.rxDescArray i
            { s.rxDescArray i with length := packet.length.toUInt16 }
          writeBack := .status }
  | .status =>
      { s with
        rxDescArray := Function.update s.rxDescArray i
          { s.rxDescArray i with status := (s.rxDescArray i).status ||| statDD }
        completed := s.completed + 1
        writeBack := .data 0 }

/-- One access of `e1000_poll`. -/
def e1000Poll (s : State) : Stage → State
  | .readHead => { s with poll := some (.readTail s.rdh) }
  | .readTail rdh =>
      let next := (s.rdt + 1) % rxDescs
      if next = rdh then { s with poll := none }
      else { s with poll := some (.readStatus next) }
  | .readStatus next =>
      if (s.rxDescArray next).status &&& statDD = 0 then { s with poll := none }
      else { s with poll := some (.readLength next) }
  | .readLength next =>
      { s with poll := some (.copy next (s.rxDescArray next).length.toNat []) }
  | .copy next length bytes =>
      if bytes.length < length then
        { s with poll := some (.copy next length (bytes ++ [s.rxPktBuffer next bytes.length])) }
      else
        { s with
          rdt := next
          poll := none
          results := s.results ++ [(bytes, length)] }

def next (s : State) : Action → Option State
  | .arrive packet =>
      if s.begun.length % rxDescs ≠ s.rdt ∧ packet.length ≤ rxPktSize then
        some { s with begun := s.begun ++ [packet] }
      else none
  | .advance =>
      if s.advanced < s.begun.length then
        some { s with advanced := s.advanced + 1, rdh := (s.rdh + 1) % rxDescs }
      else none
  | .write => s.begun[s.completed]?.map (deviceWrite s)
  | .poll => if s.poll.isNone then some { s with poll := some .readHead } else none
  | .driver => s.poll.map (e1000Poll s)

/-- All runs of polls against the device. -/
def system : System State Action :=
  ofFunction (fun s => ∃ buffer, s = configured buffer) next

/-- The poll has passed its tests and goes on to return a packet. -/
def Stage.Succeeds : Stage → Prop
  | .readLength _ | .copy _ _ _ => True
  | _ => False

/-- Polls return the packets the device completed, in order and once, each
after its write-back. -/
structure Delivers (s : State) : Prop where
  results : s.results <+: (s.begun.take s.completed).map fun p => (p, p.length)
  succeeds : ∀ stage, s.poll = some stage → stage.Succeeds → s.results.length < s.completed

/-- The device is not done with descriptor `i`. -/
def Pending (s : State) (i : Nat) : Prop :=
  ∃ k < s.begun.length, s.completed ≤ k ∧ k % rxDescs = i

instance (s : State) (i : Nat) : Decidable (Pending s i) :=
  inferInstanceAs (Decidable (∃ k < s.begun.length, s.completed ≤ k ∧ k % rxDescs = i))

/-- The poll is not about to test a descriptor whose DD bit is left from an
earlier lap while the device is still writing it back. -/
def FreshTest (s : State) : Stage → Prop
  | .readStatus next => ¬(Pending s next ∧ (s.rxDescArray next).status &&& statDD ≠ 0)
  | _ => True

def NoStaleTest (s : State) : Action → Prop
  | .driver => ∀ stage ∈ s.poll, FreshTest s stage
  | _ => True

instance (s : State) : ∀ stage, Decidable (FreshTest s stage)
  | .readStatus next => inferInstanceAs
      (Decidable ¬(Pending s next ∧ (s.rxDescArray next).status &&& statDD ≠ 0))
  | .readHead | .readTail _ | .readLength _ | .copy _ _ _ => isTrue trivial

instance (s : State) : ∀ a, Decidable (NoStaleTest s a)
  | .driver => inferInstanceAs (Decidable (∀ stage ∈ s.poll, FreshTest s stage))
  | .arrive _ | .advance | .write | .poll => isTrue trivial

/-- Descriptor and buffer `i` hold the packet. -/
structure Holds (desc : Nat → RxDesc) (buffer : Nat → Nat → UInt8) (i : Nat)
    (packet : List UInt8) : Prop where
  length_eq : (desc i).length.toNat = packet.length
  byte : ∀ j b, packet[j]? = some b → buffer i j = b

/-- What of the packet is written back. -/
def Written (s : State) (packet : List UInt8) : WriteBack → Prop
  | .data written => ∀ j < written, ∀ b, packet[j]? = some b →
      s.rxPktBuffer (s.completed % rxDescs) j = b
  | .status => Holds s.rxDescArray s.rxPktBuffer (s.completed % rxDescs) packet

/-- What the poll under way knows.  The head it read may be out of date. -/
def Progress (s : State) : Stage → Prop
  | .readHead => True
  | .readTail rdh => ∃ h, s.results.length ≤ h ∧ h ≤ s.advanced ∧
      h < s.results.length + rxDescs ∧ rdh = h % rxDescs
  | .readStatus next => next = s.results.length % rxDescs ∧ s.results.length < s.advanced
  | .readLength next => next = s.results.length % rxDescs ∧ s.results.length < s.advanced ∧
      s.results.length < s.completed
  | .copy next length bytes => next = s.results.length % rxDescs ∧
      s.results.length < s.advanced ∧ s.results.length < s.completed ∧
      ∃ packet, s.begun[s.results.length]? = some packet ∧
        length = packet.length ∧ bytes <+: packet

/-- Packet `k` lies in slot `k` modulo the ring from its completion until it is
polled. -/
structure Inv (s : State) : Prop where
  rdh : s.rdh = s.advanced % rxDescs
  rdt : s.rdt = (s.results.length + (rxDescs - 1)) % rxDescs
  advanced : s.advanced ≤ s.begun.length
  polled : s.results.length ≤ s.advanced
  completed : s.completed ≤ s.begun.length
  room : s.begun.length < s.results.length + rxDescs
  done : s.results.length ≤ s.completed
  results : s.results <+: s.begun.map fun p => (p, p.length)
  addr : ∀ i, (s.rxDescArray i).addr = i
  short : ∀ p ∈ s.begun, p.length ≤ rxPktSize
  holds : ∀ k p, s.results.length ≤ k → k < s.completed → s.begun[k]? = some p →
    Holds s.rxDescArray s.rxPktBuffer (k % rxDescs) p
  written : ∀ p, s.begun[s.completed]? = some p → Written s p s.writeBack
  fresh : s.begun[s.completed]? = none → s.writeBack = .data 0
  progress : ∀ stage, s.poll = some stage → Progress s stage

theorem inv_configured (buffer : Nat → Nat → UInt8) : Inv (configured buffer) := by
  constructor <;> simp [configured, rxDescs]

theorem Inv.delivers {s : State} (h : Inv s) : Delivers s := by
  constructor
  · have htake := List.prefix_take_iff.mpr ⟨h.results, h.done⟩
    rwa [← List.map_take] at htake
  · intro stage hpoll hsucceeds
    have hprogress := h.progress stage hpoll
    cases stage with
    | readHead | readTail rdh | readStatus next => exact hsucceeds.elim
    | readLength next => exact hprogress.2.2
    | copy next length bytes => exact hprogress.2.2.1

theorem Inv.slot_ne {s : State} (h : Inv s) {k : Nat} (hk : s.results.length ≤ k)
    (hlt : k < s.completed) (hbusy : s.completed < s.begun.length) :
    k % rxDescs ≠ s.completed % rxDescs := by
  have hroom := h.room
  unfold rxDescs at *
  omega

theorem inv_arrive {s : State} (h : Inv s) {packet : List UInt8}
    (hfree : s.begun.length % rxDescs ≠ s.rdt) (hshort : packet.length ≤ rxPktSize) :
    Inv { s with begun := s.begun ++ [packet] } := by
  have hroom := h.room
  have hadvanced := h.advanced
  have hcompleted := h.completed
  have hgrow : ∀ {k : Nat} {p}, s.begun[k]? = some p → (s.begun ++ [packet])[k]? = some p := by
    intro k p hget
    obtain ⟨hlt, -⟩ := List.getElem?_eq_some_iff.mp hget
    rw [List.getElem?_append_left hlt, hget]
  have hold : ∀ {k : Nat} {p}, k < s.begun.length → (s.begun ++ [packet])[k]? = some p →
      s.begun[k]? = some p := by
    intro k p hlt hget
    rwa [List.getElem?_append_left hlt] at hget
  refine { h with
    advanced := ?_, completed := ?_, room := ?_, results := ?_, short := ?_, holds := ?_
    written := ?_, fresh := ?_, progress := ?_ }
  · simp only [List.length_append, List.length_singleton]
    omega
  · simp only [List.length_append, List.length_singleton]
    omega
  · simp only [List.length_append, List.length_singleton]
    rw [h.rdt] at hfree
    unfold rxDescs at *
    omega
  · rw [List.map_append]
    exact h.results.trans (List.prefix_append ..)
  · intro p hp
    rcases List.mem_append.mp hp with hp | hp
    · exact h.short p hp
    · exact List.mem_singleton.mp hp ▸ hshort
  · exact fun k p hk hlt hget => h.holds k p hk hlt (hold (by dsimp only at hlt; omega) hget)
  · intro p hget
    rcases Nat.lt_or_ge s.completed s.begun.length with hlt | hge
    · exact h.written p (hold hlt hget)
    · have hidle := h.fresh (List.getElem?_eq_none hge)
      dsimp only
      rw [hidle]
      exact nofun
  · intro hnone
    refine h.fresh (List.getElem?_eq_none ?_)
    have hle := List.getElem?_eq_none_iff.mp hnone
    simp only [List.length_append, List.length_singleton] at hle
    omega
  · intro stage hpoll
    have hprogress := h.progress stage hpoll
    cases stage with
    | readHead | readTail rdh | readStatus next | readLength next => exact hprogress
    | copy next length bytes =>
        obtain ⟨hnext, hadv, hlt, p, hget, hp⟩ := hprogress
        exact ⟨hnext, hadv, hlt, p, hgrow hget, hp⟩

theorem inv_advance {s : State} (h : Inv s) (hlt : s.advanced < s.begun.length) :
    Inv { s with advanced := s.advanced + 1, rdh := (s.rdh + 1) % rxDescs } := by
  refine { h with
    rdh := ?_, advanced := hlt, polled := Nat.le_succ_of_le h.polled, progress := ?_ }
  · dsimp only
    rw [h.rdh]
    unfold rxDescs
    omega
  · intro stage hpoll
    have hprogress := h.progress stage hpoll
    cases stage with
    | readHead => trivial
    | readTail rdh =>
        obtain ⟨n, hlo, hhi, hrest⟩ := hprogress
        exact ⟨n, hlo, Nat.le_succ_of_le hhi, hrest⟩
    | readStatus next => exact ⟨hprogress.1, Nat.lt_succ_of_lt hprogress.2⟩
    | readLength next | copy next length bytes =>
        exact ⟨hprogress.1, Nat.lt_succ_of_lt hprogress.2.1, hprogress.2.2⟩

theorem Inv.progress_of_le {s s' : State} (h : Inv s) (hpoll : s'.poll = s.poll)
    (hresults : s'.results = s.results) (hadvanced : s'.advanced = s.advanced)
    (hbegun : s'.begun = s.begun) (hcompleted : s.completed ≤ s'.completed) :
    ∀ stage, s'.poll = some stage → Progress s' stage := by
  intro stage hstage
  have hprogress := h.progress stage (hpoll ▸ hstage)
  cases stage with
  | readHead => trivial
  | readTail rdh | readStatus next =>
      simpa only [Progress, hresults, hadvanced] using hprogress
  | readLength next =>
      simp only [Progress, hresults, hadvanced] at hprogress ⊢
      exact ⟨hprogress.1, hprogress.2.1, by omega⟩
  | copy next length bytes =>
      simp only [Progress, hresults, hadvanced, hbegun] at hprogress ⊢
      exact ⟨hprogress.1, hprogress.2.1, by omega, hprogress.2.2.2⟩

theorem inv_deviceWrite {s : State} (h : Inv s) {packet : List UInt8}
    (hget : s.begun[s.completed]? = some packet) : Inv (deviceWrite s packet) := by
  obtain ⟨hbusy, -⟩ := List.getElem?_eq_some_iff.mp hget
  have hwritten := h.written packet hget
  have hself : ∀ p, s.begun[s.completed]? = some p → p = packet := by
    intro p hp
    rw [hget, Option.some.injEq] at hp
    exact hp.symm
  unfold deviceWrite
  rcases hstage : s.writeBack with written | _ <;> rw [hstage] at hwritten <;> dsimp only
  · split
    · next hlt =>
        rw [h.addr]
        refine { h with
          holds := ?_, written := ?_, fresh := ?_
          progress := h.progress_of_le rfl rfl rfl rfl (Nat.le_refl _) }
        · intro k p hk hdone hp
          obtain ⟨hlength, hbyte⟩ := h.holds k p hk hdone hp
          refine ⟨hlength, ?_⟩
          dsimp only
          rw [Function.update_of_ne (h.slot_ne hk hdone hbusy)]
          exact hbyte
        · intro p hp
          rw [hself p hp]
          intro j hj b hb
          dsimp only
          rw [Function.update_self]
          rcases eq_or_ne j written with rfl | hne
          · rw [Function.update_self]
            rwa [List.getElem?_eq_getElem hlt, Option.some.injEq] at hb
          · rw [Function.update_of_ne hne]
            exact hwritten j (by omega) b hb
        · intro hnone
          dsimp only at hnone
          rw [hget] at hnone
          cases hnone
    · next hend =>
        have hshort := h.short packet (List.mem_of_getElem? hget)
        refine { h with
          addr := ?_, holds := ?_, written := ?_, fresh := ?_
          progress := h.progress_of_le rfl rfl rfl rfl (Nat.le_refl _) }
        · intro i
          dsimp only
          rcases eq_or_ne i (s.completed % rxDescs) with rfl | hne
          · rw [Function.update_self]
            exact h.addr _
          · rw [Function.update_of_ne hne]
            exact h.addr i
        · intro k p hk hdone hp
          obtain ⟨hlength, hbyte⟩ := h.holds k p hk hdone hp
          refine ⟨?_, hbyte⟩
          dsimp only
          rw [Function.update_of_ne (h.slot_ne hk hdone hbusy)]
          exact hlength
        · intro p hp
          rw [hself p hp]
          refine ⟨?_, fun j b hb => ?_⟩
          · dsimp only
            rw [Function.update_self]
            refine Nat.mod_eq_of_lt ?_
            unfold rxPktSize at hshort
            change packet.length < 65536
            omega
          · obtain ⟨hj, -⟩ := List.getElem?_eq_some_iff.mp hb
            exact hwritten j (by omega) b hb
        · intro hnone
          dsimp only at hnone
          rw [hget] at hnone
          cases hnone
  · refine { h with
      completed := hbusy, done := Nat.le_succ_of_le h.done, addr := ?_, holds := ?_, written := ?_
      fresh := fun _ => rfl
      progress := h.progress_of_le rfl rfl rfl rfl (Nat.le_succ _) }
    · intro i
      dsimp only
      rcases eq_or_ne i (s.completed % rxDescs) with rfl | hne
      · rw [Function.update_self]
        exact h.addr _
      · rw [Function.update_of_ne hne]
        exact h.addr i
    · intro k p hk hdone hp
      rcases Nat.lt_succ_iff_lt_or_eq.mp hdone with hlt | rfl
      · obtain ⟨hlength, hbyte⟩ := h.holds k p hk hlt hp
        refine ⟨?_, hbyte⟩
        dsimp only
        rw [Function.update_of_ne (h.slot_ne hk hlt hbusy)]
        exact hlength
      · rw [hself p hp]
        refine ⟨?_, hwritten.byte⟩
        dsimp only
        rw [Function.update_self]
        exact hwritten.length_eq
    · exact fun _ _ => nofun

theorem inv_e1000Poll {s : State} (h : Inv s) {stage : Stage} (hpoll : s.poll = some stage)
    (hfresh : FreshTest s stage) : Inv (e1000Poll s stage) := by
  have hprogress := h.progress stage hpoll
  have hpolled := h.polled
  have hadvanced := h.advanced
  have hroom := h.room
  cases stage with
  | readHead =>
      have hlt : s.advanced < s.results.length + rxDescs := by omega
      refine { h with progress := ?_ }
      rintro _ ⟨⟩
      exact ⟨s.advanced, hpolled, Nat.le_refl _, hlt, h.rdh⟩
  | readTail rdh =>
      obtain ⟨n, hlo, hhi, hlt, rfl⟩ := hprogress
      have hnext : (s.rdt + 1) % rxDescs = s.results.length % rxDescs := by
        rw [h.rdt]
        unfold rxDescs
        omega
      simp only [e1000Poll, hnext]
      split
      · exact { h with progress := nofun }
      · next hne =>
          refine { h with progress := ?_ }
          rintro _ ⟨⟩
          refine ⟨rfl, Nat.lt_of_lt_of_le (Nat.lt_of_le_of_ne hlo ?_) hhi⟩
          rintro rfl
          exact hne rfl
  | readStatus next =>
      obtain ⟨rfl, hlt⟩ := hprogress
      simp only [e1000Poll]
      split
      · exact { h with progress := nofun }
      · next hdone =>
          refine { h with progress := ?_ }
          rintro _ ⟨⟩
          refine ⟨rfl, hlt, ?_⟩
          -- otherwise the bit is one that the device has yet to set again
          by_contra hpending
          refine hfresh ⟨⟨s.results.length, by omega, Nat.not_lt.mp hpending, rfl⟩, hdone⟩
  | readLength next =>
      obtain ⟨rfl, hadv, hlt⟩ := hprogress
      have hcompleted := h.completed
      have hget : s.begun[s.results.length]? = some s.begun[s.results.length] :=
        List.getElem?_eq_getElem (by omega)
      refine { h with progress := ?_ }
      rintro _ ⟨⟩
      refine ⟨rfl, hadv, hlt, _, hget, ?_, List.nil_prefix⟩
      exact (h.holds _ _ (Nat.le_refl _) hlt hget).length_eq
  | copy next length bytes =>
      obtain ⟨rfl, hadv, hlt, packet, hget, rfl, hbytes⟩ := hprogress
      have hholds := h.holds _ _ (Nat.le_refl _) hlt hget
      simp only [e1000Poll]
      split
      · next hmore =>
          refine { h with progress := ?_ }
          rintro _ ⟨⟩
          refine ⟨rfl, hadv, hlt, packet, hget, rfl, ?_⟩
          rw [hholds.byte _ _ (List.getElem?_eq_getElem hmore)]
          refine List.prefix_iff_eq_take.mpr ?_
          rw [List.length_append, List.length_singleton, ← List.take_append_getElem hmore,
            ← List.prefix_iff_eq_take.mp hbytes]
      · next hend =>
          have hall : bytes = packet := hbytes.eq_of_length_le (by omega)
          have hresult : (s.begun.map fun p => (p, p.length))[s.results.length]? =
              some (bytes, packet.length) := by
            rw [List.getElem?_map, hget, hall]
            rfl
          obtain ⟨hin, hresult⟩ := List.getElem?_eq_some_iff.mp hresult
          refine { h with
            rdt := ?_, polled := ?_, room := ?_, done := ?_, results := ?_, holds := ?_
            progress := nofun }
          · simp only [List.length_append, List.length_singleton]
            unfold rxDescs
            omega
          · simp only [List.length_append, List.length_singleton]
            omega
          · simp only [List.length_append, List.length_singleton]
            omega
          · simp only [List.length_append, List.length_singleton]
            omega
          · refine List.prefix_iff_eq_take.mpr ?_
            rw [List.length_append, List.length_singleton, ← List.take_append_getElem hin,
              ← List.prefix_iff_eq_take.mp h.results, hresult]
          · intro k p hk
            rw [List.length_append, List.length_singleton] at hk
            exact h.holds k p (by omega)

theorem inv_next {s s' : State} (h : Inv s) {a : Action} (hallowed : NoStaleTest s a)
    (hnext : next s a = some s') : Inv s' := by
  cases a with
  | arrive packet =>
      simp only [next, Option.ite_none_right_eq_some, Option.some.injEq] at hnext
      obtain ⟨⟨hfree, hshort⟩, rfl⟩ := hnext
      exact inv_arrive h hfree hshort
  | advance =>
      simp only [next, Option.ite_none_right_eq_some, Option.some.injEq] at hnext
      exact hnext.2 ▸ inv_advance h hnext.1
  | write =>
      simp only [next, Option.map_eq_some_iff] at hnext
      obtain ⟨packet, hget, rfl⟩ := hnext
      exact inv_deviceWrite h hget
  | poll =>
      simp only [next, Option.ite_none_right_eq_some, Option.some.injEq] at hnext
      obtain ⟨-, rfl⟩ := hnext
      refine { h with progress := ?_ }
      rintro _ ⟨⟩
      trivial
  | driver =>
      simp only [next, Option.map_eq_some_iff] at hnext
      obtain ⟨stage, hpoll, rfl⟩ := hnext
      exact inv_e1000Poll h hpoll (hallowed stage hpoll)

/-- Polls deliver what the device completed in every run in which no poll
tests a descriptor with a left-over DD bit during its write-back. -/
theorem receive_delivers {s : State} (h : ReachableUnder system NoStaleTest s) : Delivers s := by
  have hinv : Inv s := by
    refine h.invariant (P := Inv) ?_ fun _ _ _ hs hallowed hnext => inv_next hs hallowed hnext
    rintro s ⟨buffer, rfl⟩
    exact inv_configured buffer
  exact hinv.delivers

/-- A packet is received by a poll that the device overtakes. -/
def received : State :=
  permittedState NoStaleTest next (configured fun _ _ => 0)
    [.arrive [7, 8], .advance, .poll, .driver, .driver, .driver, .write, .write, .write, .write,
      .poll, .driver, .driver, .driver, .driver, .arrive [9], .driver, .driver, .driver]

theorem received_delivers :
    received.results = [([7, 8], 2)] ∧ received.begun = [[7, 8], [9]] ∧ Delivers received := by
  refine ⟨by decide +kernel, by decide +kernel, receive_delivers ?_⟩
  exact permittedState_reachableUnder ⟨fun _ _ => 0, rfl⟩ _

/-- One packet without bytes is received and polled. -/
def emptyPacket : List Action :=
  [.arrive [], .advance, .write, .write, .poll, .driver, .driver, .driver, .driver, .driver]

/-- A whole lap of the ring, then a poll in the middle of the next write-back. -/
def secondLap : List Action :=
  (List.replicate rxDescs emptyPacket).flatten ++
    [.arrive [7], .advance, .poll, .driver, .driver, .driver, .driver, .driver]

theorem stale_done_bit_accepted :
    ¬ ∀ s : State, Reachable system s → Delivers s := by
  intro hall
  have hreach : Reachable system
      (permittedState (fun _ _ => True) next (configured fun _ _ => 0) secondLap) :=
    permittedState_reachableUnder ⟨fun _ _ => 0, rfl⟩ _
  have hlength := (hall _ hreach).results.length_le
  revert hlength
  decide +kernel

end LabKernel.ReceiveRing
