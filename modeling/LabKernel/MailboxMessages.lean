import LabKernel.MailboxProgress

/-!
Whole messages in a mailbox.

`send` gives up the lock in the middle of a message when the mailbox is full.
Every byte of the stream is given the number of the call of `send` that pushed
it; the bytes of a call stay together as long as nobody pushes a byte between
the two halves of a message.
-/

namespace LabKernel.MailboxMessages

open LabKernel.Mailbox
open LabKernel.MailboxProgress
open LabKernel.TransitionSystem

variable {Thread : Type*} [DecidableEq Thread]

/-- The calls of `send` so far.  `stream` has the bytes in the order in which
they were pushed, each with the number of its call; `left` is the length of
the stream when a thread last returned or fell asleep. -/
structure Ledger (Thread : Type*) where
  messages : List (List UInt8)
  call : Thread → Nat
  stream : List (Nat × UInt8)
  left : Thread → Nat

structure State (Thread : Type*) where
  mailbox : Mailbox.State Thread
  ledger : Ledger Thread

def State.initial : State Thread where
  mailbox := Mailbox.State.initial
  ledger := ⟨[], fun _ => 0, [], fun _ => 0⟩

/-- The bytes that call `c` pushed. -/
def labelled (c : Nat) (bytes : List UInt8) : List (Nat × UInt8) := bytes.map fun b => (c, b)

/-- A call of `send` gets the next number. -/
def Ledger.enter (L : Ledger Thread) : Action Thread → Ledger Thread
  | .send t msg =>
      { L with
        messages := L.messages ++ [msg]
        call := Function.update L.call t L.messages.length }
  | .recv _ _ | .resume _ => L

def Ledger.push (L : Ledger Thread) (t : Thread) (bytes : List UInt8) : Ledger Thread :=
  { L with
    stream := L.stream ++ labelled (L.call t) bytes
    left := Function.update L.left t (L.stream.length + bytes.length) }

def actor : Action Thread → Thread
  | .send t _ | .recv t _ | .resume t => t

/-- A step of the mailbox, entered in the ledger. -/
def next (s : State Thread) (a : Action Thread) : Option (State Thread) :=
  (Mailbox.next s.mailbox a).map fun m =>
    ⟨m, (s.ledger.enter a).push (actor a) (m.pushed.drop s.mailbox.pushed.length)⟩

def system : System (State Thread) (Action Thread) :=
  ofFunction (fun s => s = State.initial) next

/-- The bytes of call `c` in the stream are these, one after the other. -/
def Together (stream : List (Nat × UInt8)) (c : Nat) (bytes : List UInt8) : Prop :=
  ∃ before after, stream = before ++ labelled c bytes ++ after ∧
    (∀ b, (c, b) ∉ before) ∧ ∀ b, (c, b) ∉ after

/-- Every call has its bytes together: the whole message if it has returned,
and a part from its beginning otherwise.  Receivers are given the bytes of the
stream from its beginning. -/
structure Contiguous (s : State Thread) : Prop where
  together : ∀ c msg, s.ledger.messages[c]? = some msg →
    ∃ sent, sent <+: msg ∧ Together s.ledger.stream c sent ∧
      ((∀ t b rest, s.mailbox.pc t = .inSend b rest → s.ledger.call t ≠ c) → sent = msg)
  received : s.mailbox.popped <+: s.ledger.stream.map Prod.snd

def asleepInSend : Pc → Bool
  | .inSend _ _ => true
  | .outside | .inRecv _ => false

/-- A sender that fell asleep after it had pushed a part of its message finds,
when it goes on, that no byte has been pushed in the meantime. -/
def Undivided (s : State Thread) : Action Thread → Prop
  | .resume t =>
      asleepInSend (s.mailbox.pc t) = true →
        s.ledger.call t ∈ s.ledger.stream.map Prod.fst →
        s.mailbox.pushed.length = s.ledger.left t
  | _ => True

instance (s : State Thread) (a : Action Thread) : Decidable (Undivided s a) :=
  match a with
  | .resume _ => inferInstanceAs (Decidable (_ → _ → _))
  | .send _ _ | .recv _ _ => .isTrue trivial

/-- The position of a thread that has still to push these bytes. -/
def sendPc : List UInt8 → Pc
  | [] => .outside
  | b :: rest => .inSend b rest

/-- The thread has pushed a part of its message and is done or asleep. -/
structure Pushes (s s' : Mailbox.State Thread) (t : Thread) (sent rest : List UInt8) : Prop where
  pushed : s'.pushed = s.pushed ++ sent
  pc : s'.pc = Function.update s.pc t (sendPc rest)
  popped : s'.popped ++ s'.msgQueue = s.popped ++ s.msgQueue ++ sent

theorem pushByte_then {s s' : Mailbox.State Thread} {t : Thread} {b : UInt8}
    {sent rest : List UInt8} (h : Pushes (pushByte s b) s' t sent rest) :
    Pushes s s' t (b :: sent) rest :=
  ⟨by simpa [pushByte] using h.pushed, h.pc, by simpa [pushByte] using h.popped⟩

theorem sendLoop_pushes (s : Mailbox.State Thread) (t : Thread) (msg : List UInt8) :
    ∃ sent rest, msg = sent ++ rest ∧ Pushes s (sendLoop s t msg) t sent rest := by
  induction msg generalizing s with
  | nil => exact ⟨[], [], rfl, by simp [sendLoop, leave], rfl, by simp [sendLoop, leave]⟩
  | cons b rest ih =>
      rw [sendLoop]
      split
      · exact ⟨[], b :: rest, rfl, by simp [doBlock], rfl, by simp [doBlock]⟩
      · obtain ⟨sent, later, rfl, hpushes⟩ := ih (pushByte s b)
        exact ⟨b :: sent, later, rfl, pushByte_then hpushes⟩

/-- A fetch moves bytes to the receivers, and the thread is not sending. -/
structure Fetches (s s' : Mailbox.State Thread) (t : Thread) : Prop where
  pushed : s'.pushed = s.pushed
  pc : ∃ p, (∀ b rest, p ≠ .inSend b rest) ∧ s'.pc = Function.update s.pc t p
  popped : s'.popped ++ s'.msgQueue = s.popped ++ s.msgQueue

omit [DecidableEq Thread] in
theorem popByte_stream [DecidableEq Thread] (s : Mailbox.State Thread) :
    (popByte s).pushed = s.pushed ∧ (popByte s).pc = s.pc ∧
      (popByte s).popped ++ (popByte s).msgQueue = s.popped ++ s.msgQueue := by
  rcases hqueue : s.msgQueue with _ | ⟨b, rest⟩ <;> simp [popByte, hqueue]

theorem popByte_then {s s' : Mailbox.State Thread} {t : Thread}
    (h : Fetches (popByte s) s' t) : Fetches s s' t := by
  obtain ⟨hpushed, hpc, hpopped⟩ := popByte_stream s
  obtain ⟨p, hp, heq⟩ := h.pc
  exact ⟨h.pushed.trans hpushed, ⟨p, hp, by rw [heq, hpc]⟩, h.popped.trans hpopped⟩

theorem recvLoop_fetches (s : Mailbox.State Thread) (t : Thread) (remaining : Nat) :
    Fetches s (recvLoop s t remaining) t := by
  induction remaining generalizing s with
  | zero =>
      refine ⟨rfl, ⟨.outside, fun b rest heq => ?_, rfl⟩, rfl⟩
      cases heq
  | succ remaining ih =>
      rw [recvLoop]
      split
      · refine ⟨rfl, ⟨.inRecv remaining, fun b rest heq => ?_, rfl⟩, rfl⟩
        cases heq
      · exact popByte_then (ih (popByte s))

theorem not_mem_labelled {c d : Nat} (h : c ≠ d) (bytes : List UInt8) (b : UInt8) :
    (c, b) ∉ labelled d bytes := by
  intro hmem
  obtain ⟨b', -, heq⟩ := List.mem_map.mp hmem
  exact h (congrArg Prod.fst heq).symm

theorem labelled_append (c : Nat) (xs ys : List UInt8) :
    labelled c (xs ++ ys) = labelled c xs ++ labelled c ys :=
  List.map_append

theorem Together.other {stream : List (Nat × UInt8)} {c d : Nat} {bytes : List UInt8}
    (h : Together stream c bytes) (hne : c ≠ d) (more : List UInt8) :
    Together (stream ++ labelled d more) c bytes := by
  obtain ⟨before, after, rfl, hbefore, hafter⟩ := h
  refine ⟨before, after ++ labelled d more, by simp, hbefore, fun b hb => ?_⟩
  rcases List.mem_append.mp hb with hb | hb
  · exact hafter b hb
  · exact not_mem_labelled hne more b hb

theorem Together.more {before : List (Nat × UInt8)} {c : Nat} {bytes : List UInt8}
    (h : ∀ b, (c, b) ∉ before) (more : List UInt8) :
    Together (before ++ labelled c bytes ++ labelled c more) c (bytes ++ more) :=
  ⟨before, [], by simp [labelled_append], h, by simp⟩

/-- A thread asleep in `send` has pushed `sent` and has still to push `rest`;
`left` tells where its bytes end. -/
structure Sending (L : Ledger Thread) (t : Thread) (rest : List UInt8) : Prop where
  split : ∃ sent before after, L.messages[L.call t]? = some (sent ++ rest) ∧
    L.stream = before ++ labelled (L.call t) sent ++ after ∧
    (∀ b, (L.call t, b) ∉ before) ∧ (∀ b, (L.call t, b) ∉ after) ∧
    L.left t = before.length + sent.length

structure Inv (pc : Thread → Pc) (L : Ledger Thread) : Prop where
  labels : ∀ c b, (c, b) ∈ L.stream → c < L.messages.length
  sending : ∀ t b rest, pc t = .inSend b rest → Sending L t (b :: rest)
  unique : ∀ t u b rest b' rest', pc t = .inSend b rest → pc u = .inSend b' rest' →
    L.call t = L.call u → t = u
  returned : ∀ c msg, L.messages[c]? = some msg →
    (∃ t b rest, pc t = .inSend b rest ∧ L.call t = c) ∨ Together L.stream c msg

/-- Thread `t` has the lock and goes on to push `pending`; what its call has
pushed so far is the end of the stream. -/
structure Holding (pc : Thread → Pc) (L : Ledger Thread) (t : Thread) (pending : List UInt8) :
    Prop where
  labels : ∀ c b, (c, b) ∈ L.stream → c < L.messages.length
  own : ∃ sent before, L.messages[L.call t]? = some (sent ++ pending) ∧
    L.stream = before ++ labelled (L.call t) sent ∧ ∀ b, (L.call t, b) ∉ before
  sending : ∀ u b rest, u ≠ t → pc u = .inSend b rest →
    Sending L u (b :: rest) ∧ L.call u ≠ L.call t
  unique : ∀ u v b rest b' rest', u ≠ t → v ≠ t → pc u = .inSend b rest →
    pc v = .inSend b' rest' → L.call u = L.call v → u = v
  returned : ∀ c msg, c ≠ L.call t → L.messages[c]? = some msg →
    (∃ u b rest, u ≠ t ∧ pc u = .inSend b rest ∧ L.call u = c) ∨ Together L.stream c msg

variable {pc : Thread → Pc} {L : Ledger Thread} {t : Thread}

theorem Sending.push {u : Thread} {rest : List UInt8} (h : Sending L u rest) (hne : u ≠ t)
    (hcall : L.call u ≠ L.call t) (more : List UInt8) : Sending (L.push t more) u rest := by
  obtain ⟨sent, before, after, hmessage, hstream, hbefore, hafter, hleft⟩ := h.split
  refine ⟨sent, before, after ++ labelled (L.call t) more, hmessage, ?_, hbefore, ?_, ?_⟩
  · simp [Ledger.push, hstream]
  · intro b hb
    rcases List.mem_append.mp hb with hb | hb
    · exact hafter b hb
    · exact not_mem_labelled hcall more b hb
  · simpa [Ledger.push, hne] using hleft

theorem sendPc_eq_inSend {pending rest : List UInt8} {b : UInt8} :
    sendPc pending = .inSend b rest ↔ pending = b :: rest := by
  cases pending <;> simp [sendPc]

theorem Holding.inv {more rest : List UInt8} (h : Holding pc L t (more ++ rest)) :
    Inv (Function.update pc t (sendPc rest)) (L.push t more) := by
  obtain ⟨sent, before, hmessage, hstream, hbefore⟩ := h.own
  have hother : ∀ u b rest', u ≠ t → (Function.update pc t (sendPc rest) u = .inSend b rest' ↔
      pc u = .inSend b rest') := fun u b rest' hu => by rw [Function.update_of_ne hu]
  have hown : Together (L.push t more).stream (L.call t) (sent ++ more) := by
    rw [Ledger.push, hstream]
    exact Together.more hbefore more
  constructor
  · intro c b hb
    rcases List.mem_append.mp hb with hb | hb
    · exact h.labels c b hb
    · obtain ⟨b', -, heq⟩ := List.mem_map.mp hb
      cases heq
      exact (List.getElem?_eq_some_iff.mp hmessage).1
  · intro u b rest' hu
    rcases eq_or_ne u t with rfl | hne
    · rw [Function.update_self, sendPc_eq_inSend] at hu
      subst hu
      refine ⟨sent ++ more, before, [], by simpa [Ledger.push] using hmessage, ?_, hbefore,
        by simp, ?_⟩
      · simp [Ledger.push, hstream, labelled_append]
      · simp [Ledger.push, hstream, labelled, Nat.add_assoc]
    · obtain ⟨hsending, hcall⟩ := h.sending u b rest' hne ((hother u b rest' hne).mp hu)
      exact hsending.push hne hcall more
  · intro u v b₁ rest₁ b₂ rest₂ hu hv hcall
    rcases eq_or_ne u t with rfl | hut
    · rcases eq_or_ne v u with rfl | hvt
      · rfl
      · have hv' := (hother v b₂ rest₂ hvt).mp hv
        exact absurd hcall.symm (h.sending v b₂ rest₂ hvt hv').2
    · have hu' := (hother u b₁ rest₁ hut).mp hu
      rcases eq_or_ne v t with rfl | hvt
      · exact absurd hcall (h.sending u b₁ rest₁ hut hu').2
      · exact h.unique u v b₁ rest₁ b₂ rest₂ hut hvt hu' ((hother v b₂ rest₂ hvt).mp hv) hcall
  · intro c msg hc
    rcases eq_or_ne c (L.call t) with rfl | hne
    · have hmsg : msg = sent ++ (more ++ rest) := Option.some.inj (hc.symm.trans hmessage)
      cases rest with
      | nil =>
          rw [List.append_nil] at hmsg
          exact Or.inr (hmsg ▸ hown)
      | cons b rest => exact Or.inl ⟨t, b, rest, Function.update_self .., rfl⟩
    · rcases h.returned c msg hne hc with ⟨u, b, rest', hut, hu, hcall⟩ | htogether
      · exact Or.inl ⟨u, b, rest', (hother u b rest' hut).mpr hu, hcall⟩
      · exact Or.inr (htogether.other hne more)

theorem Inv.enter (h : Inv pc L) (ht : pc t = .outside) (msg : List UInt8) :
    Holding pc (L.enter (.send t msg)) t msg := by
  have hcall : (L.enter (.send t msg)).call t = L.messages.length := Function.update_self ..
  have hcalls : ∀ u, u ≠ t → (L.enter (.send t msg)).call u = L.call u := fun u hu =>
    Function.update_of_ne hu ..
  have hnew : ∀ b, (L.messages.length, b) ∉ L.stream := fun b hb =>
    absurd (h.labels _ b hb) (Nat.lt_irrefl _)
  have hold : ∀ c msg', L.messages[c]? = some msg' →
      (L.messages ++ [msg])[c]? = some msg' := fun c msg' hc =>
    getElem?_snoc.mpr (Or.inl hc)
  have hbusy : ∀ u b rest, pc u = .inSend b rest → u ≠ t := by
    rintro u b rest hu rfl
    rw [ht] at hu
    cases hu
  have hless : ∀ u b rest, pc u = .inSend b rest → L.call u < L.messages.length := by
    intro u b rest hu
    obtain ⟨sent, _, _, hmessage, -⟩ := (h.sending u b rest hu).split
    exact (List.getElem?_eq_some_iff.mp hmessage).1
  constructor
  · intro c b hb
    have hlt := h.labels c b hb
    simp only [Ledger.enter, List.length_append, List.length_singleton]
    omega
  · refine ⟨[], L.stream, ?_, by simp [Ledger.enter, labelled], hcall ▸ hnew⟩
    rw [hcall]
    simp [Ledger.enter]
  · intro u b rest hu hpc
    obtain ⟨sent, before, after, hmessage, hsplit⟩ := (h.sending u b rest hpc).split
    rw [hcall, hcalls u hu]
    refine ⟨⟨sent, before, after, ?_⟩, (hless u b rest hpc).ne⟩
    rw [hcalls u hu]
    exact ⟨hold _ _ hmessage, hsplit⟩
  · intro u v b rest b' rest' hu hv hpcu hpcv heq
    rw [hcalls u hu, hcalls v hv] at heq
    exact h.unique u v b rest b' rest' hpcu hpcv heq
  · intro c msg' hc hmsg
    rw [hcall] at hc
    have hmsg' : L.messages[c]? = some msg' :=
      (getElem?_snoc.mp hmsg).resolve_right fun hlast => hc hlast.1
    rcases h.returned c msg' hmsg' with ⟨u, b, rest, hu, heq⟩ | htogether
    · exact Or.inl ⟨u, b, rest, hbusy u b rest hu, hu, (hcalls u (hbusy u b rest hu)).trans heq⟩
    · exact Or.inr htogether

omit [DecidableEq Thread] in
theorem Inv.resume (h : Inv pc L) {b : UInt8} {rest : List UInt8} (ht : pc t = .inSend b rest)
    (hleft : (∃ b, (L.call t, b) ∈ L.stream) → L.stream.length = L.left t) :
    Holding pc L t (b :: rest) := by
  constructor
  · exact h.labels
  · obtain ⟨sent, before, after, hmessage, hstream, hbefore, hafter, hlength⟩ :=
      (h.sending t b rest ht).split
    cases sent with
    | nil =>
        refine ⟨[], L.stream, hmessage, by simp [labelled], fun b' hb' => ?_⟩
        rw [hstream] at hb'
        rcases List.mem_append.mp hb' with hb' | hb'
        · rw [labelled, List.map_nil, List.append_nil] at hb'
          exact hbefore b' hb'
        · exact hafter b' hb'
    | cons b' sent =>
        have hmem : ∃ b, (L.call t, b) ∈ L.stream := ⟨b', by simp [hstream, labelled]⟩
        have hend := hleft hmem
        have hempty : after = [] := by
          have hcount := congrArg List.length hstream
          rw [hend, hlength] at hcount
          simp only [List.length_append, labelled, List.length_map] at hcount
          exact List.length_eq_zero_iff.mp (by omega)
        subst hempty
        exact ⟨b' :: sent, before, hmessage, by simpa using hstream, hbefore⟩
  · intro u b' rest' hu hpc
    exact ⟨h.sending u b' rest' hpc, fun heq => hu (h.unique u t b' rest' b rest hpc ht heq)⟩
  · intro u v b₁ rest₁ b₂ rest₂ _ _ hu hv heq
    exact h.unique u v b₁ rest₁ b₂ rest₂ hu hv heq
  · intro c msg hc hmsg
    rcases h.returned c msg hmsg with ⟨u, b', rest', hu, heq⟩ | htogether
    · refine Or.inl ⟨u, b', rest', ?_, hu, heq⟩
      rintro rfl
      exact hc heq.symm
    · exact Or.inr htogether

theorem Inv.fetch (h : Inv pc L) (ht : ∀ b rest, pc t ≠ .inSend b rest) {p : Pc}
    (hp : ∀ b rest, p ≠ .inSend b rest) : Inv (Function.update pc t p) (L.push t []) := by
  have hstream : (L.push t []).stream = L.stream := by simp [Ledger.push, labelled]
  have hback : ∀ u b rest, Function.update pc t p u = .inSend b rest →
      u ≠ t ∧ pc u = .inSend b rest := by
    intro u b rest hu
    rcases eq_or_ne u t with rfl | hne
    · rw [Function.update_self] at hu
      exact absurd hu (hp b rest)
    · exact ⟨hne, by rwa [Function.update_of_ne hne] at hu⟩
  constructor
  · intro c b hb
    rw [hstream] at hb
    exact h.labels c b hb
  · intro u b rest hu
    obtain ⟨hne, hu⟩ := hback u b rest hu
    obtain ⟨sent, before, after, hmessage, hsplit, hbefore, hafter, hleft⟩ :=
      (h.sending u b rest hu).split
    refine ⟨sent, before, after, hmessage, hstream.trans hsplit, hbefore, hafter, ?_⟩
    simpa [Ledger.push, hne] using hleft
  · intro u v b rest b' rest' hu hv heq
    exact h.unique u v b rest b' rest' (hback u b rest hu).2 (hback v b' rest' hv).2 heq
  · intro c msg hmsg
    rw [hstream]
    rcases h.returned c msg hmsg with ⟨u, b, rest, hu, heq⟩ | htogether
    · have hne : u ≠ t := by
        rintro rfl
        exact ht b rest hu
      exact Or.inl ⟨u, b, rest, by rwa [Function.update_of_ne hne], heq⟩
    · exact Or.inr htogether

/-- The ledger agrees with the mailbox, whose stream goes through its queue. -/
structure Entered (s : State Thread) : Prop where
  inv : Inv s.mailbox.pc s.ledger
  pushed : s.ledger.stream.map Prod.snd = s.mailbox.pushed
  stream : s.mailbox.pushed = s.mailbox.popped ++ s.mailbox.msgQueue

theorem map_snd_labelled (c : Nat) (bytes : List UInt8) :
    (labelled c bytes).map Prod.snd = bytes := by
  simp [labelled, Function.comp_def]

variable {s s' : State Thread}

theorem Entered.pushes (h : Entered s) {L : Ledger Thread} (hL : L.stream = s.ledger.stream)
    {m : Mailbox.State Thread} {sent rest : List UInt8}
    (hholding : Holding s.mailbox.pc L t (sent ++ rest))
    (hpushes : Pushes s.mailbox m t sent rest) :
    Entered ⟨m, L.push t (m.pushed.drop s.mailbox.pushed.length)⟩ := by
  have hmore : m.pushed.drop s.mailbox.pushed.length = sent := by
    rw [hpushes.pushed, List.drop_left]
  rw [hmore]
  refine ⟨?_, ?_, ?_⟩
  · dsimp only
    rw [hpushes.pc]
    exact hholding.inv
  · simp only [Ledger.push, List.map_append, map_snd_labelled, hL, h.pushed, hpushes.pushed]
  · simp only [hpushes.pushed, hpushes.popped, h.stream]

theorem Entered.fetches (h : Entered s) (ht : ∀ b rest, s.mailbox.pc t ≠ .inSend b rest)
    {m : Mailbox.State Thread} (hfetches : Fetches s.mailbox m t) :
    Entered ⟨m, s.ledger.push t (m.pushed.drop s.mailbox.pushed.length)⟩ := by
  have hmore : m.pushed.drop s.mailbox.pushed.length = [] := by
    rw [hfetches.pushed, List.drop_length]
  obtain ⟨p, hp, hpc⟩ := hfetches.pc
  rw [hmore]
  refine ⟨?_, ?_, ?_⟩
  · dsimp only
    rw [hpc]
    exact h.inv.fetch ht hp
  · simp [Ledger.push, labelled, h.pushed, hfetches.pushed]
  · simp only [hfetches.pushed, hfetches.popped, h.stream]

theorem Entered.next (h : Entered s) {a : Action Thread} (hundivided : Undivided s a)
    (hnext : MailboxMessages.next s a = some s') : Entered s' := by
  obtain ⟨m, hm, rfl⟩ := Option.map_eq_some_iff.mp hnext
  cases a with
  | send t msg =>
      simp only [Mailbox.next, Option.ite_none_right_eq_some, Option.some.injEq] at hm
      obtain ⟨⟨-, hpc⟩, rfl⟩ := hm
      obtain ⟨sent, rest, hmsg, hpushes⟩ := sendLoop_pushes s.mailbox t msg
      refine h.pushes (t := t) (L := s.ledger.enter (.send t msg)) rfl ?_ hpushes
      rw [← hmsg]
      exact h.inv.enter hpc msg
  | recv t msgLength =>
      simp only [Mailbox.next, Option.ite_none_right_eq_some, Option.some.injEq] at hm
      obtain ⟨⟨-, hpc⟩, rfl⟩ := hm
      have hnot : ∀ b rest, s.mailbox.pc t ≠ .inSend b rest := by simp [hpc]
      exact h.fetches hnot (recvLoop_fetches s.mailbox t msgLength)
  | resume t =>
      simp only [Mailbox.next, Option.ite_none_right_eq_some] at hm
      obtain ⟨-, hm⟩ := hm
      rcases hpc : s.mailbox.pc t with _ | ⟨b, rest⟩ | remaining
      · simp only [hpc] at hm
        cases hm
      · simp only [hpc, Option.some.injEq] at hm
        subst hm
        obtain ⟨sent, later, rfl, hpushes⟩ := sendLoop_pushes (pushByte s.mailbox b) t rest
        refine h.pushes (t := t) rfl ?_ (pushByte_then hpushes)
        refine h.inv.resume hpc fun hlabelled => ?_
        obtain ⟨b', hpart⟩ := hlabelled
        have hasleep : asleepInSend (s.mailbox.pc t) = true := by rw [hpc, asleepInSend]
        rw [← hundivided hasleep (List.mem_map_of_mem hpart), ← h.pushed, List.length_map]
      · simp only [hpc, Option.some.injEq] at hm
        subst hm
        have hnot : ∀ b rest, s.mailbox.pc t ≠ .inSend b rest := by simp [hpc]
        exact h.fetches hnot (popByte_then (recvLoop_fetches _ t remaining))

omit [DecidableEq Thread] in
theorem entered_initial : Entered (State.initial : State Thread) := by
  refine ⟨?_, rfl, rfl⟩
  constructor <;> simp [State.initial, Mailbox.State.initial]

omit [DecidableEq Thread] in
theorem Sending.together {rest : List UInt8} (h : Sending L t rest) :
    ∃ sent, L.messages[L.call t]? = some (sent ++ rest) ∧ Together L.stream (L.call t) sent := by
  obtain ⟨sent, before, after, hmessage, hstream, hbefore, hafter, -⟩ := h.split
  exact ⟨sent, hmessage, before, after, hstream, hbefore, hafter⟩

omit [DecidableEq Thread] in
theorem Entered.contiguous (h : Entered s) : Contiguous s := by
  constructor
  · intro c msg hmsg
    rcases h.inv.returned c msg hmsg with ⟨t, b, rest, hpc, rfl⟩ | htogether
    · obtain ⟨sent, hmessage, htogether⟩ := (h.inv.sending t b rest hpc).together
      obtain rfl := Option.some.inj (hmsg.symm.trans hmessage)
      exact ⟨sent, List.prefix_append _ _, htogether,
        fun hnone => absurd rfl (hnone t b rest hpc)⟩
    · exact ⟨msg, List.prefix_refl msg, htogether, fun _ => rfl⟩
  · rw [h.pushed, h.stream]
    exact List.prefix_append _ _

/-- The bytes of each message stay together in every run in which no sender
that has pushed a part of its message finds further bytes behind it. -/
theorem contiguous_of_undivided (h : ReachableUnder system Undivided s) : Contiguous s := by
  have hentered : Entered s := by
    refine h.invariant (P := Entered) ?_ fun _ _ _ hs hallowed hnext => hs.next hallowed hnext
    rintro s rfl
    exact entered_initial
  exact hentered.contiguous

/-- A receiver that waits for three bytes, and two senders. -/
def twoSenders : State Nat :=
  permittedState Undivided next State.initial
    [.recv 0 3, .send 1 [7, 8], .send 2 [9], .resume 0]

theorem twoSenders_contiguous :
    twoSenders.ledger.stream = [(0, 7), (0, 8), (1, 9)] ∧ twoSenders.mailbox.popped = [7, 8, 9] ∧
      Contiguous twoSenders := by
  have hstart : (system : System (State Nat) (Action Nat)).start State.initial := rfl
  have hreach : ReachableUnder system Undivided twoSenders :=
    permittedState_reachableUnder hstart _
  exact ⟨by decide +kernel, by decide +kernel, contiguous_of_undivided hreach⟩

omit [DecidableEq Thread] in
theorem Together.between {stream : List (Nat × UInt8)} {c : Nat} {bytes : List UInt8}
    (h : Together stream c bytes) {i j k : Nat} {b b' : UInt8} {x : Nat × UInt8} (hij : i < j)
    (hjk : j < k) (hi : stream[i]? = some (c, b)) (hj : stream[j]? = some x)
    (hk : stream[k]? = some (c, b')) : x.1 = c := by
  obtain ⟨before, after, rfl, hbefore, hafter⟩ := h
  have hfrom : before.length ≤ i := by
    by_contra hlt
    rw [List.append_assoc, List.getElem?_append_left (by omega)] at hi
    exact hbefore b (List.mem_of_getElem? hi)
  have hupto : k < before.length + bytes.length := by
    by_contra hle
    rw [List.getElem?_append_right (by simp [labelled]; omega)] at hk
    exact hafter b' (List.mem_of_getElem? hk)
  rw [List.getElem?_append_left (by simp [labelled]; omega),
    List.getElem?_append_right (by omega)] at hj
  obtain ⟨b, -, rfl⟩ := List.mem_map.mp (List.mem_of_getElem? hj)
  rfl

/-- The calls of `send` have at most `MAX_MSG_SIZE` bytes. -/
def ShortMessage (_ : State Thread) : Action Thread → Prop
  | .send _ msg => msg.length ≤ maxMsgSize
  | _ => True

omit [DecidableEq Thread] in
theorem enters [DecidableEq Thread] {allowed : State Thread → Action Thread → Prop}
    {m : Mailbox.State Thread} {a : Action Thread} (bytes : List UInt8)
    (h : ReachableUnder system allowed s) (hallowed : allowed s a)
    (hm : Mailbox.next s.mailbox a = some m) (hbytes : m.pushed = s.mailbox.pushed ++ bytes) :
    ReachableUnder system allowed ⟨m, (s.ledger.enter a).push (actor a) bytes⟩ := by
  refine ReachableUnder.step h hallowed ?_
  change MailboxMessages.next s a = _
  rw [MailboxMessages.next, hm, Option.map_some, hbytes, List.drop_left]

/-- The ledger of the three calls, where the message of the second one has two
halves. -/
def dividedLedger (filling : List UInt8) : Ledger Nat :=
  ((((((State.initial.ledger.enter (.send 1 [1])).push 1 [1]).enter
    (.send 0 (filling ++ [7]))).push 0 filling).push 1 []).enter (.send 1 [8])).push 1 [8] |>.push
      0 [7]

theorem dividedLedger_stream (filling : List UInt8) : (dividedLedger filling).stream =
    (0, 1) :: labelled 1 filling ++ [(2, 8), (1, 7)] := by
  simp [dividedLedger, Ledger.push, Ledger.enter, labelled, State.initial]

/-- Thread 1 fetched a byte and sent another one, which woke thread 0. -/
def wokenSender (filling : List UInt8) : Mailbox.State Nat :=
  leave (pushByte (leave (popByte (asleepSender ([1] ++ filling))) 1) 8) 1

/-- A byte is in the mailbox; thread 0 sends a message of as many bytes as the
mailbox holds and falls asleep before the last one. -/
theorem reachable_divided (filling : List UInt8) (hfull : filling.length + 1 = maxMsgSize) :
    ∃ m : Mailbox.State Nat, (∀ t, m.pc t = .outside) ∧
      ReachableUnder system ShortMessage ⟨m, dividedLedger filling⟩ := by
  have hstart : ReachableUnder system ShortMessage (State.initial : State Nat) :=
    ReachableUnder.start rfl
  have hone : (1 : Nat) ≤ maxMsgSize := by decide
  have hsent : Mailbox.next (Mailbox.State.initial : Mailbox.State Nat) (.send 1 [1]) =
      some { (Mailbox.State.initial : Mailbox.State Nat) with msgQueue := [1], pushed := [1] } := by
    simp [Mailbox.next, sendLoop, pushByte, leave, Mailbox.State.initial, maxMsgSize,
      WaitQueue.wakeupOne]
  have hfirst := enters (a := .send 1 [1]) [1] hstart hone hsent rfl
  have hfill : Mailbox.next
      { (Mailbox.State.initial : Mailbox.State Nat) with msgQueue := [1], pushed := [1] }
      (.send 0 (filling ++ [7])) = some (asleepSender ([1] ++ filling)) := by
    rw [← sendLoop_fill [1] filling (by simpa [Nat.add_comm] using hfull)]
    rfl
  have hasleep := enters filling hfirst (by simp [ShortMessage, hfull]) hfill rfl
  have hfetched := enters (a := .recv 1 1)
    (m := leave (popByte (asleepSender ([1] ++ filling))) 1) [] hasleep trivial rfl
    (List.append_nil _).symm
  have hwake : Mailbox.next (leave (popByte (asleepSender ([1] ++ filling))) 1) (.send 1 [8]) =
      some (wokenSender filling) := by
    have hroom : ¬(leave (popByte (asleepSender ([1] ++ filling))) 1).msgQueue.length ≥
        maxMsgSize := by
      change ¬filling.length ≥ maxMsgSize
      omega
    change some (sendLoop (leave (popByte (asleepSender ([1] ++ filling))) 1) 1 [8]) = _
    rw [sendLoop, if_neg hroom]
    rfl
  have hwoken := enters (a := .send 1 [8]) (m := wokenSender filling) [8] hfetched hone hwake rfl
  have hresumed := enters (a := .resume 0)
    (m := leave (pushByte (wokenSender filling) 7) 0) [7] hwoken trivial rfl rfl
  refine ⟨_, fun t => ?_, hresumed⟩
  rcases eq_or_ne t 0 with rfl | hzero
  · rfl
  · rcases eq_or_ne t 1 with rfl | hone'
    · rfl
    · simp [leave, pushByte, wokenSender, popByte, asleepSender, doBlock, hzero, hone',
        Mailbox.State.initial]

theorem dividedLedger_not_together (b : UInt8) (rest : List UInt8) :
    ¬Together (dividedLedger (b :: rest)).stream 1 (b :: rest ++ [7]) := by
  intro htogether
  rw [dividedLedger_stream] at htogether
  obtain ⟨n, hn⟩ : ∃ n, ((0, 1) :: labelled 1 (b :: rest)).length = n + 2 :=
    ⟨rest.length, by simp [labelled]⟩
  have hother : ((0, 1) :: labelled 1 (b :: rest) ++ [(2, 8), (1, 7)])[n + 2]? = some (2, 8) := by
    rw [List.getElem?_append_right hn.le, hn, Nat.sub_self]
    rfl
  have hlast : ((0, 1) :: labelled 1 (b :: rest) ++ [(2, 8), (1, 7)])[n + 3]? = some (1, 7) := by
    rw [List.getElem?_append_right (by omega), hn, Nat.add_sub_add_left]
    rfl
  cases htogether.between (i := 1) (by omega) (by omega) rfl hother hlast

theorem divided_message :
    ¬ ∀ s : State Nat, ReachableUnder system ShortMessage s → Contiguous s := by
  intro hall
  obtain ⟨rest, hrest⟩ : ∃ rest : List UInt8, rest.length = 4094 :=
    ⟨List.replicate 4094 7, List.length_replicate ..⟩
  have hfull : (7 :: rest).length + 1 = maxMsgSize := by
    rw [List.length_cons, hrest]
    rfl
  obtain ⟨m, hpc, hreach⟩ := reachable_divided (7 :: rest) hfull
  obtain ⟨sent, -, htogether, hwhole⟩ := (hall _ hreach).together 1 (7 :: rest ++ [7]) rfl
  obtain rfl : sent = 7 :: rest ++ [7] := hwhole fun t b later hsend => by
    rw [hpc t] at hsend
    cases hsend
  exact dividedLedger_not_together 7 rest htogether

end LabKernel.MailboxMessages
