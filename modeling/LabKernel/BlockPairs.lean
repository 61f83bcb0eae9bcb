import LabKernel.BlockObject
import LabKernel.PairedRuns

/-!
Two machines that agree in everything except the contents of some blocks.

The contents may differ in two ways: in what a block shows now, and in what it
shows once it has lost its slot.  Programs keep the agreement, and take the
same course on both machines, as long as they read only blocks that show the
same.
-/

namespace LabKernel.BlockPairs

open LabKernel.BlockCache
open LabKernel.BlockObject
open LabKernel.CacheCoherence
open LabKernel.CacheRecency
open LabKernel.PairedRuns
open LabKernel.ProgramLogic

variable {β σ : Type}

/-- Everything in the cache but the contents of the slots and of the disk. -/
structure SameControl (c₁ c₂ : Cache β) : Prop where
  age : c₁.age = c₂.age
  policyWritethrough : c₁.policyWritethrough = c₂.policyWritethrough
  policyWritebackInterval : c₁.policyWritebackInterval = c₂.policyWritebackInterval
  lastTime : c₁.lastTime = c₂.lastTime
  slot : ∀ i < cacheSize, (c₁.slots i).blockid = (c₂.slots i).blockid ∧
    (c₁.slots i).dirty = (c₂.slots i).dirty ∧ (c₁.slots i).age = (c₂.slots i).age

/-- Two machines that may differ in what the blocks of `V` show and in what
those of `U` show once they are settled. -/
structure Alike (V U : Set Nat) (m₁ m₂ : Machine β σ) : Prop where
  sound₁ : Sound m₁
  sound₂ : Sound m₂
  globals : m₁.globals = m₂.globals
  control : SameControl m₁.cache m₂.cache
  visible_eq : ∀ x < maxBlockNum, x ∉ V → visible m₁ x = visible m₂ x
  settled_eq : ∀ x < maxBlockNum, x ∉ U → settled m₁ x = settled m₂ x

variable {m₁ m₂ : Machine β σ} {c₁ c₂ c₁' c₂' : Cache β} {T : Finset Nat} {V V' U U' : Set Nat}
  {b : Block} {x : Nat}

theorem Alike.mono (h : Alike V U m₁ m₂) (hV : V ⊆ V') (hU : U ⊆ U') : Alike V' U' m₁ m₂ where
  sound₁ := h.sound₁
  sound₂ := h.sound₂
  globals := h.globals
  control := h.control
  visible_eq x hx hx' := h.visible_eq x hx fun hmem => hx' (hV hmem)
  settled_eq x hx hx' := h.settled_eq x hx fun hmem => hx' (hU hmem)

/-- The blocks that show the same on both machines, but settle differently,
keep their slots as long as only blocks of `T` are opened. -/
def Held (T : Finset Nat) (V U : Set Nat) (m : Machine β σ) : Prop :=
  ∀ y ∈ U, y ∉ V → ∃ b : Block, b.blockid = y ∧ Fresh T m b

theorem held_of_subset {m : Machine β σ} (hU : U ⊆ V) : Held T V U m := fun _ hmem hnot =>
  absurd (hU hmem) hnot

theorem Held.keep {T' : Finset Nat} {m m' : Machine β σ} (h : Held T V U m)
    (hkeep : ∀ c, Fresh T m c → Fresh T' m' c) : Held T' V U m' := by
  intro y hy hV
  obtain ⟨b, hid, hfresh⟩ := h y hy hV
  exact ⟨b, hid, hkeep b hfresh⟩

theorem lookupFrom_congr (h : SameControl c₁ c₂) (x : Nat) {left i : Nat}
    (hi : i + left ≤ cacheSize) : lookupFrom c₁ x left i = lookupFrom c₂ x left i := by
  induction left generalizing i with
  | zero => rfl
  | succ left ih =>
      rw [lookupFrom, lookupFrom, (h.slot i (by omega)).1, ih (by omega)]

theorem selectFrom_congr (h : SameControl c₁ c₂) {left i selected : Nat}
    (hi : i + left ≤ cacheSize) (hselected : selected < cacheSize) :
    selectFrom c₁ left i selected = selectFrom c₂ left i selected := by
  induction left generalizing i selected with
  | zero => rfl
  | succ left ih =>
      rw [selectFrom, selectFrom, (h.slot i (by omega)).2.2, (h.slot selected hselected).2.2]
      refine ih (by omega) ?_
      split
      next => omega
      next => exact hselected

theorem cacheFind_slot (h : SameControl c₁ c₂) {i₁ i₂ : Nat}
    (h₁ : cacheFind c₁ x = some (i₁, c₁')) (h₂ : cacheFind c₂ x = some (i₂, c₂')) : i₁ = i₂ := by
  have hchoice : ∀ {c c' : Cache β} {i : Nat}, cacheFind c x = some (i, c') →
      i = (lookupFrom c x cacheSize 0).getD (selectFrom c cacheSize 0 0) := by
    intro c c' i hfind
    unfold cacheFind at hfind
    split at hfind
    next k hlookup =>
      rw [hlookup]
      exact (Prod.mk.inj (Option.some.inj hfind)).1.symm
    next hlookup =>
      rw [hlookup]
      obtain ⟨disk, -, hfind⟩ := Option.bind_eq_some_iff.mp hfind
      obtain ⟨data, -, hfind⟩ := Option.map_eq_some_iff.mp hfind
      exact (Prod.mk.inj hfind).1.symm
  rw [hchoice h₁, hchoice h₂, lookupFrom_congr h x (by omega),
    selectFrom_congr h (by omega) (by decide)]

theorem sameControl_touched (h : SameControl c₁ c₂) (i : Nat) :
    SameControl (touched c₁ i) (touched c₂ i) := by
  refine ⟨?_, h.policyWritethrough, h.policyWritebackInterval, h.lastTime, fun j hj => ?_⟩
  · exact congrArg (· + 1) h.age
  · rcases eq_or_ne j i with rfl | hne
    · rw [touched_slot_self, touched_slot_self]
      exact ⟨(h.slot j hj).1, (h.slot j hj).2.1, h.age⟩
    · rw [touched_slot_of_ne _ hne, touched_slot_of_ne _ hne]
      exact h.slot j hj

theorem sameControl_replaced (h : SameControl c₁ c₂) (disk₁ disk₂ : Nat → β) (x i : Nat) :
    SameControl (replaced c₁ disk₁ x i) (replaced c₂ disk₂ x i) := by
  refine ⟨?_, h.policyWritethrough, h.policyWritebackInterval, h.lastTime, fun j hj => ?_⟩
  · exact congrArg (· + 1) h.age
  · rcases eq_or_ne j i with rfl | hne
    · rw [replaced_slot_self, replaced_slot_self]
      exact ⟨rfl, rfl, h.age⟩
    · rw [replaced_slot_of_ne _ _ _ hne, replaced_slot_of_ne _ _ _ hne]
      exact h.slot j hj

theorem sameControl_setData (h : SameControl c₁ c₂) (i : Nat) (d : β) :
    SameControl (c₁.setData i d) (c₂.setData i d) := by
  refine ⟨h.age, h.policyWritethrough, h.policyWritebackInterval, h.lastTime, fun j hj => ?_⟩
  rcases eq_or_ne j i with rfl | hne
  · rw [setData_slot_self, setData_slot_self]
    exact h.slot j hj
  · rw [setData_slot_of_ne _ _ hne, setData_slot_of_ne _ _ hne]
    exact h.slot j hj

theorem sameControl_marked (h : SameControl c₁ c₂) (i : Nat) (dirty : Bool) :
    SameControl (marked c₁ i dirty) (marked c₂ i dirty) := by
  refine ⟨h.age, h.policyWritethrough, h.policyWritebackInterval, h.lastTime, fun j hj => ?_⟩
  rcases eq_or_ne j i with rfl | hne
  · rw [marked_slot_self, marked_slot_self]
    exact ⟨(h.slot j hj).1, rfl, (h.slot j hj).2.2⟩
  · rw [marked_slot_of_ne _ _ hne, marked_slot_of_ne _ _ hne]
    exact h.slot j hj

theorem sameControl_updated (h : SameControl c₁ c₂) (i : Nat) :
    SameControl (updated c₁ i) (updated c₂ i) := by
  unfold updated
  rw [h.policyWritethrough]
  split
  next =>
    exact ⟨h.age, h.policyWritethrough, h.policyWritebackInterval, h.lastTime, h.slot⟩
  next => exact sameControl_marked h i true

theorem Alike.fresh (h : Alike V U m₁ m₂) (hb : Fresh T m₁ b) : Fresh T m₂ b where
  slot_lt := hb.slot_lt
  blockid := (h.control.slot _ hb.slot_lt).1.symm.trans hb.blockid
  held := (h.control.slot _ hb.slot_lt).2.2 ▸ hb.held
  mem := hb.mem
  younger j hj := by
    rw [← (h.control.slot _ hb.slot_lt).2.2, ← (h.control.slot j hj).2.2,
      ← (h.control.slot j hj).1]
    exact hb.younger j hj

theorem together_find (h : Alike V U m₁ m₂) (hU : Held T V U m₁) (hT : T.card ≤ cacheSize)
    (hx : x ∈ T) :
    Together (openBlock x) m₁ m₂ fun _ => Alike V U := by
  rcases h.sound₁.find_cases x with
    ⟨k, hk, hid, hfirst, hfind₁⟩ | ⟨habsent, hsector, k, hk, holdest, hfind₁⟩ | ⟨hfind₁, hsector⟩
  · rcases h.sound₂.find_cases x with
      ⟨k₂, -, hid₂, hfirst₂, hfind₂⟩ | ⟨habsent, -⟩ | ⟨-, hfail⟩
    · obtain rfl := cacheFind_slot h.control hfind₁ hfind₂
      refine together_of_ok (openBlock_run hfind₁) (openBlock_run hfind₂)
        ⟨(evolves_touched h.sound₁ (T := T) (W := ∅) hk (hid.symm ▸ hfirst) (hid.symm ▸ hx)).sound,
          (evolves_touched h.sound₂ (T := T) (W := ∅) hk (hid₂.symm ▸ hfirst₂)
            (hid₂.symm ▸ hx)).sound, h.globals, sameControl_touched h.control k, ?_, ?_⟩
      · intro y hy hV
        rw [(visible_touched h.sound₁ k hy).1, (visible_touched h.sound₂ k hy).1]
        exact h.visible_eq y hy hV
      · intro y hy hU
        rw [(visible_touched h.sound₁ k hy).2, (visible_touched h.sound₂ k hy).2]
        exact h.settled_eq y hy hU
    · exact absurd ((h.control.slot k hk).1.symm.trans hid) (habsent k hk)
    · exact absurd (hid ▸ h.sound₁.sector_lt k hk) hfail
  · rcases h.sound₂.find_cases x with
      ⟨k₂, hk₂, hid₂, -⟩ | ⟨habsent₂, -, k₂, -, holdest₂, hfind₂⟩ | ⟨-, hfail⟩
    · exact absurd ((h.control.slot k₂ hk₂).1.trans hid₂) (habsent k₂ hk₂)
    · obtain rfl := cacheFind_slot h.control hfind₁ hfind₂
      have hsame := (h.control.slot k hk).1
      refine together_of_ok (openBlock_run hfind₁) (openBlock_run hfind₂)
        ⟨(evolves_replaced h.sound₁ (W := ∅) hT hx hsector habsent hk holdest).sound,
          (evolves_replaced h.sound₂ (W := ∅) hT hx hsector habsent₂ hk holdest₂).sound,
          h.globals, sameControl_replaced h.control _ _ x k, ?_, ?_⟩
      · intro y hy hV
        rw [(visible_replaced h.sound₁ habsent hk hy).1,
          (visible_replaced h.sound₂ habsent₂ hk hy).1, ← hsame]
        -- The block that lost its slot shows its settled contents.
        rcases eq_or_ne y (m₁.cache.slots k).blockid with rfl | hne
        · rw [Function.update_self, Function.update_self]
          refine h.settled_eq _ hy fun hmem => ?_
          obtain ⟨b, hid, hfresh⟩ := hU _ hmem hV
          have hslot : b.cacheid = k := h.sound₁.coherent.unique _ hfresh.slot_lt k hk
            (hfresh.blockid ▸ hid.symm ▸ hy) (hfresh.blockid.trans hid)
          subst hslot
          exact not_recent_oldest hT h.sound₁.aged hx habsent holdest hfresh
        · rw [Function.update_of_ne hne, Function.update_of_ne hne]
          exact h.visible_eq y hy hV
      · intro y hy hU
        rw [(visible_replaced h.sound₁ habsent hk hy).2,
          (visible_replaced h.sound₂ habsent₂ hk hy).2]
        exact h.settled_eq y hy hU
    · exact absurd hsector hfail
  · rcases h.sound₂.find_cases x with ⟨k₂, hk₂, hid₂, -⟩ | ⟨-, hpass, -⟩ | ⟨hfind₂, -⟩
    · exact absurd (hid₂ ▸ h.sound₂.sector_lt k₂ hk₂) hsector
    · exact absurd hpass hsector
    · have hrun₁ : (openBlock x : BlockProgram β σ Block).run m₁ = (.error .sector, m₁) := by
        simp only [openBlock, hfind₁]
      have hrun₂ : (openBlock x : BlockProgram β σ Block).run m₂ = (.error .sector, m₂) := by
        simp only [openBlock, hfind₂]
      exact together_of_error hrun₁ hrun₂

theorem together_openHeld (h : Alike V U m₁ m₂) (hU : Held T V U m₁) (hT : T.card ≤ cacheSize)
    (hx : x ∈ T) :
    Together (openBlock x) m₁ m₂ fun b m₁' m₂' =>
      b.blockid = x ∧ Fresh T m₁' b ∧ Evolves T T ∅ m₁ m₁' ∧ m₁'.globals = m₁.globals ∧
        Alike V U m₁' m₂' := by
  refine ((together_find h hU hT hx).and (runs_openBlock h.sound₁ hT hx (E := fun _ _ => True)
    fun _ => trivial)).mono ?_
  rintro b m₁' m₂' ⟨⟨hid, hfresh, hev, hg⟩, h'⟩
  exact ⟨hid, hfresh, hev, hg, h'⟩

theorem together_openBlock (h : Alike V U m₁ m₂) (hU : U ⊆ V) (hT : T.card ≤ cacheSize)
    (hx : x ∈ T) :
    Together (openBlock x) m₁ m₂ fun b m₁' m₂' =>
      b.blockid = x ∧ Fresh T m₁' b ∧ Evolves T T ∅ m₁ m₁' ∧ m₁'.globals = m₁.globals ∧
        Alike V U m₁' m₂' :=
  together_openHeld h (held_of_subset hU) hT hx

theorem together_openOne (h : Alike V U m₁ m₂) (hU : U ⊆ V) (x : Nat) :
    Together (openBlock x) m₁ m₂ fun b m₁' m₂' =>
      b.blockid = x ∧ Fresh {x} m₁' b ∧ Alike V U m₁' m₂' := by
  refine (together_openBlock h hU (T := {x}) (by simp [cacheSize])
    (Finset.mem_singleton_self x)).mono ?_
  rintro b m₁' m₂' ⟨hid, hfresh, -, -, h'⟩
  exact ⟨hid, hfresh, h'⟩

theorem together_load (h : Alike V U m₁ m₂) (hb : Fresh T m₁ b) (hlt : b.blockid < maxBlockNum)
    (hV : b.blockid ∉ V) :
    Together b.load m₁ m₂ fun d m₁' m₂' =>
      d = visible m₁ b.blockid ∧ m₁' = m₁ ∧ m₂' = m₂ := by
  refine together_of_ok (load_run h.sound₁.toTracked hb) ?_ ⟨rfl, rfl, rfl⟩
  rw [load_run h.sound₂.toTracked (h.fresh hb), h.visible_eq _ hlt hV]

theorem together_store (h : Alike V U m₁ m₂) (hb : Fresh T m₁ b) (hlt : b.blockid < maxBlockNum)
    (d : β) :
    Together (b.store d) m₁ m₂ fun _ m₁' m₂' =>
      (∀ c, Fresh T m₁ c → Fresh T m₁' c) ∧ Alike (V \ {b.blockid}) U m₁' m₂' := by
  have hb₂ := h.fresh hb
  have hrun₁ := store_run h.sound₁.toTracked hb d
  have hrun₂ := store_run h.sound₂.toTracked hb₂ d
  have hev₁ := (runs_store (E := fun _ _ => False) h.sound₁ hb d).ok hrun₁
  have hev₂ := (runs_store (E := fun _ _ => False) h.sound₂ hb₂ d).ok hrun₂
  refine together_of_ok hrun₁ hrun₂
    ⟨hev₁.1.fresh, hev₁.1.sound, hev₂.1.sound, h.globals,
      sameControl_setData h.control _ d, ?_, ?_⟩
  · intro x hx hV
    rw [(visible_setData h.sound₁ hb hlt d hx).1, (visible_setData h.sound₂ hb₂ hlt d hx).1]
    rcases eq_or_ne x b.blockid with rfl | hne
    · rw [Function.update_self, Function.update_self]
    · rw [Function.update_of_ne hne, Function.update_of_ne hne]
      exact h.visible_eq x hx fun hmem => hV ⟨hmem, hne⟩
  · intro x hx hU
    rw [(visible_setData h.sound₁ hb hlt d hx).2, (visible_setData h.sound₂ hb₂ hlt d hx).2,
      ← (h.control.slot _ hb.slot_lt).2.1]
    split
    next =>
      rcases eq_or_ne x b.blockid with rfl | hne
      · rw [Function.update_self, Function.update_self]
      · rw [Function.update_of_ne hne, Function.update_of_ne hne]
        exact h.settled_eq x hx hU
    next => exact h.settled_eq x hx hU

theorem together_update (h : Alike V U m₁ m₂) (hb : Fresh T m₁ b) (hlt : b.blockid < maxBlockNum)
    (hV : b.blockid ∉ V) :
    Together b.update m₁ m₂ fun _ m₁' m₂' =>
      (∀ c, Fresh T m₁ c → Fresh T m₁' c) ∧ Alike V (U \ {b.blockid}) m₁' m₂' := by
  have hb₂ := h.fresh hb
  have hrun₁ := update_run h.sound₁.toTracked hb
  have hrun₂ := update_run h.sound₂.toTracked hb₂
  have hev₁ := (runs_update (E := fun _ _ => False) h.sound₁ hb hlt).ok hrun₁
  have hev₂ := (runs_update (E := fun _ _ => False) h.sound₂ hb₂ hlt).ok hrun₂
  refine together_of_ok hrun₁ hrun₂
    ⟨hev₁.1.fresh, hev₁.1.sound, hev₂.1.sound, h.globals, sameControl_updated h.control _, ?_, ?_⟩
  · intro x hx hV
    rw [(visible_updated h.sound₁ hb hlt hx).1, (visible_updated h.sound₂ hb₂ hlt hx).1]
    exact h.visible_eq x hx hV
  · intro x hx hU
    rw [(visible_updated h.sound₁ hb hlt hx).2, (visible_updated h.sound₂ hb₂ hlt hx).2]
    rcases eq_or_ne x b.blockid with rfl | hne
    · rw [Function.update_self, Function.update_self]
      exact h.visible_eq _ hx hV
    · rw [Function.update_of_ne hne, Function.update_of_ne hne]
      exact h.settled_eq x hx fun hmem => hU ⟨hmem, hne⟩

theorem together_store_update {α : Type} {k : BlockProgram β σ α} {d : β}
    {Q : α → Machine β σ → Machine β σ → Prop} (h : Alike V U m₁ m₂) (hb : Fresh T m₁ b)
    (hlt : b.blockid < maxBlockNum)
    (hk : ∀ m₁' m₂', (∀ c, Fresh T m₁ c → Fresh T m₁' c) →
      Alike (V \ {b.blockid}) (U \ {b.blockid}) m₁' m₂' → Together k m₁' m₂' Q) :
    Together (do b.store d; b.update; k) m₁ m₂ Q := by
  refine (together_store h hb hlt d).bind ?_
  rintro _ n₁ n₂ ⟨hfresh, h'⟩
  refine (together_update h' (hfresh b hb) hlt fun hmem => hmem.2 rfl).bind ?_
  rintro _ n₁' n₂' ⟨hfresh', h''⟩
  exact hk n₁' n₂' (fun c hc => hfresh' c (hfresh c hc)) h''

theorem together_open_load {α : Type} {k : Block → β → BlockProgram β σ α}
    {Q : α → Machine β σ → Machine β σ → Prop} (h : Alike V U m₁ m₂) (hU : U ⊆ V)
    (hx : x < maxBlockNum) (hV : x ∉ V)
    (hk : ∀ b m₁' m₂', b.blockid = x → Fresh {x} m₁' b → Alike V U m₁' m₂' →
      Together (k b (visible m₁' x)) m₁' m₂' Q) :
    Together (do let b ← openBlock x; let d ← b.load; k b d) m₁ m₂ Q := by
  refine (together_openOne h hU x).bind ?_
  rintro b n₁ n₂ ⟨hid, hfresh, h'⟩
  refine (together_load h' hfresh (hid ▸ hx) (by rw [hid]; exact hV)).bind ?_
  rintro d n₁ n₂ ⟨rfl, rfl, rfl⟩
  rw [hid]
  exact hk b n₁ n₂ hid hfresh h'

theorem together_getGlobals (h : Alike V U m₁ m₂) :
    Together (getGlobals : BlockProgram β σ σ) m₁ m₂ fun g m₁' m₂' =>
      g = m₁.globals ∧ m₁' = m₁ ∧ m₂' = m₂ :=
  ⟨h.globals, rfl, rfl, rfl⟩

theorem together_modifyGlobals (h : Alike V U m₁ m₂) (f : σ → σ) :
    Together (modifyGlobals f) m₁ m₂ fun _ m₁' m₂' =>
      (∀ c, Fresh T m₁ c → Fresh T m₁' c) ∧ m₁'.globals = f m₁.globals ∧ Alike V U m₁' m₂' :=
  ⟨rfl, fun _ hc => hc, rfl, (evolves_globals (T := T) (W := ∅) h.sound₁ _).sound,
    (evolves_globals (T := T) (W := ∅) h.sound₂ _).sound, congrArg f h.globals, h.control,
    h.visible_eq, h.settled_eq⟩

end LabKernel.BlockPairs
