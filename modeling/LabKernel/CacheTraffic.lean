import LabKernel.BlockPairs

/-!
What goes on in the cache between the calls of a program: blocks that others
open, the timer that writes back, and changes of the policy.
-/

namespace LabKernel.CacheTraffic

open LabKernel.BlockCache
open LabKernel.BlockObject
open LabKernel.BlockPairs
open LabKernel.CacheCoherence
open LabKernel.CacheRecency
open LabKernel.PairedRuns
open LabKernel.ProgramLogic

variable {β σ : Type}

inductive Traffic where
  | find (blockid : Nat)
  | scanTimer (now later : Int)
  | setPolicy (policySeconds : Int)

/-- An operation on the cache. -/
def onCache (f : Cache β → Option (Cache β)) : BlockProgram β σ Unit := ⟨fun m =>
  match f m.cache with
  | some cache => (.ok (), { m with cache := cache })
  | none => (.error .sector, m)⟩

def Traffic.program : Traffic → BlockProgram β σ Unit
  | .find blockid => do let _ ← openBlock blockid
  | .scanTimer now later => onCache (cacheScanTimer · now later)
  | .setPolicy policySeconds => onCache (cacheSetPolicy · policySeconds)

variable {m m₁ m₂ : Machine β σ} {c c' c₁ c₂ c₁' c₂' : Cache β} {v s : Nat → β} {X : Set Nat}

/-- The blocks stay in their slots, with the same contents. -/
structure Undisturbed (v s : Nat → β) (c c' : Cache β) : Prop where
  coherent : Coherent c' v s
  age : c'.age = c.age
  slot : ∀ k, (c'.slots k).blockid = (c.slots k).blockid ∧
    (c'.slots k).data = (c.slots k).data ∧ (c'.slots k).age = (c.slots k).age
  mayShow : ∀ x d, MayShow c' x d → MayShow c x d

theorem Undisturbed.refl (h : Coherent c v s) : Undisturbed v s c c :=
  ⟨h, rfl, fun _ => ⟨rfl, rfl, rfl⟩, fun _ _ hd => hd⟩

theorem mayShow_congr {x : Nat} {d : β} (h : MayShow c' x d) (hslots : c'.slots = c.slots)
    (hdisk : c'.disk = c.disk) : MayShow c x d := by
  cases h with
  | held k hk hid =>
      rw [hslots] at hid ⊢
      exact .held k hk hid
  | flush k hk hdirty hsector =>
      rw [hslots] at hdirty hsector ⊢
      exact .flush k hk hdirty hsector
  | disk hclean =>
      rw [hdisk]
      rw [hslots] at hclean
      exact .disk hclean

theorem writeback_undisturbed (h : Coherent c v s) (through : Bool) (interval last : Int) :
    ∃ c', cacheWriteback
        { c with
          policyWritethrough := through
          policyWritebackInterval := interval
          lastTime := last } = some c' ∧ Undisturbed v s c c' := by
  obtain ⟨c', hrun, hc', hsame, -⟩ := cacheWriteback_spec
    (c := { c with
      policyWritethrough := through
      policyWritebackInterval := interval
      lastTime := last }) { h with }
  exact ⟨c', hrun, hc', hsame.age, hsame.slot,
    fun x d hd => mayShow_congr (hsame.mayShow x d hd) rfl rfl⟩

theorem scanTimer_undisturbed (h : Coherent c v s) (now later : Int) :
    ∃ c', cacheScanTimer c now later = some c' ∧ Undisturbed v s c c' := by
  unfold cacheScanTimer
  split
  next => exact ⟨c, rfl, .refl h⟩
  next =>
    split
    next => exact writeback_undisturbed h c.policyWritethrough c.policyWritebackInterval later
    next => exact ⟨c, rfl, .refl h⟩

theorem setPolicy_undisturbed (h : Coherent c v s) (policySeconds : Int) :
    ∃ c', cacheSetPolicy c policySeconds = some c' ∧ Undisturbed v s c c' := by
  unfold cacheSetPolicy
  split
  next => exact writeback_undisturbed h true 0 c.lastTime
  next =>
    split
    next =>
      exact ⟨_, rfl, { h with }, rfl, fun _ => ⟨rfl, rfl, rfl⟩,
        fun _ _ hd => mayShow_congr hd rfl rfl⟩
    next => exact ⟨c, rfl, .refl h⟩

theorem evolves_undisturbed {T : Finset Nat} (h : Sound m)
    (hc : Undisturbed (visible m) (settled m) m.cache c') :
    Evolves T T ∅ m { m with cache := c' } := by
  have hslot := fun k => And.intro (hc.slot k).1 (hc.slot k).2.2
  have htracked : Tracked { m with cache := c' } := ⟨aged_of_same h.aged hc.age hslot,
    fun k hk => (hc.slot k).1 ▸ h.sector_lt k hk, h.recycled⟩
  have hfresh : ∀ b, Fresh T m b → Fresh T { m with cache := c' } b :=
    fun _ hb => recent_of_same hb hslot
  refine evolves_write ⟨htracked, hfresh, fun b hb _ => ?_, fun x d _ hd => hc.mayShow x d hd,
    fun hm => hm⟩ hc.coherent h.strayed (fun _ _ => rfl) fun _ _ => rfl
  rw [← htracked.data_eq (hfresh b hb), ← h.data_eq hb]
  exact (hc.slot b.cacheid).2.1

theorem runs_traffic (h : Sound m) (t : Traffic) :
    Runs t.program m (fun _ _ => True) fun _ m' =>
      (∃ T, Evolves T T ∅ m m') ∧ m'.globals = m.globals := by
  have hcache : ∀ f : Cache β → Option (Cache β),
      (∃ c', f m.cache = some c' ∧ Undisturbed (visible m) (settled m) m.cache c') →
      Runs (onCache f) m (fun _ _ => True) fun _ m' =>
        (∃ T, Evolves T T ∅ m m') ∧ m'.globals = m.globals := by
    rintro f ⟨c', hf, hc⟩
    have hrun : (onCache f : BlockProgram β σ Unit).run m = (.ok (), { m with cache := c' }) := by
      simp only [onCache, hf]
    exact runs_of_ok hrun ⟨⟨∅, evolves_undisturbed h hc⟩, rfl⟩
  cases t with
  | find blockid =>
      refine (runs_openBlock h (T := {blockid}) (by simp [cacheSize])
        (Finset.mem_singleton_self _) fun _ => trivial).bind ?_
      rintro _ m' ⟨-, -, hev, hg⟩
      exact runs_pure ⟨⟨_, hev⟩, hg⟩
  | scanTimer now later =>
      exact hcache (cacheScanTimer · now later) (scanTimer_undisturbed h.coherent now later)
  | setPolicy policySeconds =>
      exact hcache (cacheSetPolicy · policySeconds) (setPolicy_undisturbed h.coherent policySeconds)

theorem writebackFrom_control {left start : Nat} (h : SameControl c₁ c₂)
    (hleft : start + left ≤ cacheSize) (h₁ : writebackFrom c₁ left start = some c₁')
    (h₂ : writebackFrom c₂ left start = some c₂') : SameControl c₁' c₂' := by
  induction left generalizing c₁ c₂ start with
  | zero =>
      cases h₁
      cases h₂
      exact h
  | succ left ih =>
      rw [writebackFrom] at h₁ h₂
      obtain ⟨hid, hdirty, hage⟩ := h.slot start (by omega)
      dsimp only at h₁ h₂
      rw [← hdirty] at h₂
      split at h₁
      next hd =>
        rw [if_pos hd] at h₂
        obtain ⟨disk₁, -, h₁⟩ := Option.bind_eq_some_iff.mp h₁
        obtain ⟨disk₂, -, h₂⟩ := Option.bind_eq_some_iff.mp h₂
        have hclean := sameControl_marked h start false
        refine ih ?_ (by omega) h₁ h₂
        exact ⟨h.age, h.policyWritethrough, h.policyWritebackInterval, h.lastTime, hclean.slot⟩
      next hd =>
        rw [if_neg hd] at h₂
        exact ih h (by omega) h₁ h₂

theorem cacheWriteback_control (h : SameControl c₁ c₂) (h₁ : cacheWriteback c₁ = some c₁')
    (h₂ : cacheWriteback c₂ = some c₂') : SameControl c₁' c₂' :=
  writebackFrom_control h (by omega) h₁ h₂

theorem scanTimer_control {now later : Int} (h : SameControl c₁ c₂)
    (h₁ : cacheScanTimer c₁ now later = some c₁') (h₂ : cacheScanTimer c₂ now later = some c₂') :
    SameControl c₁' c₂' := by
  unfold cacheScanTimer at h₁ h₂
  rw [← h.policyWritethrough, ← h.lastTime, ← h.policyWritebackInterval] at h₂
  split at h₁
  next hpolicy =>
    rw [if_pos hpolicy] at h₂
    cases h₁
    cases h₂
    exact h
  next hpolicy =>
    rw [if_neg hpolicy] at h₂
    split at h₁
    next hlate =>
      rw [if_pos hlate] at h₂
      refine cacheWriteback_control ?_ h₁ h₂
      exact ⟨h.age, rfl, rfl, rfl, h.slot⟩
    next hlate =>
      rw [if_neg hlate] at h₂
      cases h₁
      cases h₂
      exact h

theorem setPolicy_control {policySeconds : Int} (h : SameControl c₁ c₂)
    (h₁ : cacheSetPolicy c₁ policySeconds = some c₁')
    (h₂ : cacheSetPolicy c₂ policySeconds = some c₂') : SameControl c₁' c₂' := by
  unfold cacheSetPolicy at h₁ h₂
  split at h₁
  next hthrough =>
    rw [if_pos hthrough] at h₂
    refine cacheWriteback_control ?_ h₁ h₂
    exact ⟨h.age, rfl, rfl, h.lastTime, h.slot⟩
  next hthrough =>
    rw [if_neg hthrough] at h₂
    split at h₁
    next hback =>
      rw [if_pos hback] at h₂
      cases h₁
      cases h₂
      exact ⟨h.age, rfl, rfl, h.lastTime, h.slot⟩
    next hback =>
      rw [if_neg hback] at h₂
      cases h₁
      cases h₂
      exact h

theorem together_onCache {f : Cache β → Option (Cache β)} (h : Alike X X m₁ m₂)
    (hf : ∀ m : Machine β σ, Sound m →
      ∃ c', f m.cache = some c' ∧ Undisturbed (visible m) (settled m) m.cache c')
    (hcontrol : ∀ c₁', f m₁.cache = some c₁' → ∀ c₂', f m₂.cache = some c₂' → SameControl c₁' c₂') :
    Together (onCache f : BlockProgram β σ Unit) m₁ m₂ fun _ => Alike X X := by
  obtain ⟨c₁', h₁, hc₁⟩ := hf m₁ h.sound₁
  obtain ⟨c₂', h₂, hc₂⟩ := hf m₂ h.sound₂
  have hsame : ∀ {m : Machine β σ} {c'}, Undisturbed (visible m) (settled m) m.cache c' →
      ∀ x < maxBlockNum, visible { m with cache := c' } x = visible m x ∧
        settled { m with cache := c' } x = settled m x := fun {m c'} hc x hx =>
    visible_eq_of_coherent (m := { m with cache := c' }) hc.coherent hx
  have hrun₁ : (onCache f : BlockProgram β σ Unit).run m₁ = (.ok (), { m₁ with cache := c₁' }) := by
    simp only [onCache, h₁]
  have hrun₂ : (onCache f : BlockProgram β σ Unit).run m₂ = (.ok (), { m₂ with cache := c₂' }) := by
    simp only [onCache, h₂]
  refine together_of_ok hrun₁ hrun₂ ⟨(evolves_undisturbed (T := ∅) h.sound₁ hc₁).sound,
      (evolves_undisturbed (T := ∅) h.sound₂ hc₂).sound, h.globals, hcontrol c₁' h₁ c₂' h₂, ?_, ?_⟩
  · intro x hx hX
    rw [(hsame hc₁ x hx).1, (hsame hc₂ x hx).1]
    exact h.visible_eq x hx hX
  · intro x hx hX
    rw [(hsame hc₁ x hx).2, (hsame hc₂ x hx).2]
    exact h.settled_eq x hx hX

theorem together_traffic (h : Alike X X m₁ m₂) (t : Traffic) :
    Together t.program m₁ m₂ fun _ => Alike X X := by
  cases t with
  | find blockid =>
      refine (together_openOne h (Set.Subset.refl X) blockid).bind ?_
      exact fun _ m₁ m₂ hq => together_pure hq.2.2
  | scanTimer now later =>
      exact together_onCache (f := (cacheScanTimer · now later)) h
        (fun m hm => scanTimer_undisturbed hm.coherent now later)
        fun _ h₁ _ h₂ => scanTimer_control h.control h₁ h₂
  | setPolicy policySeconds =>
      exact together_onCache (f := (cacheSetPolicy · policySeconds)) h
        (fun m hm => setPolicy_undisturbed hm.coherent policySeconds)
        fun _ h₁ _ h₂ => setPolicy_control h.control h₁ h₂

end LabKernel.CacheTraffic
