import LabKernel.KernelObjects

/-!
Reference counts of kernel objects.

`TrieLookup::remove` reports success whenever the node of the key exists, also
when its value has been removed before, and `unregister_kernel_object` lowers
the count on that report.  The counts are right in every run in which this does
not matter: each object is closed by a process that still has it open, or by
one whose register has no node for it at all.
-/

set_option linter.unusedSectionVars false

namespace LabKernel.ObjectCounting

open LabKernel.KernelObjects
open LabKernel.TransitionSystem
open LabKernel.TrieLookup

variable {Process : Type*} [DecidableEq Process] {s s' : State Process} {p : Process} {o : Nat}
  {pending : List Nat}

/-- The pools name exactly live objects, and each count is the number of users
and of calls of `on_process_unregister` that are still to come. -/
structure Core (s : State Process) (pending : List Nat) : Prop where
  keymap_wf : ∀ pool, (s.pools pool).keymap.Wf
  keymap : ∀ pool path o, (s.pools pool).keymap.find path = some o →
    ∃ obj, s.objects o = some obj ∧ obj.pool = pool ∧
      (s.pools pool).keymap.locate path = some obj.trieIdx
  table : ∀ pool h o, (s.pools pool).get h = some o →
    ∃ obj, s.objects o = some obj ∧ obj.pool = pool ∧ obj.handle = h
  handle : ∀ o obj, s.objects o = some obj → obj.handle < (s.pools obj.pool).table.length
  counted : ∀ o obj, s.objects o = some obj →
    obj.refCount = (users s o).card + pending.count o
  used : ∀ o, ∀ p ∈ users s o, (s.objects o).isSome
  pending_live : ∀ o ∈ pending, (s.objects o).isSome
  key_ne : ∀ o, (s.objects o).isSome → obj2key o ≠ 0
  key_inj : ∀ o o', (s.objects o).isSome → (s.objects o').isSome → obj2key o = obj2key o' → o = o'

/-- The register of a live process holds what the process has open. -/
structure Registered (s : State Process) : Prop where
  wf : ∀ p, (s.kernelObjects p).Wf
  find : ∀ p, s.isKilled p = false → ∀ path o,
    (s.kernelObjects p).find path = some o ↔ path = keyBits (obj2key o) ∧ p ∈ s.opened o

structure Sound (s : State Process) : Prop where
  core : Core s []
  registered : Registered s

theorem mem_users : p ∈ users s o ↔ p ∈ s.opened o ∧ s.isKilled p = false := by
  simp [users]

theorem keyBits_obj2key_injective {o o' : Nat}
    (h : keyBits (obj2key o) = keyBits (obj2key o')) : obj2key o = obj2key o' := by
  have hbound : ∀ o, obj2key o < 2 ^ 64 := by
    intro o
    unfold obj2key
    omega
  exact keyBits_injective (hbound o) (hbound o') h

theorem Sound.counted (hs : Sound s) : Counted s := by
  constructor
  · intro o obj hobj
    simpa using hs.core.counted o obj hobj
  · intro p o hp hlookup
    have hopen := ((hs.registered.find p hp _ o).mp hlookup).2
    exact hs.core.used o p (mem_users.mpr ⟨hopen, hp⟩)

theorem get_remove {pool : IdPool} {obj : Object} {h : Nat} {o : Nat}
    (hget : (pool.remove obj).get h = some o) (hlt : obj.handle < pool.table.length) :
    pool.get h = some o ∧ h ≠ obj.handle := by
  unfold IdPool.remove IdPool.get at hget
  rw [if_pos hlt, List.getElem?_set] at hget
  split at hget
  · next heq => simp at hget
  · next hne => exact ⟨hget, Ne.symm hne⟩

theorem find_remove {pool : IdPool} {obj : Object} {path : List Bool} {o : Nat}
    (hwf : pool.keymap.Wf) (hfind : (pool.remove obj).keymap.find path = some o)
    (hlt : obj.handle < pool.table.length) :
    pool.keymap.find path = some o ∧ pool.keymap.locate path ≠ some obj.trieIdx := by
  unfold IdPool.remove at hfind
  rw [if_pos hlt] at hfind
  exact Trie.find_removeByIdx hwf hfind

theorem locate_remove (pool : IdPool) (obj : Object) :
    (pool.remove obj).keymap.locate = pool.keymap.locate := by
  unfold IdPool.remove
  split
  · exact Trie.locate_removeByIdx _ _
  · rfl

theorem remove_wf {pool : IdPool} (obj : Object) (hwf : pool.keymap.Wf) :
    (pool.remove obj).keymap.Wf := by
  unfold IdPool.remove
  split
  · exact Trie.removeByIdx_wf hwf _
  · exact hwf

theorem length_table_remove (pool : IdPool) (obj : Object) :
    (pool.remove obj).table.length = pool.table.length := by
  unfold IdPool.remove
  split
  · exact List.length_set
  · rfl

theorem core_destroy {obj : Object} {rest : List Nat} (hs : Core s (o :: rest))
    (hobj : s.objects o = some obj) (hzero : (users s o).card + rest.count o = 0) :
    Core { s with
      objects := Function.update s.objects o none
      pools := Function.update s.pools obj.pool ((s.pools obj.pool).remove obj) } rest := by
  have hlt := hs.handle o obj hobj
  have hnot : o ∉ rest := List.count_eq_zero.mp (Nat.eq_zero_of_add_eq_zero_left hzero)
  have hunused : users s o = ∅ := Finset.card_eq_zero.mp (Nat.eq_zero_of_add_eq_zero_right hzero)
  have hkeep : ∀ o', o' ≠ o → Function.update s.objects o none o' = s.objects o' := fun o' hne =>
    Function.update_of_ne hne ..
  have hother : ∀ o' obj', s.objects o' = some obj' → obj' ≠ obj → o' ≠ o := by
    rintro o' obj' hobj' hne rfl
    rw [hobj] at hobj'
    exact hne (Option.some.inj hobj').symm
  have hlive : ∀ o', (Function.update s.objects o none o').isSome →
      o' ≠ o ∧ (s.objects o').isSome := by
    intro o' hsome
    have hne : o' ≠ o := by
      rintro rfl
      simp at hsome
    rw [hkeep o' hne] at hsome
    exact ⟨hne, hsome⟩
  have hpool : ∀ pool, Function.update s.pools obj.pool ((s.pools obj.pool).remove obj) pool =
      if pool = obj.pool then (s.pools obj.pool).remove obj else s.pools pool := by
    intro pool
    rw [Function.update_apply]
  constructor
  · intro pool
    dsimp only
    rw [hpool]
    split
    · exact remove_wf obj (hs.keymap_wf obj.pool)
    · exact hs.keymap_wf pool
  · intro pool path o' hfind
    dsimp only at hfind ⊢
    rw [hpool] at hfind ⊢
    split at hfind
    · next heq =>
        obtain ⟨hold, hne⟩ := find_remove (hs.keymap_wf obj.pool) hfind hlt
        obtain ⟨obj', hobj', hpool', hlocate⟩ := hs.keymap obj.pool path o' hold
        have ho' : o' ≠ o := hother o' obj' hobj' fun heq' => hne (heq' ▸ hlocate)
        refine ⟨obj', (hkeep o' ho').trans hobj', hpool'.trans heq.symm, ?_⟩
        rw [if_pos heq, locate_remove, hlocate]
    · next hne =>
        obtain ⟨obj', hobj', hpool', hlocate⟩ := hs.keymap pool path o' hfind
        have ho' : o' ≠ o := hother o' obj' hobj' fun heq' => hne (heq' ▸ hpool'.symm)
        exact ⟨obj', (hkeep o' ho').trans hobj', hpool', by rw [if_neg hne, hlocate]⟩
  · intro pool h o' hget
    dsimp only at hget
    rw [hpool] at hget
    split at hget
    · next heq =>
        obtain ⟨hold, hne⟩ := get_remove hget hlt
        obtain ⟨obj', hobj', hpool', hhandle⟩ := hs.table obj.pool h o' hold
        have ho' : o' ≠ o := hother o' obj' hobj' fun heq' => hne (heq' ▸ hhandle.symm)
        exact ⟨obj', (hkeep o' ho').trans hobj', hpool'.trans heq.symm, hhandle⟩
    · next hne =>
        obtain ⟨obj', hobj', hpool', hhandle⟩ := hs.table pool h o' hget
        have ho' : o' ≠ o := hother o' obj' hobj' fun heq' => hne (heq' ▸ hpool'.symm)
        exact ⟨obj', (hkeep o' ho').trans hobj', hpool', hhandle⟩
  · intro o' obj' hobj'
    have hne := (hlive o' (Option.isSome_iff_exists.mpr ⟨obj', hobj'⟩)).1
    dsimp only at hobj' ⊢
    rw [hkeep o' hne] at hobj'
    rw [hpool]
    split
    · next heq =>
        rw [length_table_remove, ← heq]
        exact hs.handle o' obj' hobj'
    · exact hs.handle o' obj' hobj'
  · intro o' obj' hobj'
    have hne := (hlive o' (Option.isSome_iff_exists.mpr ⟨obj', hobj'⟩)).1
    dsimp only at hobj'
    rw [hkeep o' hne] at hobj'
    have hcount := hs.counted o' obj' hobj'
    rw [List.count_cons_of_ne hne.symm] at hcount
    exact hcount
  · intro o' p' hp'
    have hne : o' ≠ o := by
      rintro rfl
      change p' ∈ users s o' at hp'
      rw [hunused] at hp'
      cases hp'
    dsimp only
    rw [hkeep o' hne]
    exact hs.used o' p' hp'
  · intro o' ho'
    have hne : o' ≠ o := by
      rintro rfl
      exact hnot ho'
    dsimp only
    rw [hkeep o' hne]
    exact hs.pending_live o' (List.mem_cons_of_mem o ho')
  · exact fun o' hsome => hs.key_ne o' (hlive o' hsome).2
  · exact fun o₁ o₂ h₁ h₂ heq => hs.key_inj o₁ o₂ (hlive o₁ h₁).2 (hlive o₂ h₂).2 heq

theorem core_setCount {obj : Object} {n : Nat} {pending' : List Nat} {opened : Nat → Finset Process}
    {tries : Process → Trie Nat} (hs : Core s pending) (hobj : s.objects o = some obj)
    (hothers : ∀ o', o' ≠ o → opened o' = s.opened o' ∧ pending'.count o' = pending.count o')
    (hself : n = (users { s with opened := opened } o).card + pending'.count o) :
    Core { s with
      objects := Function.update s.objects o (some { obj with refCount := n })
      opened := opened
      kernelObjects := tries } pending' := by
  have hkeep : ∀ o', o' ≠ o → Function.update s.objects o (some { obj with refCount := n }) o' =
      s.objects o' := fun o' hne => Function.update_of_ne hne ..
  have hlive : ∀ o', (Function.update s.objects o (some { obj with refCount := n }) o').isSome ↔
      (s.objects o').isSome := by
    intro o'
    rcases eq_or_ne o' o with rfl | hne
    · simp [hobj]
    · rw [hkeep o' hne]
  have hsame : ∀ o' obj', s.objects o' = some obj' → ∃ obj'',
      Function.update s.objects o (some { obj with refCount := n }) o' = some obj'' ∧
        obj''.pool = obj'.pool ∧ obj''.trieIdx = obj'.trieIdx ∧ obj''.handle = obj'.handle := by
    intro o' obj' hobj'
    rcases eq_or_ne o' o with rfl | hne
    · rw [hobj] at hobj'
      cases hobj'
      exact ⟨_, Function.update_self .., rfl, rfl, rfl⟩
    · exact ⟨obj', (hkeep o' hne).trans hobj', rfl, rfl, rfl⟩
  have husers : ∀ o', o' ≠ o → users { s with opened := opened } o' = users s o' := by
    intro o' hne
    unfold users
    dsimp only
    rw [(hothers o' hne).1]
  constructor
  · exact hs.keymap_wf
  · intro pool path o' hfind
    obtain ⟨obj', hobj', hpool', hlocate⟩ := hs.keymap pool path o' hfind
    obtain ⟨obj'', hobj'', hpool'', hidx'', -⟩ := hsame o' obj' hobj'
    exact ⟨obj'', hobj'', hpool''.trans hpool', hidx''.symm ▸ hlocate⟩
  · intro pool h o' hget
    obtain ⟨obj', hobj', hpool', hhandle⟩ := hs.table pool h o' hget
    obtain ⟨obj'', hobj'', hpool'', -, hhandle''⟩ := hsame o' obj' hobj'
    exact ⟨obj'', hobj'', hpool''.trans hpool', hhandle''.trans hhandle⟩
  · intro o' obj' hobj'
    dsimp only at hobj' ⊢
    rcases eq_or_ne o' o with rfl | hne
    · rw [Function.update_self] at hobj'
      cases hobj'
      exact hs.handle o' obj hobj
    · rw [hkeep o' hne] at hobj'
      exact hs.handle o' obj' hobj'
  · intro o' obj' hobj'
    dsimp only at hobj'
    rcases eq_or_ne o' o with rfl | hne
    · rw [Function.update_self] at hobj'
      cases hobj'
      exact hself
    · rw [hkeep o' hne] at hobj'
      change _ = (users { s with opened := opened } o').card + _
      rw [husers o' hne, (hothers o' hne).2]
      exact hs.counted o' obj' hobj'
  · intro o' p' hp'
    rw [hlive]
    rcases eq_or_ne o' o with rfl | hne
    · rw [hobj]
      rfl
    · change p' ∈ users { s with opened := opened } o' at hp'
      rw [husers o' hne] at hp'
      exact hs.used o' p' hp'
  · intro o' ho'
    rw [hlive]
    rcases eq_or_ne o' o with rfl | hne
    · rw [hobj]
      rfl
    · apply hs.pending_live o'
      rw [← List.count_pos_iff, ← (hothers o' hne).2]
      exact List.count_pos_iff.mpr ho'
  · exact fun o' hsome => hs.key_ne o' ((hlive o').mp hsome)
  · exact fun o₁ o₂ h₁ h₂ heq => hs.key_inj o₁ o₂ ((hlive o₁).mp h₁) ((hlive o₂).mp h₂) heq

theorem core_onProcessUnregister {rest : List Nat} (hs : Core s (o :: rest)) :
    ∃ s', onProcessUnregister s o = some s' ∧ Core s' rest ∧ s'.opened = s.opened ∧
      s'.isKilled = s.isKilled ∧ s'.kernelObjects = s.kernelObjects := by
  obtain ⟨obj, hobj⟩ := Option.isSome_iff_exists.mp (hs.pending_live o List.mem_cons_self)
  have hcount := hs.counted o obj hobj
  rw [List.count_cons_self] at hcount
  have hdecrement : decrement obj.refCount = (users s o).card + rest.count o := by
    unfold decrement
    rw [if_neg (by omega), hcount]
    omega
  unfold onProcessUnregister
  rw [hobj]
  dsimp only
  rw [hdecrement]
  split
  · next hzero => exact ⟨_, rfl, core_destroy hs hobj hzero, rfl, rfl, rfl⟩
  · refine ⟨_, rfl, ?_, rfl, rfl, rfl⟩
    apply core_setCount hs hobj
    · intro o' hne
      exact ⟨rfl, (List.count_cons_of_ne hne.symm).symm⟩
    · rfl

theorem core_unregisterAll (hs : Core s pending) :
    ∃ s', unregisterAll s pending = some s' ∧ Core s' [] ∧ s'.opened = s.opened ∧
      s'.isKilled = s.isKilled ∧ s'.kernelObjects = s.kernelObjects := by
  induction pending generalizing s with
  | nil => exact ⟨s, rfl, hs, rfl, rfl, rfl⟩
  | cons o rest ih =>
      obtain ⟨s₁, hs₁, hcore, hopened, hkilled, htries⟩ := core_onProcessUnregister hs
      obtain ⟨s₂, hs₂, hcore₂, hopened₂, hkilled₂, htries₂⟩ := ih hcore
      refine ⟨s₂, ?_, hcore₂, hopened₂.trans hopened, hkilled₂.trans hkilled,
        htries₂.trans htries⟩
      rw [unregisterAll, hs₁]
      exact hs₂

/-- Where the register of a live process has an object, the process has that
object open. -/
theorem Sound.find_obj2key (hs : Sound s) (hp : s.isKilled p = false) (ho : (s.objects o).isSome) :
    (s.kernelObjects p).lookup (obj2key o) = if p ∈ s.opened o then some o else none := by
  split
  · next hopen => exact (hs.registered.find p hp _ o).mpr ⟨rfl, hopen⟩
  · next hclosed =>
      cases hlookup : (s.kernelObjects p).lookup (obj2key o) with
      | none => rfl
      | some o' =>
          obtain ⟨hbits, hopen⟩ := (hs.registered.find p hp _ o').mp hlookup
          have ho' := hs.core.used o' p (mem_users.mpr ⟨hopen, hp⟩)
          have heq := hs.core.key_inj o o' ho ho' (keyBits_obj2key_injective hbits)
          exact absurd (heq ▸ hopen) hclosed

theorem locate_of_lookup {t : Trie Nat} {key v : Nat} (h : t.lookup key = some v) :
    ∃ i, t.locate (keyBits key) = some i := by
  obtain ⟨i, hi, -⟩ := Option.bind_eq_some_iff.mp h
  exact ⟨i, hi⟩

theorem Sound.unregister_of_opened (hs : Sound s) (hp : s.isKilled p = false)
    (ho : (s.objects o).isSome) (hopen : p ∈ s.opened o) :
    ∃ s', unregisterKernelObject s p o = some s' ∧ Sound s' := by
  obtain ⟨obj, hobj⟩ := Option.isSome_iff_exists.mp ho
  have hlookup := hs.find_obj2key hp ho
  rw [if_pos hopen] at hlookup
  obtain ⟨i, hi⟩ := locate_of_lookup hlookup
  have husers : (users s o).card =
      (users { s with opened := Function.update s.opened o ((s.opened o).erase p) } o).card +
        1 := by
    have herase : users { s with opened := Function.update s.opened o ((s.opened o).erase p) } o =
        (users s o).erase p := by
      unfold users
      dsimp only
      rw [Function.update_self, Finset.filter_erase]
    rw [herase, Finset.card_erase_add_one (mem_users.mpr ⟨hopen, hp⟩)]
  -- the call that lowers the count is still to come
  have hcore : Core { s with
      opened := Function.update s.opened o ((s.opened o).erase p)
      kernelObjects := Function.update s.kernelObjects p ((s.kernelObjects p).setVal i none) }
      [o] := by
    have hset : Core { s with
        objects := Function.update s.objects o (some { obj with refCount := obj.refCount })
        opened := Function.update s.opened o ((s.opened o).erase p)
        kernelObjects := Function.update s.kernelObjects p ((s.kernelObjects p).setVal i none) }
        [o] := by
      apply core_setCount hs.core hobj
      · intro o' hne
        exact ⟨Function.update_of_ne hne .., by simp [Ne.symm hne]⟩
      · rw [hs.core.counted o obj hobj, husers]
        simp
    rwa [show (some { obj with refCount := obj.refCount } : Option Object) = s.objects o from
      hobj.symm, Function.update_eq_self] at hset
  obtain ⟨s', hs', hcore', hopened', hkilled', htries'⟩ := core_onProcessUnregister hcore
  refine ⟨s', ?_, hcore', ?_⟩
  · unfold unregisterKernelObject
    rw [Trie.remove_of_located hi]
    exact hs'
  · constructor
    · intro q
      rw [htries']
      dsimp only
      rcases eq_or_ne q p with rfl | hne
      · rw [Function.update_self]
        exact (hs.registered.wf q).setVal i none
      · rw [Function.update_of_ne hne]
        exact hs.registered.wf q
    · intro q hq path o'
      rw [hkilled'] at hq
      rw [htries', hopened']
      dsimp only
      rcases eq_or_ne q p with rfl | hne
      · rw [Function.update_self, Trie.find_setVal (hs.registered.wf q) hi]
        rcases eq_or_ne o' o with rfl | ho'
        · rw [Function.update_self]
          have hclosed : q ∉ (s.opened o').erase q := Finset.notMem_erase q _
          constructor
          · intro hfind
            split at hfind
            · cases hfind
            · next hpath => exact absurd ((hs.registered.find q hp path o').mp hfind).1 hpath
          · exact fun h => absurd h.2 hclosed
        · rw [Function.update_of_ne ho']
          constructor
          · intro hfind
            split at hfind
            · cases hfind
            · exact (hs.registered.find q hp path o').mp hfind
          · rintro ⟨rfl, hopen'⟩
            have hlive' := hs.core.used o' q (mem_users.mpr ⟨hopen', hp⟩)
            have hpath : keyBits (obj2key o') ≠ keyBits (obj2key o) := fun hbits =>
              ho' (hs.core.key_inj o' o hlive' ho (keyBits_obj2key_injective hbits))
            rw [if_neg hpath]
            exact (hs.registered.find q hp _ o').mpr ⟨rfl, hopen'⟩
      · rw [Function.update_of_ne hne]
        rw [hs.registered.find q hq path o']
        rcases eq_or_ne o' o with rfl | ho'
        · rw [Function.update_self, Finset.mem_erase]
          simp [hne]
        · rw [Function.update_of_ne ho']

theorem unregister_of_not_located (hopen : p ∉ s.opened o)
    (hnone : (s.kernelObjects p).locate (keyBits (obj2key o)) = none) :
    unregisterKernelObject s p o = some s := by
  unfold unregisterKernelObject
  rw [Trie.remove_of_not_located hnone]
  simp [Finset.erase_eq_of_notMem hopen]

theorem insert_index_ne_zero {t : Trie Nat} {key v : Nat} {result : Nat × Trie Nat}
    (hinserted : t.Inserted key v result) (hunmapped : t.lookup key = none) (hkey : key ≠ 0) :
    result.1 ≠ 0 := by
  intro hzero
  have hlocate := hinserted.result_of_unmapped hunmapped
  rw [hzero] at hlocate
  exact hkey (keyBits_eq_nil (hinserted.wf.unique _ _ 0 hlocate (Trie.locate_nil _)))

theorem Sound.register (hs : Sound s) (hp : s.isKilled p = false) (ho : (s.objects o).isSome)
    (hregister : registerKernelObject s p o = some s') : Sound s' := by
  obtain ⟨obj, hobj⟩ := Option.isSome_iff_exists.mp ho
  have hlookup := hs.find_obj2key hp ho
  unfold registerKernelObject at hregister
  split at hregister
  · cases hregister
  · next index trie hinsert =>
      cases hregister
      have hinserted := Trie.insert_eq_some (hs.registered.wf p) hinsert
      constructor
      · rcases Classical.em (p ∈ s.opened o) with hopen | hclosed
        · rw [if_pos hopen] at hlookup
          have hindex : index = 0 := hinserted.result_of_mapped (by rw [hlookup]; simp)
          have hsame : insert p (s.opened o) = s.opened o := Finset.insert_eq_of_mem hopen
          simp only [hindex, ne_eq, not_true_eq_false, if_false, hsame, Function.update_eq_self]
          exact ⟨hs.core.keymap_wf, hs.core.keymap, hs.core.table, hs.core.handle,
            hs.core.counted, hs.core.used, hs.core.pending_live, hs.core.key_ne, hs.core.key_inj⟩
        · rw [if_neg hclosed] at hlookup
          have hindex : index ≠ 0 :=
            insert_index_ne_zero hinserted hlookup (hs.core.key_ne o ho)
          simp only [hindex, ne_eq, not_false_eq_true, if_true, hobj, Option.map_some]
          apply core_setCount hs.core hobj
          · exact fun o' hne => ⟨Function.update_of_ne hne .., rfl⟩
          · have hinsert' : users { s with
                opened := Function.update s.opened o (insert p (s.opened o)) } o =
                insert p (users s o) := by
              unfold users
              dsimp only
              rw [Function.update_self, Finset.filter_insert, if_pos hp]
            have hnot : p ∉ users s o := fun hmem => hclosed (mem_users.mp hmem).1
            rw [hinsert', Finset.card_insert_of_notMem hnot, hs.core.counted o obj hobj]
            simp
      · constructor
        · intro q
          dsimp only
          rcases eq_or_ne q p with rfl | hne
          · rw [Function.update_self]
            exact hinserted.wf
          · rw [Function.update_of_ne hne]
            exact hs.registered.wf q
        · intro q hq path o'
          dsimp only at hq ⊢
          rcases eq_or_ne q p with rfl | hne
          · have hmember : q ∈ Function.update s.opened o (insert q (s.opened o)) o' ↔
                o' = o ∨ q ∈ s.opened o' := by
              rcases eq_or_ne o' o with rfl | ho'
              · simp
              · simp [ho']
            rw [Function.update_self, hinserted.find, hmember]
            constructor
            · intro hfind
              split at hfind
              · next hpath =>
                  cases hfind
                  exact ⟨hpath, Or.inl rfl⟩
              · obtain ⟨hpath, hopen⟩ := (hs.registered.find q hp path o').mp hfind
                exact ⟨hpath, Or.inr hopen⟩
            · rintro ⟨rfl, rfl | hopen⟩
              · rw [if_pos rfl]
              · split
                · next hpath =>
                    have ho' := hs.core.used o' q (mem_users.mpr ⟨hopen, hp⟩)
                    rw [hs.core.key_inj o' o ho' ho (keyBits_obj2key_injective hpath)]
                · exact (hs.registered.find q hp _ o').mpr ⟨rfl, hopen⟩
          · rw [Function.update_of_ne hne, hs.registered.find q hq path o']
            rcases eq_or_ne o' o with rfl | ho'
            · simp [hne]
            · rw [Function.update_of_ne ho']

theorem Sound.create {pool : Pool} {key addr : Nat} (hs : Sound s) (hfresh : Fresh s addr)
    (hlookup : (s.pools pool).keymap.lookup key = none)
    (hcreate : createObject s pool key addr = some s') :
    Sound s' ∧ (s'.objects addr).isSome ∧ s'.isKilled = s.isKilled := by
  have hdead : s.objects addr = none := by
    cases hobj : s.objects addr with
    | none => rfl
    | some obj => exact absurd rfl (hfresh.2 addr (hobj ▸ rfl))
  have hunused : ∀ q, s.isKilled q = false → q ∉ s.opened addr := by
    intro q hq hopen
    have hlive := hs.core.used addr q (mem_users.mpr ⟨hopen, hq⟩)
    rw [hdead] at hlive
    cases hlive
  unfold createObject at hcreate
  split at hcreate
  · cases hcreate
  · next index keymap hinsert =>
      cases hcreate
      have hwf := hs.core.keymap_wf pool
      have hinserted := Trie.insert_eq_some hwf hinsert
      have hindex := hinserted.result_of_unmapped hlookup
      have hkeep : ∀ o, o ≠ addr → Function.update s.objects addr
          (some (⟨0, pool, (s.pools pool).table.length, index⟩ : Object)) o = s.objects o :=
        fun o hne => Function.update_of_ne hne ..
      have hold : ∀ o obj, s.objects o = some obj → o ≠ addr := by
        rintro o obj hobj rfl
        rw [hdead] at hobj
        cases hobj
      have hlive : ∀ o, (Function.update s.objects addr
          (some (⟨0, pool, (s.pools pool).table.length, index⟩ : Object)) o).isSome ↔
          o = addr ∨ (s.objects o).isSome := by
        intro o
        rcases eq_or_ne o addr with rfl | hne
        · simp
        · simp [hne]
      have hpool : ∀ pool', Function.update s.pools pool (⟨keymap, (s.pools pool).table ++
          [some addr]⟩ : IdPool) pool' = if pool' = pool then
            ⟨keymap, (s.pools pool).table ++ [some addr]⟩ else s.pools pool' := by
        intro pool'
        rw [Function.update_apply]
      have husers : ∀ o, users { s with opened := Function.update s.opened addr ∅ } o =
          users s o := by
        intro o
        unfold users
        dsimp only
        rcases eq_or_ne o addr with rfl | hne
        · rw [Function.update_self, Finset.filter_empty]
          exact (Finset.filter_eq_empty_iff.mpr fun q hopen hq => hunused q hq hopen).symm
        · rw [Function.update_of_ne hne]
      refine ⟨⟨?_, ?_⟩, ?_, rfl⟩
      · constructor
        · intro pool'
          dsimp only
          rw [hpool]
          split
          · exact hinserted.wf
          · exact hs.core.keymap_wf pool'
        · intro pool' path o hfind
          dsimp only at hfind ⊢
          rw [hpool] at hfind ⊢
          split at hfind
          · next heq =>
              subst heq
              rw [if_pos rfl]
              rw [hinserted.find] at hfind
              split at hfind
              · next hpath =>
                  cases hfind
                  exact ⟨_, Function.update_self .., rfl, hpath ▸ hindex⟩
              · obtain ⟨obj, hobj, hp, hlocate⟩ := hs.core.keymap pool' path o hfind
                exact ⟨obj, (hkeep o (hold o obj hobj)).trans hobj, hp,
                  hinserted.stable path _ hlocate⟩
          · next hne =>
              obtain ⟨obj, hobj, hp, hlocate⟩ := hs.core.keymap pool' path o hfind
              exact ⟨obj, (hkeep o (hold o obj hobj)).trans hobj, hp, by rw [if_neg hne, hlocate]⟩
        · intro pool' h o hget
          dsimp only at hget ⊢
          rw [hpool] at hget
          split at hget
          · next heq =>
              subst heq
              unfold IdPool.get at hget
              dsimp only at hget
              rcases Nat.lt_trichotomy h (s.pools pool').table.length with hlt | rfl | hgt
              · rw [List.getElem?_append_left hlt] at hget
                obtain ⟨obj, hobj, hrest⟩ := hs.core.table pool' h o hget
                exact ⟨obj, (hkeep o (hold o obj hobj)).trans hobj, hrest⟩
              · rw [List.getElem?_append_right (Nat.le_refl _)] at hget
                simp only [Nat.sub_self, List.getElem?_cons_zero, Option.join_some,
                  Option.some.injEq] at hget
                subst hget
                exact ⟨_, Function.update_self .., rfl, rfl⟩
              · have hnone : ((s.pools pool').table ++ [some addr])[h]? = none := by
                  apply List.getElem?_eq_none
                  rw [List.length_append, List.length_singleton]
                  omega
                rw [hnone] at hget
                cases hget
          · obtain ⟨obj, hobj, hrest⟩ := hs.core.table pool' h o hget
            exact ⟨obj, (hkeep o (hold o obj hobj)).trans hobj, hrest⟩
        · intro o obj hobj
          dsimp only at hobj ⊢
          rw [hpool]
          rcases eq_or_ne o addr with rfl | hne
          · rw [Function.update_self] at hobj
            cases hobj
            simp
          · rw [hkeep o hne] at hobj
            have hlt := hs.core.handle o obj hobj
            split
            · next heq =>
                rw [heq] at hlt
                simp only [List.length_append, List.length_singleton]
                omega
            · exact hlt
        · intro o obj hobj
          dsimp only at hobj
          change _ = (users { s with opened := Function.update s.opened addr ∅ } o).card + _
          rw [husers]
          rcases eq_or_ne o addr with rfl | hne
          · rw [Function.update_self] at hobj
            cases hobj
            have hempty : users s o = ∅ :=
              Finset.filter_eq_empty_iff.mpr fun q hopen hq => hunused q hq hopen
            simp [hempty]
          · rw [hkeep o hne] at hobj
            exact hs.core.counted o obj hobj
        · intro o q hq
          change q ∈ users { s with opened := Function.update s.opened addr ∅ } o at hq
          rw [husers] at hq
          exact (hlive o).mpr (Or.inr (hs.core.used o q hq))
        · intro o ho
          cases ho
        · intro o ho
          rcases (hlive o).mp ho with rfl | hsome
          · exact hfresh.1
          · exact hs.core.key_ne o hsome
        · intro o o' ho ho' heq
          rcases (hlive o).mp ho with rfl | hsome <;> rcases (hlive o').mp ho' with rfl | hsome'
          · rfl
          · exact absurd heq.symm (hfresh.2 o' hsome')
          · exact absurd heq (hfresh.2 o hsome)
          · exact hs.core.key_inj o o' hsome hsome' heq
      · constructor
        · exact hs.registered.wf
        · intro q hq path o
          rw [hs.registered.find q hq path o]
          dsimp only
          rcases eq_or_ne o addr with rfl | hne
          · rw [Function.update_self]
            simp [hunused q hq]
          · rw [Function.update_of_ne hne]
      · exact (hlive addr).mpr (Or.inl rfl)

theorem Sound.mem_foreach (hs : Sound s) (hp : s.isKilled p = false) :
    o ∈ (s.kernelObjects p).foreach ↔ p ∈ s.opened o := by
  rw [Trie.mem_foreach (hs.registered.wf p)]
  constructor
  · rintro ⟨path, hpath⟩
    exact ((hs.registered.find p hp path o).mp hpath).2
  · intro hopen
    exact ⟨keyBits (obj2key o), (hs.registered.find p hp _ o).mpr ⟨rfl, hopen⟩⟩

theorem Sound.foreach_nodup (hs : Sound s) (hp : s.isKilled p = false) :
    (s.kernelObjects p).foreach.Nodup := by
  apply Trie.foreach_nodup (hs.registered.wf p)
  intro path path' o hpath hpath'
  rw [((hs.registered.find p hp path o).mp hpath).1,
    ((hs.registered.find p hp path' o).mp hpath').1]

theorem users_kill (s : State Process) (p : Process) (o : Nat) :
    users { s with isKilled := Function.update s.isKilled p true } o = (users s o).erase p := by
  ext q
  rw [Finset.mem_erase, mem_users, mem_users]
  dsimp only
  rcases eq_or_ne q p with rfl | hne
  · simp
  · simp [hne]

theorem Registered.kill (hs : Registered s) (p : Process) :
    Registered { s with isKilled := Function.update s.isKilled p true } := by
  constructor
  · exact hs.wf
  · intro q hq path o
    dsimp only at hq
    have hne : q ≠ p := by
      rintro rfl
      rw [Function.update_self] at hq
      cases hq
    rw [Function.update_of_ne hne] at hq
    exact hs.find q hq path o

theorem Sound.kill (hs : Sound s) (hp : s.isKilled p = false) :
    ∃ s', unregisterAll { s with isKilled := Function.update s.isKilled p true }
      (s.kernelObjects p).foreach = some s' ∧ Sound s' := by
  have hcore : Core { s with isKilled := Function.update s.isKilled p true }
      (s.kernelObjects p).foreach := by
    constructor
    · exact hs.core.keymap_wf
    · exact hs.core.keymap
    · exact hs.core.table
    · exact hs.core.handle
    · intro o obj hobj
      have hcount := hs.core.counted o obj hobj
      rw [List.count_nil, Nat.add_zero] at hcount
      rw [users_kill, hcount]
      rcases Classical.em (p ∈ s.opened o) with hopen | hclosed
      · rw [List.count_eq_one_of_mem (hs.foreach_nodup hp) ((hs.mem_foreach hp).mpr hopen),
          Finset.card_erase_add_one (mem_users.mpr ⟨hopen, hp⟩)]
      · have hnot : o ∉ (s.kernelObjects p).foreach := fun hmem =>
          hclosed ((hs.mem_foreach hp).mp hmem)
        rw [List.count_eq_zero_of_not_mem hnot,
          Finset.erase_eq_of_notMem fun hmem => hclosed (mem_users.mp hmem).1]
        rfl
    · intro o q hq
      rw [users_kill] at hq
      exact hs.core.used o q (Finset.mem_of_mem_erase hq)
    · intro o ho
      exact hs.core.used o p (mem_users.mpr ⟨(hs.mem_foreach hp).mp ho, hp⟩)
    · exact hs.core.key_ne
    · exact hs.core.key_inj
  obtain ⟨s', hs', hcore', hopened, hkilled, htries⟩ := core_unregisterAll hcore
  refine ⟨s', hs', hcore', ?_⟩
  have hregistered := hs.registered.kill p
  constructor
  · rw [htries]
    exact hregistered.wf
  · rw [htries, hopened, hkilled]
    exact hregistered.find

theorem Sound.killSelf (hs : Sound s) (hunused : ∀ o, p ∉ s.opened o) :
    Sound { s with isKilled := Function.update s.isKilled p true } := by
  have husers : ∀ o, users { s with isKilled := Function.update s.isKilled p true } o =
      users s o := by
    intro o
    rw [users_kill]
    exact Finset.erase_eq_of_notMem fun hmem => hunused o (mem_users.mp hmem).1
  refine ⟨⟨hs.core.keymap_wf, hs.core.keymap, hs.core.table, hs.core.handle, ?_, ?_,
    hs.core.pending_live, hs.core.key_ne, hs.core.key_inj⟩, hs.registered.kill p⟩
  · intro o obj hobj
    rw [husers]
    exact hs.core.counted o obj hobj
  · intro o q hq
    rw [husers] at hq
    exact hs.core.used o q hq

theorem sound_step {a : Action Process} (hs : Sound s) (hallowed : Orderly s a)
    (hheap : FromHeap s a) (hcall : call s a = some s') : Sound s' := by
  cases a with
  | init p pool key addr =>
      obtain ⟨⟨hp, -⟩, hinit⟩ := Option.ite_none_right_eq_some.mp hcall
      split at hinit
      · next o hlookup =>
          obtain ⟨obj, hobj, -⟩ := hs.core.keymap pool (keyBits key) o hlookup
          exact hs.register hp (hobj ▸ rfl) hinit
      · next hlookup =>
          obtain ⟨s₁, hcreate, hregister⟩ := Option.bind_eq_some_iff.mp hinit
          obtain ⟨hs₁, hlive, hkilled⟩ := hs.create (hheap hlookup) hlookup hcreate
          exact hs₁.register (hkilled ▸ hp) hlive hregister
  | close p pool handle =>
      obtain ⟨hp, hclose⟩ := Option.ite_none_right_eq_some.mp hcall
      split at hclose
      · cases hclose
        exact hs
      · next o hget =>
          obtain ⟨obj, hobj, -⟩ := hs.core.table pool handle o hget
          rcases Classical.em (p ∈ s.opened o) with hopen | hclosed
          · obtain ⟨s₁, hs₁, hsound⟩ := hs.unregister_of_opened hp (hobj ▸ rfl) hopen
            rw [hclose] at hs₁
            cases hs₁
            exact hsound
          · have hnone := (hallowed o hget).resolve_left hclosed
            rw [unregister_of_not_located hclosed hnone] at hclose
            cases hclose
            exact hs
  | kill p =>
      simp only [call] at hcall
      split at hcall
      · next hp =>
          obtain ⟨s₁, hs₁, hsound⟩ := hs.kill hp
          rw [hcall] at hs₁
          cases hs₁
          exact hsound
      · cases hcall
        exact hs
  | killSelf p =>
      obtain ⟨-, ⟨⟩⟩ := Option.ite_none_right_eq_some.mp hcall
      exact hs.killSelf hallowed

theorem sound_initial : Sound (State.initial : State Process) := by
  have hfind : ∀ path, (Trie.initial : Trie Nat).find path = none := by
    intro path
    cases hpath : (Trie.initial : Trie Nat).find path with
    | none => rfl
    | some v =>
        have hmem := (Trie.mem_foreach Trie.wf_initial).mpr ⟨path, hpath⟩
        cases hmem
  refine ⟨⟨?_, ?_, ?_, ?_, ?_, ?_, ?_, ?_, ?_⟩, ?_, ?_⟩
  · exact fun _ => Trie.wf_initial
  · intro pool path o hpath
    change (Trie.initial : Trie Nat).find path = some o at hpath
    rw [hfind] at hpath
    cases hpath
  · intro pool h o hget
    simp [State.initial, IdPool.get] at hget
  · intro o obj hobj
    cases hobj
  · intro o obj hobj
    cases hobj
  · intro o p hp
    simp [users, State.initial] at hp
  · intro o ho
    cases ho
  · intro o ho
    cases ho
  · intro o o' ho
    cases ho
  · exact fun _ => Trie.wf_initial
  · intro p _ path o
    change (Trie.initial : Trie Nat).find path = some o ↔ _
    rw [hfind]
    simp [State.initial]

/-- In every orderly run the reference counts are right and no live process
has a destroyed object registered. -/
theorem counted_of_orderly (hs : ReachableUnder system Orderly s) : Counted s := by
  apply Sound.counted
  apply hs.invariant (P := Sound)
  · rintro s rfl
    exact sound_initial
  · exact fun s a s' hs hallowed hstep => sound_step hs hallowed hstep.1 hstep.2

/-- An address in the kernel heap. -/
def fileAddress : Nat := 0xffffffc052001000

/-- The state that the given calls lead to. -/
def afterCalls (actions : List (Action Nat)) : State Nat :=
  actions.foldl (fun s a => (call s a).getD s) State.initial

theorem afterCalls_concat {allowed : State Nat → Action Nat → Prop} {actions : List (Action Nat)}
    {a : Action Nat} (hs : ReachableUnder system allowed (afterCalls actions))
    (hallowed : allowed (afterCalls actions) a) (hheap : FromHeap (afterCalls actions) a)
    (hsome : (call (afterCalls actions) a).isSome) :
    ReachableUnder system allowed (afterCalls (actions ++ [a])) := by
  obtain ⟨s', hs'⟩ := Option.isSome_iff_exists.mp hsome
  have hafter : afterCalls (actions ++ [a]) = s' := by
    unfold afterCalls at hs' ⊢
    rw [List.foldl_append, List.foldl_cons, List.foldl_nil, hs']
    rfl
  rw [hafter]
  exact ReachableUnder.step hs hallowed ⟨hheap, hs'⟩

/-- Processes 0 and 1 open the file with key 5, and process 0 closes it. -/
def sharing : List (Action Nat) :=
  [.init 0 .file 5 fileAddress, .init 1 .file 5 fileAddress] ++ [.close 0 .file 0]

theorem sharing_reachable {allowed : State Nat → Action Nat → Prop}
    (hinit : ∀ s p pool key addr, allowed s (.init p pool key addr))
    (hclose : ∀ s, 0 ∈ s.opened fileAddress → (s.pools .file).get 0 = some fileAddress →
      allowed s (.close 0 .file 0)) :
    ReachableUnder system allowed (afterCalls sharing) := by
  have hboth : ReachableUnder system allowed
      (afterCalls ([] ++ [.init 0 .file 5 fileAddress] ++ [.init 1 .file 5 fileAddress])) := by
    apply afterCalls_concat
    · apply afterCalls_concat
      · exact ReachableUnder.start rfl
      · exact hinit _ _ _ _ _
      · refine fun _ => ⟨by decide, fun o ho => ?_⟩
        cases ho
      · decide +kernel
    · exact hinit _ _ _ _ _
    · intro hlookup
      have hmapped : (((afterCalls ([] ++ [.init 0 .file 5 fileAddress])).pools
          .file).keymap.lookup 5).isSome := by decide +kernel
      rw [hlookup] at hmapped
      cases hmapped
    · decide +kernel
  apply afterCalls_concat hboth
  · apply hclose
    · decide +kernel
    · decide +kernel
  · trivial
  · decide +kernel

theorem sharing_counted :
    ((afterCalls sharing).objects fileAddress).map Object.refCount = some 1 ∧
      Counted (afterCalls sharing) := by
  refine ⟨by decide +kernel, counted_of_orderly (sharing_reachable ?_ ?_)⟩
  · exact fun _ _ _ _ _ => trivial
  · intro s hopen hget o ho
    rw [hget] at ho
    exact Or.inl (Option.some.inj ho ▸ hopen)

/-- Process 0 closes the file a second time: the file is destroyed although
process 1 has it open. -/
theorem closed_twice_not_counted :
    ¬ ∀ s : State Nat, Reachable system s → Counted s := by
  intro hall
  have hreachable : Reachable system (afterCalls (sharing ++ [.close 0 .file 0])) := by
    apply afterCalls_concat
    · exact sharing_reachable (fun _ _ _ _ _ => trivial) fun _ _ _ => trivial
    · trivial
    · trivial
    · decide +kernel
  have hregistered : ((afterCalls (sharing ++ [.close 0 .file 0])).kernelObjects 1).lookup
      (obj2key fileAddress) = some fileAddress := by decide +kernel
  have hlive := (hall _ hreachable).2 1 fileAddress (by decide +kernel) hregistered
  have hdestroyed : ((afterCalls (sharing ++ [.close 0 .file 0])).objects
      fileAddress).isSome = false := by decide +kernel
  rw [hdestroyed] at hlive
  cases hlive

end LabKernel.ObjectCounting
