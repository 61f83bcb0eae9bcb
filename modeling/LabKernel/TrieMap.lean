import LabKernel.TransitionSystem
import LabKernel.TrieLookup

/-!
`TrieLookup` as a map from 64-bit keys: what `lookup` and `foreach` return after
any history of operations, and when the result codes tell the truth.
-/

namespace LabKernel.TrieMap

open LabKernel.TransitionSystem
open LabKernel.TrieLookup

/-- What happened to a key. -/
inductive Event (V : Type*)
  | inserted (key : UInt64) (v : V)
  | removed (key : UInt64)

/-- The value of the latest insertion of a key that no removal of the key
follows; the latest event comes first. -/
def latest {V : Type*} : List (Event V) → UInt64 → Option V
  | [], _ => none
  | .inserted k v :: rest, key => if k = key then some v else latest rest key
  | .removed k :: rest, key => if k = key then none else latest rest key

/-- A trie with its history: the indices that `insert` returned for keys it
found unmapped, and what happened to which key. -/
structure Session (V : Type*) where
  trie : Trie V
  issued : List (Nat × UInt64)
  events : List (Event V)

inductive Op (V : Type*)
  | insert (key : UInt64) (v : V)
  | remove (key : UInt64)
  | removeByIdx (idx : Nat) (key : UInt64)

def Op.key {V : Type*} : Op V → UInt64
  | .insert key _ => key
  | .remove key => key
  | .removeByIdx _ key => key

variable {V : Type*} [DecidableEq V]

/-- One operation.  `remove_by_idx` gets an index that `insert` returned for
the key; there is no result when the assertion of `insert` fails. -/
def next (s : Session V) : Op V → Option (Session V)
  | .insert key v =>
      (s.trie.insert key.toNat v).map fun r =>
        { trie := r.2
          issued := if s.trie.lookup key.toNat = none then (r.1, key) :: s.issued else s.issued
          events := .inserted key v :: s.events }
  | .remove key =>
      some { s with trie := (s.trie.remove key.toNat).2, events := .removed key :: s.events }
  | .removeByIdx idx key =>
      if (idx, key) ∈ s.issued then
        some { s with trie := s.trie.removeByIdx idx, events := .removed key :: s.events }
      else
        none

def newSession : Session V := ⟨Trie.initial, [], []⟩

def system : System (Session V) (Op V) := ofFunction (· = newSession) next

variable {s s' : Session V} {key key' : UInt64} {v : V} {q : List Bool} {op : Op V}

/-- The bits of the key, from the lowest to the highest one, begin an inserted
key; those of the key 0 begin every key. -/
def OnPath (events : List (Event V)) (key : UInt64) : Prop :=
  key = 0 ∨ ∃ key' v, Event.inserted key' v ∈ events ∧ keyBits key.toNat <+: keyBits key'.toNat

/-- The trie holds what its history says. -/
structure Holds (s : Session V) : Prop where
  wf : s.trie.Wf
  lookup : ∀ key, s.trie.lookup key.toNat = latest s.events key
  keyed : ∀ q v, s.trie.find q = some v → ∃ key : UInt64, q = keyBits key.toNat
  issued : ∀ idx key, (idx, key) ∈ s.issued → s.trie.locate (keyBits key.toNat) = some idx
  located : ∀ q, (s.trie.locate q).isSome ↔
    q = [] ∨ ∃ key v, Event.inserted key v ∈ s.events ∧ q <+: keyBits key.toNat

theorem keyBits_inj : keyBits key.toNat = keyBits key'.toNat ↔ key = key' := by
  constructor
  · intro h
    exact UInt64.toNat_inj.mp (keyBits_injective key.toNat_lt key'.toNat_lt h)
  · rintro rfl
    rfl

theorem keyBits_zero : keyBits (0 : UInt64).toNat = [] := rfl

theorem keyBits_eq_nil_iff : keyBits key.toNat = [] ↔ key = 0 := by
  rw [← keyBits_zero]
  exact keyBits_inj

omit [DecidableEq V] in
theorem holds_newSession : Holds (newSession : Session V) := by
  have hlocate : ∀ q i, (Trie.initial : Trie V).locate q = some i → q = [] := by
    intro q i hq
    have hi : i < 1 := Trie.wf_initial.bound q i hq
    obtain rfl : i = 0 := Nat.lt_one_iff.mp hi
    exact Trie.wf_initial.unique q [] 0 hq rfl
  have hfind : ∀ q, (Trie.initial : Trie V).find q = none := by
    intro q
    unfold Trie.find
    cases hq : (Trie.initial : Trie V).locate q with
    | none => rfl
    | some i =>
        rw [hlocate q i hq] at hq
        cases hq
        rfl
  refine ⟨Trie.wf_initial, fun key => hfind _, fun q v hq => ?_, fun idx key h => ?_, fun q => ?_⟩
  · have hq : (Trie.initial : Trie V).find q = some v := hq
    rw [hfind] at hq
    cases hq
  · exact absurd h List.not_mem_nil
  · constructor
    · intro hq
      obtain ⟨i, hi⟩ := Option.isSome_iff_exists.mp hq
      exact Or.inl (hlocate q i hi)
    · rintro (rfl | ⟨key, v, hevent, -⟩)
      · rfl
      · exact absurd hevent List.not_mem_nil

omit [DecidableEq V] in
/-- A node on the path of a key loses its value. -/
theorem Holds.cleared {t : Trie V} (h : Holds s) (hwf : t.Wf) (hlocate : t.locate = s.trie.locate)
    (hfind : ∀ q, t.find q = if q = keyBits key.toNat then none else s.trie.find q) :
    Holds { s with trie := t, events := .removed key :: s.events } := by
  refine ⟨hwf, fun key' => ?_, fun q v hq => ?_, fun idx key' hidx => ?_, fun q => ?_⟩
  · change t.find (keyBits key'.toNat) = if key = key' then none else latest s.events key'
    rw [hfind, ← h.lookup key']
    simp only [keyBits_inj, eq_comm (a := key')]
    rfl
  · rw [hfind] at hq
    split at hq
    · cases hq
    · exact h.keyed q v hq
  · change t.locate _ = _
    rw [hlocate]
    exact h.issued idx key' hidx
  · change (t.locate q).isSome ↔ _
    rw [hlocate, h.located]
    simp

theorem Holds.insert {result : Nat × Trie V} (h : Holds s)
    (hinsert : s.trie.insert key.toNat v = some result) :
    Holds { trie := result.2
            issued :=
             if s.trie.lookup key.toNat = none then (result.1, key) :: s.issued else s.issued
            events := .inserted key v :: s.events } := by
  have hspec := Trie.insert_eq_some h.wf hinsert
  have hissued : ∀ idx key', (idx, key') ∈ s.issued →
      result.2.locate (keyBits key'.toNat) = some idx :=
    fun idx key' hidx => hspec.stable _ _ (h.issued idx key' hidx)
  refine ⟨hspec.wf, fun key' => ?_, fun q v' hq => ?_, fun idx key' hidx => ?_, fun q => ?_⟩
  · change result.2.find (keyBits key'.toNat) = if key = key' then some v else latest s.events key'
    rw [hspec.find, ← h.lookup key']
    simp only [keyBits_inj, eq_comm (a := key')]
    rfl
  · rw [hspec.find] at hq
    split at hq
    next heq => exact ⟨key, heq⟩
    next => exact h.keyed q v' hq
  · dsimp only at hidx
    split at hidx
    next hunmapped =>
      rcases List.mem_cons.mp hidx with heq | hidx
      · cases heq
        exact hspec.result_of_unmapped hunmapped
      · exact hissued idx key' hidx
    next => exact hissued idx key' hidx
  · rw [hspec.has, h.located]
    constructor
    · rintro ((rfl | ⟨key', v', hevent, hprefix⟩) | hprefix)
      · exact Or.inl rfl
      · exact Or.inr ⟨key', v', List.mem_cons_of_mem _ hevent, hprefix⟩
      · exact Or.inr ⟨key, v, List.mem_cons_self, hprefix⟩
    · rintro (rfl | ⟨key', v', hevent, hprefix⟩)
      · exact Or.inl (Or.inl rfl)
      · rcases List.mem_cons.mp hevent with heq | hevent
        · cases heq
          exact Or.inr hprefix
        · exact Or.inl (Or.inr ⟨key', v', hevent, hprefix⟩)

omit [DecidableEq V] in
theorem Holds.remove (h : Holds s) (key : UInt64) :
    Holds { s with trie := (s.trie.remove key.toNat).2, events := .removed key :: s.events } := by
  cases hlocate : s.trie.locate (keyBits key.toNat) with
  | none =>
      rw [Trie.remove_of_not_located hlocate]
      refine h.cleared h.wf rfl fun q => ?_
      split
      next heq =>
        rw [heq, Trie.find, hlocate]
        rfl
      next => rfl
  | some i =>
      rw [Trie.remove_of_located hlocate]
      exact h.cleared (h.wf.setVal i none) (Trie.locate_setVal _ i none)
        (Trie.find_setVal h.wf hlocate none)

omit [DecidableEq V] in
theorem Holds.removeByIdx {idx : Nat} (h : Holds s) (hidx : (idx, key) ∈ s.issued) :
    Holds { s with trie := s.trie.removeByIdx idx, events := .removed key :: s.events } := by
  have hlocate := h.issued idx key hidx
  have heq : s.trie.removeByIdx idx = s.trie.setVal idx none :=
    if_pos (h.wf.bound _ idx hlocate)
  rw [heq]
  exact h.cleared (h.wf.setVal idx none) (Trie.locate_setVal _ idx none)
    (Trie.find_setVal h.wf hlocate none)

theorem Holds.next (h : Holds s) (hnext : next s op = some s') : Holds s' := by
  cases op with
  | insert key v =>
      obtain ⟨result, hinsert, rfl⟩ := Option.map_eq_some_iff.mp hnext
      exact h.insert hinsert
  | remove key =>
      cases hnext
      exact h.remove key
  | removeByIdx idx key =>
      obtain ⟨hidx, hnext⟩ := Option.ite_none_right_eq_some.mp hnext
      cases hnext
      exact h.removeByIdx hidx

theorem holds_of_reachable (h : Reachable system s) : Holds s := by
  refine ReachableUnder.invariant (P := Holds) ?_ ?_ h
  · rintro s rfl
    exact holds_newSession
  · exact fun s op s' hs _ hnext => hs.next hnext

omit [DecidableEq V] in
/-- The keys of the nodes that have a value, in the order of the nodes. -/
theorem Holds.foreach (h : Holds s) : ∃ keys : List UInt64, keys.Nodup ∧
    (∀ key, key ∈ keys ↔ latest s.events key ≠ none) ∧
    s.trie.foreach = keys.filterMap (latest s.events) := by
  classical
  let IsKey (i : Nat) (key : UInt64) : Prop :=
    s.trie.locate (keyBits key.toNat) = some i ∧ (s.trie.node i).val ≠ none
  let keyOf (i : Nat) : Option UInt64 := if hk : ∃ key, IsKey i key then some hk.choose else none
  have hkeyOf : ∀ {i key}, keyOf i = some key ↔ IsKey i key := by
    intro i key
    constructor
    · intro hi
      obtain ⟨hk, hchoose⟩ := Option.dite_none_right_eq_some.mp hi
      cases hchoose
      exact hk.choose_spec
    · intro hkey
      have hk : ∃ key, IsKey i key := ⟨key, hkey⟩
      have hbits := h.wf.unique _ _ i hk.choose_spec.1 hkey.1
      exact (dif_pos hk).trans (congrArg some (keyBits_inj.mp hbits))
  have hvalue : ∀ {i key}, s.trie.locate (keyBits key.toNat) = some i →
      latest s.events key = (s.trie.node i).val := by
    intro i key hi
    rw [← h.lookup key, Trie.lookup, Trie.find, hi]
    rfl
  refine ⟨(List.range s.trie.nodes.length).filterMap keyOf, ?_, fun key => ?_, ?_⟩
  · refine List.nodup_range.filterMap fun i j key hi hj => ?_
    have hi := (hkeyOf.mp hi).1
    rw [(hkeyOf.mp hj).1] at hi
    exact (Option.some.inj hi).symm
  · rw [List.mem_filterMap]
    constructor
    · rintro ⟨i, -, hi⟩
      obtain ⟨hlocate, hval⟩ := hkeyOf.mp hi
      rwa [hvalue hlocate]
    · intro hmapped
      cases hlocate : s.trie.locate (keyBits key.toNat) with
      | none =>
          rw [← h.lookup key, Trie.lookup, Trie.find, hlocate] at hmapped
          exact absurd rfl hmapped
      | some i =>
          rw [hvalue hlocate] at hmapped
          exact ⟨i, List.mem_range.mpr (h.wf.bound _ i hlocate), hkeyOf.mpr ⟨hlocate, hmapped⟩⟩
  · have hnodes : s.trie.nodes = (List.range s.trie.nodes.length).map s.trie.node := by
      refine List.ext_getElem (by simp) fun i hi _ => ?_
      rw [List.getElem_map, List.getElem_range, Trie.node, List.getD_eq_getElem?_getD,
        List.getElem?_eq_getElem hi]
      rfl
    rw [List.filterMap_filterMap, Trie.foreach, hnodes, List.filterMap_map, List.length_map,
      List.length_range]
    refine List.filterMap_congr fun i hi => ?_
    have hi := List.mem_range.mp hi
    change (s.trie.node i).val = (keyOf i).bind (latest s.events)
    cases hkey : keyOf i with
    | some key => exact (hvalue (hkeyOf.mp hkey).1).symm
    | none =>
        by_contra hval
        obtain ⟨q, hq⟩ := h.wf.reach i hi
        obtain ⟨v, hv⟩ := Option.ne_none_iff_exists'.mp hval
        obtain ⟨key, rfl⟩ := h.keyed q v (by rw [Trie.find, hq]; exact hv)
        rw [hkeyOf.mpr ⟨hq, hval⟩] at hkey
        cases hkey

/-- A trie that behaves as a map with the given history. -/
structure IsMap (s : Session V) : Prop where
  lookup : ∀ key, s.trie.lookup key.toNat = latest s.events key
  accepts : ∀ key v, latest s.events key = none ∨ latest s.events key = some v →
    (next s (.insert key v)).isSome
  others : ∀ op s', next s op = some s' → ∀ key ≠ op.key,
    s'.trie.lookup key.toNat = s.trie.lookup key.toNat
  foreach : ∃ keys : List UInt64, keys.Nodup ∧
    (∀ key, key ∈ keys ↔ s.trie.lookup key.toNat ≠ none) ∧
    s.trie.foreach = keys.filterMap fun key => s.trie.lookup key.toNat

theorem latest_next (hnext : next s op = some s') (hne : key ≠ op.key) :
    latest s'.events key = latest s.events key := by
  cases op with
  | insert key' v =>
      obtain ⟨result, -, rfl⟩ := Option.map_eq_some_iff.mp hnext
      exact if_neg hne.symm
  | remove key' =>
      cases hnext
      exact if_neg hne.symm
  | removeByIdx idx key' =>
      obtain ⟨-, hnext⟩ := Option.ite_none_right_eq_some.mp hnext
      cases hnext
      exact if_neg hne.symm

theorem isMap_of_reachable (h : Reachable system s) : IsMap s := by
  have hs := holds_of_reachable h
  refine ⟨hs.lookup, fun key v hv => ?_, fun op s' hnext key hne => ?_, ?_⟩
  · rw [← hs.lookup key] at hv
    obtain ⟨result, hinsert, -⟩ := Trie.insert_spec hs.wf hv
    rw [next, hinsert]
    rfl
  · rw [(hs.next hnext).lookup, hs.lookup, latest_next hnext hne]
  · simp only [hs.lookup]
    exact hs.foreach

/-- The key 1 is on the way to the key 3; its value is removed by index. -/
theorem nested_isMap : ∃ s : Session Bool,
    replay next newSession [.insert 3 true, .insert 1 false, .removeByIdx 1 1] = some s ∧
      s.trie.lookup 3 = some true ∧ s.trie.lookup 1 = none ∧ IsMap s := by
  have hfacts : (replay next (newSession : Session Bool)
      [.insert 3 true, .insert 1 false, .removeByIdx 1 1]).map
        (fun s => (s.trie.lookup 3, s.trie.lookup 1)) = some (some true, none) := by
    decide +kernel
  obtain ⟨s, hreplay, hpair⟩ := Option.map_eq_some_iff.mp hfacts
  obtain ⟨h3, h1⟩ := Prod.mk.inj hpair
  exact ⟨s, hreplay, h3, h1,
    isMap_of_reachable (reachable_of_replay (ReachableUnder.start rfl) _ hreplay)⟩

/-- `insert` returns 0 for mapped keys only, and `remove` true. -/
structure CodesRight (s : Session V) (key : UInt64) (v : V) : Prop where
  insert : ∃ result, s.trie.insert key.toNat v = some result ∧
    (result.1 = 0 ↔ latest s.events key ≠ none)
  remove : (s.trie.remove key.toNat).1 = true ↔ latest s.events key ≠ none

omit [DecidableEq V] in
theorem Holds.remove_code (h : Holds s) :
    (s.trie.remove key.toNat).1 = true ↔ OnPath s.events key := by
  have hcode : (s.trie.remove key.toNat).1 = true ↔ (s.trie.locate (keyBits key.toNat)).isSome := by
    cases hlocate : s.trie.locate (keyBits key.toNat) with
    | none =>
        rw [Trie.remove_of_not_located hlocate]
        simp
    | some i =>
        rw [Trie.remove_of_located hlocate]
        simp
  rw [hcode, h.located, keyBits_eq_nil_iff]
  rfl

omit [DecidableEq V] in
theorem Holds.onPath_of_mapped (h : Holds s) (hmapped : latest s.events key ≠ none) :
    OnPath s.events key := by
  rw [← h.remove_code]
  cases hlocate : s.trie.locate (keyBits key.toNat) with
  | none =>
      rw [← h.lookup key, Trie.lookup, Trie.find, hlocate] at hmapped
      exact absurd rfl hmapped
  | some i => rw [Trie.remove_of_located hlocate]

theorem Holds.insert_code (h : Holds s)
    (hv : latest s.events key = none ∨ latest s.events key = some v) :
    ∃ result, s.trie.insert key.toNat v = some result ∧
      (result.1 = 0 ↔ latest s.events key ≠ none ∨ key = 0) := by
  rw [← h.lookup key] at hv ⊢
  obtain ⟨result, hinsert, hspec⟩ := Trie.insert_spec h.wf hv
  refine ⟨result, hinsert, ?_⟩
  rcases eq_or_ne (s.trie.lookup key.toNat) none with hnone | hsome
  · have hlocate := hspec.result_of_unmapped hnone
    rw [hnone, ← keyBits_eq_nil_iff]
    constructor
    · intro hzero
      rw [hzero] at hlocate
      exact Or.inr (hspec.wf.unique _ _ 0 hlocate rfl)
    · rintro (hne | hnil)
      · exact absurd rfl hne
      · rw [hnil] at hlocate
        exact (Option.some.inj hlocate).symm
  · exact iff_of_true (hspec.result_of_mapped hsome) (Or.inl hsome)

theorem codesRight_iff (h : Reachable system s)
    (hv : latest s.events key = none ∨ latest s.events key = some v) :
    CodesRight s key v ↔ latest s.events key ≠ none ∨ ¬OnPath s.events key := by
  have hs := holds_of_reachable h
  obtain ⟨result, hinsert, hcode⟩ := hs.insert_code hv
  constructor
  · rintro ⟨-, hremove⟩
    rw [hs.remove_code] at hremove
    exact (em _).imp_right (mt hremove.mp)
  · intro hor
    refine ⟨⟨result, hinsert, hcode.trans ?_⟩, hs.remove_code.trans ?_⟩
    · refine or_iff_left_of_imp fun hzero => ?_
      exact hor.resolve_right fun hnot => hnot (Or.inl hzero)
    · exact ⟨fun hpath => hor.resolve_right fun hnot => hnot hpath, hs.onPath_of_mapped⟩

/-- A key that is not on the way to another one. -/
theorem apart_codesRight : ∃ s : Session Bool,
    replay next newSession [.insert 3 true] = some s ∧ CodesRight s 2 false := by
  have hfacts : (replay next (newSession : Session Bool) [.insert 3 true]).isSome := by
    decide +kernel
  obtain ⟨s, hreplay⟩ := Option.isSome_iff_exists.mp hfacts
  have hreachable : Reachable system s :=
    reachable_of_replay (ReachableUnder.start rfl) _ hreplay
  have hevents : s.events = [.inserted 3 true] := by
    obtain ⟨s₁, hnext, hrest⟩ := Option.bind_eq_some_iff.mp hreplay
    rw [next] at hnext
    obtain ⟨result, -, rfl⟩ := Option.map_eq_some_iff.mp hnext
    cases hrest
    rfl
  refine ⟨s, hreplay, (codesRight_iff hreachable (Or.inl ?_)).mpr (Or.inr ?_)⟩
  · rw [hevents]
    rfl
  · rw [hevents]
    rintro (hzero | ⟨key', v, hevent, hprefix⟩)
    · exact absurd hzero (by decide)
    · cases List.mem_singleton.mp hevent
      exact absurd hprefix (by decide)

/-- The first insertion of the key 0 returns 0. -/
theorem zeroKey_not_codesRight : Reachable system (newSession : Session Bool) ∧
    latest (newSession : Session Bool).events 0 = none ∧
      ¬CodesRight (newSession : Session Bool) 0 true := by
  refine ⟨ReachableUnder.start rfl, rfl, fun h => ?_⟩
  obtain ⟨result, hinsert, hcode⟩ := h.insert
  cases hinsert
  exact hcode.mp rfl rfl

end LabKernel.TrieMap
