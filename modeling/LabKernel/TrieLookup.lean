import Mathlib.Algebra.Group.Nat.Defs
import Mathlib.Data.List.Basic
import Mathlib.Logic.Function.Basic
import Mathlib.Data.List.Nodup
import Mathlib.Data.List.Induction
import Mathlib.Order.Basic

/-!
`TrieLookup` of `container.hpp`: a binary trie over the bits of a 64-bit key,
lowest bit first.  Its nodes stand in a vector and are never released, so a
node outlives its value.
-/

namespace LabKernel.TrieLookup

variable {V : Type*}

structure Item (V : Type*) where
  val : Option V
  ch : Bool → Nat

def Item.empty : Item V := ⟨none, fun _ => 0⟩

structure Trie (V : Type*) where
  nodes : List (Item V)

/-- `TrieLookup::TrieLookup`: a root without a value. -/
def Trie.initial : Trie V := ⟨[Item.empty]⟩

/-- The values of `key & 1` in the rounds of the loop `while (key)`. -/
def loopBits : Nat → Nat → List Bool
  | 0, _ => []
  | rounds + 1, key =>
      if key = 0 then [] else decide (key % 2 = 1) :: loopBits rounds (key / 2)

/-- A key has 64 bits, so the loop runs at most 64 times. -/
def keyBits (key : Nat) : List Bool := loopBits 64 key

namespace Trie

def node (t : Trie V) (i : Nat) : Item V := t.nodes.getD i Item.empty

/-- One round of the loop of `lookup` and `remove`. -/
def child (t : Trie V) (i : Nat) (b : Bool) : Option Nat :=
  if (t.node i).ch b = 0 then none else some ((t.node i).ch b)

/-- The node the loop of `lookup` and `remove` arrives at. -/
def locate (t : Trie V) (path : List Bool) : Option Nat := path.foldlM t.child 0

def find (t : Trie V) (path : List Bool) : Option V := (t.locate path).bind fun i => (t.node i).val

/-- `TrieLookup::lookup`. -/
def lookup (t : Trie V) (key : Nat) : Option V := t.find (keyBits key)

def setVal (t : Trie V) (i : Nat) (v : Option V) : Trie V :=
  ⟨t.nodes.modify i fun item => { item with val := v }⟩

/-- `TrieLookup::remove`. -/
def remove (t : Trie V) (key : Nat) : Bool × Trie V :=
  match t.locate (keyBits key) with
  | none => (false, t)
  | some i => (true, t.setVal i none)

/-- `TrieLookup::remove_by_idx`. -/
def removeByIdx (t : Trie V) (idx : Nat) : Trie V :=
  if idx < t.nodes.length then t.setVal idx none else t

/-- A new node below node `i`. -/
def extend (t : Trie V) (i : Nat) (b : Bool) : Trie V :=
  ⟨t.nodes.modify i (fun item => { item with ch := Function.update item.ch b t.nodes.length }) ++
    [Item.empty]⟩

/-- The loop of `insert`. -/
def descend (t : Trie V) (i : Nat) : List Bool → Trie V × Nat
  | [] => (t, i)
  | b :: rest =>
      match t.child i b with
      | none => descend (t.extend i b) t.nodes.length rest
      | some j => descend t j rest

/-- `TrieLookup::insert`; there is no result when its assertion fails. -/
def insert [DecidableEq V] (t : Trie V) (key : Nat) (v : V) : Option (Nat × Trie V) :=
  let (t', i) := t.descend 0 (keyBits key)
  let old := (t'.node i).val
  if old = none ∨ old = some v then
    some (if old = none then i else 0, t'.setVal i (some v))
  else
    none

/-- The values `TrieLookup::foreach` visits. -/
def foreach (t : Trie V) : List V := t.nodes.filterMap Item.val

/-- Every node is reached by exactly one path from the root. -/
structure Wf (t : Trie V) : Prop where
  root : 0 < t.nodes.length
  bound : ∀ path i, t.locate path = some i → i < t.nodes.length
  reach : ∀ i < t.nodes.length, ∃ path, t.locate path = some i
  unique : ∀ p q i, t.locate p = some i → t.locate q = some i → p = q

variable {t : Trie V} {i : Nat} {b : Bool} {p q : List Bool}

@[simp]
theorem locate_nil (t : Trie V) : t.locate [] = some 0 := rfl

theorem locate_concat (t : Trie V) (p : List Bool) (b : Bool) :
    t.locate (p ++ [b]) = (t.locate p).bind fun i => t.child i b := by
  unfold locate
  rw [List.foldlM_append]
  cases List.foldlM t.child 0 p with
  | none => rfl
  | some i =>
      change List.foldlM t.child i [b] = t.child i b
      cases hchild : t.child i b with
      | none => simp [hchild]
      | some j => simp [hchild]

theorem locate_concat_of_child {j : Nat} (hp : t.locate p = some i)
    (hchild : t.child i b = some j) : t.locate (p ++ [b]) = some j := by
  rw [locate_concat, hp]
  exact hchild

theorem wf_initial : (initial : Trie V).Wf := by
  have hchild : ∀ i b, (initial : Trie V).child i b = none := by
    intro i b
    cases i <;> simp [child, node, initial, Item.empty]
  have hlocate : ∀ path i, (initial : Trie V).locate path = some i → path = [] ∧ i = 0 := by
    intro path i hpath
    rcases List.eq_nil_or_concat path with rfl | ⟨rest, b, rfl⟩
    · exact ⟨rfl, (Option.some.inj hpath).symm⟩
    · rw [List.concat_eq_append, locate_concat] at hpath
      simp [hchild] at hpath
  constructor
  · exact Nat.one_pos
  · intro path i hpath
    rw [(hlocate path i hpath).2]
    exact Nat.one_pos
  · intro i hi
    refine ⟨[], ?_⟩
    obtain rfl : i = 0 := Nat.lt_one_iff.mp hi
    rfl
  · intro p q i hp hq
    rw [(hlocate p i hp).1, (hlocate q i hq).1]

theorem node_setVal (t : Trie V) (i j : Nat) (v : Option V) :
    (t.setVal i v).node j =
      if i = j ∧ j < t.nodes.length then { t.node j with val := v } else t.node j := by
  unfold node setVal
  simp only [List.getD_eq_getElem?_getD, List.getElem?_modify]
  rcases Nat.lt_or_ge j t.nodes.length with hj | hj
  · rcases eq_or_ne i j with rfl | hne
    · simp [hj]
    · simp [hne, hj]
  · have hnot : ¬j < t.nodes.length := Nat.not_lt.mpr hj
    simp [hnot]

@[simp]
theorem child_setVal (t : Trie V) (i : Nat) (v : Option V) : (t.setVal i v).child = t.child := by
  funext j b
  unfold child
  rw [node_setVal]
  split <;> rfl

@[simp]
theorem locate_setVal (t : Trie V) (i : Nat) (v : Option V) :
    (t.setVal i v).locate = t.locate := by
  funext path
  unfold locate
  rw [child_setVal]

@[simp]
theorem length_setVal (t : Trie V) (i : Nat) (v : Option V) :
    (t.setVal i v).nodes.length = t.nodes.length := by
  simp [setVal]

theorem Wf.setVal (ht : t.Wf) (i : Nat) (v : Option V) : (t.setVal i v).Wf := by
  constructor
  · rw [length_setVal]
    exact ht.root
  · rw [length_setVal, locate_setVal]
    exact ht.bound
  · rw [length_setVal, locate_setVal]
    exact ht.reach
  · rw [locate_setVal]
    exact ht.unique

/-- Setting the value of the node of a path changes what is found there and
nowhere else. -/
theorem find_setVal (ht : t.Wf) (hp : t.locate p = some i) (v : Option V) (q : List Bool) :
    (t.setVal i v).find q = if q = p then v else t.find q := by
  unfold find
  rw [locate_setVal]
  rcases eq_or_ne q p with rfl | hne
  · rw [if_pos rfl, hp, Option.bind_some, node_setVal, if_pos ⟨rfl, ht.bound _ _ hp⟩]
  · rw [if_neg hne]
    cases hq : t.locate q with
    | none => rfl
    | some j =>
        have hij : i ≠ j := by
          rintro rfl
          exact hne (ht.unique q p i hq hp)
        rw [Option.bind_some, Option.bind_some, node_setVal, if_neg fun h => hij h.1]

theorem node_extend (t : Trie V) (i j : Nat) (b : Bool) :
    (t.extend i b).node j =
      if i = j ∧ j < t.nodes.length then
        { t.node j with ch := Function.update (t.node j).ch b t.nodes.length }
      else t.node j := by
  unfold node extend
  simp only [List.getD_eq_getElem?_getD]
  rcases Nat.lt_or_ge j t.nodes.length with hj | hj
  · rw [List.getElem?_append_left (by simpa using hj), List.getElem?_modify]
    rcases eq_or_ne i j with rfl | hne
    · simp [hj]
    · simp [hne, hj]
  · have hnot : ¬(i = j ∧ j < t.nodes.length) := fun h => Nat.not_lt.mpr hj h.2
    rw [List.getElem?_append_right (by simpa using hj), if_neg hnot,
      List.getElem?_eq_none hj]
    rcases Nat.eq_zero_or_pos (j - t.nodes.length) with hzero | hpos
    · simp [hzero]
    · have hout : [(Item.empty : Item V)].length ≤ j - t.nodes.length := hpos
      simp [List.getElem?_eq_none hout]

theorem length_extend (t : Trie V) (i : Nat) (b : Bool) :
    (t.extend i b).nodes.length = t.nodes.length + 1 := by
  simp [extend]

theorem child_of_length_le (hi : t.nodes.length ≤ i) : t.child i b = none := by
  simp [child, node, List.getD_eq_getElem?_getD, List.getElem?_eq_none hi, Item.empty]

theorem child_extend (ht : t.Wf) (hi : i < t.nodes.length) (j : Nat) (c : Bool) :
    (t.extend i b).child j c = if j = i ∧ c = b then some t.nodes.length else t.child j c := by
  have hpos : t.nodes.length ≠ 0 := Nat.ne_zero_of_lt ht.root
  unfold child
  rw [node_extend]
  rcases eq_or_ne j i with rfl | hj
  · rcases eq_or_ne c b with rfl | hc
    · simp [hi, hpos]
    · simp [hi, hc]
  · simp [hj, Ne.symm hj]

theorem locate_extend (ht : t.Wf) (hp : t.locate p = some i) (hchild : t.child i b = none)
    (q : List Bool) :
    (t.extend i b).locate q = if q = p ++ [b] then some t.nodes.length else t.locate q := by
  have hi := ht.bound p i hp
  have hnone : t.locate (p ++ [b]) = none := by
    rw [locate_concat, hp]
    exact hchild
  -- induction from the end of the path, as the last edge is the one that may be new
  induction q using List.reverseRecOn with
  | nil => simp
  | append_singleton q c ih =>
      rw [locate_concat, ih]
      rcases eq_or_ne q (p ++ [b]) with rfl | hq
      · have hne : p ++ [b] ++ [c] ≠ p ++ [b] := by
          intro heq
          simpa using congrArg List.length heq
        rw [if_pos rfl, if_neg hne, locate_concat t (p ++ [b]), hnone, Option.bind_some,
          child_extend ht hi, if_neg fun h => Nat.ne_of_gt hi h.1,
          child_of_length_le (Nat.le_refl _)]
        rfl
      · rw [if_neg hq]
        cases hlocate : t.locate q with
        | none =>
            have hne : q ++ [c] ≠ p ++ [b] := by
              intro heq
              rw [(List.append_inj' heq rfl).1, hp] at hlocate
              cases hlocate
            rw [if_neg hne, locate_concat, hlocate]
            rfl
        | some k =>
            rw [Option.bind_some, child_extend ht hi]
            have hiff : (k = i ∧ c = b) ↔ q ++ [c] = p ++ [b] := by
              constructor
              · rintro ⟨rfl, rfl⟩
                rw [ht.unique q p k hlocate hp]
              · intro heq
                obtain ⟨hqp, hcb⟩ := List.append_inj' heq rfl
                rw [hqp, hp] at hlocate
                exact ⟨(Option.some.inj hlocate).symm, (List.singleton_inj.mp hcb)⟩
            simp only [hiff]
            split
            · rfl
            · rw [locate_concat, hlocate]
              rfl

theorem Wf.extend (ht : t.Wf) (hp : t.locate p = some i) (hchild : t.child i b = none) :
    (t.extend i b).Wf := by
  have hlocate := locate_extend ht hp hchild
  constructor
  · rw [length_extend]
    exact Nat.succ_pos _
  · intro q j hq
    rw [hlocate] at hq
    rw [length_extend]
    split at hq
    · rw [← Option.some.inj hq]
      exact Nat.lt_succ_self _
    · exact Nat.lt_succ_of_lt (ht.bound q j hq)
  · intro j hj
    rw [length_extend] at hj
    rcases Nat.lt_succ_iff_lt_or_eq.mp hj with hold | rfl
    · obtain ⟨q, hq⟩ := ht.reach j hold
      refine ⟨q, ?_⟩
      have hne : q ≠ p ++ [b] := by
        rintro rfl
        rw [locate_concat, hp, Option.bind_some, hchild] at hq
        cases hq
      rw [hlocate, if_neg hne, hq]
    · exact ⟨p ++ [b], by rw [hlocate, if_pos rfl]⟩
  · intro q r j hq hr
    rw [hlocate] at hq hr
    split at hq <;> split at hr
    · next hq' hr' => rw [hq', hr']
    · have hlt := ht.bound r j hr
      rw [← Option.some.inj hq] at hlt
      exact absurd hlt (Nat.lt_irrefl _)
    · have hlt := ht.bound q j hq
      rw [← Option.some.inj hr] at hlt
      exact absurd hlt (Nat.lt_irrefl _)
    · exact ht.unique q r j hq hr

theorem find_extend (ht : t.Wf) (hp : t.locate p = some i) (hchild : t.child i b = none)
    (q : List Bool) : (t.extend i b).find q = t.find q := by
  unfold find
  rw [locate_extend ht hp hchild]
  have hval : ∀ j, ((t.extend i b).node j).val = (t.node j).val := by
    intro j
    rw [node_extend]
    split <;> rfl
  split
  · next heq =>
      have hnone : t.locate q = none := by
        rw [heq, locate_concat, hp]
        exact hchild
      rw [hnone, Option.bind_some, hval]
      simp [node, List.getD_eq_getElem?_getD, Item.empty]
  · simp only [hval]

/-- The loop of `insert` arrives at the node of its path and finds nothing
else changed; it creates exactly the missing nodes on the way. -/
theorem descend_spec (ht : t.Wf) (hp : t.locate p = some i) (path : List Bool) :
    (t.descend i path).1.Wf ∧
      (t.descend i path).1.locate (p ++ path) = some (t.descend i path).2 ∧
      (∀ q, (t.descend i path).1.find q = t.find q) ∧
      (∀ q j, t.locate q = some j → (t.descend i path).1.locate q = some j) ∧
      ∀ q, ((t.descend i path).1.locate q).isSome ↔
        (t.locate q).isSome ∨ ∃ c, c <+: path ∧ q = p ++ c := by
  induction path generalizing t i p with
  | nil =>
      refine ⟨ht, by rw [List.append_nil]; exact hp, fun q => rfl, fun q j hq => hq, fun q => ?_⟩
      constructor
      · exact Or.inl
      · rintro (hq | ⟨c, hc, rfl⟩)
        · exact hq
        · rw [List.prefix_nil.mp hc, List.append_nil]
          change (t.locate p).isSome
          rw [hp]
          rfl
  | cons b rest ih =>
      have hsplit : p ++ b :: rest = p ++ [b] ++ rest := by simp
      have hprefix : ∀ q, (∃ c, c <+: b :: rest ∧ q = p ++ c) ↔
          q = p ∨ ∃ c, c <+: rest ∧ q = p ++ [b] ++ c := by
        intro q
        constructor
        · rintro ⟨c, hc, rfl⟩
          rcases List.prefix_cons_iff.mp hc with rfl | ⟨d, rfl, hd⟩
          · exact Or.inl (List.append_nil p)
          · exact Or.inr ⟨d, hd, by simp⟩
        · rintro (rfl | ⟨c, hc, rfl⟩)
          · exact ⟨[], List.nil_prefix, (List.append_nil q).symm⟩
          · exact ⟨b :: c, List.prefix_cons_iff.mpr (Or.inr ⟨c, rfl, hc⟩), by simp⟩
      unfold descend
      cases hchild : t.child i b with
      | none =>
          have hnew : (t.extend i b).locate (p ++ [b]) = some t.nodes.length := by
            rw [locate_extend ht hp hchild, if_pos rfl]
          obtain ⟨hwf, hlocate, hfind, hstable, hhas⟩ := ih (ht.extend hp hchild) hnew
          refine ⟨hwf, hsplit ▸ hlocate, ?_, ?_, ?_⟩
          · intro q
            rw [hfind, find_extend ht hp hchild]
          · intro q j hq
            apply hstable
            have hne : q ≠ p ++ [b] := by
              rintro rfl
              rw [locate_concat, hp, Option.bind_some, hchild] at hq
              cases hq
            rw [locate_extend ht hp hchild, if_neg hne, hq]
          · intro q
            rw [hhas, hprefix, locate_extend ht hp hchild]
            constructor
            · rintro (hq | hq)
              · split at hq
                · next heq => exact Or.inr (Or.inr ⟨[], List.nil_prefix, by simpa using heq⟩)
                · exact Or.inl hq
              · exact Or.inr (Or.inr hq)
            · rintro (hq | rfl | hq)
              · apply Or.inl
                split
                · rfl
                · exact hq
              · apply Or.inl
                split
                · rfl
                · rw [hp]
                  rfl
              · exact Or.inr hq
      | some j =>
          have hnext := locate_concat_of_child hp hchild
          obtain ⟨hwf, hlocate, hfind, hstable, hhas⟩ := ih ht hnext
          refine ⟨hwf, hsplit ▸ hlocate, hfind, hstable, ?_⟩
          intro q
          rw [hhas, hprefix]
          constructor
          · rintro (hq | hq)
            · exact Or.inl hq
            · exact Or.inr (Or.inr hq)
          · rintro (hq | rfl | hq)
            · exact Or.inl hq
            · apply Or.inl
              rw [hp]
              rfl
            · exact Or.inr hq

theorem node_descend_val (ht : t.Wf) (key : Nat) :
    ((t.descend 0 (keyBits key)).1.node (t.descend 0 (keyBits key)).2).val = t.lookup key := by
  obtain ⟨-, hlocate, hfind, -, -⟩ := descend_spec ht (locate_nil t) (keyBits key)
  rw [List.nil_append] at hlocate
  unfold lookup
  rw [← hfind]
  unfold find
  rw [hlocate]
  rfl

/-- What `insert` does to a trie and to its nodes. -/
structure Inserted (t : Trie V) (key : Nat) (v : V) (result : Nat × Trie V) : Prop where
  wf : result.2.Wf
  find : ∀ q, result.2.find q = if q = keyBits key then some v else t.find q
  result_of_unmapped : t.lookup key = none → result.2.locate (keyBits key) = some result.1
  result_of_mapped : t.lookup key ≠ none → result.1 = 0
  stable : ∀ q i, t.locate q = some i → result.2.locate q = some i
  has : ∀ q, (result.2.locate q).isSome ↔ (t.locate q).isSome ∨ q <+: keyBits key

theorem insert_spec [DecidableEq V] (ht : t.Wf) {key : Nat} {v : V}
    (hkey : t.lookup key = none ∨ t.lookup key = some v) :
    ∃ result, t.insert key v = some result ∧ t.Inserted key v result := by
  obtain ⟨hwf, hlocate, hfind, hstable, hhas⟩ := descend_spec ht (locate_nil t) (keyBits key)
  rw [List.nil_append] at hlocate
  have hval := node_descend_val ht key
  unfold insert
  simp only [hval, if_pos hkey]
  refine ⟨_, rfl, hwf.setVal _ _, ?_, ?_, ?_, ?_, ?_⟩
  · intro q
    rw [find_setVal hwf hlocate, hfind]
  · intro hnone
    rw [if_pos hnone, locate_setVal, hlocate]
  · intro hsome
    rw [if_neg hsome]
  · intro q i hq
    rw [locate_setVal]
    exact hstable q i hq
  · intro q
    rw [locate_setVal, hhas]
    simp

theorem insert_eq_some [DecidableEq V] (ht : t.Wf) {key : Nat} {v : V} {result : Nat × Trie V}
    (hinsert : t.insert key v = some result) : t.Inserted key v result := by
  have hval := node_descend_val ht key
  have hkey : t.lookup key = none ∨ t.lookup key = some v := by
    unfold insert at hinsert
    simp only [hval] at hinsert
    by_contra hnot
    rw [if_neg hnot] at hinsert
    cases hinsert
  obtain ⟨result', hresult', hspec⟩ := insert_spec ht hkey
  rw [hinsert] at hresult'
  cases hresult'
  exact hspec

theorem remove_of_located {key : Nat} (hi : t.locate (keyBits key) = some i) :
    t.remove key = (true, t.setVal i none) := by
  unfold remove
  rw [hi]

theorem remove_of_not_located {key : Nat} (hnone : t.locate (keyBits key) = none) :
    t.remove key = (false, t) := by
  unfold remove
  rw [hnone]

theorem removeByIdx_wf (ht : t.Wf) (i : Nat) : (t.removeByIdx i).Wf := by
  unfold removeByIdx
  split
  · exact ht.setVal i none
  · exact ht

theorem locate_removeByIdx (t : Trie V) (i : Nat) : (t.removeByIdx i).locate = t.locate := by
  unfold removeByIdx
  split
  · exact locate_setVal t i none
  · rfl

/-- What is found after a node has lost its value was found before, at another
node. -/
theorem find_removeByIdx (ht : t.Wf) {v : V} (hfind : (t.removeByIdx i).find q = some v) :
    t.find q = some v ∧ t.locate q ≠ some i := by
  unfold removeByIdx at hfind
  split at hfind
  · next hi =>
      obtain ⟨p, hp⟩ := ht.reach i hi
      rw [find_setVal ht hp] at hfind
      split at hfind
      · cases hfind
      · next hne => exact ⟨hfind, fun hq => hne (ht.unique q p i hq hp)⟩
  · next hi => exact ⟨hfind, fun hq => hi (ht.bound q i hq)⟩

theorem mem_foreach (ht : t.Wf) {v : V} : v ∈ t.foreach ↔ ∃ path, t.find path = some v := by
  unfold foreach find
  rw [List.mem_filterMap]
  constructor
  · rintro ⟨item, hitem, hval⟩
    obtain ⟨i, hi, rfl⟩ := List.getElem_of_mem hitem
    obtain ⟨path, hpath⟩ := ht.reach i hi
    refine ⟨path, ?_⟩
    rw [hpath, Option.bind_some, node, List.getD_eq_getElem?_getD, List.getElem?_eq_getElem hi]
    exact hval
  · rintro ⟨path, hpath⟩
    obtain ⟨i, hi, hval⟩ := Option.bind_eq_some_iff.mp hpath
    have hlt := ht.bound path i hi
    refine ⟨t.nodes[i], List.getElem_mem hlt, ?_⟩
    rw [node, List.getD_eq_getElem?_getD, List.getElem?_eq_getElem hlt] at hval
    exact hval

theorem foreach_nodup (ht : t.Wf)
    (hpath : ∀ p q v, t.find p = some v → t.find q = some v → p = q) : t.foreach.Nodup := by
  unfold foreach
  rw [List.Nodup, List.pairwise_filterMap, List.pairwise_iff_getElem]
  intro i j hi hj hij v hv w hw heq
  subst heq
  obtain ⟨p, hp⟩ := ht.reach i hi
  obtain ⟨q, hq⟩ := ht.reach j hj
  have hfind : ∀ r k (hk : k < t.nodes.length), t.locate r = some k →
      t.nodes[k].val = some v → t.find r = some v := by
    intro r k hk hr hval
    rw [find, hr, Option.bind_some, node, List.getD_eq_getElem?_getD, List.getElem?_eq_getElem hk]
    exact hval
  obtain rfl := hpath p q v (hfind p i hi hp hv) (hfind q j hj hq hw)
  rw [hp] at hq
  exact absurd (Option.some.inj hq) (Nat.ne_of_lt hij)

end Trie

theorem loopBits_injective {rounds k k' : Nat} (hk : k < 2 ^ rounds) (hk' : k' < 2 ^ rounds)
    (h : loopBits rounds k = loopBits rounds k') : k = k' := by
  induction rounds generalizing k k' with
  | zero =>
      rw [Nat.pow_zero] at hk hk'
      omega
  | succ rounds ih =>
      rw [Nat.pow_succ] at hk hk'
      unfold loopBits at h
      split at h <;> split at h
      · next hzero hzero' => rw [hzero, hzero']
      · cases h
      · cases h
      · obtain ⟨hbit, hrest⟩ := List.cons.inj h
        have hhalf : k / 2 = k' / 2 := ih (by omega) (by omega) hrest
        have hparity : k % 2 = 1 ↔ k' % 2 = 1 := decide_eq_decide.mp hbit
        omega

/-- Different 64-bit keys have different paths. -/
theorem keyBits_injective {k k' : Nat} (hk : k < 2 ^ 64) (hk' : k' < 2 ^ 64)
    (h : keyBits k = keyBits k') : k = k' :=
  loopBits_injective hk hk' h

theorem keyBits_eq_nil {k : Nat} (h : keyBits k = []) : k = 0 := by
  by_contra hne
  unfold keyBits loopBits at h
  rw [if_neg hne] at h
  cases h

end LabKernel.TrieLookup
