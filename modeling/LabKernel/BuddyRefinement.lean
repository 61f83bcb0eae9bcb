import LabKernel.BuddyPool
import LabKernel.BuddyTree

/-!
The array of `BuddyPool` represents a buddy tree.

Below a free node, and also below an allocated one, the array still holds the
values of a completely free subtree; this is what lets `free` find the
allocated node by climbing from any of its units.  Under the representation
`init`, `alloc` and `free` are the tree operations.
-/

namespace LabKernel.BuddyRefinement

open LabKernel.BuddyTree
open LabKernel.BuddyPool
open LabKernel.Rounding

/-- The parent of a node in heap order. -/
def parent (j : Nat) : Nat := (j - 1) / 2

/-- The node `j` lies in the subtree of the node `root`. -/
def Below (root j : Nat) : Prop := ∃ d, parent^[d] j = root

theorem parent_left (i : Nat) : parent (i * 2 + 1) = i := by
  simp only [parent]
  omega

theorem parent_right (i : Nat) : parent (i * 2 + 2) = i := by
  simp only [parent]
  omega

theorem iterate_parent_le (d j : Nat) : parent^[d] j ≤ j := by
  induction d with
  | zero => exact le_rfl
  | succ d ih =>
      rw [Function.iterate_succ_apply']
      have : parent (parent^[d] j) ≤ parent^[d] j := by
        simp only [parent]
        omega
      omega

theorem below_refl (i : Nat) : Below i i := ⟨0, rfl⟩

theorem below_of_child {i c j : Nat} (hc : parent c = i) (h : Below c j) : Below i j := by
  obtain ⟨d, hd⟩ := h
  exact ⟨d + 1, by rw [Function.iterate_succ_apply', hd, hc]⟩

theorem not_below_of_lt {root j : Nat} (h : j < root) : ¬ Below root j := by
  rintro ⟨d, hd⟩
  have := iterate_parent_le d j
  omega

theorem not_below_both {i j : Nat} (hleft : Below (i * 2 + 1) j) :
    ¬ Below (i * 2 + 2) j := by
  rintro ⟨e, he⟩
  obtain ⟨d, hd⟩ := hleft
  rcases Nat.lt_or_ge e d with hlt | hge
  · obtain ⟨m, rfl⟩ : ∃ m, d = m + 1 + e := ⟨d - e - 1, by omega⟩
    rw [Function.iterate_add_apply, he, Function.iterate_succ_apply, parent_right] at hd
    have := iterate_parent_le m i
    omega
  · obtain ⟨m, rfl⟩ : ∃ m, e = m + d := ⟨e - d, by omega⟩
    rw [Function.iterate_add_apply, hd] at he
    have := iterate_parent_le m (i * 2 + 1)
    omega

/-- Two arrays agree outside the subtree of `root`. -/
def AgreeOutside (root : Nat) (f g : Nat → Nat) : Prop := ∀ j, ¬ Below root j → f j = g j

/-- The array holds the values of a completely free subtree of height `k`. -/
def Full (f : Nat → Nat) : Nat → Nat → Prop
  | 0, i => f i = 1
  | k + 1, i => f i = k + 2 ∧ Full f k (i * 2 + 1) ∧ Full f k (i * 2 + 2)

/-- The same strictly below the node `i`. -/
def FullBelow (f : Nat → Nat) : Nat → Nat → Prop
  | 0, _ => True
  | k + 1, i => Full f k (i * 2 + 1) ∧ Full f k (i * 2 + 2)

/-- The subtree of height `k` at node `i` represents the tree `t`. -/
def Repr (f : Nat → Nat) : {k : Nat} → Nat → Buddy k → Prop
  | k, i, .free => Full f k i
  | k, i, .used => f i = 0 ∧ FullBelow f k i
  | _, i, .node left right =>
      f i = max left.largest right.largest ∧
        Repr f (i * 2 + 1) left ∧ Repr f (i * 2 + 2) right

theorem repr_free {f : Nat → Nat} {k i : Nat} :
    Repr f i (Buddy.free : Buddy k) ↔ Full f k i := by
  rw [Repr]

theorem repr_used {f : Nat → Nat} {k i : Nat} :
    Repr f i (Buddy.used : Buddy k) ↔ f i = 0 ∧ FullBelow f k i := by
  rw [Repr]

theorem full_iff (f : Nat → Nat) (k i : Nat) : Full f k i ↔ f i = k + 1 ∧ FullBelow f k i := by
  cases k <;> simp [Full, FullBelow]

theorem full_congr {f g : Nat → Nat} {k i : Nat} (h : ∀ j, Below i j → g j = f j)
    (hf : Full f k i) : Full g k i := by
  induction k generalizing i with
  | zero => exact (h i (below_refl i)).trans hf
  | succ k ih =>
      refine ⟨(h i (below_refl i)).trans hf.1, ih ?_ hf.2.1, ih ?_ hf.2.2⟩
      · intro j hj
        exact h j (below_of_child (parent_left i) hj)
      · intro j hj
        exact h j (below_of_child (parent_right i) hj)

theorem fullBelow_congr {f g : Nat → Nat} {k i : Nat} (h : ∀ j, j ≠ i → g j = f j)
    (hf : FullBelow f k i) : FullBelow g k i := by
  cases k with
  | zero => trivial
  | succ k =>
      constructor
      · refine full_congr (fun j hj => h j ?_) hf.1
        rintro rfl
        exact not_below_of_lt (by omega) hj
      · refine full_congr (fun j hj => h j ?_) hf.2
        rintro rfl
        exact not_below_of_lt (by omega) hj

theorem repr_congr {f g : Nat → Nat} {k i : Nat} {t : Buddy k}
    (h : ∀ j, Below i j → g j = f j) (hf : Repr f i t) : Repr g i t := by
  induction t generalizing i with
  | free => exact repr_free.mpr (full_congr h (repr_free.mp hf))
  | used =>
      rename_i k
      rw [repr_used] at hf ⊢
      refine ⟨(h i (below_refl i)).trans hf.1, ?_⟩
      cases k with
      | zero => trivial
      | succ k =>
          exact ⟨full_congr (fun j hj => h j (below_of_child (parent_left i) hj)) hf.2.1,
            full_congr (fun j hj => h j (below_of_child (parent_right i) hj)) hf.2.2⟩
  | node left right ihLeft ihRight =>
      refine ⟨(h i (below_refl i)).trans hf.1, ihLeft ?_ hf.2.1, ihRight ?_ hf.2.2⟩
      · intro j hj
        exact h j (below_of_child (parent_left i) hj)
      · intro j hj
        exact h j (below_of_child (parent_right i) hj)

theorem repr_entry {f : Nat → Nat} {k i : Nat} {t : Buddy k} (h : Repr f i t) :
    f i = t.largest := by
  cases t with
  | free => exact ((full_iff f k i).mp (repr_free.mp h)).1
  | used => exact (repr_used.mp h).1
  | node left right => exact h.1

theorem repr_split {f : Nat → Nat} {k i : Nat} {t : Buddy (k + 1)} (ht : t ≠ .used)
    (h : Repr f i t) :
    Repr f (i * 2 + 1) t.split.1 ∧ Repr f (i * 2 + 2) t.split.2 := by
  cases t with
  | free =>
      have hfull := repr_free.mp h
      exact ⟨repr_free.mpr hfull.2.1, repr_free.mpr hfull.2.2⟩
  | used => exact absurd rfl ht
  | node left right => exact ⟨h.2.1, h.2.2⟩

theorem repr_right_of_agree {f g : Nat → Nat} {k i : Nat} {t : Buddy k}
    (hagree : AgreeOutside (i * 2 + 1) g f) (h : Repr f (i * 2 + 2) t) :
    Repr g (i * 2 + 2) t :=
  repr_congr (fun j hj => hagree j fun hleft => not_below_both hleft hj) h

theorem repr_left_of_agree {f g : Nat → Nat} {k i : Nat} {t : Buddy k}
    (hagree : AgreeOutside (i * 2 + 2) g f) (h : Repr f (i * 2 + 1) t) :
    Repr g (i * 2 + 1) t :=
  repr_congr (fun j hj => hagree j (not_below_both hj)) h

theorem repr_update_child {f : Nat → Nat} {k i c v : Nat} {t : Buddy k} (hc : i < c)
    (h : Repr f c t) : Repr (Function.update f i v) c t := by
  refine repr_congr (fun j hj => Function.update_of_ne ?_ _ _) h
  rintro rfl
  exact not_below_of_lt hc hj

theorem repr_node {f : Nat → Nat} {k i : Nat} {left right : Buddy k}
    (hleft : Repr f (i * 2 + 1) left) (hright : Repr f (i * 2 + 2) right) :
    Repr (Function.update f i (max (f (i * 2 + 1)) (f (i * 2 + 2)))) i
      (Buddy.node left right) := by
  refine ⟨?_, repr_update_child (by omega) hleft, repr_update_child (by omega) hright⟩
  rw [Function.update_self, repr_entry hleft, repr_entry hright]

theorem repr_join {f : Nat → Nat} {k i : Nat} {left right : Buddy k}
    (hleft : Repr f (i * 2 + 1) left) (hright : Repr f (i * 2 + 2) right) :
    Repr (Function.update f i
      (if f (i * 2 + 1) + 1 = k + 1 + 1 ∧ f (i * 2 + 2) + 1 = k + 1 + 1 then k + 1 + 1
        else max (f (i * 2 + 1)) (f (i * 2 + 2)))) i (left.join right) := by
  rw [repr_entry hleft, repr_entry hright]
  split
  · next hfull =>
      have hl := eq_free_of_largest left (by omega)
      have hr := eq_free_of_largest right (by omega)
      subst hl
      subst hr
      rw [Buddy.join, repr_free]
      refine ⟨by simp, repr_free.mp ?_, repr_free.mp ?_⟩
      · exact repr_update_child (by omega) hleft
      · exact repr_update_child (by omega) hright
  · next hpartial =>
      have hnode : left.join right = .node left right := by
        cases left <;> cases right <;> simp [Buddy.join]
        simp [Buddy.largest] at hpartial
      rw [hnode, ← repr_entry hleft, ← repr_entry hright]
      exact repr_node hleft hright

theorem agreeOutside_update (f : Nat → Nat) (i v : Nat) :
    AgreeOutside i (Function.update f i v) f := by
  intro j hj
  refine Function.update_of_ne ?_ _ _
  rintro rfl
  exact hj (below_refl j)

/-- A change inside a child followed by a write of the node itself stays
inside the subtree of the node. -/
theorem agreeOutside_parent {f g : Nat → Nat} {i c v : Nat} (hc : parent c = i)
    (h : AgreeOutside c g f) : AgreeOutside i (Function.update g i v) f := by
  intro j hj
  rw [agreeOutside_update g i v j hj]
  exact h j fun hbelow => hj (below_of_child hc hbelow)

/-- What a descent from the node `i` of height `k` followed by the climb back
to `i` has achieved. -/
structure AllocAt (f : Nat → Nat) (s i k : Nat) (t' : Buddy k) (o : Nat)
    (g : Nat → Nat) : Prop where
  climb : let found := descend f (s + 1) (k + 1) i
    allocClimb found.2 (Function.update f found.2 0) found.2 = allocClimb i g i
  repr : Repr g i t'
  frame : AgreeOutside i g f
  level : (descend f (s + 1) (k + 1) i).1 = s + 1
  offset : ((descend f (s + 1) (k + 1) i).2 + 1) * 2 ^ s = (i + 1) * 2 ^ k + o

theorem choosesLeft_iff {f : Nat → Nat} {s i k : Nat} {left right : Buddy k}
    (hleft : Repr f (i * 2 + 1) left) (hright : Repr f (i * 2 + 2) right) :
    choosesLeft f (s + 1) i ↔ goesLeft s left.largest right.largest := by
  rw [choosesLeft, goesLeft, repr_entry hleft, repr_entry hright]

theorem allocAt {f : Nat → Nat} {s k i : Nat} (t : Buddy k) (ht : s + 1 ≤ t.largest)
    (hf : Repr f i t) :
    ∃ g, AllocAt f s i k (Buddy.alloc s k t).1 (Buddy.alloc s k t).2 g := by
  refine alloc_induction (motive := fun k t t' o => ∀ i, Repr f i t → ∃ g, AllocAt f s i k t' o g)
    ?_ ?_ ?_ t ht i hf
  · intro i hf
    have hfull := (full_iff f s i).mp (repr_free.mp hf)
    have hfound : descend f (s + 1) (s + 1) i = (s + 1, i) := by simp [descend]
    refine ⟨Function.update f i 0, ?_, ?_, agreeOutside_update f i 0, ?_, ?_⟩
    · rw [hfound]
    · exact repr_used.mpr
        ⟨by simp, fullBelow_congr (fun j hj => Function.update_of_ne hj _ _) hfull.2⟩
    · rw [hfound]
    · rw [hfound]
      simp
  · intro k t child o hused hs _ hgo ih i hf
    obtain ⟨hleft, hright⟩ := repr_split hused hf
    obtain ⟨g, hclimb, hrepr, hframe, hlevel, hoffset⟩ := ih _ hleft
    have hfound : descend f (s + 1) (k + 1 + 1) i = descend f (s + 1) (k + 1) (i * 2 + 1) := by
      rw [descend, if_pos (by omega), if_pos ((choosesLeft_iff hleft hright).mpr hgo)]
    have hright' := repr_right_of_agree hframe hright
    refine ⟨Function.update g i (max (g (i * 2 + 1)) (g (i * 2 + 2))), ?_,
      repr_node hrepr hright', agreeOutside_parent (parent_left i) hframe, ?_, ?_⟩
    · simp only [hfound]
      rw [hclimb, allocClimb_step g (by omega)]
      simp only [show (i * 2 + 1 - 1) / 2 = i by omega]
    · rw [hfound, hlevel]
    · rw [hfound, hoffset, pow_succ]
      ring
  · intro k t child o hused hs _ hgo ih i hf
    obtain ⟨hleft, hright⟩ := repr_split hused hf
    obtain ⟨g, hclimb, hrepr, hframe, hlevel, hoffset⟩ := ih _ hright
    have hfound : descend f (s + 1) (k + 1 + 1) i = descend f (s + 1) (k + 1) (i * 2 + 2) := by
      rw [descend, if_pos (by omega), if_neg (fun h => hgo ((choosesLeft_iff hleft hright).mp h))]
    have hleft' := repr_left_of_agree hframe hleft
    refine ⟨Function.update g i (max (g (i * 2 + 1)) (g (i * 2 + 2))), ?_,
      repr_node hleft' hrepr, agreeOutside_parent (parent_right i) hframe, ?_, ?_⟩
    · simp only [hfound]
      rw [hclimb, allocClimb_step g (by omega)]
      simp only [show (i * 2 + 2 - 1) / 2 = i by omega]
    · rw [hfound, hlevel]
    · rw [hfound, hoffset, pow_succ]
      ring

/-- The size in units as an exponent: `0` units count as one. -/
def IsUnits (s e : Nat) : Prop := max s 1 = 2 ^ e ∧ e < 64

theorem log2_units {s e : Nat} (h : IsUnits s e) :
    log2 (if s = 0 then 1 else s) = e := by
  have hs : (if s = 0 then 1 else s) = 2 ^ e := by
    rw [← h.1]
    split <;> omega
  rw [hs, log2_pow e h.2]

/-- `alloc` passes its assertion exactly when the tree has room, and then does
what the tree does. -/
theorem alloc_refines {f : Nat → Nat} {n s e : Nat} {t : Buddy n} (hn : n < 64)
    (hs : IsUnits s e) (hf : Repr f 0 t) :
    if e + 1 ≤ t.largest then
      ∃ g, alloc (2 ^ n) f s = some ((Buddy.alloc e n t).2, g) ∧ Repr g 0 (Buddy.alloc e n t).1
    else alloc (2 ^ n) f s = none := by
  have hroot := repr_entry hf
  split
  · next hroom =>
      obtain ⟨g, hclimb, hrepr, -, hlevel, hoffset⟩ := allocAt t hroom hf
      refine ⟨g, ?_, hrepr⟩
      simp only [alloc, log2_units hs, hroot, ge_iff_le, hroom, if_true, caplog, log2_pow n hn]
      rw [hclimb, hlevel, Nat.add_sub_cancel, hoffset]
      simp [allocClimb]
  · next hfull =>
      simp [alloc, log2_units hs, hroot, hfull]

/-- The array index of unit `o` of the subtree of height `k` at node `i`. -/
def leafIndex (i k o : Nat) : Nat := (i + 1) * 2 ^ k + o - 1

theorem leafIndex_left (i k o : Nat) : leafIndex i (k + 1) o = leafIndex (i * 2 + 1) k o := by
  simp only [leafIndex, pow_succ]
  congr 2
  ring

theorem leafIndex_right (i k o : Nat) (h : 2 ^ k ≤ o) :
    leafIndex i (k + 1) o = leafIndex (i * 2 + 2) k (o - 2 ^ k) := by
  have hsum : (i * 2 + 2 + 1) * 2 ^ k = (i + 1) * 2 ^ (k + 1) + 2 ^ k := by
    rw [pow_succ]
    ring
  simp only [leafIndex, hsum]
  omega

/-- The search of `free` passes a node with a nonzero entry. -/
def Passes (f : Nat → Nat) (i k o : Nat) : Prop :=
  findUsed (leafIndex i k o + 1) f (leafIndex i k o) 1 = findUsed (i + 1) f i (k + 1)

theorem passes_parent {f : Nat → Nat} {i c k : Nat} {leaf : Nat} (hc : c ≠ 0)
    (hparent : parent c = i) (hentry : f c ≠ 0)
    (h : findUsed (leaf + 1) f leaf 1 = findUsed (c + 1) f c (k + 1)) :
    findUsed (leaf + 1) f leaf 1 = findUsed (i + 1) f i (k + 1 + 1) := by
  rw [h, findUsed_step _ hc hentry]
  simp only [← hparent, parent]

theorem passes_full {f : Nat → Nat} {i k o : Nat} (ho : o < 2 ^ k) (h : Full f k i) :
    Passes f i k o := by
  induction k generalizing i o with
  | zero =>
      have hzero : o = 0 := by simpa using ho
      simp [Passes, leafIndex, hzero]
  | succ k ih =>
      rw [pow_succ] at ho
      rcases Nat.lt_or_ge o (2 ^ k) with hlt | hge
      · have hentry := ((full_iff _ _ _).mp h.2.1).1
        have hpass := ih hlt h.2.1
        rw [Passes, leafIndex_left]
        exact passes_parent (by omega) (parent_left i) (by omega) hpass
      · have hentry := ((full_iff _ _ _).mp h.2.2).1
        have hpass := ih (o := o - 2 ^ k) (by omega) h.2.2
        rw [Passes, leafIndex_right i k o hge]
        exact passes_parent (by omega) (parent_right i) (by omega) hpass

theorem findUsed_used {f : Nat → Nat} {i k o : Nat} (ho : o < 2 ^ k) (hentry : f i = 0)
    (h : FullBelow f k i) :
    findUsed (leafIndex i k o + 1) f (leafIndex i k o) 1 = some (i, k + 1) := by
  have hpass : Passes f i k o := by
    cases k with
    | zero =>
        have hzero : o = 0 := by simpa using ho
        simp [Passes, leafIndex, hzero]
    | succ k =>
        rw [pow_succ] at ho
        rcases Nat.lt_or_ge o (2 ^ k) with hlt | hge
        · have hchild := ((full_iff _ _ _).mp h.1).1
          have hpass := passes_full hlt h.1
          rw [Passes, leafIndex_left]
          exact passes_parent (by omega) (parent_left i) (by omega) hpass
        · have hchild := ((full_iff _ _ _).mp h.2).1
          have hpass := passes_full (o := o - 2 ^ k) (by omega) h.2
          rw [Passes, leafIndex_right i k o hge]
          exact passes_parent (by omega) (parent_right i) (by omega) hpass
  rw [hpass]
  simp [findUsed, hentry]

/-- What the search from unit `o` and the climb back to the node `i` of height
`k` have achieved when the unit is in use. -/
structure FreeAt (f : Nat → Nat) (i k o : Nat) (t' : Buddy k) (g : Nat → Nat) : Prop where
  climb : ∃ index nodesize,
    findUsed (leafIndex i k o + 1) f (leafIndex i k o) 1 = some (index, nodesize) ∧
      freeClimb index (Function.update f index nodesize) index nodesize =
        freeClimb i g i (k + 1)
  repr : Repr g i t'
  frame : AgreeOutside i g f

theorem FreeAt.parent {f g : Nat → Nat} {i c k o o' : Nat} {child : Buddy k}
    {left right : Buddy k} (hc : c ≠ 0) (hparent : parent c = i)
    (hleaf : leafIndex i (k + 1) o = leafIndex c k o') (h : FreeAt f c k o' child g)
    (hleft : Repr g (i * 2 + 1) left) (hright : Repr g (i * 2 + 2) right) :
    ∃ g', FreeAt f i (k + 1) o (left.join right) g' := by
  obtain ⟨⟨index, nodesize, hfound, hclimb⟩, -, hframe⟩ := h
  have hhalf : (c - 1) / 2 = i := hparent
  refine ⟨_, ⟨index, nodesize, hleaf ▸ hfound, ?_⟩, repr_join hleft hright,
    agreeOutside_parent hparent hframe⟩
  rw [hclimb, freeClimb_step g _ hc]
  simp only [hhalf]

/-- The search and the climb of `free` on the subtree of a node: the release of
the tree, or no stop inside the subtree. -/
theorem freeAt {f : Nat → Nat} {i k o : Nat} (t : Buddy k) (ho : o < 2 ^ k) (hf : Repr f i t) :
    (∀ t', t.release o = some t' → ∃ g, FreeAt f i k o t' g) ∧
      (t.release o = none → f i ≠ 0 ∧ Passes f i k o) := by
  induction t generalizing i o with
  | free =>
      have hfull := repr_free.mp hf
      refine ⟨by simp [Buddy.release], fun _ => ⟨?_, passes_full ho hfull⟩⟩
      have := ((full_iff _ _ _).mp hfull).1
      omega
  | used =>
      rename_i k
      obtain ⟨hentry, hbelow⟩ := repr_used.mp hf
      refine ⟨?_, by simp [Buddy.release]⟩
      intro t' ht'
      simp only [Buddy.release, Option.some.injEq] at ht'
      subst ht'
      refine ⟨Function.update f i (k + 1), ⟨i, k + 1, findUsed_used ho hentry hbelow, rfl⟩, ?_,
        agreeOutside_update f i _⟩
      rw [repr_free, full_iff]
      exact ⟨by simp, fullBelow_congr (fun j hj => Function.update_of_ne hj _ _) hbelow⟩
  | node left right ihLeft ihRight =>
      rename_i k
      obtain ⟨hentry, hleft, hright⟩ := hf
      rw [pow_succ] at ho
      simp only [Buddy.release]
      split
      · next hlt =>
          obtain ⟨hsome, hnone⟩ := ihLeft hlt hleft
          constructor
          · intro t' ht'
            obtain ⟨left', hrelease, rfl⟩ := Option.map_eq_some_iff.mp ht'
            obtain ⟨g, hg⟩ := hsome left' hrelease
            exact hg.parent (by omega) (parent_left i) (leafIndex_left i k o) hg.repr
              (repr_right_of_agree hg.frame hright)
          · intro hrelease
            obtain ⟨hne, hpass⟩ := hnone (Option.map_eq_none_iff.mp hrelease)
            refine ⟨?_, ?_⟩
            · rw [repr_entry hleft] at hne
              omega
            · rw [Passes, leafIndex_left]
              exact passes_parent (by omega) (parent_left i) hne hpass
      · next hge =>
          obtain ⟨hsome, hnone⟩ := ihRight (o := o - 2 ^ k) (by omega) hright
          constructor
          · intro t' ht'
            obtain ⟨right', hrelease, rfl⟩ := Option.map_eq_some_iff.mp ht'
            obtain ⟨g, hg⟩ := hsome right' hrelease
            exact hg.parent (by omega) (parent_right i) (leafIndex_right i k o (by omega))
              (repr_left_of_agree hg.frame hleft) hg.repr
          · intro hrelease
            obtain ⟨hne, hpass⟩ := hnone (Option.map_eq_none_iff.mp hrelease)
            refine ⟨?_, ?_⟩
            · rw [repr_entry hright] at hne
              omega
            · rw [Passes, leafIndex_right i k o (by omega)]
              exact passes_parent (by omega) (parent_right i) hne hpass

/-- `free` on any offset inside the pool is the release of the tree, with the
failed assertion for a unit in no block. -/
theorem free_refines {f : Nat → Nat} {n o : Nat} {t : Buddy n} (ho : o < 2 ^ n)
    (hf : Repr f 0 t) :
    match t.release o with
    | some t' => ∃ g, free (2 ^ n) f o = some g ∧ Repr g 0 t'
    | none => free (2 ^ n) f o = none := by
  have hleaf : o + 2 ^ n - 1 = leafIndex 0 n o := by
    simp only [leafIndex]
    omega
  obtain ⟨hsome, hnone⟩ := freeAt t ho hf
  split
  · next t' hrelease =>
      obtain ⟨g, ⟨index, nodesize, hfound, hclimb⟩, hrepr, -⟩ := hsome t' hrelease
      refine ⟨g, ?_, hrepr⟩
      simp only [free, ho, if_true, hleaf, hfound, Option.map_some, hclimb]
      simp [freeClimb]
  · next hrelease =>
      obtain ⟨hne, hpass⟩ := hnone hrelease
      simp only [free, ho, if_true, hleaf, Option.map_eq_none_iff]
      rw [hpass]
      simp [findUsed, hne]

/-- The value of node `j` in a completely free pool of `2 ^ n` units. -/
def freshEntry (n j : Nat) : Nat := n + 1 - Nat.log 2 (j + 1)

theorem log_succ_child {i c : Nat} (hc : parent c = i) (hpos : c ≠ 0) :
    Nat.log 2 (c + 1) = Nat.log 2 (i + 1) + 1 := by
  have hhalf : (c + 1) / 2 = i + 1 := by
    simp only [parent] at hc
    omega
  rw [Nat.log_of_one_lt_of_le (by norm_num) (by omega), hhalf]

theorem initLeaves_entry (capacity : Nat) (f : Nat → Nat) (m j : Nat) (hlow : capacity - 2 < j)
    (hhigh : j ≤ m) : initLeaves capacity f m j = 1 := by
  induction m generalizing f with
  | zero => omega
  | succ m ih =>
      rw [initLeaves, if_pos (by omega)]
      rcases Nat.lt_or_ge m j with hlast | hearlier
      · have hj : j = m + 1 := by omega
        subst hj
        have hkeep : ∀ (f : Nat → Nat) (i : Nat), i ≤ m →
            initLeaves capacity f i (m + 1) = f (m + 1) := by
          intro f i
          induction i generalizing f with
          | zero => intro _; rfl
          | succ i ihi =>
              intro hi
              rw [initLeaves]
              split
              · rw [ihi _ (by omega), Function.update_of_ne (by omega)]
              · rfl
        rw [hkeep _ m le_rfl, Function.update_self]
      · exact ih _ hearlier

theorem initParents_entry (n : Nat) (f : Nat → Nat) (m : Nat) (hm : m ≤ 2 * 2 ^ n - 2)
    (h : ∀ j ≤ 2 * 2 ^ n - 2, 2 ^ n - 1 ≤ j ∨ m < j * 2 + 2 → f j = freshEntry n j) :
    ∀ j ≤ 2 * 2 ^ n - 2, initParents f m j = freshEntry n j := by
  induction m generalizing f with
  | zero =>
      intro j hj
      exact h j hj (Or.inr (by omega))
  | succ m ih =>
      rw [initParents]
      refine ih _ (by omega) ?_
      intro j hj hfinal
      rcases eq_or_ne j ((m + 1 - 1) / 2) with heq | hne
      · have hlog := log_succ_child (i := j) (c := m + 1) (by simp [parent, heq]) (by omega)
        have hbound : Nat.log 2 (m + 1 + 1) < n + 1 :=
          Nat.log_lt_of_lt_pow (by omega) (by rw [pow_succ]; omega)
        rw [heq, Function.update_self, h (m + 1) hm (Or.inr (by omega)), ← heq]
        simp only [freshEntry, hlog]
        omega
      · rw [Function.update_of_ne hne]
        refine h j hj ?_
        rcases hfinal with hleaf | hvisited
        · exact Or.inl hleaf
        · exact Or.inr (by omega)

theorem full_of_freshEntry {n : Nat} {f : Nat → Nat}
    (h : ∀ j ≤ 2 * 2 ^ n - 2, f j = freshEntry n j) (k i : Nat)
    (hlog : Nat.log 2 (i + 1) + k = n) : Full f k i := by
  induction k generalizing i with
  | zero =>
      have hlt : i + 1 < 2 ^ (n + 1) := by
        rw [← hlog]
        exact Nat.lt_pow_succ_log_self (by norm_num) _
      rw [pow_succ] at hlt
      have hentry := h i (by omega)
      simp only [freshEntry] at hentry
      simp only [Full]
      omega
  | succ k ih =>
      have hlt : i + 1 < 2 ^ (n - k) := by
        rw [show n - k = Nat.log 2 (i + 1) + 1 by omega]
        exact Nat.lt_pow_succ_log_self (by norm_num) _
      have hle : 2 ^ (n - k) ≤ 2 ^ n := Nat.pow_le_pow_right (by norm_num) (by omega)
      have hentry := h i (by omega)
      simp only [freshEntry] at hentry
      refine ⟨by omega, ih _ ?_, ih _ ?_⟩
      · rw [log_succ_child (parent_left i) (by omega)]
        omega
      · rw [log_succ_child (parent_right i) (by omega)]
        omega

theorem init_entry (n : Nat) (hn : 1 ≤ n) (f : Nat → Nat) :
    ∀ j ≤ 2 * 2 ^ n - 2, init (2 ^ n) f j = freshEntry n j := by
  have hcap : 2 ^ 1 ≤ 2 ^ n := Nat.pow_le_pow_right (by norm_num) hn
  refine initParents_entry n _ _ le_rfl ?_
  intro j hj hfinal
  have hleaf : 2 ^ n - 1 ≤ j := by omega
  rw [initLeaves_entry _ _ _ _ (by omega) hj]
  have hlog : Nat.log 2 (j + 1) = n :=
    Nat.log_eq_of_pow_le_of_lt_pow (by omega) (by rw [pow_succ]; omega)
  simp [freshEntry, hlog]

/-- `init` produces the completely free pool, whatever the array held. -/
theorem init_refines (n : Nat) (hn : 1 ≤ n) (f : Nat → Nat) :
    Repr (init (2 ^ n) f) 0 (Buddy.free : Buddy n) := by
  rw [repr_free]
  exact full_of_freshEntry (init_entry n hn f) n 0 (by simp)

end LabKernel.BuddyRefinement
