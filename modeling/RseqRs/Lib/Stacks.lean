import RseqRs.Lib.Chain

/-!
# Families of stacks

Several chains over the same nodes, and a place for each node: on one of the stacks, or
elsewhere. The node at a head may be taken off, and a node that is elsewhere and is linked to
a head may be put on. The other stacks do not notice: there is one place for each node, so the
chains are disjoint.
-/

variable {α ι P : Type}

/-! ### One node moves -/

section Moved

variable [DecidableEq α] {place : α → Option P} {x y z : P} {p r : α}

/-- A place that it neither leaves nor comes to. -/
theorem moved_apart (hp : place p = some x) (hx : z ≠ x) (hy : z ≠ y) :
    Function.update place p (some y) r = some z ↔ place r = some z := by
  by_cases hr : r = p
  · subst hr
    rw [Function.update_self, hp]
    exact iff_of_false (fun h => hy (Option.some_inj.mp h).symm)
      fun h => hx (Option.some_inj.mp h).symm
  · rw [Function.update_of_ne hr]

/-- The place that it leaves. -/
theorem moved_from (hxy : x ≠ y) :
    Function.update place p (some y) r = some x ↔ r ≠ p ∧ place r = some x := by
  by_cases hr : r = p
  · subst hr
    rw [Function.update_self]
    exact iff_of_false (fun h => hxy (Option.some_inj.mp h).symm) fun h => h.1 rfl
  · rw [Function.update_of_ne hr]
    exact (and_iff_right hr).symm

/-- The place that it comes to. -/
theorem moved_to : Function.update place p (some y) r = some y ↔ r = p ∨ place r = some y := by
  by_cases hr : r = p
  · subst hr
    rw [Function.update_self]
    exact iff_of_true rfl (Or.inl rfl)
  · rw [Function.update_of_ne hr]
    exact (or_iff_right hr).symm

end Moved

/-- The chain from each head is its list, which visits what is placed on that stack. -/
structure Stacks (next : α → α) (nil : α) (I : ι → Prop) (on : ι → P) (head : ι → α)
    (lists : ι → List α) (place : α → Option P) : Prop where
  linked : ∀ i, I i → Linked next nil (head i) (lists i)
  mem : ∀ p i, I i → (p ∈ lists i ↔ place p = some (on i))

namespace Stacks

variable {next next' : α → α} {nil p q : α} {I : ι → Prop} {on : ι → P} {head head' : ι → α}
  {lists : ι → List α} {place place' : α → Option P} {i : ι} {x : P}

/-- What a head points to, unless it is the end, is on its stack. -/
theorem place_head (h : Stacks next nil I on head lists place) (hi : I i) (hne : head i ≠ nil) :
    place (head i) = some (on i) := by
  obtain ⟨qs, hqs, _⟩ := (h.linked i hi).of_ne hne
  refine (h.mem _ i hi).mp ?_
  rw [hqs]
  exact List.mem_cons_self ..

/-- The stacks stay if no head changes, and no link of what is on them. -/
theorem congr (h : Stacks next nil I on head lists place) (hhead : ∀ i, I i → head' i = head i)
    (hnext : ∀ p i, I i → place p = some (on i) → next' p = next p) :
    Stacks next' nil I on head' lists place where
  linked i hi := by
    rw [hhead i hi]
    exact (h.linked i hi).congr fun p hp => hnext p i hi ((h.mem p i hi).mp hp)
  mem := h.mem

variable [DecidableEq ι]

/-- **One head changes**, and with it which nodes are on that stack. -/
theorem setHead (h : Stacks next nil I on head lists place) {ps : List α}
    (hlinked : Linked next nil q ps) (hmem : ∀ p, p ∈ ps ↔ place' p = some (on i))
    (hother : ∀ p j, j ≠ i → (place' p = some (on j) ↔ place p = some (on j))) :
    Stacks next nil I on (Function.update head i q) (Function.update lists i ps) place' := by
  refine ⟨fun j hj => ?_, fun p j hj => ?_⟩
  · by_cases he : j = i
    · subst he
      rw [Function.update_self, Function.update_self]
      exact hlinked
    · rw [Function.update_of_ne he, Function.update_of_ne he]
      exact h.linked j hj
  · by_cases he : j = i
    · subst he
      rw [Function.update_self]
      exact hmem p
    · rw [Function.update_of_ne he]
      exact (h.mem p j hj).trans (hother p j he).symm

variable [DecidableEq α]

/-- **Pop**: the node at a head goes elsewhere, and the head becomes its link. -/
theorem pop (h : Stacks next nil I on head lists place) (hon : Function.Injective on)
    (hx : ∀ j, x ≠ on j) (hi : I i) (hp : head i = p) (hne : p ≠ nil) :
    ∃ lists', Stacks next nil I on (Function.update head i (next p)) lists'
      (Function.update place p (some x)) := by
  have hlinked := h.linked i hi
  rw [hp] at hlinked
  obtain ⟨qs, hqs, htail⟩ := hlinked.of_ne hne
  have hplace : place p = some (on i) := hp ▸ h.place_head hi (hp ▸ hne)
  refine ⟨_, h.setHead htail (fun r => ?_) fun r j hj => ?_⟩
  · rw [moved_from (hx i).symm, ← h.mem r i hi, hqs, List.mem_cons]
    constructor
    · -- the rest of the list does not visit the node again
      intro hr
      have hne' : r ≠ p := fun he => Linked.not_mem hne htail (he ▸ hr)
      exact ⟨hne', Or.inr hr⟩
    · intro hr
      exact hr.2.resolve_left hr.1
  · exact moved_apart hplace (fun he => hj (hon he)) (hx j).symm

/-- **Push**: a node from elsewhere, linked to a head, becomes the head. -/
theorem push (h : Stacks next nil I on head lists place) (hon : Function.Injective on)
    (hx : ∀ j, x ≠ on j) (hi : I i) (hp : place p = some x) (hne : p ≠ nil)
    (hnext : next p = head i) :
    ∃ lists', Stacks next nil I on (Function.update head i p) lists'
      (Function.update place p (some (on i))) := by
  have hlinked : Linked next nil p (p :: lists i) := .cons hne (hnext ▸ h.linked i hi)
  refine ⟨_, h.setHead hlinked (fun r => ?_) fun r j hj => ?_⟩
  · rw [moved_to, List.mem_cons, h.mem r i hi]
  · exact moved_apart hp (hx j).symm fun he => hj (hon he)

end Stacks
