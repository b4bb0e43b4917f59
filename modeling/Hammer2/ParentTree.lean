import Mathlib.Logic.Function.Basic
import Mathlib.Logic.Relation

/-! Trees given by the parent of each node, and what moving a subtree does to them. -/

namespace ParentTree

variable {α : Type*} {p : α → α} {r x y z t : α}

/-- One step from a node to its parent; the root has none. -/
def Up (p : α → α) (r : α) (x y : α) : Prop := x ≠ r ∧ y = p x

/-- The way up from `x` leads to `y`. -/
def Reaches (p : α → α) (r : α) : α → α → Prop := Relation.ReflTransGen (Up p r)

theorem Reaches.refl (x : α) : Reaches p r x x := Relation.ReflTransGen.refl

theorem Reaches.step (hx : x ≠ r) (h : Reaches p r (p x) y) : Reaches p r x y :=
  Relation.ReflTransGen.head ⟨hx, rfl⟩ h

theorem Reaches.trans (h : Reaches p r x y) (h' : Reaches p r y z) : Reaches p r x z :=
  Relation.ReflTransGen.trans h h'

/-- A way up is empty or starts with the parent. -/
theorem Reaches.cases (h : Reaches p r x y) : x = y ∨ x ≠ r ∧ Reaches p r (p x) y := by
  rcases Relation.ReflTransGen.cases_head h with rfl | ⟨_, ⟨hx, rfl⟩, hrest⟩
  · exact Or.inl rfl
  · exact Or.inr ⟨hx, hrest⟩

theorem Reaches.from_root (h : Reaches p r r y) : y = r := by
  rcases h.cases with heq | ⟨hne, -⟩
  · exact heq.symm
  · exact absurd rfl hne

theorem Reaches.parent (h : Reaches p r x y) (hy : y ≠ r) : Reaches p r x (p y) :=
  Relation.ReflTransGen.tail h ⟨hy, rfl⟩

section Update

variable [DecidableEq α]

/-- A way up that does not meet the moved node stays as it is. -/
theorem Reaches.update (h : Reaches p r y z) (hx : ¬ Reaches p r y x) :
    Reaches (Function.update p x t) r y z := by
  induction h using Relation.ReflTransGen.head_induction_on with
  | refl => exact .refl _
  | head hstep _ ih =>
    obtain ⟨hne, rfl⟩ := hstep
    have hyx := fun heq : _ = x => hx (heq ▸ .refl _)
    apply Reaches.step hne
    rw [Function.update_of_ne hyx]
    exact ih fun hup => hx (.step hne hup)

/-- Moving a node to a place outside its subtree leaves every way to the root. -/
theorem Reaches.move (ht : Reaches p r t r) (hx : ¬ Reaches p r t x) (h : Reaches p r y r) :
    Reaches (Function.update p x t) r y r := by
  induction h using Relation.ReflTransGen.head_induction_on with
  | refl => exact .refl _
  | @head a _ hstep _ ih =>
    obtain ⟨hne, rfl⟩ := hstep
    apply Reaches.step hne
    by_cases hax : a = x
    · rw [hax, Function.update_self]
      exact ht.update hx
    · rw [Function.update_of_ne hax]
      exact ih

/-- Moving a node below itself takes it, and all that is between, off the way to the root. -/
theorem not_reaches_move (hr : x ≠ r) (hx : Reaches p r t x) :
    ¬ Reaches (Function.update p x t) r x r := by
  have hloop : ∀ z, Reaches (Function.update p x t) r x z → Reaches p r t z ∧ Reaches p r z x := by
    intro z h
    induction h with
    | refl => exact ⟨hx, .refl _⟩
    | @tail b c _ hstep ih =>
      obtain ⟨htb, hbx⟩ := ih
      obtain ⟨hne, rfl⟩ := hstep
      by_cases hbx' : b = x
      · rw [hbx', Function.update_self]
        exact ⟨.refl _, hx⟩
      · rw [Function.update_of_ne hbx']
        have hup := hbx.cases.resolve_left hbx'
        exact ⟨htb.parent hne, hup.2⟩
  intro h
  exact hr (hloop r h).2.from_root

end Update

end ParentTree
