import Mathlib.Data.Fintype.Card
import Mathlib.Logic.Relation
import Mathlib.Tactic

/-! Depth-first search over nodes that each have a list of children. The search may give up: at a
node that is not sound it goes no further once the node's children have been looked at. -/

namespace DepthFirst

open Relation

variable {α : Type*}

def Child (table : α → List α) (a c : α) : Prop := c ∈ table a

/-- No path from `a` runs into a cycle. -/
def AcyclicFrom (table : α → List α) (a : α) : Prop :=
  ∀ b, ReflTransGen (Child table) a b → ¬ TransGen (Child table) b b

/-- All nodes from `a` on are sound. -/
inductive Intact (table : α → List α) (sound : α → Prop) : α → Prop
  | node {a : α} (hs : sound a) (ht : ∀ c ∈ table a, Intact table sound c) : Intact table sound a

mutual

/-- A search from `a` comes to `x`: everything that it leaves behind is intact. -/
inductive Reaches (table : α → List α) (sound : α → Prop) : α → α → Prop
  | self (a : α) : Reaches table sound a a
  | inside {a x : α} (h : Among table sound (table a) x) : Reaches table sound a x

inductive Among (table : α → List α) (sound : α → Prop) : List α → α → Prop
  | head {c x : α} {l : List α} (h : Reaches table sound c x) : Among table sound (c :: l) x
  | tail {c x : α} {l : List α} (hc : Intact table sound c) (h : Among table sound l x) :
    Among table sound (c :: l) x

end

variable {table : α → List α} {sound : α → Prop}

theorem AcyclicFrom.child {a c : α} (h : AcyclicFrom table a) (hc : c ∈ table a) :
    AcyclicFrom table c :=
  fun b hb => h b (ReflTransGen.head hc hb)

/-- A rank that falls from parent to child rules cycles out. -/
theorem acyclicFrom_of_rank (rank : α → Nat) (h : ∀ a, ∀ c ∈ table a, rank c < rank a) (a : α) :
    AcyclicFrom table a := by
  intro b _ hb
  have hlt : ∀ x, TransGen (Child table) b x → rank x < rank b := by
    intro x hx
    induction hx with
    | single hc => exact h _ _ hc
    | tail _ hc ih => exact (h _ _ hc).trans ih
  exact Nat.lt_irrefl _ (hlt b hb)

/-- Over finitely many nodes the children come before their parents. -/
theorem AcyclicFrom.induct [Finite α] {P : α → Prop} {a : α} (h : AcyclicFrom table a)
    (step : ∀ b, AcyclicFrom table b → (∀ c ∈ table b, P c) → P b) : P a := by
  let below : α → α → Prop := fun x y => AcyclicFrom table y ∧ TransGen (Child table) y x
  have : IsTrans α below := ⟨fun _ _ _ hxy hyz => ⟨hyz.1, hyz.2.trans hxy.2⟩⟩
  have : Std.Irrefl below := ⟨fun x hx => hx.1 x ReflTransGen.refl hx.2⟩
  have hwf : WellFounded below := Finite.wellFounded_of_trans_of_irrefl below
  induction a using hwf.induction with
  | _ a ih =>
    apply step a h
    intro c hc
    exact ih c ⟨h, TransGen.single hc⟩ (h.child hc)

theorem Intact.isSound {a : α} (h : Intact table sound a) : sound a := by
  cases h with
  | node hs ht => exact hs

theorem Intact.child {a c : α} (h : Intact table sound a) (hc : c ∈ table a) :
    Intact table sound c := by
  cases h with
  | node hs ht => exact ht c hc

theorem not_among_nil {x : α} : ¬ Among table sound [] x := nofun

theorem among_cons {c x : α} {l : List α} : Among table sound (c :: l) x ↔
    Reaches table sound c x ∨ Intact table sound c ∧ Among table sound l x := by
  constructor
  · intro h
    cases h with
    | head h => exact Or.inl h
    | tail hc h => exact Or.inr ⟨hc, h⟩
  · rintro (h | ⟨hc, h⟩)
    · exact .head h
    · exact .tail hc h

theorem reaches_iff {a x : α} :
    Reaches table sound a x ↔ x = a ∨ Among table sound (table a) x := by
  constructor
  · intro h
    cases h with
    | self => exact Or.inl rfl
    | inside h => exact Or.inr h
  · rintro (rfl | h)
    · exact .self x
    · exact .inside h

/-- Nothing that a search from `a` comes to has the property. -/
def Free (table : α → List α) (sound bad : α → Prop) (a : α) : Prop :=
  ∀ x, Reaches table sound a x → ¬ bad x

theorem Free.of_children {bad : α → Prop} {a : α} (ha : ¬ bad a)
    (ht : ∀ x, Among table sound (table a) x → ¬ bad x) : Free table sound bad a := by
  intro x hx
  rcases reaches_iff.mp hx with rfl | hx
  · exact ha
  · exact ht x hx

theorem not_bad_of_free {bad : α → Prop} {l : List α} (h : ∀ c ∈ l, Free table sound bad c) {x : α}
    (hx : Among table sound l x) : ¬ bad x := by
  induction l with
  | nil => exact absurd hx not_among_nil
  | cons c l ih =>
    rcases among_cons.mp hx with hx | ⟨-, hx⟩
    · exact h c List.mem_cons_self x hx
    · exact ih (fun c hc => h c (List.mem_cons_of_mem _ hc)) hx

end DepthFirst
