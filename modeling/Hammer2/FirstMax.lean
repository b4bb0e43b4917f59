import Mathlib.Tactic

/-! Selecting the first of the largest elements of a list in one pass. -/

namespace FirstMax

variable {α : Type} {key rank : α → Nat} {l : List α} {b c : α}

/-- Keeps the best so far unless the next one is strictly larger. -/
def pick (key : α → Nat) (best : Option α) (a : α) : Option α :=
  match best with
  | none => some a
  | some b => if key b < key a then some a else some b

theorem foldl_pick_stay (h : ∀ d ∈ l, key d ≤ key c) : l.foldl (pick key) (some c) = some c := by
  induction l with
  | nil => rfl
  | cons a l ih =>
    have ha := h a List.mem_cons_self
    have hstep : pick key (some c) a = some c := if_neg (by omega)
    rw [List.foldl_cons, hstep]
    exact ih fun d hd => h d (List.mem_cons_of_mem _ hd)

theorem foldl_pick_some_ne_none : l.foldl (pick key) (some c) ≠ none := by
  induction l generalizing c with
  | nil => simp
  | cons a l ih =>
    rw [List.foldl_cons]
    unfold pick
    dsimp only
    split
    · exact ih
    · exact ih

theorem foldl_pick_eq_none : l.foldl (pick key) none = none ↔ l = [] := by
  cases l with
  | nil => simp
  | cons a l => exact ⟨fun h => absurd h foldl_pick_some_ne_none, fun h => by cases h⟩

/-- The result is an element, larger than all before it and at least as large as all after it. -/
theorem foldl_pick_split (h : l.foldl (pick key) none = some c) :
    ∃ l1 l2, l = l1 ++ c :: l2 ∧ (∀ d ∈ l1, key d < key c) ∧ ∀ d ∈ l2, key d ≤ key c := by
  induction l using List.reverseRecOn generalizing c with
  | nil => cases h
  | append_singleton l a ih =>
    rw [List.foldl_append, List.foldl_cons, List.foldl_nil] at h
    cases hb : l.foldl (pick key) none with
    | none =>
      rw [hb] at h
      cases h
      have hl := foldl_pick_eq_none.mp hb
      subst l
      exact ⟨[], [], rfl, by simp, by simp⟩
    | some b =>
      rw [hb] at h
      obtain ⟨l1, l2, rfl, h1, h2⟩ := ih hb
      unfold pick at h
      dsimp only at h
      split at h
      next hlt =>
        cases h
        refine ⟨l1 ++ b :: l2, [], by simp, ?_, by simp⟩
        intro d hd
        rcases List.mem_append.mp hd with hd | hd
        · exact Nat.lt_trans (h1 d hd) hlt
        · rcases List.mem_cons.mp hd with rfl | hd
          · exact hlt
          · exact Nat.lt_of_le_of_lt (h2 d hd) hlt
      next hle =>
        cases h
        refine ⟨l1, l2 ++ [a], by simp, h1, ?_⟩
        intro d hd
        rcases List.mem_append.mp hd with hd | hd
        · exact h2 d hd
        · rw [List.mem_singleton.mp hd]
          omega

/-- Everything before an element is smaller, so the pass takes the element when it comes to it. -/
theorem foldl_pick_lt (h : ∀ d ∈ l, key d < key c) :
    pick key (l.foldl (pick key) none) c = some c := by
  cases hl : l.foldl (pick key) none with
  | none => rfl
  | some b =>
    obtain ⟨l1, l2, rfl, -, -⟩ := foldl_pick_split hl
    exact if_pos (h b (by simp))

/-- In a list that increases in `rank` the pass selects the element with the largest key, and among
those the one with the smallest rank. -/
theorem foldl_pick_iff (hl : l.Pairwise (rank · < rank ·)) :
    l.foldl (pick key) none = some c ↔
      c ∈ l ∧ ∀ d ∈ l, key d < key c ∨ (key d = key c ∧ rank c ≤ rank d) := by
  constructor
  · intro h
    obtain ⟨l1, l2, rfl, h1, h2⟩ := foldl_pick_split h
    obtain ⟨-, htail, -⟩ := List.pairwise_append.mp hl
    refine ⟨by simp, ?_⟩
    intro d hd
    rcases List.mem_append.mp hd with hd | hd
    · exact Or.inl (h1 d hd)
    · rcases List.mem_cons.mp hd with rfl | hd
      · exact Or.inr ⟨rfl, Nat.le_refl _⟩
      · have hr := (List.pairwise_cons.mp htail).1 d hd
        have hk := h2 d hd
        omega
  · rintro ⟨hm, hall⟩
    obtain ⟨l1, l2, rfl⟩ := List.append_of_mem hm
    obtain ⟨-, -, hcross⟩ := List.pairwise_append.mp hl
    rw [List.foldl_append, List.foldl_cons, foldl_pick_lt, foldl_pick_stay]
    · intro d hd
      have hd' := hall d (by simp [hd])
      omega
    · intro d hd
      have hr := hcross d hd c List.mem_cons_self
      have hd' := hall d (by simp [hd])
      omega

end FirstMax
