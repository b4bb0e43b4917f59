import Mathlib.Tactic

/-! Loops that are cut off after a number of turns, where a turn reads a hint that others write. -/

namespace TurnLoop

inductive Turn (σ ρ : Type*) where
  | again (s : σ)
  | done (r : ρ)

variable {σ ρ η : Type*}

/-- The loop with at most `fuel` turns. A turn that gives `none` fails. -/
def run (turn : η → σ → Option (Turn σ ρ)) (hint : Nat → η) : Nat → σ → Option ρ
  | 0, _ => none
  | fuel + 1, s =>
    match turn (hint fuel) s with
    | none => none
    | some (.again s') => run turn hint fuel s'
    | some (.done r) => some r

/-- `n` turns lead from `s` to `s'`, whatever the hints are. -/
inductive Steps (turn : η → σ → Option (Turn σ ρ)) : Nat → σ → σ → Prop where
  | refl (s : σ) : Steps turn 0 s s
  | step {n : Nat} {s s' s'' : σ} (hturn : ∀ x, turn x s = some (.again s'))
      (hrest : Steps turn n s' s'') : Steps turn (n + 1) s s''

/-- After `n` turns the next one is the last. -/
def Finishes (turn : η → σ → Option (Turn σ ρ)) (n : Nat) (s : σ) (r : ρ) : Prop :=
  ∃ s', Steps turn n s s' ∧ ∀ x, turn x s' = some (.done r)

variable {turn : η → σ → Option (Turn σ ρ)} {s s' s'' : σ} {r : ρ} {n k : Nat}

theorem Steps.trans (h : Steps turn n s s') (h' : Steps turn k s' s'') :
    Steps turn (n + k) s s'' := by
  induction h with
  | refl => rwa [Nat.zero_add]
  | step hturn _ ih =>
    rw [Nat.add_right_comm]
    exact .step hturn (ih h')

theorem Steps.finishes (h : Steps turn n s s') (h' : Finishes turn k s' r) :
    Finishes turn (n + k) s r := by
  obtain ⟨t, hsteps, hdone⟩ := h'
  exact ⟨t, h.trans hsteps, hdone⟩

theorem Finishes.of_done (h : ∀ x, turn x s = some (.done r)) : Finishes turn 0 s r :=
  ⟨s, .refl s, h⟩

theorem Finishes.of_again (h : ∀ x, turn x s = some (.again s')) (h' : Finishes turn n s' r) :
    Finishes turn (n + 1) s r := by
  rw [Nat.add_comm]
  exact (Steps.step h (.refl s')).finishes h'

/-- With more turns than it needs the loop gives its result, and with fewer it is cut off. -/
theorem Finishes.run_eq (h : Finishes turn n s r) (hint : Nat → η) (fuel : Nat) :
    run turn hint fuel s = if n < fuel then some r else none := by
  obtain ⟨t, hsteps, hdone⟩ := h
  induction hsteps generalizing fuel with
  | refl s =>
    cases fuel with
    | zero => rfl
    | succ fuel => rw [run, hdone, if_pos (Nat.succ_pos fuel)]
  | step hturn _ ih =>
    cases fuel with
    | zero => rfl
    | succ fuel =>
      rw [run, hturn]
      change run turn hint fuel _ = _
      rw [ih fuel hdone]
      exact if_congr Nat.succ_lt_succ_iff.symm rfl rfl

end TurnLoop
