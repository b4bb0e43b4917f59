import Mathlib.Logic.Basic

namespace Run

variable {σ α : Type} {step : σ → α → Option σ} {guard : σ → α → Prop} {init : σ}

/-- States reached from `init` by steps whose guard holds in the state they start from. -/
inductive Reach (step : σ → α → Option σ) (guard : σ → α → Prop) (init : σ) : σ → Prop
  | start : Reach step guard init init
  | next {s s' : σ} {a : α} : Reach step guard init s → guard s a → step s a = some s' →
      Reach step guard init s'

/-- What holds at the start and is kept by every guarded step holds in every reached state. -/
theorem Reach.invariant {I : σ → Prop} (h0 : I init)
    (hstep : ∀ {s a s'}, I s → guard s a → step s a = some s' → I s') {s : σ}
    (h : Reach step guard init s) : I s := by
  induction h with
  | start => exact h0
  | next _ hg hs ih => exact hstep ih hg hs

/-- The state after a list of actions, if none of them fails. -/
def exec (step : σ → α → Option σ) : σ → List α → Option σ
  | s, [] => some s
  | s, a :: as => (step s a).bind fun s' => exec step s' as

/-- Every state that a run ends in is reached when nothing is guarded. -/
theorem Reach.exec {s s' : σ} {as : List α} (h : Reach step (fun _ _ => True) init s)
    (he : exec step s as = some s') : Reach step (fun _ _ => True) init s' := by
  induction as generalizing s with
  | nil =>
    cases Option.some.inj he
    exact h
  | cons a as ih =>
    obtain ⟨s1, hs, he⟩ := Option.bind_eq_some_iff.mp he
    exact ih (h.next trivial hs) he

/-- `P` holds in every state of the run over a list of actions, as far as the run goes. -/
def Always (step : σ → α → Option σ) (P : σ → Prop) : σ → List α → Prop
  | s, [] => P s
  | s, a :: as => P s ∧ ∀ s', step s a = some s' → Always step P s' as

/-- Every step of the run meets the guard. -/
def Guarded (step : σ → α → Option σ) (guard : σ → α → Prop) : σ → List α → Prop
  | _, [] => True
  | s, a :: as => ∀ s', step s a = some s' → guard s a ∧ Guarded step guard s' as

/-- A run whose steps all meet the guard is a guarded run. -/
theorem Guarded.reach {s s' : σ} {as : List α} (h : Reach step guard init s)
    (hg : Guarded step guard s as) (he : exec step s as = some s') : Reach step guard init s' := by
  induction as generalizing s with
  | nil =>
    cases Option.some.inj he
    exact h
  | cons a as ih =>
    obtain ⟨s1, hs, he⟩ := Option.bind_eq_some_iff.mp he
    obtain ⟨ha, hrest⟩ := hg s1 hs
    exact ih (h.next ha hs) hrest he

/-- If a step keeps `P` just when it meets the guard, a run keeps `P` just when all its steps do. -/
theorem always_iff {I P : σ → Prop} (hI : ∀ {s a s'}, I s → step s a = some s' → I s')
    (hP : ∀ {s a s'}, I s → P s → step s a = some s' → (P s' ↔ guard s a)) {s : σ} (as : List α)
    (hi : I s) (hp : P s) : Always step P s as ↔ Guarded step guard s as := by
  induction as generalizing s with
  | nil => exact iff_of_true hp trivial
  | cons a as ih =>
    unfold Always Guarded
    constructor
    · rintro ⟨-, h⟩ s' hs
      have hp' : P s' := by
        have hs' := h s' hs
        cases as with
        | nil => exact hs'
        | cons _ _ => exact hs'.1
      exact ⟨(hP hi hp hs).mp hp', (ih (hI hi hs) hp').mp (h s' hs)⟩
    · intro h
      refine ⟨hp, fun s' hs => ?_⟩
      obtain ⟨hg, hrest⟩ := h s' hs
      exact (ih (hI hi hs) ((hP hi hp hs).mpr hg)).mpr hrest

end Run
