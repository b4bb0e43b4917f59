import Mathlib.Data.List.Basic

/-! Loops over a cursor whose body may go round without moving it. -/

namespace CursorLoop

inductive Turn (σ : Type) where
  | next (s : σ)
  | again (s : σ)
  | fault

inductive Outcome (σ : Type) where
  | running
  | fault
  | done (s : σ)

variable {σ τ α : Type} {turn : σ → α → Turn σ} {s s' : σ} {l : List α}

def Outcome.map (f : σ → τ) : Outcome σ → Outcome τ
  | .running => .running
  | .fault => .fault
  | .done s => .done (f s)

theorem Outcome.map_eq_done {f : σ → τ} {o : Outcome σ} {t : τ} :
    o.map f = .done t ↔ ∃ s, o = .done s ∧ f s = t := by
  cases o with
  | running => simp [Outcome.map]
  | fault => simp [Outcome.map]
  | done s => simp [Outcome.map]

/-- The loop, cut off after `fuel` turns. -/
def run (turn : σ → α → Turn σ) : Nat → σ → List α → Outcome σ
  | _, s, [] => .done s
  | 0, _, _ :: _ => .running
  | fuel + 1, s, x :: l =>
    match turn s x with
    | .next s' => run turn fuel s' l
    | .again s' => run turn fuel s' (x :: l)
    | .fault => .fault

theorem run_nil (fuel : Nat) : run turn fuel s [] = .done s := by
  cases fuel with
  | zero => rfl
  | succ fuel => rfl

/-- A loop whose every turn moves the cursor is a fold. -/
theorem run_foldl {f : σ → α → σ} (h : ∀ x ∈ l, ∀ s, turn s x = .next (f s x)) :
    run turn l.length s l = .done (l.foldl f s) := by
  induction l generalizing s with
  | nil => rfl
  | cons x l ih =>
    have hx := h x List.mem_cons_self s
    unfold run
    simp only [List.length_cons, hx]
    exact ih fun y hy => h y (List.mem_cons_of_mem x hy)

/-- An element whose turns never move the cursor is never passed. -/
theorem run_stalls {x : α} (h : ∀ s, (∃ s', turn s x = .again s') ∨ turn s x = .fault) (fuel : Nat) :
    run turn fuel s (x :: l) ≠ .done s' := by
  induction fuel generalizing s with
  | zero =>
    unfold run
    simp
  | succ fuel ih =>
    unfold run
    rcases h s with ⟨s1, hx⟩ | hx
    · rw [hx]
      exact ih
    · rw [hx]
      simp

/-- Where it depends on the element alone whether a turn moves the cursor, the loop ends just when no
element holds it up. -/
theorem done_iff {good : α → Prop} {f : σ → α → σ} (hnext : ∀ s x, good x → turn s x = .next (f s x))
    (hstall : ∀ s x, ¬ good x → (∃ s', turn s x = .again s') ∨ turn s x = .fault) :
    (∃ fuel, run turn fuel s l = .done s') ↔ (∀ x ∈ l, good x) ∧ s' = l.foldl f s := by
  constructor
  · rintro ⟨fuel, h⟩
    induction l generalizing s fuel with
    | nil =>
      rw [run_nil] at h
      cases h
      exact ⟨fun x hx => absurd hx List.not_mem_nil, rfl⟩
    | cons x l ih =>
      by_cases hx : good x
      · cases fuel with
        | zero => cases h
        | succ fuel =>
          unfold run at h
          rw [hnext s x hx] at h
          obtain ⟨hl, hs⟩ := ih fuel h
          refine ⟨?_, hs⟩
          intro y hy
          rcases List.mem_cons.mp hy with rfl | hy
          · exact hx
          · exact hl y hy
      · exact absurd h (run_stalls (fun s => hstall s x hx) fuel)
  · rintro ⟨hl, rfl⟩
    exact ⟨l.length, run_foldl fun x hx s => hnext s x (hl x hx)⟩

end CursorLoop
