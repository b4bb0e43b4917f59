import Mathlib.Tactic

/-! Loops over arrays whose indexes are checked. A computation is `none` when it has used an index
outside of an array. -/

namespace CheckedArray

/-- An array and how many entries were allocated for it. -/
structure Arr (α : Type) where
  length : ℕ
  get : ℕ → α

variable {α β σ : Type}

def Arr.read (a : Arr α) (i : ℕ) : Option α := if i < a.length then some (a.get i) else none

def Arr.write (a : Arr α) (i : ℕ) (x : α) : Option (Arr α) :=
  if i < a.length then some { a with get := Function.update a.get i x } else none

theorem Arr.read_of_lt {a : Arr α} {i : ℕ} (h : i < a.length) : a.read i = some (a.get i) :=
  if_pos h

theorem Arr.read_of_le {a : Arr α} {i : ℕ} (h : a.length ≤ i) : a.read i = none :=
  if_neg (Nat.not_lt.mpr h)

theorem Arr.write_of_lt {a : Arr α} {i : ℕ} (h : i < a.length) (x : α) :
    a.write i x = some ⟨a.length, Function.update a.get i x⟩ := if_pos h

theorem Arr.write_of_le {a : Arr α} {i : ℕ} (h : a.length ≤ i) (x : α) : a.write i x = none :=
  if_neg (Nat.not_lt.mpr h)

/-- A loop over `n` indexes from `i` on that a round can leave. -/
def runFrom (step : ℕ → σ → Option (Except β σ)) : ℕ → ℕ → σ → Option (Except β σ)
  | 0, _, s => some (.ok s)
  | n + 1, i, s =>
    (step i s).bind fun
      | .error b => some (.error b)
      | .ok s => runFrom step n (i + 1) s

/-- A loop over all of `n` indexes. -/
def foldFrom (step : ℕ → σ → Option σ) : ℕ → ℕ → σ → Option σ
  | 0, _, s => some s
  | n + 1, i, s => (step i s).bind fun s => foldFrom step n (i + 1) s

/-- A loop that ends with the first index that fails its test. -/
def allFrom (test : ℕ → Option Bool) : ℕ → ℕ → Option Bool
  | 0, _ => some true
  | n + 1, i => (test i).bind fun b => if b then allFrom test n (i + 1) else some false

section Run

variable {step : ℕ → σ → Option (Except β σ)} {i : ℕ} {s : σ}

theorem runFrom_error {b : β} (n : ℕ) (h : step i s = some (.error b)) :
    runFrom step (n + 1) i s = some (.error b) := by
  rw [runFrom, h]
  rfl

theorem runFrom_ok {s' : σ} (n : ℕ) (h : step i s = some (.ok s')) :
    runFrom step (n + 1) i s = runFrom step n (i + 1) s' := by
  rw [runFrom, h]
  rfl

theorem runFrom_outside (n : ℕ) (h : step i s = none) : runFrom step (n + 1) i s = none := by
  rw [runFrom, h]
  rfl

/-- Rounds that do nothing. -/
theorem runFrom_skip {m n : ℕ} (h : ∀ j, i ≤ j → j < i + m → step j s = some (.ok s)) :
    runFrom step (m + n) i s = runFrom step n (i + m) s := by
  induction m generalizing i with
  | zero => rw [Nat.zero_add, Nat.add_zero]
  | succ m ih =>
    rw [Nat.add_right_comm, runFrom_ok _ (h i (Nat.le_refl i) (by omega)),
      ih fun j h1 h2 => h j (by omega) (by omega), Nat.add_assoc, Nat.add_comm 1 m]

theorem runFrom_idle {n : ℕ} (h : ∀ j, i ≤ j → j < i + n → step j s = some (.ok s)) :
    runFrom step n i s = some (.ok s) := runFrom_skip (n := 0) h

end Run

theorem foldFrom_eq {step : ℕ → σ → Option σ} {f : σ → ℕ → σ} {n i : ℕ} {s : σ}
    (h : ∀ j s, i ≤ j → j < i + n → step j s = some (f s j)) :
    foldFrom step n i s = some ((List.range' i n).foldl f s) := by
  induction n generalizing i s with
  | zero => rfl
  | succ n ih =>
    rw [foldFrom, h i s (Nat.le_refl i) (by omega), Option.bind_some,
      ih fun j s h1 h2 => h j s (by omega) (by omega), List.range'_succ, List.foldl_cons]

/-- The test stays inside of its arrays and says whether `P` holds. -/
def Decides (r : Option Bool) (P : Prop) : Prop := ∃ ok, r = some ok ∧ (ok = true ↔ P)

section Decides

variable {r r' : Option Bool} {P Q : Prop}

theorem decides_decide [Decidable P] : Decides (some (decide P)) P :=
  ⟨_, rfl, decide_eq_true_iff⟩

theorem decides_false (h : ¬ P) : Decides (some false) P :=
  ⟨false, rfl, iff_of_false Bool.false_ne_true h⟩

theorem decides_true (h : P) : Decides (some true) P := ⟨true, rfl, iff_of_true rfl h⟩

theorem Decides.congr (h : Decides r P) (hiff : P ↔ Q) : Decides r Q := by
  obtain ⟨ok, hr, hok⟩ := h
  exact ⟨ok, hr, hok.trans hiff⟩

theorem Decides.eq [Decidable P] (h : Decides r P) : r = some (decide P) := by
  obtain ⟨ok, hr, hok⟩ := h
  rw [hr]
  exact congrArg some (Bool.eq_iff_iff.mpr (hok.trans decide_eq_true_iff.symm))

/-- One test and, when it passes, another one. -/
theorem Decides.and (h : Decides r P) (h' : P → Decides r' Q) :
    Decides (r.bind fun ok => if ok then r' else some false) (P ∧ Q) := by
  obtain ⟨ok, hr, hok⟩ := h
  rw [hr, Option.bind_some]
  cases ok with
  | false =>
    have hP : ¬ P := fun hP => Bool.false_ne_true (hok.mpr hP)
    exact decides_false fun hPQ => hP hPQ.1
  | true =>
    have hP := hok.mp rfl
    exact (h' hP).congr (and_iff_right hP).symm

theorem Decides.unless {c : Prop} [Decidable c] (h : ¬ c → Decides r P) :
    Decides (if c then some false else r) (¬ c ∧ P) := by
  by_cases hc : c
  · rw [if_pos hc]
    exact decides_false fun h => h.1 hc
  · rw [if_neg hc]
    exact (h hc).congr (and_iff_right hc).symm

theorem Decides.ite {c : Prop} [Decidable c] (h : c → Decides r P) (h' : ¬ c → Decides r' Q) :
    Decides (if c then r else r') (if c then P else Q) := by
  by_cases hc : c
  · rw [if_pos hc, if_pos hc]
    exact h hc
  · rw [if_neg hc, if_neg hc]
    exact h' hc

/-- A loop whose tests stay inside decides all of them. -/
theorem allFrom_decides {test : ℕ → Option Bool} {P : ℕ → Prop} {n i : ℕ}
    (h : ∀ j, i ≤ j → j < i + n → Decides (test j) (P j)) :
    Decides (allFrom test n i) (∀ j, i ≤ j → j < i + n → P j) := by
  induction n generalizing i with
  | zero => exact decides_true fun j h1 h2 => by omega
  | succ n ih =>
    have hrest := ih (i := i + 1) fun j h1 h2 => h j (by omega) (by omega)
    apply ((h i (Nat.le_refl i) (by omega)).and fun _ => hrest).congr
    constructor
    · intro hall j h1 h2
      rcases Nat.eq_or_lt_of_le h1 with rfl | hlt
      · exact hall.1
      · exact hall.2 j hlt (by omega)
    · intro hall
      exact ⟨hall i (Nat.le_refl i) (by omega), fun j h1 h2 => hall j (by omega) (by omega)⟩

theorem allFrom_zero_decides {test : ℕ → Option Bool} {P : ℕ → Prop} {n : ℕ}
    (h : ∀ j < n, Decides (test j) (P j)) : Decides (allFrom test n 0) (∀ j < n, P j) := by
  apply (allFrom_decides (P := P) fun j _ hj => h j (by omega)).congr
  constructor
  · intro hall j hj
    exact hall j (Nat.zero_le j) (by omega)
  · intro hall j _ hj
    exact hall j (by omega)

end Decides

end CheckedArray
