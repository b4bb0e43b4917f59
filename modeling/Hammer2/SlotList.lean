import Mathlib.Tactic

/-! Arrays with empty slots, as lists of options. -/

namespace SlotList

variable {α : Type*} {l : List (Option α)} {a b : α} {i j k n : Nat}

/-- What slot `i` holds. -/
def slot (l : List (Option α)) (i : Nat) : Option α := l[i]?.join

/-- The elements in the order of their slots. -/
def elements (l : List (Option α)) : List α := l.filterMap id

/-- One past the last occupied slot below `i`. -/
def stop (l : List (Option α)) : Nat → Nat
  | 0 => 0
  | i + 1 => if (slot l i).isNone then stop l i else i + 1

/-- The elements between the empty slot `j` and slot `i` move down by one, and `a` goes before
slot `i`. -/
def fillBefore (l : List (Option α)) (j i : Nat) (a : α) : List (Option α) :=
  l.take j ++ (l.drop (j + 1)).take (i - j - 1) ++ some a :: l.drop i

/-- The elements from slot `i` to the empty slot `k` move up by one, and `a` goes to slot `i`. -/
def fillAfter (l : List (Option α)) (i k : Nat) (a : α) : List (Option α) :=
  l.take i ++ some a :: (l.drop i).take (k - i) ++ l.drop (k + 1)

@[simp]
theorem elements_append (l l' : List (Option α)) : elements (l ++ l') = elements l ++ elements l' :=
  List.filterMap_append

@[simp]
theorem elements_some_cons (a : α) (l : List (Option α)) : elements (some a :: l) = a :: elements l :=
  rfl

@[simp]
theorem elements_none_cons (l : List (Option α)) : elements (none :: l) = elements l := rfl

@[simp]
theorem elements_nil : elements ([] : List (Option α)) = [] := rfl

theorem slot_eq_some : slot l i = some a ↔ l[i]? = some (some a) := by
  unfold slot
  exact Option.join_eq_some_iff

theorem slot_lt (h : slot l i = some a) : i < l.length :=
  (List.getElem?_eq_some_iff.mp (slot_eq_some.mp h)).1

theorem mem_elements : a ∈ elements l ↔ ∃ i, slot l i = some a := by
  have hmem : a ∈ elements l ↔ some a ∈ l := by
    unfold elements
    rw [List.mem_filterMap]
    simp only [id_eq, exists_eq_right]
  rw [hmem, List.mem_iff_getElem?]
  exact exists_congr fun i => slot_eq_some.symm

theorem mem_elements_take : a ∈ elements (l.take n) ↔ ∃ i, i < n ∧ slot l i = some a := by
  rw [mem_elements]
  refine exists_congr fun i => ?_
  rw [slot_eq_some, slot_eq_some, List.getElem?_take]
  by_cases h : i < n <;> simp [h]

theorem mem_elements_drop : a ∈ elements (l.drop n) ↔ ∃ i, n ≤ i ∧ slot l i = some a := by
  rw [mem_elements]
  constructor
  · rintro ⟨i, hi⟩
    rw [slot_eq_some, List.getElem?_drop] at hi
    exact ⟨n + i, Nat.le_add_right _ _, slot_eq_some.mpr hi⟩
  · rintro ⟨i, hn, hi⟩
    refine ⟨i - n, ?_⟩
    rw [slot_eq_some, List.getElem?_drop, Nat.add_sub_cancel' hn]
    exact slot_eq_some.mp hi

theorem elements_take_append_drop (l : List (Option α)) (n : Nat) :
    elements (l.take n) ++ elements (l.drop n) = elements l := by
  rw [← elements_append, List.take_append_drop]

theorem elements_drop_of_slot (h : slot l i = some a) :
    elements (l.drop i) = a :: elements (l.drop (i + 1)) := by
  obtain ⟨hi, hx⟩ := List.getElem?_eq_some_iff.mp (slot_eq_some.mp h)
  rw [List.drop_eq_getElem_cons hi, hx, elements_some_cons]

theorem elements_drop_of_empty (h : l[i]? = some none) :
    elements (l.drop i) = elements (l.drop (i + 1)) := by
  obtain ⟨hi, hx⟩ := List.getElem?_eq_some_iff.mp h
  rw [List.drop_eq_getElem_cons hi, hx, elements_none_cons]

theorem elements_set_none (h : slot l i = some a) :
    elements (l.set i none) = elements (l.take i) ++ elements (l.drop (i + 1)) := by
  rw [List.set_eq_take_append_cons_drop, if_pos (slot_lt h), elements_append, elements_none_cons]

theorem elements_of_slot (h : slot l i = some a) :
    elements l = elements (l.take i) ++ a :: elements (l.drop (i + 1)) := by
  rw [← elements_take_append_drop l i, elements_drop_of_slot h]

/-- Closing a hole before slot `i` makes room there. -/
theorem elements_fillBefore (hj : j < i) (h : l[j]? = some none) (a : α) :
    elements (fillBefore l j i a) = elements (l.take i) ++ a :: elements (l.drop i) := by
  have htake : elements (l.take i) = elements (l.take j) ++
      elements ((l.drop (j + 1)).take (i - j - 1)) := by
    rw [← List.take_append_drop j (l.take i), elements_append, List.take_take,
      Nat.min_eq_left (by omega), List.drop_take]
    obtain ⟨hlt, hx⟩ := List.getElem?_eq_some_iff.mp h
    rw [List.drop_eq_getElem_cons hlt, hx, show i - j = i - j - 1 + 1 by omega,
      List.take_succ_cons, elements_none_cons]
    simp
  unfold fillBefore
  rw [elements_append, elements_append, elements_some_cons, htake]

theorem elements_fillAfter (hk : i < k) (h : l[k]? = some none) (a : α) :
    elements (fillAfter l i k a) = elements (l.take i) ++ a :: elements (l.drop i) := by
  have hdrop : elements (l.drop i) = elements ((l.drop i).take (k - i)) ++
      elements (l.drop (k + 1)) := by
    rw [← elements_drop_of_empty h, ← elements_take_append_drop (l.drop i) (k - i), List.drop_drop,
      show i + (k - i) = k by omega]
  unfold fillAfter
  rw [elements_append, elements_append, elements_some_cons, hdrop, List.append_assoc,
    List.cons_append]

theorem length_fillBefore (hj : j < i) (hi : i ≤ l.length) (a : α) :
    (fillBefore l j i a).length = l.length := by
  unfold fillBefore
  simp only [List.length_append, List.length_cons, List.length_take, List.length_drop]
  omega

theorem length_fillAfter (hk : i < k) (hkl : k < l.length) (a : α) :
    (fillAfter l i k a).length = l.length := by
  unfold fillAfter
  simp only [List.length_append, List.length_cons, List.length_take, List.length_drop]
  omega

/-- Slots from `i` on are as they were. -/
theorem slot_fillBefore (hj : j < i) (hi : i ≤ l.length) (a : α) (hn : i ≤ n) :
    slot (fillBefore l j i a) n = slot l n := by
  have hlen : (l.take j ++ (l.drop (j + 1)).take (i - j - 1)).length = i - 1 := by
    simp only [List.length_append, List.length_take, List.length_drop]
    omega
  unfold slot fillBefore
  rw [List.getElem?_append_right (by omega), hlen, show n - (i - 1) = n - i + 1 by omega,
    List.getElem?_cons_succ, List.getElem?_drop, show i + (n - i) = n by omega]

theorem slot_fillBefore_last (hj : j < i) (hi : i ≤ l.length) (a : α) :
    slot (fillBefore l j i a) (i - 1) = some a := by
  have hlen : (l.take j ++ (l.drop (j + 1)).take (i - j - 1)).length = i - 1 := by
    simp only [List.length_append, List.length_take, List.length_drop]
    omega
  unfold slot fillBefore
  rw [List.getElem?_append_right (by omega), hlen, Nat.sub_self]
  rfl

/-- Slots after `k` are as they were. -/
theorem slot_fillAfter (hk : i < k) (hkl : k < l.length) (a : α) (hn : k < n) :
    slot (fillAfter l i k a) n = slot l n := by
  have hlen : (l.take i ++ some a :: (l.drop i).take (k - i)).length = k + 1 := by
    simp only [List.length_append, List.length_cons, List.length_take, List.length_drop]
    omega
  unfold slot fillAfter
  rw [List.getElem?_append_right (by omega), hlen, List.getElem?_drop,
    show k + 1 + (n - (k + 1)) = n by omega]

theorem slot_fillAfter_last (hk : i < k) (hkl : k < l.length) (a : α) :
    slot (fillAfter l i k a) k = slot l (k - 1) := by
  have hlen : (l.take i).length = i := by
    rw [List.length_take]
    omega
  have hmid : ((l.drop i).take (k - i)).length = k - i := by
    rw [List.length_take, List.length_drop]
    omega
  unfold slot fillAfter
  rw [List.getElem?_append_left (by
      rw [List.length_append, List.length_cons, hlen, hmid]
      omega),
    List.getElem?_append_right (by omega), hlen, show k - i = k - i - 1 + 1 by omega,
    List.getElem?_cons_succ, List.getElem?_take, if_pos (by omega), List.getElem?_drop,
    show i + (k - i - 1) = k - 1 by omega]

theorem stop_le (l : List (Option α)) (n : Nat) : stop l n ≤ n := by
  induction n with
  | zero => exact le_rfl
  | succ n ih =>
    unfold stop
    split
    · omega
    · exact le_rfl

theorem slot_of_stop_le (hn : stop l n ≤ i) (hi : i < n) : slot l i = none := by
  induction n with
  | zero => omega
  | succ n ih =>
    unfold stop at hn
    split at hn
    next hempty =>
      rcases Nat.lt_succ_iff_lt_or_eq.mp hi with hi | rfl
      · exact ih hn hi
      · exact Option.isNone_iff_eq_none.mp hempty
    next => omega

theorem slot_pred_stop (h : 0 < stop l n) : ∃ a, slot l (stop l n - 1) = some a := by
  induction n with
  | zero => exact absurd h (lt_irrefl 0)
  | succ n ih =>
    unfold stop at h ⊢
    split
    next hempty =>
      rw [if_pos hempty] at h
      exact ih h
    next hfull =>
      rw [Nat.add_sub_cancel]
      exact Option.ne_none_iff_exists'.mp fun hnone => hfull (by rw [hnone]; rfl)

/-- `stop` is determined by its slots. -/
theorem stop_eq (hi : i ≤ n) (hempty : ∀ m, i ≤ m → m < n → slot l m = none)
    (hfull : 0 < i → ∃ a, slot l (i - 1) = some a) : stop l n = i := by
  rcases lt_trichotomy (stop l n) i with hlt | heq | hgt
  · obtain ⟨a, ha⟩ := hfull (by omega)
    rw [slot_of_stop_le (show stop l n ≤ i - 1 by omega) (by omega)] at ha
    cases ha
  · exact heq
  · have hle := stop_le l n
    obtain ⟨a, ha⟩ := slot_pred_stop (show 0 < stop l n by omega)
    rw [hempty _ (by omega) (by omega)] at ha
    cases ha

/-- Lists that agree from slot `i` on, and have something there or after it, stop at the same
place. -/
theorem stop_congr {l' : List (Option α)} (h : ∀ m, i ≤ m → m < n → slot l' m = slot l m)
    (hi : i < stop l n) : stop l' n = stop l n := by
  have hle := stop_le l n
  refine stop_eq hle (fun m h1 h2 => ?_) fun _ => ?_
  · rw [h m (by omega) h2]
    exact slot_of_stop_le h1 h2
  · obtain ⟨a, ha⟩ := slot_pred_stop (show 0 < stop l n by omega)
    exact ⟨a, (h _ (by omega) (by omega)).trans ha⟩

end SlotList
