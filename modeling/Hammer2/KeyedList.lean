import Mathlib.Tactic

/-! Lists of records in which a key occurs at most once. -/

namespace KeyedList

variable {α κ : Type*} [DecidableEq κ] {key : α → κ} {l : List α} {a b : α} {k : κ}

def lookup (key : α → κ) (l : List α) (k : κ) : Option α := l.find? fun a => key a = k

/-- Replaces the record with the key of `b`. -/
def set (key : α → κ) (l : List α) (b : α) : List α := l.map fun a => if key a = key b then b else a

theorem mem_of_lookup (h : lookup key l k = some a) : a ∈ l ∧ key a = k :=
  ⟨List.mem_of_find?_eq_some h, by simpa using List.find?_some h⟩

theorem lookup_eq_none : lookup key l k = none ↔ ∀ a ∈ l, key a ≠ k := by
  simp [lookup]

theorem lookup_of_mem (hl : (l.map key).Nodup) (ha : a ∈ l) : lookup key l (key a) = some a := by
  unfold lookup
  induction l with
  | nil => cases ha
  | cons c l ih =>
    rw [List.map_cons, List.nodup_cons] at hl
    rcases List.mem_cons.mp ha with rfl | ha
    · simp
    · have hne : key c ≠ key a := by
        intro heq
        exact hl.1 (heq ▸ List.mem_map_of_mem ha)
      rw [List.find?_cons_of_neg (by simpa using hne), ih hl.2 ha]

theorem lookup_append (h : lookup key l k = none) (ha : key a = k) :
    lookup key (l ++ [a]) k = some a := by
  unfold lookup at h ⊢
  rw [List.find?_append, h]
  simp [ha]

@[simp] theorem map_key_set : (set key l b).map key = l.map key := by
  unfold set
  rw [List.map_map]
  refine List.map_congr_left ?_
  intro a _
  by_cases h : key a = key b <;> simp [h]

theorem set_set (h : key a = key b) : set key (set key l a) b = set key l b := by
  unfold set
  rw [List.map_map]
  refine List.map_congr_left ?_
  intro c _
  by_cases hc : key c = key b
  · simp [hc, h]
  · simp [hc, h]

theorem set_absent (h : lookup key l (key b) = none) : set key l b = l := by
  refine (List.map_congr_left ?_).trans (List.map_id l)
  intro c hc
  exact if_neg (lookup_eq_none.mp h c hc)

/-- In a list that is extended by a new key only the new record is replaced. -/
theorem set_append (h : lookup key l (key b) = none) (hab : key a = key b) :
    set key (l ++ [a]) b = l ++ [b] := by
  have hrest := set_absent h
  unfold set at hrest ⊢
  rw [List.map_append, hrest, List.map_singleton, if_pos hab]

theorem lookup_set_self (h : lookup key l (key b) ≠ none) :
    lookup key (set key l b) (key b) = some b := by
  unfold lookup set at *
  induction l with
  | nil => simp at h
  | cons c l ih =>
    by_cases hc : key c = key b
    · simp [hc]
    · rw [List.find?_cons_of_neg (by simpa using hc)] at h
      simpa [hc] using ih h

theorem mem_set (hb : lookup key l (key b) ≠ none) {c : α} :
    c ∈ set key l b ↔ c = b ∨ (c ∈ l ∧ key c ≠ key b) := by
  unfold set
  rw [List.mem_map]
  constructor
  · rintro ⟨a, ha, rfl⟩
    by_cases h : key a = key b
    · exact Or.inl (if_pos h)
    · rw [if_neg h]
      exact Or.inr ⟨ha, h⟩
  · rintro (rfl | ⟨hc, hne⟩)
    · obtain ⟨a, ha⟩ := Option.ne_none_iff_exists'.mp hb
      obtain ⟨ha, hk⟩ := mem_of_lookup ha
      exact ⟨a, ha, if_pos hk⟩
    · exact ⟨c, hc, if_neg hne⟩

/-- Replacing one record changes a count by that record alone. -/
theorem countP_set {p : α → Bool} (hl : (l.map key).Nodup) (ha : a ∈ l) (hab : key a = key b) :
    (set key l b).countP p + (if p a then 1 else 0) = l.countP p + if p b then 1 else 0 := by
  unfold set
  induction l with
  | nil => cases ha
  | cons c l ih =>
    rw [List.map_cons, List.nodup_cons] at hl
    rw [List.map_cons, List.countP_cons, List.countP_cons]
    rcases List.mem_cons.mp ha with rfl | ha
    · have hnone : lookup key l (key b) = none := by
        refine lookup_eq_none.mpr ?_
        intro c hc heq
        exact hl.1 (hab ▸ heq ▸ List.mem_map_of_mem hc)
      have hrest := set_absent hnone
      unfold set at hrest
      rw [hrest, if_pos hab]
      omega
    · have hne : key c ≠ key b := by
        intro heq
        exact hl.1 (heq.trans hab.symm ▸ List.mem_map_of_mem ha)
      have hih := ih hl.2 ha
      rw [if_neg hne]
      omega

end KeyedList
