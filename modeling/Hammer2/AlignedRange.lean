import Mathlib

/-- The keys `[key, key + 2^bits)`, from a multiple of their number on. -/
structure AlignedRange where
  key : Nat
  bits : Nat
  aligned : 2 ^ bits ∣ key

namespace AlignedRange

variable {r s : AlignedRange} {k : Nat}

def keys (r : AlignedRange) : Set Nat := Set.Ico r.key (r.key + 2 ^ r.bits)

theorem mem_keys : k ∈ r.keys ↔ k / 2 ^ r.bits = r.key / 2 ^ r.bits := by
  obtain ⟨q, hq⟩ := r.aligned
  have hpos : 0 < 2 ^ r.bits := Nat.two_pow_pos _
  have hdiv : r.key / 2 ^ r.bits = q := by
    rw [hq]
    exact Nat.mul_div_cancel_left q hpos
  rw [hdiv, Nat.div_eq_iff hpos, keys, Set.mem_Ico, hq, Nat.mul_comm q]
  omega

/-- The range of `2^bits` keys around a key. -/
def around (k bits : Nat) : AlignedRange := ⟨k / 2 ^ bits * 2 ^ bits, bits, Nat.dvd_mul_left _ _⟩

@[simp] theorem around_key (k bits : Nat) : (around k bits).key = k / 2 ^ bits * 2 ^ bits := rfl

@[simp] theorem around_bits (k bits : Nat) : (around k bits).bits = bits := rfl

theorem mem_around {bits j : Nat} : j ∈ (around k bits).keys ↔ j / 2 ^ bits = k / 2 ^ bits := by
  rw [mem_keys, around_key, around_bits, Nat.mul_div_cancel _ (Nat.two_pow_pos bits)]

theorem around_self (k bits : Nat) : k ∈ (around k bits).keys := mem_around.mpr rfl

theorem key_mem (r : AlignedRange) : r.key ∈ r.keys := mem_keys.mpr rfl

/-- Keys that agree from some bit up agree from every higher bit up. -/
theorem div_eq_of_le {a b i j : Nat} (hle : i ≤ j) (h : a / 2 ^ i = b / 2 ^ i) :
    a / 2 ^ j = b / 2 ^ j := by
  obtain ⟨d, rfl⟩ := Nat.exists_eq_add_of_le hle
  rw [Nat.pow_add, ← Nat.div_div_eq_div_mul, ← Nat.div_div_eq_div_mul, h]

/-- A range that has a key in common with one at least as wide lies inside it. -/
theorem keys_subset (hbits : r.bits ≤ s.bits) (hr : k ∈ r.keys) (hs : k ∈ s.keys) :
    r.keys ⊆ s.keys := by
  intro j hj
  have hsame : j / 2 ^ r.bits = k / 2 ^ r.bits := (mem_keys.mp hj).trans (mem_keys.mp hr).symm
  exact mem_keys.mpr ((div_eq_of_le hbits hsame).trans (mem_keys.mp hs))

/-- Two ranges are nested or have no key in common. -/
theorem subset_or_disjoint (hbits : r.bits ≤ s.bits) :
    r.keys ⊆ s.keys ∨ Disjoint r.keys s.keys := by
  by_cases h : Disjoint r.keys s.keys
  · exact Or.inr h
  · obtain ⟨k, hr, hs⟩ := Set.not_disjoint_iff.mp h
    exact Or.inl (keys_subset hbits hr hs)

end AlignedRange
