import Mathlib.Tactic

/-! Texts written as runs of literal items and copies of what stands some places back. -/

namespace Lz77

universe u

variable {α : Type u} {out text : List α} {d m n i : Nat}

/-- `out` with `n` items behind it, each the one `d` places back. -/
def copyBack (d : Nat) : Nat → List α → List α
  | 0, out => out
  | n + 1, out => copyBack d n (out ++ (out[out.length - d]?).toList)

/-- Literal items, and a copy of `length` items from `offset` places back. -/
structure Sequence (α : Type u) where
  literals : List α
  offset : Nat
  length : Nat

def Sequence.size (s : Sequence α) : Nat := s.literals.length + s.length

def Sequence.expand (out : List α) (s : Sequence α) : List α :=
  copyBack s.offset s.length (out ++ s.literals)

/-- The copy starts inside what stands before it. -/
def Sequence.Legal (start : Nat) (s : Sequence α) : Prop :=
  1 ≤ s.offset ∧ s.offset ≤ start + s.literals.length

def expandAll (out : List α) (seqs : List (Sequence α)) : List α := seqs.foldl Sequence.expand out

def sizeAll (seqs : List (Sequence α)) : Nat := (seqs.map Sequence.size).sum

/-- A text that repeats itself at the distance of a copy is what the copy makes of its front. -/
theorem copyBack_eq (hd : 1 ≤ d) (hdi : d ≤ i) (hlen : text.length = i + n)
    (hback : ∀ k, i ≤ k → k < i + n → text[k]? = text[k - d]?) :
    copyBack d n (text.take i) = text := by
  induction n generalizing i with
  | zero => exact List.take_of_length_le (by omega)
  | succ n ih =>
    have hlength : (text.take i).length = i := by
      rw [List.length_take]
      omega
    have hitem : (text.take i)[(text.take i).length - d]? = text[i]? := by
      rw [hlength, List.getElem?_take_of_lt (by omega), ← hback i le_rfl (by omega)]
    have hnext : text.take i ++ (text[i]?).toList = text.take (i + 1) := List.take_add_one.symm
    rw [copyBack, hitem, hnext]
    exact ih (by omega) (by omega) fun k h1 h2 => hback k (by omega) (by omega)

theorem copyBack_length (hd : 1 ≤ d) (hdo : d ≤ out.length) :
    (copyBack d n out).length = out.length + n := by
  induction n generalizing out with
  | zero => rfl
  | succ n ih =>
    have hitem : out[out.length - d]? = some out[out.length - d] := List.getElem?_eq_getElem _
    have hlength : (out ++ (out[out.length - d]?).toList).length = out.length + 1 := by
      rw [hitem, Option.toList_some, List.length_append, List.length_singleton]
    rw [copyBack, ih (by omega), hlength]
    omega

theorem Sequence.expand_length {s : Sequence α} (h : s.Legal out.length) :
    (s.expand out).length = out.length + s.size := by
  have hlength : (out ++ s.literals).length = out.length + s.literals.length := List.length_append
  unfold Sequence.expand Sequence.size
  rw [copyBack_length h.1 (hlength ▸ h.2), hlength, Nat.add_assoc]

theorem expandAll_snoc (seqs : List (Sequence α)) (s : Sequence α) :
    expandAll out (seqs ++ [s]) = s.expand (expandAll out seqs) := by
  rw [expandAll, List.foldl_append]
  rfl

/-- A run of items with one distance, and behind it items at a multiple of that distance which is
no longer than the run and one distance: then all of them repeat at the one distance. -/
theorem periodic_extend {β : Type u} {mem : Nat → β} {a e e' d m : Nat} (hda : d ≤ a)
    (hm : m * d ≤ e - a + d) (hm1 : 1 ≤ m) (hrun : ∀ k, a ≤ k → k < e → mem k = mem (k - d))
    (hrest : ∀ k, e ≤ k → k < e' → mem k = mem (k - m * d)) (hae : a ≤ e) :
    ∀ k, a ≤ k → k < e' → mem k = mem (k - d) := by
  -- the items of the run repeat at every multiple that stays in the run
  have hmult : ∀ j k, a + j * d ≤ k + d → (∀ k', a ≤ k' → k' < k → mem k' = mem (k' - d)) →
      1 ≤ j → d ≤ k → mem (k - d) = mem (k - j * d) := by
    intro j k hj hbefore hj1 hdk
    induction j with
    | zero => omega
    | succ j ih =>
      rcases Nat.eq_zero_or_pos j with rfl | hjpos
      · rw [Nat.zero_add, Nat.one_mul]
      · have hsucc : (j + 1) * d = j * d + d := Nat.succ_mul j d
        have hle : 1 * d ≤ j * d := Nat.mul_le_mul_right d hjpos
        rcases Nat.eq_zero_or_pos d with rfl | hdpos
        · simp
        · have hstep := hbefore (k - j * d) (by omega) (by omega)
          rw [ih (by omega) (by omega), hstep, hsucc, Nat.sub_sub]
  intro k
  induction k using Nat.strong_induction_on with
  | _ k ih =>
    intro hak hke
    rcases Nat.lt_or_ge k e with hlt | hge
    · exact hrun k hak hlt
    · rw [hrest k hge hke]
      exact (hmult m k (by omega) (fun k' h1 h2 => ih k' h2 h1 (by omega)) hm1 (by omega)).symm

end Lz77
