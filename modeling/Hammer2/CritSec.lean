import Mathlib.Tactic

/-! A recursive lock that one thread at a time may hold, any number of times over. -/

/-- The owner matters only while `depth` is not zero. -/
structure CritSec where
  owner : Nat
  depth : Nat
deriving DecidableEq

namespace CritSec

variable {c d : CritSec} {t : Nat}

def Free (c : CritSec) : Prop := c.depth = 0

instance (c : CritSec) : Decidable c.Free := inferInstanceAs (Decidable (_ = _))

/-- A thread gets in when nobody else is; otherwise it waits. -/
def enter (t : Nat) (c : CritSec) : Option CritSec :=
  if c.depth = 0 ∨ c.owner = t then some ⟨t, c.depth + 1⟩ else none

/-- Only the owner may leave. -/
def leave (t : Nat) (c : CritSec) : Option CritSec :=
  if c.depth ≠ 0 ∧ c.owner = t then some ⟨t, c.depth - 1⟩ else none

theorem enter_eq (h : c.enter t = some d) : d = ⟨t, c.depth + 1⟩ :=
  (Option.some.inj (Option.ite_none_right_eq_some.mp h).2).symm

theorem leave_eq (h : c.leave t = some d) : d = ⟨t, c.depth - 1⟩ :=
  (Option.some.inj (Option.ite_none_right_eq_some.mp h).2).symm

/-- A section that is left again is as deep as before. -/
theorem leave_enter (henter : c.enter t = some d) {e : CritSec} (hleave : d.leave t = some e) :
    e.depth = c.depth := by
  rw [enter_eq henter] at hleave
  rw [leave_eq hleave]
  exact Nat.add_sub_cancel _ 1

end CritSec
