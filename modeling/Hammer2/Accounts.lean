import Mathlib.Algebra.Order.Group.Defs
import Mathlib.Tactic.Abel

namespace Accounts

variable {σ α β G H : Type} [AddCommGroup G] [AddCommGroup H] [PartialOrder H]
  {m : σ → G} {n : σ → H} {c c' : H}

/-- What a partial program does to two balances of its states. The first is known of every run, the
second of the runs that start with at least the cover `c`. -/
structure Posts (m : σ → G) (n : σ → H) (c : H) (x : StateT σ Option α) (d : α → G)
    (e : α → H) : Prop where
  exact : ∀ {s a t}, x.run s = some (a, t) → m t = m s + d a
  backed : ∀ {s a t}, x.run s = some (a, t) → c ≤ n s → n t = n s + e a

/-- A program that leaves both balances as they are, whatever they are. -/
abbrev Neutral (m : σ → G) (n : σ → H) (x : StateT σ Option α) : Prop :=
  Posts m n 0 x (fun _ => 0) (fun _ => 0)

theorem run_bind_eq_some {x : StateT σ Option α} {f : α → StateT σ Option β} {s t : σ} {b : β}
    (h : (x >>= f).run s = some (b, t)) :
    ∃ a u, x.run s = some (a, u) ∧ (f a).run u = some (b, t) := by
  obtain ⟨⟨a, u⟩, hx, hf⟩ := Option.bind_eq_some_iff.mp h
  exact ⟨a, u, hx, hf⟩

section Rules

variable {x : StateT σ Option α} {d : α → G} {e : α → H}

theorem Posts.conseq {d' : α → G} {e' : α → H} (hx : Posts m n c x d e) (hc : c ≤ c')
    (hd : ∀ a, d a = d' a) (he : ∀ a, e a = e' a) : Posts m n c' x d' e' := by
  rw [← funext hd, ← funext he]
  exact ⟨hx.exact, fun h hn => hx.backed h (hc.trans hn)⟩

theorem Posts.pure {a : α} (hd : d a = 0) (he : e a = 0) :
    Posts m n c (pure a : StateT σ Option α) d e := by
  constructor
  · intro s b t h
    obtain ⟨rfl, rfl⟩ := Prod.mk.inj (Option.some.inj h)
    rw [hd, add_zero]
  · intro s b t h _
    obtain ⟨rfl, rfl⟩ := Prod.mk.inj (Option.some.inj h)
    rw [he, add_zero]

theorem Posts.ite {p : Prop} [Decidable p] {y : StateT σ Option α} (hx : p → Posts m n c x d e)
    (hy : ¬ p → Posts m n c y d e) : Posts m n c (if p then x else y) d e := by
  by_cases hp : p
  · rw [if_pos hp]
    exact hx hp
  · rw [if_neg hp]
    exact hy hp

variable [IsOrderedAddMonoid H]

/-- What the first program posts stays on the books of the second. -/
theorem Posts.bind {f : α → StateT σ Option β} {d' : β → G} {e' : β → H}
    (hx : Posts m n c x d e) (hc : c ≤ c')
    (hf : ∀ a, Posts m n (c' + e a) (f a) (fun b => d' b - d a) (fun b => e' b - e a)) :
    Posts m n c' (x >>= f) d' e' := by
  constructor
  · intro s b t h
    obtain ⟨a, u, hxa, hfb⟩ := run_bind_eq_some h
    rw [(hf a).exact hfb, hx.exact hxa]
    abel
  · intro s b t h hn
    obtain ⟨a, u, hxa, hfb⟩ := run_bind_eq_some h
    have hu := hx.backed hxa (hc.trans hn)
    have hcover : c' + e a ≤ n u := by
      rw [hu]
      exact add_le_add_left hn _
    rw [(hf a).backed hfb hcover, hu]
    abel

theorem Posts.bind_neutral {f : α → StateT σ Option β} {d' : β → G} {e' : β → H}
    (hx : Neutral m n x) (hc : 0 ≤ c) (hf : ∀ a, Posts m n c (f a) d' e') :
    Posts m n c (x >>= f) d' e' := by
  apply hx.bind hc
  intro a
  simpa using hf a

/-- A program that spends its cover leaves the rest of it to the next one. -/
theorem Posts.bind_spend {f : α → StateT σ Option β} {r : H} {d' : β → G} {e' : β → H}
    (hx : Posts m n c x d fun _ => -c) (hr : 0 ≤ r)
    (hf : ∀ a, Posts m n r (f a) (fun b => d' b - d a) (fun b => e' b + c)) :
    Posts m n (c + r) (x >>= f) d' e' := by
  apply hx.bind (le_add_of_nonneg_right hr)
  intro a
  apply (hf a).conseq
  · exact (add_neg_cancel_comm c r).ge
  · intro b
    rfl
  · intro b
    exact (sub_neg_eq_add _ _).symm

end Rules

/-- All runs of a program stay in a relation. -/
structure Within (r : σ → σ → Prop) (x : StateT σ Option α) : Prop where
  holds : ∀ {s a t}, x.run s = some (a, t) → r s t

section Relations

variable {r : σ → σ → Prop} {x : StateT σ Option α}

theorem Within.pure [Std.Refl r] (a : α) : Within r (pure a : StateT σ Option α) := by
  constructor
  intro s b t h
  obtain ⟨-, rfl⟩ := Prod.mk.inj (Option.some.inj h)
  exact Std.Refl.refl s

theorem Within.bind [IsTrans σ r] {f : α → StateT σ Option β} (hx : Within r x)
    (hf : ∀ a, Within r (f a)) : Within r (x >>= f) := by
  constructor
  intro s b t h
  obtain ⟨a, u, hxa, hfb⟩ := run_bind_eq_some h
  exact IsTrans.trans s u t (hx.holds hxa) ((hf a).holds hfb)

end Relations

end Accounts
