import Mathlib.Data.Set.Basic

namespace TwoStage

variable {β : Type}

/-- Reclamation in two stages, over an arbitrary type of blocks. A block is free, full, or in the
stage between; `pass` holds the snapshot of a running pass and the blocks it has still to visit. -/
structure State (β : Type) where
  free : Set β
  full : Set β
  live : Set β
  flushed : Set β
  synced : Bool
  pass : Option (Set β × Set β)

/-- A pass demotes what its snapshot does not reference: a full block leaves `full`, and only a
block that was already demoted becomes free. -/
inductive Step : State β → State β → Prop
  | mutate {s : State β} {free full live : Set β} (hfree : free ⊆ s.free) (hfull : s.full ⊆ full)
      (hlive : live ⊆ s.live ∪ full) (hdisj : ∀ b ∈ free, b ∉ full) :
      Step s { s with free := free, full := full, live := live }
  | flush {s : State β} : Step s { s with flushed := s.live, synced := true }
  | begin {s : State β} {todo : Set β} (hidle : s.pass = none) (hsynced : s.synced = true) :
      Step s { s with pass := some (s.flushed, todo) }
  | merge {s : State β} {snap todo visited free full : Set β} (hpass : s.pass = some (snap, todo))
      (hfree : ∀ b ∈ free, b ∈ s.free ∨ b ∈ todo ∧ b ∈ visited ∧ b ∉ snap ∧ b ∉ s.full)
      (hfull : ∀ b ∈ s.full, b ∈ full ∨ b ∈ visited)
      (hdisj : ∀ b ∈ free, b ∉ full) :
      Step s { s with free := free, full := full, pass := some (snap, todo \ visited) }
  | finish {s : State β} : Step s { s with pass := none, synced := false }

/-- No referenced block is free; and between a flush and the visit of a block, a referenced block
is referenced by the flushed tree or full. -/
structure Safe (s : State β) : Prop where
  live : ∀ b ∈ s.live, b ∉ s.free
  flushed : ∀ b ∈ s.flushed, b ∉ s.free
  full : ∀ b ∈ s.free, b ∉ s.full
  idle : s.pass = none → s.synced = true → ∀ b ∈ s.live, b ∈ s.flushed ∨ b ∈ s.full
  running : ∀ snap todo, s.pass = some (snap, todo) →
    ∀ b ∈ todo, b ∈ s.live ∨ b ∈ s.flushed → b ∈ snap ∨ b ∈ s.full

theorem Step.safe {s s' : State β} (h : Step s s') (hs : Safe s) : Safe s' := by
  cases h with
  | mutate hfree hfull hlive hdisj =>
    refine ⟨?_, ?_, hdisj, ?_, ?_⟩
    · intro b hb hf
      rcases hlive hb with hl | hl
      · exact hs.live b hl (hfree hf)
      · exact hdisj b hf hl
    · intro b hb hf
      exact hs.flushed b hb (hfree hf)
    · intro hidle hsync b hb
      rcases hlive hb with hl | hl
      · exact (hs.idle hidle hsync b hl).imp_right (fun h => hfull h)
      · exact Or.inr hl
    · intro snap todo hpass b hb href
      rcases href with hl | hfl
      · rcases hlive hl with hl | hl
        · exact (hs.running snap todo hpass b hb (Or.inl hl)).imp_right (fun h => hfull h)
        · exact Or.inr hl
      · exact (hs.running snap todo hpass b hb (Or.inr hfl)).imp_right (fun h => hfull h)
  | flush =>
    refine ⟨hs.live, hs.live, hs.full, fun _ _ b hb => Or.inl hb, ?_⟩
    intro snap todo hpass b hb href
    exact hs.running snap todo hpass b hb (Or.inl (href.elim id id))
  | @begin todo hidle hsynced =>
    refine ⟨hs.live, hs.flushed, hs.full, by simp, ?_⟩
    intro snap todo' hpass b _ href
    obtain ⟨rfl, _⟩ := Prod.mk.inj (Option.some.inj hpass)
    rcases href with hl | hfl
    · exact hs.idle hidle hsynced b hl
    · exact Or.inl hfl
  | @merge snap todo visited free full hpass hfree hfull hdisj =>
    have hsafe : ∀ b, b ∈ s.live ∨ b ∈ s.flushed → b ∉ free := by
      intro b href hb
      rcases hfree b hb with hold | ⟨ht, _, hns, hnf⟩
      · exact href.elim (fun h => hs.live b h hold) (fun h => hs.flushed b h hold)
      · exact (hs.running snap todo hpass b ht href).elim hns hnf
    refine ⟨fun b hb => hsafe b (Or.inl hb), fun b hb => hsafe b (Or.inr hb), hdisj, by simp, ?_⟩
    intro snap' todo' hpass' b hb href
    obtain ⟨rfl, rfl⟩ := Prod.mk.inj (Option.some.inj hpass')
    rcases hs.running snap todo hpass b hb.1 href with hsnap | hf
    · exact Or.inl hsnap
    · rcases hfull b hf with hf | hv
      · exact Or.inr hf
      · exact absurd hv hb.2
  | finish => exact ⟨hs.live, hs.flushed, hs.full, by simp, by simp⟩

end TwoStage
