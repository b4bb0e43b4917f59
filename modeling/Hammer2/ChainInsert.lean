import Hammer2.ChainCoreOps
import Hammer2.ChainIterate

namespace Hammer2

open TurnLoop

section Replace

variable {top : ChainTop} {path : ParentPath} {node : ChainNode} {x : WalkItem}
  {array : BrefArray} {chains : List MemChain} {below : Nat → ChainNode} {m m' : Match}

/-- Elements of one view that start at the same key are the same. -/
theorem mergedView_key_inj (hinv : MergeInv array chains) (hm : m ∈ mergedView array chains)
    (hm' : m' ∈ mergedView array chains) (hkey : m'.bref.key = m.bref.key) : m' = m := by
  rcases hinv.comparable (mem_mergedView.mp hm) (mem_mergedView.mp hm') with heq | hlt | hgt
  · exact heq
  · exact absurd (Bref.before_trichotomy_key hlt) (by omega)
  · exact absurd (Bref.before_trichotomy_key hgt) (by omega)

theorem elementItems_update (hne : m'.bref.key ≠ m.bref.key) :
    elementItems (Function.update below m.bref.key node) m' = elementItems below m' := by
  unfold elementItems
  rw [Function.update_of_ne hne]

theorem elementTurns_update (hne : m'.bref.key ≠ m.bref.key) :
    elementTurns (Function.update below m.bref.key node) m' = elementTurns below m' := by
  unfold elementTurns
  rw [Function.update_of_ne hne]

/-- What replaces a parent with one item more. -/
structure Gains (node node' : ChainNode) (lo hi : Nat) (x : WalkItem) : Prop where
  nest : node'.WellNested lo hi
  items : (node'.items lo hi).Perm (x :: node.items lo hi)
  turns : node'.turns = node.turns

theorem Gains.above {lo hi : Nat} {pre rest : List Match}
    (h : Gains (below m.bref.key) node m.bref.key m.bref.last x)
    (hnest : (ChainNode.parent array chains below).WellNested lo hi)
    (hview : mergedView array chains = pre ++ m :: rest) (hlive : m.deleted = false)
    (hind : m.indirect = true) :
    Gains (.parent array chains below)
      (.parent array chains (Function.update below m.bref.key node)) lo hi x := by
  have hm : m ∈ mergedView array chains := by
    rw [hview]
    exact List.mem_append_right _ List.mem_cons_self
  have hnodup := mergedView_nodup hnest.1
  rw [hview] at hnodup
  have hother : ∀ m' ∈ pre ++ rest, m'.bref.key ≠ m.bref.key := by
    intro m' hm' hkey
    have hin : m' ∈ mergedView array chains := by
      rw [hview]
      rcases List.mem_append.mp hm' with hin | hin
      · exact List.mem_append_left _ hin
      · exact List.mem_append_right _ (List.mem_cons_of_mem _ hin)
    have heq := mergedView_key_inj hnest.1 hm hin hkey
    subst heq
    exact (List.nodup_middle.mp hnodup).notMem hm'
  have hpre : pre.flatMap (elementItems (Function.update below m.bref.key node)) =
      pre.flatMap (elementItems below) := List.flatMap_congr fun m' hm' =>
    elementItems_update (hother m' (List.mem_append_left _ hm'))
  have hrest : rest.flatMap (elementItems (Function.update below m.bref.key node)) =
      rest.flatMap (elementItems below) := List.flatMap_congr fun m' hm' =>
    elementItems_update (hother m' (List.mem_append_right _ hm'))
  have hpreT : pre.map (elementTurns (Function.update below m.bref.key node)) =
      pre.map (elementTurns below) := List.map_congr_left fun m' hm' =>
    elementTurns_update (hother m' (List.mem_append_left _ hm'))
  have hrestT : rest.map (elementTurns (Function.update below m.bref.key node)) =
      rest.map (elementTurns below) := List.map_congr_left fun m' hm' =>
    elementTurns_update (hother m' (List.mem_append_right _ hm'))
  refine ⟨⟨hnest.1, fun m' hm' => ?_⟩, ?_, ?_⟩
  · obtain ⟨hlo, hhi, hkid⟩ := hnest.2 m' hm'
    refine ⟨hlo, hhi, fun hlive' hind' => ?_⟩
    by_cases hkey : m'.bref.key = m.bref.key
    · have heq := mergedView_key_inj hnest.1 hm hm' hkey
      subst heq
      rw [Function.update_self]
      exact h.nest
    · rw [Function.update_of_ne hkey]
      exact hkid hlive' hind'
  · rw [ChainNode.items_parent, ChainNode.items_parent, hview, List.flatMap_append,
      List.flatMap_append, List.flatMap_cons, List.flatMap_cons, hpre, hrest]
    have hnew : elementItems (Function.update below m.bref.key node) m =
        node.items m.bref.key m.bref.last := by
      simp only [elementItems, hlive, hind, Bool.false_eq_true, if_false, if_true,
        Function.update_self]
    have hold : elementItems below m = (below m.bref.key).items m.bref.key m.bref.last := by
      simp only [elementItems, hlive, hind, Bool.false_eq_true, if_false, if_true]
    rw [hnew, hold]
    have hmid := (h.items.append_right (rest.flatMap (elementItems below))).append_left
      (pre.flatMap (elementItems below))
    exact hmid.trans List.perm_middle
  · rw [ChainNode.turns_parent, ChainNode.turns_parent, hview, List.map_append, List.map_append,
      List.map_cons, List.map_cons, hpreT, hrestT]
    have hnew : elementTurns (Function.update below m.bref.key node) m = node.turns + 2 := by
      simp only [elementTurns, hlive, hind, Bool.false_eq_true, if_false, if_true,
        Function.update_self]
    have hold : elementTurns below m = (below m.bref.key).turns + 2 := by
      simp only [elementTurns, hlive, hind, Bool.false_eq_true, if_false, if_true]
    rw [hnew, hold, h.turns]

end Replace

section Lookup

variable {top : ChainTop} {flags : LookupFlags} {path : ParentPath} {r : LookupResult}
  {items items' : List WalkItem} {it x : WalkItem} {lo hi key keyEnd : Nat}

/-- The chain and the error that a lookup returns for the first item of its range. -/
def answerTo : Option WalkItem → FoundChain × Nat
  | none => (.null, 0)
  | some (.element m) => (.element m, 0)
  | some (.fault _ _ error) => (.null, error)

theorem LookupResult.Answers.eq {first : Option WalkItem} (h : r.Answers top keyEnd first) :
    (r.found, r.error) = answerTo first := by
  obtain ⟨-, h⟩ := h
  rcases first with _ | ⟨m | ⟨key, last, error⟩⟩
  · exact Prod.ext h.1 h.2.1
  · exact Prod.ext h.1 h.2.1
  · exact Prod.ext h.1 h.2

end Lookup

end Hammer2
