import Hammer2.FlushRun

set_option linter.unusedSectionVars false

namespace Hammer2

open CowTree

variable {ι κ α : Type} [DecidableEq ι] [DecidableEq κ]

/-- The region of a flush, children before parents. -/
def Forest.bottomUp (kinds : ChainKinds ι) (call : FlushCall ι) : Forest ι → ι → List ι
  | .nil, _ => []
  | .cons c kids rest, p =>
    (if kinds.inode c || call.hides kinds p c then [] else kids.bottomUp kinds call c ++ [c]) ++
      rest.bottomUp kinds call p

section

variable (up : ι → ι) (root : ι) (fails : ι → Bool)

/-- The flush of one chain without regard to marks, and whether its parent could not be modified. -/
def flushOne (c : ι) (t : Tree ι α) : Tree ι α × Bool :=
  let t := writeBack root c t
  if (t.node c).update then
    if up c ≠ root ∧ (t.node (up c)).modified = false ∧ fails (up c) = true then (t, true)
    else (link up c (touch root (up c) t), false)
  else (t, false)

/-- The flush of one chain after the other. -/
def flushEach : List ι → Tree ι α × Bool → Tree ι α × Bool
  | [], x => x
  | c :: cs, x =>
    flushEach cs ((flushOne up root fails c x.1).1, x.2 || (flushOne up root fails c x.1).2)

/-- The parent cannot be modified. -/
def Barred (t : Tree ι α) (p : ι) : Prop :=
  p ≠ root ∧ (t.node p).modified = false ∧ fails p = true

/-- A flush of the chain changes nothing. -/
def Done (t : Tree ι α) (c : ι) : Prop :=
  (t.node c).modified = false ∧ ((t.node c).update = true → Barred root fails t (up c))

end

variable {up : ι → ι} {root : ι} {fails : ι → Bool} {t : Tree ι α} {c d p : ι} {cs : List ι}

theorem flushEach_append (cs ds : List ι) (x : Tree ι α × Bool) :
    flushEach up root fails (cs ++ ds) x =
      flushEach up root fails ds (flushEach up root fails cs x) := by
  induction cs generalizing x with
  | nil => rfl
  | cons c cs ih => exact ih _

theorem flushEach_error (cs : List ι) (t : Tree ι α) (e : Bool) :
    flushEach up root fails cs (t, e) =
      ((flushEach up root fails cs (t, false)).1, e || (flushEach up root fails cs (t, false)).2) := by
  induction cs generalizing t e with
  | nil => simp [flushEach]
  | cons c cs ih =>
    unfold flushEach
    dsimp only
    rw [ih, ih _ (false || _)]
    simp [Bool.or_assoc]

theorem writeBack_eq (h : (t.node c).modified = false) : writeBack root c t = t := by
  unfold writeBack
  rw [if_neg (by simp [h])]

theorem flushOne_done (h : Done up root fails t c) :
    flushOne up root fails c t = (t, (t.node c).update) := by
  unfold flushOne
  dsimp only
  rw [writeBack_eq h.1]
  by_cases hu : (t.node c).update = true
  · have hbar : up c ≠ root ∧ (t.node (up c)).modified = false ∧ fails (up c) = true := h.2 hu
    rw [if_pos hu, if_pos hbar, hu]
  · rw [if_neg hu]
    simpa using hu

theorem flushEach_done (h : ∀ c ∈ cs, Done up root fails t c) (e : Bool) :
    flushEach up root fails cs (t, e) = (t, e || cs.any fun c => (t.node c).update) := by
  induction cs generalizing e with
  | nil => simp [flushEach]
  | cons c cs ih =>
    unfold flushEach
    dsimp only
    rw [flushOne_done (h c List.mem_cons_self), ih fun d hd => h d (List.mem_cons_of_mem _ hd)]
    simp [Bool.or_assoc]

theorem flushEach_settled (h : ∀ c ∈ cs, Settled t c) (e : Bool) :
    flushEach up root fails cs (t, e) = (t, e) := by
  rw [flushEach_done fun c hc =>
    ⟨(h c hc).1, fun hu => absurd ((h c hc).2 ▸ hu) Bool.false_ne_true⟩]
  have hany : (cs.any fun c => (t.node c).update) = false := by
    rw [List.any_eq_false]
    intro c hc
    rw [(h c hc).2]
    exact Bool.false_ne_true
  rw [hany, Bool.or_false]

theorem flushOne_other (hdc : d ≠ c) (hdu : d ≠ up c) :
    (flushOne up root fails c t).1.node d = t.node d := by
  have hw : (writeBack root c t).node d = t.node d := by rw [writeBack_node, if_neg hdc]
  unfold flushOne
  dsimp only
  split
  next =>
    split
    next => exact hw
    next =>
      unfold link
      rw [enter_node, if_neg hdu, if_neg hdc, touch_node, if_neg hdu, hw]
  next => exact hw

/-- What cannot be modified stays so. -/
theorem flushOne_barred (c : ι) (h : Barred root fails t p) :
    Barred root fails (flushOne up root fails c t).1 p := by
  have hw : ((writeBack root c t).node p).modified = false := by
    rw [writeBack_node]
    split
    next => rfl
    next => exact h.2.1
  refine ⟨h.1, ?_, h.2.2⟩
  unfold flushOne
  dsimp only
  split
  next =>
    split
    next => exact hw
    next hno =>
      have hpu : p ≠ up c := fun heq => hno (heq ▸ ⟨h.1, hw, h.2.2⟩)
      unfold link
      rw [enter_node, if_neg hpu]
      split
      next hp =>
        change ((touch root (up c) (writeBack root c t)).node c).modified = false
        rw [touch_node, if_neg (hp ▸ hpu)]
        exact hp ▸ hw
      next => rw [touch_node, if_neg hpu]; exact hw
  next => exact hw

theorem flushOne_self (root : ι) (fails : ι → Bool) (t : Tree ι α) (hpc : up c ≠ c) :
    Done up root fails (flushOne up root fails c t).1 c ∧
      (((flushOne up root fails c t).1.node c).update = true →
        (flushOne up root fails c t).2 = true) := by
  have hw : ((writeBack root c t).node c).modified = false := by rw [writeBack_node, if_pos rfl]
  unfold flushOne
  dsimp only
  split
  next hu =>
    split
    next hbar => exact ⟨⟨hw, fun _ => hbar⟩, fun _ => rfl⟩
    next =>
      have hnode : (link up c (touch root (up c) (writeBack root c t))).node c =
          { (writeBack root c t).node c with update := false } := by
        unfold link
        rw [enter_node, if_neg (Ne.symm hpc), if_pos rfl, touch_node, if_neg (Ne.symm hpc)]
      refine ⟨⟨?_, fun hu' => ?_⟩, fun hu' => ?_⟩
      · rw [hnode]
        exact hw
      · rw [hnode] at hu'
        cases hu'
      · rw [hnode] at hu'
        cases hu'
  next hu => exact ⟨⟨hw, fun hu' => absurd hu' hu⟩, fun hu' => absurd hu' hu⟩

/-- No chain comes again, and none comes after its parent. -/
def BottomUp (up : ι → ι) (cs : List ι) : Prop := cs.Pairwise fun c d => c ≠ d ∧ up d ≠ c

theorem flushEach_done_mem (hne : d ∉ cs) (hup : ∀ c ∈ cs, up c ≠ d)
    (h : Done up root fails t d) (e : Bool) :
    Done up root fails (flushEach up root fails cs (t, e)).1 d ∧
      ((flushEach up root fails cs (t, e)).1.node d) = t.node d := by
  induction cs generalizing t e with
  | nil => exact ⟨h, rfl⟩
  | cons c cs ih =>
    have hnode : (flushOne up root fails c t).1.node d = t.node d :=
      flushOne_other (fun heq => hne (heq ▸ List.mem_cons_self)) (hup c List.mem_cons_self).symm
    have hdone : Done up root fails (flushOne up root fails c t).1 d := by
      refine ⟨by rw [hnode]; exact h.1, fun hu => ?_⟩
      rw [hnode] at hu
      exact flushOne_barred c (h.2 hu)
    unfold flushEach
    dsimp only
    obtain ⟨h₁, h₂⟩ := ih (fun hn => hne (List.mem_cons_of_mem _ hn))
      (fun a ha => hup a (List.mem_cons_of_mem _ ha)) hdone (e || (flushOne up root fails c t).2)
    exact ⟨h₁, h₂.trans hnode⟩

/-- After a flush of a whole list another one has nothing to do but report the same error. -/
theorem flushEach_all (root : ι) (fails : ι → Bool) (hloop : ∀ c ∈ cs, up c ≠ c)
    (hcs : BottomUp up cs) (x : Tree ι α × Bool) :
    (∀ c ∈ cs, Done up root fails (flushEach up root fails cs x).1 c) ∧
      ∀ c ∈ cs, ((flushEach up root fails cs x).1.node c).update = true →
        (flushEach up root fails cs x).2 = true := by
  induction cs generalizing x with
  | nil => exact ⟨fun c hc => absurd hc List.not_mem_nil, fun c hc => absurd hc List.not_mem_nil⟩
  | cons c cs ih =>
    obtain ⟨hc, hcs⟩ := List.pairwise_cons.mp hcs
    have hloop' : ∀ a ∈ cs, up a ≠ a := fun a ha => hloop a (List.mem_cons_of_mem _ ha)
    obtain ⟨hdone, herr⟩ := flushOne_self root fails x.1 (hloop c List.mem_cons_self)
    unfold flushEach
    obtain ⟨hall, hrep⟩ := ih hloop' hcs
      ((flushOne up root fails c x.1).1, x.2 || (flushOne up root fails c x.1).2)
    obtain ⟨hkeep, hnode⟩ := flushEach_done_mem (fun hn => (hc c hn).1 rfl)
      (fun a ha => (hc a ha).2) hdone (x.2 || (flushOne up root fails c x.1).2)
    refine ⟨fun d hd => ?_, fun d hd hu => ?_⟩
    · rcases List.mem_cons.mp hd with rfl | hd
      · exact hkeep
      · exact hall d hd
    · rcases List.mem_cons.mp hd with rfl | hd
      · rw [hnode] at hu
        rw [flushEach_error, herr hu]
        simp
      · exact hrep d hd hu

theorem flushEach_twice (hloop : ∀ c ∈ cs, up c ≠ c) (hcs : BottomUp up cs)
    (x : Tree ι α × Bool) :
    flushEach up root fails cs (flushEach up root fails cs x) = flushEach up root fails cs x := by
  obtain ⟨hdone, herr⟩ := flushEach_all root fails hloop hcs x
  generalize flushEach up root fails cs x = y at hdone herr
  obtain ⟨t, e⟩ := y
  rw [flushEach_done hdone]
  by_cases hany : (cs.any fun c => (t.node c).update) = true
  · obtain ⟨c, hc, hu⟩ := List.any_eq_true.mp hany
    have he : e = true := herr c hc hu
    rw [hany, he]
    rfl
  · rw [Bool.not_eq_true] at hany
    rw [hany, Bool.or_false]

/-- Nothing is to be destroyed, and no chain has an error. -/
structure ChainState.Calm (s : ChainState ι α) : Prop where
  destroy : ∀ c, s.destroy c = false
  error : ∀ c, s.chainError c = false

/-- What is fixed while a flush is compared with the plain one: `up` has the parents, and
modifications fail for want of space and always for the same chains. -/
structure PlainCall (call : FlushCall ι) (up : ι → ι) (fails : ι → Bool) (parent : ι → Option ι) :
    Prop where
  up : ∀ c p, parent c = some p → up c = p
  outcome : ∀ n p, call.outcome n p = if fails p then .noSpace else .done

/-- The flush does not go below an inode that it comes to. -/
def FlushCall.Stops (kinds : ChainKinds ι) (call : FlushCall ι) (c : ι) : Prop :=
  kinds.inode c = true → call.stopsAtPfs kinds false c = true ∨
    call.stopsAtInode kinds false c = true

/-- The flush from `r` to `r'` does what the plain one does for the chains `cs`. -/
structure PlainPost (up : ι → ι) (root : ι) (fails : ι → Bool) (cs : List ι)
    (r r' : FlushInfo ι α) : Prop where
  result : (r'.tree, r'.error) = flushEach up root fails cs (r.tree, r.error)
  calm : r'.Calm

variable {kinds : ChainKinds ι} {call : FlushCall ι} {s s' : ChainState ι α} {r r' : FlushInfo ι α}
variable {active path above : List ι} {F kids rest : Forest ι} {parent : ι → Option ι}

theorem setFlush_same (path : List ι) (s : ChainState ι α) :
    s.setFlush kinds path = { s with onflush := (s.setFlush kinds path).onflush } := by
  induction path generalizing s with
  | nil => rfl
  | cons c above ih =>
    unfold ChainState.setFlush
    dsimp only
    split
    next => rfl
    next =>
      split
      next => rfl
      next => rw [ih]

theorem setFlush_tree (kinds : ChainKinds ι) (path : List ι) (s : ChainState ι α) :
    (s.setFlush kinds path).tree = s.tree := by
  rw [setFlush_same]

theorem ChainState.Calm.setFlush (h : s.Calm) (kinds : ChainKinds ι) (path : List ι) :
    (s.setFlush kinds path).Calm := by
  rw [setFlush_same]
  exact ⟨h.destroy, h.error⟩

theorem inheritDestroy_calm (h : s.Calm) (parent : Option ι) (c : ι) :
    s.inheritDestroy parent c = s := by
  unfold ChainState.inheritDestroy
  have hany : parent.any s.destroy = false := by
    cases parent with
    | none => rfl
    | some p => exact h.destroy p
  rw [if_neg (by rw [hany]; exact Bool.false_ne_true)]

theorem link_eq (h : up c = p) (t : Tree ι α) : link (fun _ => p) c t = link up c t := by
  unfold link enter
  rw [h]

theorem PlainPost.refl (h : r.Calm) : PlainPost up root fails [] r r := ⟨rfl, h⟩

theorem PlainPost.trans {r'' : FlushInfo ι α} {ds : List ι} (h : PlainPost up root fails cs r r')
    (h' : PlainPost up root fails ds r' r'') : PlainPost up root fails (cs ++ ds) r r'' :=
  ⟨by rw [h'.result, h.result, flushEach_append], h'.calm⟩

theorem PlainPost.setFlush (h : r.Calm) (kinds : ChainKinds ι) (path : List ι) :
    PlainPost up root fails [] r { r with toChainState := r.setFlush kinds path } := by
  refine ⟨?_, h.setFlush kinds path⟩
  dsimp only
  rw [setFlush_tree]
  rfl

theorem PlainPost.of_settled (h : r.Calm) (hcs : ∀ c ∈ cs, Settled r.tree c) :
    PlainPost up root fails cs r r :=
  ⟨(flushEach_settled hcs r.error).symm, h⟩

theorem modify_barred (h : Barred kinds.vchain fails s.tree p) (above : List ι) :
    s.modify kinds (if fails p then .noSpace else .done) p above = (s, true) := by
  unfold ChainState.modify
  dsimp only
  rw [if_neg h.1, if_pos h.2.2]
  dsimp only
  rw [if_neg (by rw [h.2.1]; exact Bool.false_ne_true)]

theorem modify_calm (hcalm : s.Calm) (h : ¬Barred kinds.vchain fails s.tree p) (above : List ι) :
    ∃ s', s.modify kinds (if fails p then .noSpace else .done) p above = (s', false) ∧ s'.Calm ∧
      s'.tree = touch kinds.vchain p s.tree := by
  have hclear : Function.update s.chainError p false = s.chainError := by
    funext q
    by_cases hq : q = p
    · rw [hq, Function.update_self, hcalm.error]
    · rw [Function.update_of_ne hq]
  have htree := setFlush_tree kinds above
    { s with tree := touch kinds.vchain p s.tree }
  have htouched : ({ s with tree := touch kinds.vchain p s.tree } : ChainState ι α).Calm :=
    ⟨hcalm.destroy, hcalm.error⟩
  have hraised := htouched.setFlush kinds above
  unfold ChainState.modify
  dsimp only
  rw [hclear]
  generalize ChainState.setFlush kinds above { s with tree := touch kinds.vchain p s.tree } = s'
    at htree hraised
  have hdone : ({ s' with chainError := s.chainError } : ChainState ι α).Calm :=
    ⟨hraised.destroy, hcalm.error⟩
  by_cases hp : p = kinds.vchain
  · rw [if_pos hp]
    exact ⟨s', rfl, hraised, htree⟩
  rw [if_neg hp]
  by_cases hf : fails p = true
  · rw [if_pos hf]
    have hm : (s.tree.node p).modified = true := by
      by_contra hm
      exact h ⟨hp, by simpa using hm, hf⟩
    dsimp only
    rw [if_pos hm]
    exact ⟨_, rfl, hdone, htree⟩
  · rw [if_neg hf]
    exact ⟨_, rfl, hdone, htree⟩

theorem flushBottom_calm (hcalm : r.Calm) :
    flushBottom kinds call c path r = flushUpdate kinds call c path
      { r with toChainState := { r.toChainState with tree := writeBack kinds.vchain c r.tree } } := by
  have herr : (path.head?.any r.chainError || r.chainError c) = false := by
    cases path.head? <;> simp [hcalm.error]
  unfold flushBottom flushModified
  rw [if_neg (by rw [herr]; exact Bool.false_ne_true), inheritDestroy_calm hcalm]

/-- The bottom-up part of a flush is the plain flush of the chain. -/
theorem flushBottom_plain (hp : PlainCall call up fails parent)
    (hcalm : r.Calm) (hc : parent c = some p) (hkeeps : call.keepsParent kinds c = false) :
    PlainPost up kinds.vchain fails [c] r (flushBottom kinds call c (p :: above) r) := by
  have hup := hp.up c p hc
  rw [flushBottom_calm hcalm]
  unfold flushUpdate
  dsimp only
  rw [if_neg (by rw [hkeeps]; exact Bool.false_ne_true)]
  have hcalm₁ : ({ r.toChainState with tree := writeBack kinds.vchain c r.tree } :
      ChainState ι α).Calm := ⟨hcalm.destroy, hcalm.error⟩
  by_cases hu : ((writeBack kinds.vchain c r.tree).node c).update = true
  swap
  · rw [if_neg hu]
    refine ⟨?_, hcalm₁⟩
    unfold flushEach flushEach flushOne
    dsimp only
    rw [if_neg hu, Bool.or_false]
  rw [if_pos hu, if_neg (by rw [hcalm.destroy]; exact Bool.false_ne_true), hp.outcome]
  by_cases hbar : Barred kinds.vchain fails (writeBack kinds.vchain c r.tree) p
  · rw [modify_barred (s := { r.toChainState with tree := writeBack kinds.vchain c r.tree }) hbar]
    refine ⟨?_, hcalm₁⟩
    have hbar' : up c ≠ kinds.vchain ∧
        ((writeBack kinds.vchain c r.tree).node (up c)).modified = false ∧
          fails (up c) = true := hup.symm ▸ hbar
    unfold flushEach flushEach flushOne
    dsimp only
    rw [if_pos hu, if_pos hbar', Bool.or_true, if_pos rfl]
  · obtain ⟨s₂, hs₂, hcalm₂, htree⟩ := modify_calm
      (s := { r.toChainState with tree := writeBack kinds.vchain c r.tree }) hcalm₁ hbar above
    rw [hs₂]
    have hbar' : ¬(up c ≠ kinds.vchain ∧
        ((writeBack kinds.vchain c r.tree).node (up c)).modified = false ∧
          fails (up c) = true) := hup.symm ▸ hbar
    refine ⟨?_, hcalm₂.destroy, hcalm₂.error⟩
    unfold flushEach flushEach flushOne
    dsimp only at htree ⊢
    rw [if_pos hu, if_neg hbar', Bool.or_false, if_neg Bool.false_ne_true, htree, link_eq hup, hup]

theorem Forest.mem_region_of_bottomUp (hc : c ∈ F.bottomUp kinds call p) :
    c ∈ F.region kinds call p := by
  induction F generalizing p with
  | nil => cases hc
  | cons a kids rest ihk ihr =>
    unfold Forest.bottomUp at hc
    unfold Forest.region
    rcases List.mem_append.mp hc with hc | hc
    · refine List.mem_append_left _ ?_
      split at hc
      next => cases hc
      next hin =>
        rw [if_neg hin]
        rcases List.mem_append.mp hc with hc | hc
        · exact List.mem_cons_of_mem _ (ihk hc)
        · exact List.mem_singleton.mp hc ▸ List.mem_cons_self
    · exact List.mem_append_right _ (ihr hc)

theorem Forest.Fits.parent_mem (hfits : F.Fits parent p) (hc : c ∈ F.nodes) :
    ∃ q, parent c = some q ∧ (q = p ∨ q ∈ F.nodes) := by
  induction F generalizing p with
  | nil => cases hc
  | cons a kids rest ihk ihr =>
    rcases List.mem_cons.mp hc with rfl | hc
    · exact ⟨p, hfits.1, Or.inl rfl⟩
    rcases List.mem_append.mp hc with hc | hc
    · obtain ⟨q, hq, hmem⟩ := ihk hfits.2.1 hc
      refine ⟨q, hq, Or.inr ?_⟩
      rcases hmem with rfl | hmem
      · exact List.mem_cons_self
      · exact Forest.mem_kids hmem
    · obtain ⟨q, hq, hmem⟩ := ihr hfits.2.2.2 hc
      exact ⟨q, hq, hmem.imp id Forest.mem_rest⟩

/-- The order of the recursion. -/
theorem Forest.bottomUp_order (kinds : ChainKinds ι) (call : FlushCall ι)
    (hup : ∀ c p, parent c = some p → up c = p)
    (hfits : F.Fits parent p) (hnodup : F.nodes.Nodup) (hp : p ∉ F.nodes) :
    BottomUp up (F.bottomUp kinds call p) ∧ ∀ c ∈ F.bottomUp kinds call p, up c ≠ c := by
  induction F generalizing p with
  | nil => exact ⟨List.Pairwise.nil, fun c hc => absurd hc List.not_mem_nil⟩
  | cons a kids rest ihk ihr =>
    obtain ⟨hpa, hfitsk, -, hfitsr⟩ := hfits
    obtain ⟨han, hnodup⟩ := List.nodup_cons.mp hnodup
    obtain ⟨hnk, hnr, hdisj⟩ := List.nodup_append.mp hnodup
    have hak : a ∉ kids.nodes := fun hn => han (List.mem_append_left _ hn)
    have har : a ∉ rest.nodes := fun hn => han (List.mem_append_right _ hn)
    have hpk : p ∉ kids.nodes := fun hn => hp (Forest.mem_kids hn)
    have hpr : p ∉ rest.nodes := fun hn => hp (Forest.mem_rest hn)
    have hne : p ≠ a := fun heq => hp (heq ▸ List.mem_cons_self)
    have hupa : up a = p := hup a p hpa
    have hkn : ∀ c ∈ kids.bottomUp kinds call a, c ∈ kids.nodes :=
      fun c hc => Forest.mem_nodes_of_region (Forest.mem_region_of_bottomUp hc)
    have hrn : ∀ c ∈ rest.bottomUp kinds call p, c ∈ rest.nodes :=
      fun c hc => Forest.mem_nodes_of_region (Forest.mem_region_of_bottomUp hc)
    obtain ⟨hsortk, hloopk⟩ := ihk hfitsk hnk hak
    obtain ⟨hsortr, hloopr⟩ := ihr hfitsr hnr hpr
    have hself : BottomUp up (kids.bottomUp kinds call a ++ [a]) := by
      refine List.pairwise_append.mpr ⟨hsortk, List.pairwise_singleton _ _, ?_⟩
      intro c hc d hd
      obtain rfl := List.mem_singleton.mp hd
      exact ⟨fun heq => hak (heq ▸ hkn c hc), fun heq => hpk (hupa ▸ heq ▸ hkn c hc)⟩
    -- nothing in the rest has its parent in the first tree
    have hcross : ∀ c, c = a ∨ c ∈ kids.nodes → ∀ d ∈ rest.bottomUp kinds call p,
        c ≠ d ∧ up d ≠ c := by
      intro c hc d hd
      obtain ⟨q, hq, hmem⟩ := hfitsr.parent_mem (hrn d hd)
      rw [hup d q hq]
      refine ⟨?_, ?_⟩
      · rintro rfl
        exact hc.elim (fun heq => har (heq ▸ hrn c hd)) fun hck => hdisj c hck c (hrn c hd) rfl
      · rintro rfl
        rcases hmem with rfl | hmem
        · exact hc.elim hne hpk
        · exact hc.elim (fun heq => har (heq ▸ hmem)) fun hck => hdisj q hck q hmem rfl
    unfold Forest.bottomUp
    by_cases hin : (kinds.inode a || call.hides kinds p a) = true
    · rw [if_pos hin]
      exact ⟨hsortr, hloopr⟩
    rw [if_neg hin]
    refine ⟨List.pairwise_append.mpr ⟨hself, hsortr, fun c hc d hd => hcross c ?_ d hd⟩, ?_⟩
    · rcases List.mem_append.mp hc with hc | hc
      · exact Or.inr (hkn c hc)
      · exact Or.inl (List.mem_singleton.mp hc)
    · intro c hc
      rcases List.mem_append.mp hc with hc | hc
      · rcases List.mem_append.mp hc with hc | hc
        · exact hloopk c hc
        · rw [List.mem_singleton.mp hc, hupa]
          exact hne
      · exact hloopr c hc

variable {scanKids : FlushInfo ι α → FlushInfo ι α}

/-- The second pass over the children finds nothing to do. -/
theorem flushDown_plain (hs : CoreSite kinds call c path kids active parent scanKids)
    (hparent : r.parent = parent) (hinv : r.ScanInv kinds active) (hcalm : r.Calm)
    (hloop : ∀ c ∈ cs, up c ≠ c) (hcs : BottomUp up cs)
    (hscan : ∀ r₁ : FlushInfo ι α, r₁.parent = parent → r₁.ScanInv kinds (c :: active) → r₁.Calm →
      PlainPost up root fails cs r₁ (scanKids r₁)) :
    PlainPost up root fails cs r (flushDown kinds c path scanKids r) := by
  have henter := hinv.enter (fun q hq => List.mem_cons_of_mem _ hq) (fun q hq => hq)
    (hparent ▸ hs.noKid)
  have h₁ := hscan ⟨r.clearOnflush c, false, r.calls⟩ hparent henter
    ⟨hcalm.destroy, hcalm.error⟩
  have hpass := flushPass_spec (r := { r with error := false }) hs hparent hinv
    (fun q hq => List.mem_cons_of_mem _ hq) fun q hq => hq
  unfold flushDown
  dsimp only
  have hpass₁ : flushPass c scanKids { r with error := false } =
      scanKids ⟨r.clearOnflush c, false, r.calls⟩ := rfl
  rw [hpass₁] at hpass ⊢
  generalize scanKids ⟨r.clearOnflush c, false, r.calls⟩ = r₁ at h₁ hpass
  have h₂ : ((if r₁.onflush c = true then flushPass c scanKids r₁ else r₁).tree,
      (if r₁.onflush c = true then flushPass c scanKids r₁ else r₁).error) =
        flushEach up root fails cs (r.tree, false) ∧
      (if r₁.onflush c = true then flushPass c scanKids r₁ else r₁).Calm := by
    split
    next =>
      have hparent₁ : r₁.parent = parent := hpass.within.parent.trans hparent
      have henter₁ := hpass.inv.enter (fun q hq => hq)
        (fun q hq => List.mem_cons_of_mem _ hq) (hparent₁ ▸ hs.noKid)
      have h := hscan { r₁ with toChainState := r₁.clearOnflush c } hparent₁ henter₁
        ⟨h₁.calm.destroy, h₁.calm.error⟩
      refine ⟨h.result.trans ?_, h.calm⟩
      have hres : (r₁.tree, r₁.error) = flushEach up root fails cs (r.tree, false) := h₁.result
      change flushEach up root fails cs (r₁.tree, r₁.error) = _
      rw [hres, flushEach_twice hloop hcs]
    next => exact ⟨h₁.result, h₁.calm⟩
  generalize (if r₁.onflush c = true then flushPass c scanKids r₁ else r₁) = r₂ at h₂
  obtain ⟨hres, hcalm₂⟩ := h₂
  have htree : r₂.tree = (flushEach up root fails cs (r.tree, false)).1 := congrArg Prod.fst hres
  have herr : r₂.error = (flushEach up root fails cs (r.tree, false)).2 := congrArg Prod.snd hres
  have hout : (r₂.tree, r₂.error || r.error) = flushEach up root fails cs (r.tree, r.error) := by
    rw [flushEach_error, htree, herr, Bool.or_comm]
  split
  next =>
    refine ⟨?_, hcalm₂.setFlush kinds _⟩
    dsimp only
    rw [setFlush_tree]
    exact hout
  next => exact ⟨hout, hcalm₂⟩

/-- A flush of a chain that no one stops at does the plain flush of what is below it, and then its
bottom-up part unless the chain is not flagged. -/
theorem flushCore_plain {top : Bool} (hs : CoreSite kinds call c path kids active parent scanKids)
    (hparent : r.parent = parent) (hinv : r.ScanInv kinds active) (hcalm : r.Calm)
    (htop : top = true ∨ kinds.inode c = false) (hloop : ∀ c ∈ cs, up c ≠ c)
    (hcs : BottomUp up cs) (hregion : ∀ d ∈ cs, d ∈ kids.region kinds call c)
    (hscan : ∀ r₁ : FlushInfo ι α, r₁.parent = parent → r₁.ScanInv kinds (c :: active) → r₁.Calm →
      PlainPost up root fails cs r₁ (scanKids r₁)) :
    ∃ r₁, PlainPost up root fails cs r r₁ ∧
      ((r.flagged c = false ∧ r₁ = r ∧ flushCore kinds call top c path scanKids r = r) ∨
        (r.flagged c = true ∧
          flushCore kinds call top c path scanKids r = flushBottom kinds call c path r₁)) := by
  have hquiet : ¬r.Alarm c → PlainPost up root fails cs r r := by
    intro halarm
    exact .of_settled hcalm fun d hd => hs.quiet hparent hinv halarm d (hregion d hd)
  obtain ⟨hpfs, hino⟩ : call.stopsAtPfs kinds top c = false ∧
      call.stopsAtInode kinds top c = false := not_stopped htop
  unfold flushCore
  by_cases hf : r.flagged c = false
  · refine ⟨r, hquiet fun ha => ?_, Or.inl ⟨hf, rfl, if_pos hf⟩⟩
    have hf' : r.flagged c = true := by
      rw [flagged_iff]
      exact Or.inr (Or.inr ha)
    rw [hf] at hf'
    cases hf'
  have hf' : r.flagged c = true := by simpa using hf
  rw [if_neg hf, hpfs, hino, if_neg Bool.false_ne_true, if_neg Bool.false_ne_true]
  by_cases hdown : (r.onflush c || r.destroy c) = true
  · rw [if_pos hdown]
    exact ⟨_, flushDown_plain hs hparent hinv hcalm hloop hcs hscan, Or.inr ⟨hf', rfl⟩⟩
  · rw [if_neg hdown]
    refine ⟨r, hquiet fun ha => hdown ?_, Or.inr ⟨hf', rfl⟩⟩
    rcases ha with ha | ha
    · rw [ha]
      rfl
    · rw [ha, Bool.or_true]

theorem flushCore_stopped (hcalm : r.Calm)
    (hstop : call.stopsAtPfs kinds false c = true ∨ call.stopsAtInode kinds false c = true) :
    PlainPost up root fails [] r (flushCore kinds call false c path scanKids r) := by
  unfold flushCore
  split
  next => exact .refl hcalm
  by_cases hpfs : call.stopsAtPfs kinds false c = true
  · rw [if_pos hpfs]
    split
    next => exact .setFlush hcalm kinds path
    next => exact .refl hcalm
  · rw [if_neg hpfs, if_pos (hstop.resolve_left hpfs)]
    exact .refl hcalm

/-- The flush of one child: nothing at an inode or in the inode index, and the plain flush of its
tree otherwise. -/
theorem flushRecurse_plain (hs : CoreSite kinds call c (p :: above) kids active parent scanKids)
    (hp : PlainCall call up fails parent) (hstops : call.Stops kinds c)
    (hparent : r.parent = parent) (hinv : r.ScanInv kinds active) (hcalm : r.Calm)
    (hloop : ∀ d ∈ kids.bottomUp kinds call c, up d ≠ d)
    (hcs : BottomUp up (kids.bottomUp kinds call c))
    (hscan : ∀ r₁ : FlushInfo ι α, r₁.parent = parent → r₁.ScanInv kinds (c :: active) → r₁.Calm →
      PlainPost up kinds.vchain fails (kids.bottomUp kinds call c) r₁ (scanKids r₁)) :
    PlainPost up kinds.vchain fails
      (if kinds.inode c || call.hides kinds p c then [] else kids.bottomUp kinds call c ++ [c]) r
      (flushRecurse kinds call p above c scanKids r) := by
  have hpc : parent c = some p := hs.ascends.1
  unfold flushRecurse
  dsimp only
  have herr : ¬r.chainError c = true := by
    rw [hcalm.error]
    exact Bool.false_ne_true
  rw [inheritDestroy_calm hcalm, hcalm.destroy, Bool.not_false, Bool.and_true]
  simp only [if_neg herr]
  have hlast : ∀ r' : FlushInfo ι α, ∀ ds, PlainPost up kinds.vchain fails ds r r' →
      PlainPost up kinds.vchain fails ds r
        (if r'.chainError p = true then { r' with error := true } else r') := by
    intro r' ds h
    rw [if_neg (by rw [h.calm.error]; exact Bool.false_ne_true)]
    exact h
  apply hlast
  by_cases hhide : call.hides kinds p c = true
  · rw [if_pos hhide, hhide, Bool.or_true, if_pos rfl]
    split
    next => exact .setFlush hcalm kinds _
    next => exact .refl hcalm
  rw [if_neg hhide]
  have hhide' : call.hides kinds p c = false := by simpa using hhide
  by_cases hi : kinds.inode c = true
  · rw [hi, Bool.true_or, if_pos rfl]
    split
    next => exact flushCore_stopped hcalm (hstops hi)
    next => exact .refl hcalm
  have hi' : kinds.inode c = false := by simpa using hi
  rw [hi', hhide', Bool.or_false, if_neg Bool.false_ne_true]
  have hkeeps : call.keepsParent kinds c = false := by simp [FlushCall.keepsParent, hi']
  have htop : false = true ∨ kinds.inode c = false := Or.inr hi'
  obtain ⟨r₁, hpost, hcore⟩ := flushCore_plain hs hparent hinv hcalm htop hloop hcs
    (fun d hd => Forest.mem_region_of_bottomUp hd) hscan
  by_cases hf : r.flagged c = true
  · rw [if_pos hf]
    rcases hcore with ⟨hno, -, -⟩ | ⟨-, hcore⟩
    · rw [hf] at hno
      cases hno
    · rw [hcore]
      exact hpost.trans (flushBottom_plain hp hpost.calm hpc hkeeps)
  · rw [if_neg hf]
    have hset := settled_of_not_flagged (s := r.toChainState) (by simpa using hf)
    rcases hcore with ⟨-, rfl, -⟩ | ⟨hf', -⟩
    · exact hpost.trans (.of_settled hcalm fun d hd => List.mem_singleton.mp hd ▸ hset)
    · exact absurd hf' hf

/-- The scan over the children of `p` does the plain flush of its region. -/
theorem flushScan_plain (hp : PlainCall call up fails parent)
    (hstops : ∀ c ∈ F.nodes, call.Stops kinds c)
    (hpath : Ascends parent (p :: above)) (hF : F.Below parent active (p :: above) p)
    (hact : p ∈ active) (hsub : ∀ q ∈ active, q ∈ p :: above) (hparent : r.parent = parent)
    (hinv : r.ScanInv kinds active) (hcalm : r.Calm) :
    PlainPost up kinds.vchain fails (F.bottomUp kinds call p) r
      (flushScan kinds call F p above r) := by
  induction F generalizing p above active r with
  | nil => exact .refl hcalm
  | cons c kids rest ihk ihr =>
    have hpathk : Ascends parent (c :: p :: above) := ⟨hF.fits.1, hpath⟩
    have hs : CoreSite kinds call c (p :: above) kids active parent
        (flushScan (α := α) kinds call kids c (p :: above)) :=
      hF.site hpath hsub fun r₁ hr₁ h₁ =>
        flushScan_spec hpathk hF.ofKids List.mem_cons_self (mem_cons_of_sub hsub) hr₁ h₁
    have hck : c ∉ kids.nodes := fun hn => hF.ofKids.apart c hn List.mem_cons_self
    obtain ⟨hcs, hloop⟩ := Forest.bottomUp_order kinds call hp.up hF.ofKids.fits
      hF.ofKids.nodup hck
    have h₁ := flushRecurse_spec hs hparent hinv
    have hplain := flushRecurse_plain hs hp (hstops c List.mem_cons_self) hparent hinv hcalm hloop hcs
      fun r₁ hr₁ hi hc₁ => ihk (fun d hd => hstops d (Forest.mem_kids hd)) hpathk hF.ofKids
        List.mem_cons_self (mem_cons_of_sub hsub) hr₁ hi hc₁
    unfold flushScan Forest.bottomUp
    exact hplain.trans (ihr (fun d hd => hstops d (Forest.mem_rest hd)) hpath hF.ofRest hact hsub
      (h₁.within.parent.trans hparent) h₁.inv hplain.calm)

end Hammer2
