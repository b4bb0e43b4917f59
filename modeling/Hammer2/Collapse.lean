import Hammer2.ChainCoreOps

namespace Hammer2

/-- What `hammer2_chain_modify` returns: for the parent, for the indirect block, for the parent again
in the deletion of the block, and for the block when an element is taken out of it. -/
structure CollapseEnv where
  modifyParent : Nat
  modifyChain : Nat
  modifyDelete : Nat
  modifySub : Nat → Nat

/-- The start of `hammer2_chain_indirect_maintenance`, for either chain. -/
def ChainCore.accurate (core : ChainCore) : ChainCore :=
  if core.initial = false ∧ core.counted = false then core.countbrefs else core

/-- `bref.embed.stats` of the block is cleaned out before it is deleted. -/
def ChainCore.cleanStats (core : ChainCore) : ChainCore :=
  { core with
    array := { core.array with stats := { core.array.stats with dataCount := 0, inodeCount := 0 } }
    initial := false }

/-- The assertion of `hammer2_chain_repchange`. -/
def ChainCore.drained (core : ChainCore) : Bool := core.liveCount = 0 ∧ core.rbtree = []

/-- `hammer2_chain_indirect_maintenance` of the indirect block `block` of `parent`, with `chain` the
core of the block. A failed assertion gives nothing, otherwise there is the result with the cores of
the parent and of the block. -/
def chainIndirectMaintenance (env : CollapseEnv) (parent chain : ChainCore) (block : MemChain) :
    Option (Nat × ChainCore × ChainCore) :=
  let chain := chain.accurate
  if chain.drained then
    -- the deletion error is ignored
    (chainDelete parent block env.modifyDelete).map fun d => (1, d.parent, chain)
  else
    let parent := parent.accurate
    let sum := parent.liveCount + chain.liveCount - 1
    -- the counters are compared with unsigned ones
    if sum < 0 ∨ parent.count < sum then some (0, parent, chain)
    else if chain.liveCount < 0 ∨ chain.count * 3 / 4 < chain.liveCount then some (0, parent, chain)
    else if env.modifyParent ≠ 0 then some (0, parent, chain)
    else
      let parent := { parent with initial := false }
      if env.modifyChain ≠ 0 then some (0, parent, chain)
      else
        match chainDelete parent block env.modifyDelete with
        | none => none
        | some d =>
          if d.error ≠ 0 then none
          else
            match shiftLoop (fun _ => true) env.modifySub (chain.count + 1) chain.cleanStats d.parent 0 with
            | none => none
            | some (chain, parent) => if chain.drained then some (1, parent, chain) else none

open ChainCore

section Shift

variable {chain parent : ChainCore} {m : Match} {keyBeg : Nat}

theorem ChainCore.Inv.seek (h : chain.Inv) (cacheIndex : Nat) : (chain.seek cacheIndex).Inv :=
  ⟨h.sorted, h.counted, h.live, h.initial, h.tree, h.loaded, h.present, h.mapped, h.liveCount, h.fits⟩

/-- The chain of an element of the merged view, which `hammer2_chain_get` makes if it is not in
memory. -/
theorem matchChain_spec (hi : chain.Inv) (hc : chain.counted = true)
    (hin : InUnion chain.array chain.rbtree m) :
    ∃ chain' sub, matchChain chain m = some (chain', sub) ∧ sub.bref = m.bref ∧ sub ∈ chain'.rbtree ∧
      chain'.Inv ∧ chain'.view.Perm chain.view := by
  rcases hin with ⟨sub, hsub, rfl⟩ | ⟨hnone, he, hne⟩
  · exact ⟨chain, sub, rfl, rfl, hsub, hi, List.Perm.refl _⟩
  · obtain ⟨chain', hget, hi', -, -, -, hmem, hview⟩ := chainGet_spec hi hc he hne
    refine ⟨chain', _, ?_, rfl, hmem, hi', hview⟩
    unfold matchChain
    rw [hnone]
    exact hget

/-- What moving all elements of a block to another parent leaves. -/
structure Shifted (chain parent chain' parent' : ChainCore) : Prop where
  drained : chain'.drained = true
  inv : parent'.Inv
  count : parent'.count = parent.count
  view : parent'.view.Perm (parent.view ++ chain.view)

theorem drained_of_view (hi : chain.Inv) (hnil : chain.view = []) : chain.drained = true := by
  have hle := hi.elements_le
  have hlc := hi.liveCount
  rw [hnil, List.length_nil] at hle hlc
  have hzero : chain.elements.length = 0 := by omega
  have htree : chain.rbtree = [] := by
    refine List.eq_nil_iff_forall_not_mem.mpr fun c hc => ?_
    have hin := Inv.chain_mem_view hc
    rw [hnil] at hin
    cases hin
  unfold drained
  rw [hlc, htree, hzero]
  simp

theorem Shifted.nil (hi : chain.Inv) (hp : parent.Inv) (hnil : chain.view = []) :
    Shifted chain parent chain parent := by
  refine ⟨drained_of_view hi hnil, hp, rfl, ?_⟩
  rw [hnil, List.append_nil]

/-- Every element goes to the other parent, unless the block cannot be modified on the way. -/
theorem shiftLoop_all (modify : Nat → Nat) {fuel : Nat} (hi : chain.Inv)
    (hc : chain.counted = true) (hp : parent.Inv) (hini : parent.initial = false)
    (hbeg : ∀ e ∈ chain.view, keyBeg ≤ e.last) (hapart : ∀ e ∈ chain.view, ∀ f ∈ parent.view, e.Apart f)
    (hroom : chain.view.length + parent.view.length ≤ parent.count) (hfuel : chain.view.length < fuel) :
    shiftLoop (fun _ => true) modify fuel chain parent keyBeg = none ∧ (∃ n, modify n ≠ 0) ∨
      ∃ chain' parent', shiftLoop (fun _ => true) modify fuel chain parent keyBeg =
        some (chain', parent') ∧ Shifted chain parent chain' parent' := by
  induction fuel generalizing chain parent keyBeg with
  | zero => omega
  | succ fuel ih =>
    obtain ⟨⟨found, keyNext, cacheIndex⟩, hfind, hlowest⟩ :=
      combinedFind_lowest (hi.mergeInv hc) keyBeg (le_refl keyMax)
    have hi₁ := hi.seek cacheIndex
    have hbound : ∀ e : Bref, e.key ≤ keyMax := by
      intro e
      have hle := e.key_le_last
      have hlt := e.last_lt
      unfold keyMax
      omega
    have hfind' : chain.find keyBeg = some (chain.seek cacheIndex, found) := by
      unfold ChainCore.find
      rw [if_pos hc, hfind]
      rfl
    unfold shiftLoop
    rw [hfind']
    cases found with
    | none =>
      right
      refine ⟨_, parent, rfl, ?_⟩
      have hnil : chain.view = [] := by
        refine List.eq_nil_iff_forall_not_mem.mpr fun e he => ?_
        obtain ⟨m, hm, rfl⟩ := mem_view.mp he
        exact hlowest m hm ⟨hbeg m.bref he, hbound m.bref⟩
      exact ⟨(Shifted.nil hi₁ hp hnil).drained, hp, rfl, (Shifted.nil hi hp hnil).view⟩
    | some m =>
      obtain ⟨hin, hint, -, hlow⟩ := hlowest
      obtain ⟨chain₂, sub, hsub, hbref, hmem, hi₂, hview₂⟩ := matchChain_spec hi₁ hc hin
      have hmin : m.bref ∈ chain.view := mem_view.mpr ⟨m, hin, rfl⟩
      simp only [if_true]
      rw [hsub]
      simp only [hi₂.present sub hmem, Bool.false_eq_true, if_false]
      by_cases hmod : sub.blkmapped = true ∧ modify fuel ≠ 0
      · left
        have hini₂ : chain₂.initial = false := by
          rw [Bool.eq_false_iff]
          intro h
          obtain ⟨e, he, -⟩ := (hi₂.mapped sub hmem).mp hmod.1
          rw [hi₂.initial h] at he
          cases he
        rw [chainDelete_failed (hi₂.present sub hmem) hmod.1 hini₂ hmod.2]
        simp only [ne_eq, hmod.2, not_false_eq_true, if_true]
        exact ⟨trivial, fuel, hmod.2⟩
      · obtain ⟨d, hdel, herr, hchain, hi₃, hc₃, -, -, hview₃, hobref⟩ :=
          chainDelete_spec hi₂ hmem fun hm => by
            by_contra hne
            exact hmod ⟨hm, hne⟩
        rw [hbref] at hview₃
        have hrest : chain.view.Perm (m.bref :: d.parent.view) := hview₂.symm.trans hview₃
        have hlen := hrest.length_eq
        rw [List.length_cons] at hlen
        have hpair := hi.view_apart
        rw [hrest.pairwise_iff fun h => h.symm] at hpair
        have hsubset : ∀ e ∈ d.parent.view, e ∈ chain.view :=
          fun e he => hrest.mem_iff.mpr (List.mem_cons_of_mem _ he)
        -- what is left comes after the element that is moved
        have hafter : ∀ e ∈ d.parent.view, m.bref.Before e := by
          intro e he
          obtain ⟨m', hm', rfl⟩ := mem_view.mp (hsubset e he)
          rcases hlow m' hm' ⟨hbeg m'.bref (hsubset _ he), hbound m'.bref⟩ with rfl | hlt
          · exact absurd rfl ((List.pairwise_cons.mp hpair).1 _ he).key_ne
          · exact hlt
        obtain ⟨parent₁, hrename, hp₁, -, hini₁, hcount₁, hview₁⟩ :=
          chainRenameObref_spec d.chain hp (by rw [hchain])
            (fun f hf => by
              rw [hchain]
              exact hobref f hf)
            (fun _ => hini)
            (fun f hf => by
              rw [hchain]
              exact hbref ▸ hapart m.bref hmin f hf)
            (by omega)
        have hd : d.chain.bref = m.bref := by
          rw [hchain]
          exact hbref
        rw [hd] at hview₁
        have hall : (parent₁.view ++ d.parent.view).Perm (parent.view ++ chain.view) := by
          refine (hview₁.append_right _).trans (List.Perm.trans ?_ (hrest.symm.append_left _))
          exact List.perm_middle.symm
        simp only [hdel, herr, hrename, ne_eq, not_true, if_false]
        by_cases hnext : m.bref.next = 0
        · right
          rw [if_pos hnext]
          have hnil : d.parent.view = [] := by
            refine List.eq_nil_iff_forall_not_mem.mpr fun e he => ?_
            have hlt := hafter e he
            have hle := e.key_le_last
            have hmax := e.last_lt
            have hlast := m.bref.last_lt
            rw [Bref.next_eq] at hnext
            unfold Bref.Before at hlt
            omega
          have hend := Shifted.nil hi₃ hp₁ hnil
          exact ⟨_, _, rfl, hend.drained, hp₁, hcount₁, hend.view.trans hall⟩
        · rw [if_neg hnext]
          have hlast : m.bref.next = m.bref.last + 1 := by
            have hlt := m.bref.last_lt
            rw [Bref.next_eq] at hnext ⊢
            rcases Nat.lt_or_ge (m.bref.last + 1) 18446744073709551616 with h | h
            · exact Nat.mod_eq_of_lt h
            · rw [show m.bref.last + 1 = 18446744073709551616 by omega, Nat.mod_self] at hnext
              exact absurd rfl hnext
          have hlen₁ := hview₁.length_eq
          rw [List.length_cons] at hlen₁
          have hbeg₁ : ∀ e ∈ d.parent.view, m.bref.next ≤ e.last := by
            intro e he
            have hlt := hafter e he
            have hle := e.key_le_last
            unfold Bref.Before at hlt
            omega
          have hapart₁ : ∀ e ∈ d.parent.view, ∀ f ∈ parent₁.view, e.Apart f := by
            intro e he f hf
            rcases List.mem_cons.mp (hview₁.mem_iff.mp hf) with rfl | hf
            · exact Or.inr (hafter e he)
            · exact hapart e (hsubset e he) f hf
          have hnextloop := ih hi₃ hc₃ hp₁ (hini₁.trans hini) hbeg₁ hapart₁ (by omega) (by omega)
          rcases hnextloop with hfail | ⟨chain', parent', hloop, hs⟩
          · exact Or.inl hfail
          · exact Or.inr ⟨chain', parent', hloop, hs.drained, hs.inv, hs.count.trans hcount₁,
              hs.view.trans hall⟩

end Shift

/-- An indirect block of a parent. Its elements are in its key range. -/
structure UnderParent (parent chain : ChainCore) (block : MemChain) : Prop where
  parentInv : parent.Inv
  chainInv : chain.Inv
  mem : block ∈ parent.rbtree
  within : ∀ e ∈ chain.view, block.bref.key ≤ e.key ∧ e.last ≤ block.bref.last

/-- The block is gone and its elements are in the parent, which has room for them, or nothing has
changed. -/
def Collapses (parent chain : ChainCore) (block : MemChain) : Nat × ChainCore × ChainCore → Prop
  | (ret, parent', chain') =>
    ret = 1 ∧ parent'.view.Perm (parent.view.erase block.bref ++ chain.view) ∧
        parent'.view.length ≤ parent.count ∨
      ret = 0 ∧ parent'.view.Perm parent.view ∧ chain'.view.Perm chain.view

section Maintenance

variable {parent chain : ChainCore} {block : MemChain}

theorem accurate_spec (hi : chain.Inv) :
    chain.accurate.Inv ∧ (chain.view ≠ [] → chain.accurate.counted = true) ∧
      chain.accurate.view = chain.view ∧ chain.accurate.count = chain.count := by
  unfold accurate
  split
  next =>
    obtain ⟨hi', hc, hview, hcount, -⟩ := countbrefs_spec hi
    exact ⟨hi', fun _ => hc, hview, hcount⟩
  next hn =>
    refine ⟨hi, fun hne => ?_, rfl, rfl⟩
    by_contra hc
    have htree : chain.rbtree = [] := by
      by_contra htree
      exact hc (hi.counted htree)
    have hnil : chain.elements = [] := by
      refine hi.initial (Bool.eq_true_of_not_eq_false fun hini => ?_)
      exact hn ⟨hini, Bool.eq_false_iff.mpr hc⟩
    refine hne ?_
    unfold ChainCore.view
    rw [htree, hnil]
    rfl

theorem liveCount_eq (hi : chain.Inv) (hc : chain.counted = true) :
    chain.liveCount = chain.view.length := by
  have hlc := hi.liveCount
  rw [hlc, hc]
  exact Int.sub_zero _

/-- The emptiness test of the source. -/
theorem drained_accurate_iff (hi : chain.Inv) : chain.accurate.drained = true ↔ chain.view = [] := by
  obtain ⟨hi', hc, hview, -⟩ := accurate_spec hi
  refine ⟨fun h => ?_, fun h => drained_of_view hi' (hview.trans h)⟩
  by_contra hne
  have hzero : chain.accurate.liveCount = 0 := by
    unfold drained at h
    exact (decide_eq_true_eq.mp h).1
  rw [liveCount_eq hi' (hc hne), hview] at hzero
  exact hne (List.eq_nil_of_length_eq_zero (by omega))

/-- A deleted chain leaves the other elements. -/
theorem erase_view {d : ChainCore} (hview : parent.view.Perm (block.bref :: d.view)) :
    (parent.view.erase block.bref).Perm d.view := by
  have herase := hview.erase block.bref
  rwa [List.erase_cons_head] at herase

theorem UnderParent.not_initial (h : UnderParent parent chain block) (hm : block.blkmapped = true) :
    parent.initial = false := by
  rw [Bool.eq_false_iff]
  intro hini
  obtain ⟨e, he, -⟩ := (h.parentInv.mapped block h.mem).mp hm
  have hnil := h.parentInv.initial hini
  rw [hnil] at he
  cases he

/-- An empty block whose deletion fails stays, and the result is 1 all the same. -/
theorem maintenance_empty_failed (env : CollapseEnv) (h : UnderParent parent chain block)
    (hnil : chain.view = [])
    (hm : block.blkmapped = true) (hmod : env.modifyDelete ≠ 0) :
    chainIndirectMaintenance env parent chain block = some (1, parent, chain.accurate) := by
  unfold chainIndirectMaintenance
  simp only
  rw [if_pos ((drained_accurate_iff h.chainInv).mpr hnil),
    chainDelete_failed (h.parentInv.present block h.mem) hm (h.not_initial hm) hmod]
  rfl

theorem maintenance_empty (env : CollapseEnv) (h : UnderParent parent chain block) (hnil : chain.view = [])
    (hmod : block.blkmapped = true → env.modifyDelete = 0) :
    ∃ r, chainIndirectMaintenance env parent chain block = some r ∧ Collapses parent chain block r := by
  obtain ⟨d, hdel, -, -, hi, -, -, hcount, hview, -⟩ := chainDelete_spec h.parentInv h.mem hmod
  refine ⟨(1, d.parent, chain.accurate), ?_, Or.inl ⟨rfl, ?_, ?_⟩⟩
  · unfold chainIndirectMaintenance
    simp only
    rw [if_pos ((drained_accurate_iff h.chainInv).mpr hnil), hdel]
    rfl
  · rw [hnil, List.append_nil]
    exact (erase_view hview).symm
  · exact hcount ▸ hi.fits

theorem accurate_of_counted (hc : chain.counted = true) : chain.accurate = chain := by
  unfold accurate
  rw [if_neg]
  rintro ⟨-, h⟩
  rw [hc] at h
  cases h

theorem Collapses.unchanged {chain' : ChainCore} (hview : chain'.view = chain.view) :
    Collapses parent chain block (0, parent, chain') :=
  Or.inr ⟨rfl, List.Perm.refl _, hview ▸ List.Perm.refl _⟩

/-- The move of the elements of `chain'`, which are those of the block, once the block is deleted. -/
theorem maintenance_shift (env : CollapseEnv) (h : UnderParent parent chain block)
    {chain' : ChainCore} (hi : chain'.Inv)
    (hc : chain'.counted = true) (hview : chain'.view = chain.view)
    (hroom : parent.view.length + chain.view.length ≤ parent.count + 1)
    (hmod : block.blkmapped = true → env.modifyDelete = 0) :
    ∃ d, chainDelete { parent with initial := false } block env.modifyDelete = some d ∧ d.error = 0 ∧
      (shiftLoop (fun _ => true) env.modifySub (chain'.count + 1) chain'.cleanStats d.parent 0 = none ∧
          (∃ n, env.modifySub n ≠ 0) ∨
        ∃ chain'' parent', shiftLoop (fun _ => true) env.modifySub (chain'.count + 1) chain'.cleanStats
            d.parent 0 = some (chain'', parent') ∧ chain''.drained = true ∧
          Collapses parent chain block (1, parent', chain'')) := by
  have hp := h.parentInv
  have hp' : ({ parent with initial := false } : ChainCore).Inv :=
    ⟨hp.sorted, hp.counted, hp.live, fun hf => (by cases hf), hp.tree, hp.loaded, hp.present, hp.mapped,
      hp.liveCount, hp.fits⟩
  obtain ⟨d, hdel, herr, -, hd, -, hdini, hdcount, hdview, -⟩ := chainDelete_spec hp' h.mem hmod
  have hlen := hdview.length_eq
  have hpair := hp'.view_apart
  rw [hdview.pairwise_iff fun h => h.symm] at hpair
  have hclean : chain'.cleanStats.Inv :=
    ⟨hi.sorted, hi.counted, hi.live, fun hf => (by cases hf), hi.tree, hi.loaded, hi.present, hi.mapped,
      hi.liveCount, hi.fits⟩
  have hcview : chain'.cleanStats.view = chain.view := hview
  have hapart : ∀ e ∈ chain'.cleanStats.view, ∀ f ∈ d.parent.view, e.Apart f := by
    intro e he f hf
    obtain ⟨hlo, hhi⟩ := h.within e (hcview ▸ he)
    have hbeside := (List.pairwise_cons.mp hpair).1 f hf
    unfold Bref.Apart Bref.Before at *
    omega
  refine ⟨d, hdel, herr, ?_⟩
  have hcount : d.parent.count = parent.count := hdcount
  have hplen : parent.view.length = d.parent.view.length + 1 := hlen
  have hfits := hi.fits
  have hshift := shiftLoop_all env.modifySub hclean hc hd (hdini.trans rfl)
    (fun e _ => Nat.zero_le e.last) hapart (by rw [hcview]; omega) (Nat.lt_succ_of_le hfits)
  rcases hshift with hfail | ⟨chain'', parent', hloop, hs⟩
  · exact Or.inl hfail
  · refine Or.inr ⟨chain'', parent', hloop, hs.drained, Or.inl ⟨rfl, ?_, ?_⟩⟩
    · have hmoved := hs.view
      rw [hcview] at hmoved
      exact hmoved.trans ((erase_view hdview).symm.append_right _)
    · have hle := hs.inv.fits
      rwa [hs.count, hcount] at hle

/-- A block that is not empty stays with all its elements, or they all go to the parent, unless an
assertion fails. -/
theorem maintenance_elements (env : CollapseEnv) (h : UnderParent parent chain block) (hne : chain.view ≠ []) :
    chainIndirectMaintenance env parent chain block = none ∧
        (env.modifyDelete ≠ 0 ∨ ∃ n, env.modifySub n ≠ 0) ∨
      ∃ r, chainIndirectMaintenance env parent chain block = some r ∧ Collapses parent chain block r := by
  obtain ⟨hi, hc, hview, hcount⟩ := accurate_spec h.chainInv
  have hpc := h.parentInv.counted (List.ne_nil_of_mem h.mem)
  have hplen := liveCount_eq h.parentInv hpc
  have hlen := liveCount_eq hi (hc hne)
  rw [hview] at hlen
  unfold chainIndirectMaintenance
  simp only [accurate_of_counted hpc]
  rw [if_neg (fun hd => hne ((drained_accurate_iff h.chainInv).mp hd))]
  split
  next => exact Or.inr ⟨_, rfl, Collapses.unchanged hview⟩
  next hsum =>
    split
    next => exact Or.inr ⟨_, rfl, Collapses.unchanged hview⟩
    next =>
      split
      next => exact Or.inr ⟨_, rfl, Collapses.unchanged hview⟩
      next =>
        split
        next => exact Or.inr ⟨_, rfl, Collapses.unchanged hview⟩
        next =>
          by_cases hmod : block.blkmapped = true ∧ env.modifyDelete ≠ 0
          · left
            rw [chainDelete_failed (h.parentInv.present block h.mem) hmod.1 rfl hmod.2]
            simp only [hmod.2, ne_eq, not_false_eq_true, if_true, true_and, true_or]
          · obtain ⟨d, hdel, herr, hshift⟩ := maintenance_shift env h hi (hc hne) hview (by omega)
              fun hm => by
                by_contra hne
                exact hmod ⟨hm, hne⟩
            rw [hdel]
            simp only [herr, ne_eq, not_true, if_false]
            rcases hshift with ⟨hnone, hsub⟩ | ⟨chain'', parent', hloop, hdrained, hcol⟩
            · rw [hnone]
              exact Or.inl ⟨rfl, Or.inr hsub⟩
            · rw [hloop]
              simp only [hdrained, if_true]
              exact Or.inr ⟨_, rfl, hcol⟩

/-- A maintenance of an indirect block that is in its parent moves all its elements or changes
nothing, as the result says, if and only if the deletion of an empty block does not fail. It gets to
its end if no assertion on an error fails. -/
theorem indirectMaintenance_exact_iff (env : CollapseEnv) (h : UnderParent parent chain block) :
    ((∀ r, chainIndirectMaintenance env parent chain block = some r → Collapses parent chain block r) ↔
        ¬(chain.view = [] ∧ block.blkmapped = true ∧ env.modifyDelete ≠ 0)) ∧
      (env.modifyDelete = 0 → (∀ n, env.modifySub n = 0) →
        ∃ r, chainIndirectMaintenance env parent chain block = some r) := by
  by_cases hnil : chain.view = []
  · by_cases hfail : block.blkmapped = true ∧ env.modifyDelete ≠ 0
    · have hmaint := maintenance_empty_failed env h hnil hfail.1 hfail.2
      refine ⟨iff_of_false (fun hall => ?_) (fun hn => hn ⟨hnil, hfail⟩), fun hz _ => absurd hz hfail.2⟩
      rcases hall _ hmaint with ⟨-, hperm, -⟩ | ⟨hone, -⟩
      · have hlen := hperm.length_eq
        have hmem := Inv.chain_mem_view h.mem
        rw [hnil, List.append_nil, List.length_erase_of_mem hmem] at hlen
        have hpos := List.length_pos_of_mem hmem
        omega
      · cases hone
    · obtain ⟨r, hmaint, hcol⟩ := maintenance_empty env h hnil fun hm => by
        by_contra hne
        exact hfail ⟨hm, hne⟩
      refine ⟨iff_of_true (fun r' hr' => ?_) (fun hn => hfail hn.2), fun _ _ => ⟨r, hmaint⟩⟩
      rw [hmaint] at hr'
      cases Option.some.inj hr'
      exact hcol
  · rcases maintenance_elements env h hnil with ⟨hnone, hfail⟩ | ⟨r, hmaint, hcol⟩
    · refine ⟨iff_of_true (fun r hr => ?_) (fun hn => hnil hn.1), fun hz hsub => ?_⟩
      · rw [hnone] at hr
        cases hr
      · rcases hfail with hne | ⟨n, hne⟩
        · exact absurd hz hne
        · exact absurd (hsub n) hne
    · refine ⟨iff_of_true (fun r' hr' => ?_) (fun hn => hnil hn.1), fun _ _ => ⟨r, hmaint⟩⟩
      rw [hmaint] at hr'
      cases Option.some.inj hr'
      exact hcol

end Maintenance

/-- A 4KB indirect block for the first megabyte of the key space. -/
def indirectBref : Bref where
  type := .indirect
  key := 0
  keybits := 20
  dataOff := 12
  stats := ⟨0, 0, 0⟩
  keybits_lt := by decide
  fits := by decide

def blockChain : MemChain := ⟨indirectBref, false, true, false⟩

/-- An inode with the block as its only element. -/
def inodeCore : ChainCore where
  array := ⟨some indirectBref :: List.replicate 3 none, 1, 0, ⟨0, 4096, 0⟩⟩
  rbtree := [blockChain]
  liveCount := 1
  counted := true
  initial := false

/-- The block without elements. -/
def emptyCore : ChainCore where
  array := ⟨List.replicate 32 none, 0, 0, ⟨0, 0, 0⟩⟩
  rbtree := []
  liveCount := 0
  counted := true
  initial := false

def smallBref (n : Nat) : Bref := dataBref (n % 1024) (Nat.mod_lt n (by decide))

/-- The block with an element on the media, one that is in memory too, and one that is not yet on
the media. -/
def usedCore : ChainCore where
  array := ⟨some (smallBref 1) :: some (smallBref 3) :: List.replicate 30 none, 2, 0, ⟨2, 32768, 0⟩⟩
  rbtree := [⟨smallBref 3, false, true, false⟩, ⟨smallBref 5, false, false, false⟩]
  liveCount := 3
  counted := true
  initial := false

theorem inodeCore_inv : inodeCore.Inv := by
  constructor <;> decide

/-- `hammer2_chain_modify` of the parent runs out of space when the empty block is deleted. -/
theorem indirectMaintenance_keeps_block :
    ¬∀ (env : CollapseEnv) (parent chain : ChainCore) (block : MemChain), UnderParent parent chain block →
      ∀ r, chainIndirectMaintenance env parent chain block = some r → Collapses parent chain block r := by
  intro hall
  have hempty : UnderParent inodeCore emptyCore blockChain :=
    ⟨inodeCore_inv, by constructor <;> decide, by decide, by decide⟩
  have hmaint := maintenance_empty_failed ⟨0, 0, 0x20, fun _ => 0⟩ hempty rfl rfl (by decide)
  rcases hall _ _ _ _ hempty _ hmaint with ⟨-, hperm, -⟩ | ⟨hone, -⟩
  · exact absurd hperm.length_eq (by decide)
  · cases hone

theorem indirectMaintenance_exact_iff_used :
    ∃ r, chainIndirectMaintenance ⟨0, 0, 0, fun _ => 0⟩ inodeCore usedCore blockChain = some r ∧
      r.1 = 1 ∧ r.2.1.view.map Bref.key = [16384, 49152, 81920] ∧
      Collapses inodeCore usedCore blockChain r := by
  have hused : UnderParent inodeCore usedCore blockChain :=
    ⟨inodeCore_inv, by constructor <;> decide, by decide, by decide⟩
  have hrun : (chainIndirectMaintenance ⟨0, 0, 0, fun _ => 0⟩ inodeCore usedCore blockChain).map
      (fun r => (r.1, r.2.1.view.map Bref.key)) = some (1, [16384, 49152, 81920]) := by decide
  obtain ⟨hexact, hends⟩ := indirectMaintenance_exact_iff ⟨0, 0, 0, fun _ => 0⟩ hused
  obtain ⟨r, hr⟩ := hends rfl fun _ => rfl
  rw [hr] at hrun
  obtain ⟨hone, hkeys⟩ := Prod.mk.inj (Option.some.inj hrun)
  exact ⟨r, hr, hone, hkeys, hexact.mpr (by decide) r hr⟩

end Hammer2
