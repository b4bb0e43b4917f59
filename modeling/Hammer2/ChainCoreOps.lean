import Hammer2.ChainCore
import Hammer2.BrefArrayRun

namespace Hammer2

open SlotList

/-- The ranges of two elements do not overlap. -/
def Bref.Apart (e f : Bref) : Prop := e.Before f ∨ f.Before e

theorem Bref.Apart.symm {e f : Bref} (h : e.Apart f) : f.Apart e := Or.symm h

theorem Bref.Apart.key_ne {e f : Bref} (h : e.Apart f) : e.key ≠ f.key := by
  rcases h with hlt | hgt
  · exact (Bref.before_trichotomy_key hlt).ne
  · exact (Bref.before_trichotomy_key hgt).ne'

/-- Only the range of an element matters. -/
theorem Bref.Apart.congr {e f g : Bref} (h : e.Apart f) (hkey : f.key = g.key)
    (hbits : f.keybits = g.keybits) : e.Apart g := by
  unfold Bref.Apart Bref.Before Bref.last at *
  rw [hkey, hbits] at h
  exact h

section View

variable {tree tree' : List MemChain} {elems elems' : List Bref} {chain : MemChain} {e : Bref}

theorem viewOf_perm (ht : tree.Perm tree') (he : elems.Perm elems') :
    (viewOf tree elems).Perm (viewOf tree' elems') := by
  unfold viewOf
  have hmem : ∀ e : Bref, (∀ chain ∈ tree, chain.bref.key ≠ e.key) ↔
      ∀ chain ∈ tree', chain.bref.key ≠ e.key := by
    intro e
    exact ⟨fun h chain hc => h chain (ht.mem_iff.mpr hc), fun h chain hc => h chain (ht.mem_iff.mp hc)⟩
  simp only [hmem]
  exact (ht.map MemChain.bref).append (he.filter _)

/-- A chain that overrides no element. -/
theorem viewOf_cons_chain (h : ∀ e ∈ elems, e.key ≠ chain.bref.key) :
    viewOf (chain :: tree) elems = chain.bref :: viewOf tree elems := by
  unfold viewOf
  rw [List.map_cons, List.cons_append]
  congr 2
  refine List.filter_congr fun e he => ?_
  have hne := h e he
  simp only [List.forall_mem_cons, ne_eq, hne.symm, not_false_eq_true, true_and]

/-- An element that a chain overrides. -/
theorem viewOf_cons_loaded (h : ∃ chain ∈ tree, chain.bref.key = e.key) :
    viewOf tree (e :: elems) = viewOf tree elems := by
  obtain ⟨chain, hc, hkey⟩ := h
  unfold viewOf
  rw [List.filter_cons_of_neg]
  rw [decide_eq_true_eq]
  exact fun hall => hall chain hc hkey

/-- An element that no chain overrides. -/
theorem viewOf_cons_unloaded (h : ∀ chain ∈ tree, chain.bref.key ≠ e.key) :
    (viewOf tree (e :: elems)).Perm (e :: viewOf tree elems) := by
  unfold viewOf
  rw [List.filter_cons_of_pos]
  · exact List.perm_middle
  · exact decide_eq_true h

theorem mem_viewOf : e ∈ viewOf tree elems ↔
    (∃ chain ∈ tree, chain.bref = e) ∨ e ∈ elems ∧ ∀ chain ∈ tree, chain.bref.key ≠ e.key := by
  unfold viewOf
  rw [List.mem_append, List.mem_map, List.mem_filter, decide_eq_true_eq]

/-- A chain with its element, apart from the other elements. -/
theorem viewOf_cons {o : Option Bref} (ho : ∀ f ∈ o, f.key = chain.bref.key)
    (h : ∀ e ∈ elems, e.key ≠ chain.bref.key) :
    viewOf (chain :: tree) (o.toList ++ elems) = chain.bref :: viewOf tree elems := by
  cases o with
  | none => exact viewOf_cons_chain h
  | some f =>
    have hkey := ho f rfl
    rw [Option.toList_some, List.singleton_append,
      viewOf_cons_loaded ⟨chain, List.mem_cons_self, hkey.symm⟩, viewOf_cons_chain h]

end View

section Tree

variable {tree : List MemChain}

/-- A chain beside all others goes to its place. -/
theorem chainTreeInsert_spec (chain : MemChain) (hs : (tree.map MemChain.bref).Pairwise Bref.Before)
    (hapart : ∀ cur ∈ tree, chain.bref.Apart cur.bref) :
    ∃ tree', chainTreeInsert chain tree = some tree' ∧ tree'.Perm (chain :: tree) ∧
      (tree'.map MemChain.bref).Pairwise Bref.Before := by
  induction tree with
  | nil => exact ⟨[chain], rfl, List.Perm.refl _, List.pairwise_singleton _ _⟩
  | cons cur rest ih =>
    obtain ⟨hhead, htail⟩ := List.pairwise_cons.mp hs
    unfold chainTreeInsert
    rcases hapart cur List.mem_cons_self with hlt | hgt
    · have hcmp : chainCmp chain cur < 0 := by
        have hlt' : chain.bref.last < cur.bref.key := hlt
        unfold chainCmp
        rw [if_pos hlt']
        decide
      rw [if_pos hcmp]
      refine ⟨_, rfl, List.Perm.refl _, List.pairwise_cons.mpr ⟨fun e he => ?_, hs⟩⟩
      rcases List.mem_cons.mp he with rfl | he
      · exact hlt
      · exact Bref.Before.trans hlt (hhead e he)
    · have hcmp : chainCmp chain cur = 1 := by
        have hle := chain.bref.key_le_last
        have hle' := cur.bref.key_le_last
        have hgt' : cur.bref.last < chain.bref.key := hgt
        unfold chainCmp
        rw [if_neg (by omega), if_pos hgt']
      rw [hcmp, if_neg (by decide), if_pos (by decide)]
      obtain ⟨tree', hins, hperm, hsorted⟩ := ih htail fun c hc => hapart c (List.mem_cons_of_mem _ hc)
      rw [hins]
      refine ⟨cur :: tree', rfl, (hperm.cons cur).trans (List.Perm.swap _ _ _),
        List.pairwise_cons.mpr ⟨fun e he => ?_, hsorted⟩⟩
      have he' := (hperm.map MemChain.bref).mem_iff.mp he
      rcases List.mem_cons.mp he' with rfl | he'
      · exact hgt
      · exact hhead e he'

/-- A chain of the tree is beside all others. -/
theorem apart_of_perm_cons {chain : MemChain} {tree' : List MemChain}
    (hs : (tree.map MemChain.bref).Pairwise Bref.Before)
    (hperm : tree.Perm (chain :: tree')) : ∀ c ∈ tree', chain.bref.Apart c.bref := by
  have hpair : (tree.map MemChain.bref).Pairwise Bref.Apart := hs.imp Or.inl
  rw [(hperm.map MemChain.bref).pairwise_iff fun h => h.symm] at hpair
  intro c hc
  exact (List.pairwise_cons.mp hpair).1 c.bref (List.mem_map_of_mem hc)

end Tree

namespace ChainCore

/-- What holds of a core between operations. A chain is block-mapped if and only if the array has an
element with its key. The elements of the array are counted before a chain goes into the tree, and
`live_count` is the size of the merged view without those that are not counted yet. -/
structure Inv (core : ChainCore) : Prop where
  sorted : core.elements.Pairwise Bref.Before
  counted : core.rbtree ≠ [] → core.counted = true
  live : core.counted = true → core.array.liveZero = stop core.array.base core.count
  initial : core.initial = true → core.elements = []
  tree : (core.rbtree.map MemChain.bref).Pairwise Bref.Before
  loaded : ∀ chain ∈ core.rbtree, ∀ e ∈ core.elements,
    chain.bref.key = e.key ∧ chain.bref.keybits = e.keybits ∨ chain.bref.Before e ∨
      e.Before chain.bref
  present : ∀ chain ∈ core.rbtree, chain.deleted = false
  mapped : ∀ chain ∈ core.rbtree, chain.blkmapped = true ↔ ∃ e ∈ core.elements, e.key = chain.bref.key
  liveCount : core.liveCount = core.view.length - if core.counted then 0 else core.elements.length
  fits : core.view.length ≤ core.count

variable {core : ChainCore} {chain : MemChain} {e : Bref}

/-- The merged view is what `hammer2_combined_find` looks at. -/
theorem mem_view : e ∈ core.view ↔ ∃ m, InUnion core.array core.rbtree m ∧ m.bref = e := by
  unfold view
  rw [mem_viewOf]
  constructor
  · rintro (⟨chain, hc, rfl⟩ | ⟨he, hne⟩)
    · exact ⟨⟨chain.bref, some chain⟩, Or.inl ⟨chain, hc, rfl⟩, rfl⟩
    · exact ⟨⟨e, none⟩, Or.inr ⟨rfl, he, hne⟩, rfl⟩
  · rintro ⟨m, ⟨chain, hc, rfl⟩ | ⟨-, he, hne⟩, rfl⟩
    · exact Or.inl ⟨chain, hc, rfl⟩
    · exact Or.inr ⟨he, hne⟩

theorem Inv.arrayInv (hi : core.Inv) (h : core.counted = true) :
    core.array.Inv :=
  ⟨hi.sorted, hi.live h⟩

theorem Inv.mergeInv (hi : core.Inv) (h : core.counted = true) :
    MergeInv core.array core.rbtree :=
  ⟨hi.arrayInv h, hi.tree, hi.loaded⟩

theorem Inv.chain_mem_view (hc : chain ∈ core.rbtree) : chain.bref ∈ core.view :=
  mem_viewOf.mpr (Or.inl ⟨chain, hc, rfl⟩)

/-- An element of the array is in the merged view, as it is or as its chain. -/
theorem Inv.element (hi : core.Inv) (he : e ∈ core.elements) :
    ∃ f ∈ core.view, f.key = e.key ∧ f.keybits = e.keybits := by
  by_cases h : ∀ chain ∈ core.rbtree, chain.bref.key ≠ e.key
  · exact ⟨e, mem_viewOf.mpr (Or.inr ⟨he, h⟩), rfl, rfl⟩
  · push Not at h
    obtain ⟨chain, hc, hkey⟩ := h
    refine ⟨chain.bref, Inv.chain_mem_view hc, hkey, ?_⟩
    rcases hi.loaded chain hc e he with ⟨-, hbits⟩ | hlt | hgt
    · exact hbits
    · exact absurd (Bref.before_trichotomy_key hlt) (by omega)
    · exact absurd (Bref.before_trichotomy_key hgt) (by omega)

theorem pairwise_before_nodup {l : List Bref} (h : l.Pairwise Bref.Before) : (l.map Bref.key).Nodup := by
  refine List.pairwise_map.mpr (h.imp fun hlt => ?_)
  have hkey := Bref.before_trichotomy_key hlt
  omega

/-- The array has no more elements than the merged view. -/
theorem Inv.elements_le (hi : core.Inv) : core.elements.length ≤ core.view.length := by
  have hsub : core.elements.map Bref.key ⊆ core.view.map Bref.key := by
    intro k hk
    obtain ⟨e, he, rfl⟩ := List.mem_map.mp hk
    obtain ⟨f, hf, hkey, -⟩ := hi.element he
    exact hkey ▸ List.mem_map_of_mem hf
  have hle := ((pairwise_before_nodup hi.sorted).subperm hsub).length_le
  rwa [List.length_map, List.length_map] at hle

/-- The elements of the merged view do not overlap. -/
theorem Inv.view_apart (hi : core.Inv) : core.view.Pairwise Bref.Apart := by
  unfold view viewOf
  refine List.pairwise_append.mpr ⟨hi.tree.imp Or.inl,
    (hi.sorted.sublist List.filter_sublist).imp Or.inl, fun e he f hf => ?_⟩
  obtain ⟨chain, hc, rfl⟩ := List.mem_map.mp he
  obtain ⟨hf, hne⟩ := List.mem_filter.mp hf
  rcases hi.loaded chain hc f hf with ⟨hkey, -⟩ | ha
  · exact absurd hkey (decide_eq_true_eq.mp hne chain hc)
  · exact ha

/-- `core'` is `core` with one more chain, and with its element if it is block-mapped. -/
structure Joins (core core' : ChainCore) (chain : MemChain) (o : Option Bref) : Prop where
  tree : core'.rbtree.Perm (chain :: core.rbtree)
  elems : core'.elements.Perm (o.toList ++ core.elements)
  same : ∀ f ∈ o, f.key = chain.bref.key ∧ f.keybits = chain.bref.keybits
  mapped : chain.blkmapped = o.isSome
  count : core'.count = core.count

section Joins

variable {core' : ChainCore} {o : Option Bref}

theorem Joins.view (h : Joins core core' chain o) (hne : ∀ e ∈ core.elements, e.key ≠ chain.bref.key) :
    core'.view.Perm (chain.bref :: core.view) := by
  have hperm := viewOf_perm h.tree h.elems
  rw [viewOf_cons (fun f hf => (h.same f hf).1) hne] at hperm
  exact hperm

/-- An element with the key of a block-mapped chain, besides the elements of the rest. -/
theorem Joins.exists_key (h : Joins core core' chain o) {k : Nat} :
    (∃ e ∈ core'.elements, e.key = k) ↔
      chain.blkmapped = true ∧ chain.bref.key = k ∨ ∃ e ∈ core.elements, e.key = k := by
  have hmapped := h.mapped
  constructor
  · rintro ⟨e, he, hk⟩
    rcases List.mem_append.mp (h.elems.mem_iff.mp he) with ho | he
    · have ho := Option.mem_toList.mp ho
      refine Or.inl ⟨?_, (h.same e ho).1.symm.trans hk⟩
      rw [hmapped, Option.mem_def.mp ho]
      rfl
    · exact Or.inr ⟨e, he, hk⟩
  · rintro (⟨hm, hk⟩ | ⟨e, he, hk⟩)
    · obtain ⟨f, hf⟩ := Option.isSome_iff_exists.mp (hmapped ▸ hm)
      refine ⟨f, h.elems.mem_iff.mpr (List.mem_append_left _ ?_), (h.same f hf).1.trans hk⟩
      exact Option.mem_toList.mpr hf
    · exact ⟨e, h.elems.mem_iff.mpr (List.mem_append_right _ he), hk⟩

/-- A chain beside everything in the merged view, put into a core that has room. -/
theorem Joins.insert (h : Joins core core' chain o) (hi : core.Inv) (hc : core.counted = true)
    (hc' : core'.counted = true) (hsorted : core'.elements.Pairwise Bref.Before)
    (hlive : core'.array.liveZero = stop core'.array.base core'.count)
    (hinitial : core'.initial = true → core'.elements = [])
    (htree : (core'.rbtree.map MemChain.bref).Pairwise Bref.Before) (hpresent : chain.deleted = false)
    (hapart : ∀ e ∈ core.view, chain.bref.Apart e) (hroom : core.view.length < core.count)
    (hcount : core'.liveCount = core.liveCount + 1) :
    core'.Inv ∧ core'.view.Perm (chain.bref :: core.view) := by
  have hbeside : ∀ e ∈ core.elements, chain.bref.Apart e := by
    intro e he
    obtain ⟨f, hf, hkey, hbits⟩ := hi.element he
    exact (hapart f hf).congr hkey hbits
  have hview := h.view fun e he => (hbeside e he).key_ne.symm
  have hlen := hview.length_eq
  have hkeys : ∀ c ∈ core.rbtree, chain.bref.key ≠ c.bref.key :=
    fun c hc => (hapart c.bref (Inv.chain_mem_view hc)).key_ne
  rw [List.length_cons] at hlen
  refine ⟨⟨hsorted, fun _ => hc', fun _ => hlive, hinitial, htree, ?_, ?_, ?_, ?_, ?_⟩, hview⟩
  · intro c hcm e he
    rcases List.mem_cons.mp (h.tree.mem_iff.mp hcm) with rfl | hcm
    · rcases List.mem_append.mp (h.elems.mem_iff.mp he) with ho | he
      · obtain ⟨hkey, hbits⟩ := h.same e (Option.mem_toList.mp ho)
        exact Or.inl ⟨hkey.symm, hbits.symm⟩
      · exact Or.inr (hbeside e he)
    · rcases List.mem_append.mp (h.elems.mem_iff.mp he) with ho | he
      · obtain ⟨hkey, hbits⟩ := h.same e (Option.mem_toList.mp ho)
        have ha := hapart c.bref (Inv.chain_mem_view hcm)
        exact Or.inr (ha.symm.congr hkey.symm hbits.symm)
      · exact hi.loaded c hcm e he
  · intro c hcm
    rcases List.mem_cons.mp (h.tree.mem_iff.mp hcm) with rfl | hcm
    · exact hpresent
    · exact hi.present c hcm
  · intro c hcm
    rw [h.exists_key]
    rcases List.mem_cons.mp (h.tree.mem_iff.mp hcm) with rfl | hcm
    · refine ⟨fun hm => Or.inl ⟨hm, rfl⟩, ?_⟩
      rintro (⟨hm, -⟩ | ⟨e, he, hk⟩)
      · exact hm
      · exact absurd hk.symm (hbeside e he).key_ne
    · rw [hi.mapped c hcm]
      refine ⟨Or.inr, ?_⟩
      rintro (⟨-, hk⟩ | hex)
      · exact absurd hk (hkeys c hcm)
      · exact hex
  · have hlc := hi.liveCount
    rw [hc', hcount, hlc, hc, hlen]
    simp only [if_true]
    omega
  · rw [h.count, hlen]
    exact hroom

/-- What is left when a chain is taken out together with its element. -/
theorem Joins.remove (h : Joins core core' chain o) (hi : core'.Inv)
    (hsorted : core.elements.Pairwise Bref.Before)
    (hlive : core.array.liveZero = stop core.array.base core.count)
    (hinitial : core.initial = true → core'.initial = true) (hcounted : core.counted = core'.counted)
    (htree : (core.rbtree.map MemChain.bref).Pairwise Bref.Before)
    (hcount : core.liveCount = core'.liveCount - 1) :
    core.Inv ∧ core'.view.Perm (chain.bref :: core.view) := by
  have hmem : chain ∈ core'.rbtree := h.tree.mem_iff.mpr List.mem_cons_self
  have hc := hi.counted (List.ne_nil_of_mem hmem)
  have hbeside := apart_of_perm_cons hi.tree h.tree
  have hsub : ∀ e ∈ core.elements, e ∈ core'.elements :=
    fun e he => h.elems.mem_iff.mpr (List.mem_append_right _ he)
  have hne : ∀ e ∈ core.elements, e.key ≠ chain.bref.key := by
    intro e he hk
    cases o with
    | none =>
      have hm := (hi.mapped chain hmem).mpr ⟨e, hsub e he, hk⟩
      rw [h.mapped] at hm
      cases hm
    | some f =>
      have hnodup := (h.elems.map Bref.key).nodup_iff.mp (pairwise_before_nodup hi.sorted)
      rw [Option.toList_some, List.singleton_append, List.map_cons] at hnodup
      refine (List.nodup_cons.mp hnodup).1 ?_
      rw [(h.same f rfl).1, ← hk]
      exact List.mem_map_of_mem he
  have hview := h.view hne
  have hlen := hview.length_eq
  rw [List.length_cons] at hlen
  refine ⟨⟨hsorted, fun _ => hcounted.trans hc, fun _ => hlive, ?_, htree, ?_, ?_, ?_, ?_, ?_⟩, hview⟩
  · intro hini
    have hnil := hi.initial (hinitial hini)
    refine List.eq_nil_iff_forall_not_mem.mpr fun e he => ?_
    have hin := hsub e he
    rw [hnil] at hin
    cases hin
  · intro c hcm e he
    exact hi.loaded c (h.tree.mem_iff.mpr (List.mem_cons_of_mem _ hcm)) e (hsub e he)
  · intro c hcm
    exact hi.present c (h.tree.mem_iff.mpr (List.mem_cons_of_mem _ hcm))
  · intro c hcm
    rw [hi.mapped c (h.tree.mem_iff.mpr (List.mem_cons_of_mem _ hcm)), h.exists_key]
    refine ⟨?_, Or.inr⟩
    rintro (⟨-, hk⟩ | hex)
    · exact absurd hk (hbeside c hcm).key_ne
    · exact hex
  · have hlc := hi.liveCount
    rw [hcount, hlc, hcounted, hc, hlen]
    simp only [if_true]
    omega
  · have hfits := hi.fits
    rw [h.count] at hfits
    omega

end Joins

theorem stop_of_elements_nil {α : Type} {l : List (Option α)} (h : SlotList.elements l = []) (n : Nat) :
    stop l n = 0 := by
  by_contra hne
  obtain ⟨a, ha⟩ := slot_pred_stop (Nat.pos_of_ne_zero hne)
  have hmem := mem_elements.mpr ⟨_, ha⟩
  rw [h] at hmem
  cases hmem

/-- Counting changes the counter, not the elements. -/
theorem countbrefs_spec (hi : core.Inv) :
    core.countbrefs.Inv ∧ core.countbrefs.counted = true ∧ core.countbrefs.view = core.view ∧
      core.countbrefs.count = core.count ∧ core.countbrefs.initial = core.initial := by
  unfold countbrefs
  split
  next hc => exact ⟨hi, hc, rfl, rfl, rfl⟩
  next hc =>
    have hlc := hi.liveCount
    rw [if_neg hc] at hlc
    split
    next hini =>
      have hnil := hi.initial hini
      refine ⟨⟨hi.sorted, fun _ => rfl, fun _ => ?_, hi.initial, hi.tree, hi.loaded, hi.present,
          hi.mapped, ?_, hi.fits⟩,
        rfl, rfl, rfl, rfl⟩
      · exact (stop_of_elements_nil hnil _).symm
      · rw [hnil] at hlc
        exact hlc
    next hini =>
      refine ⟨⟨hi.sorted, fun _ => rfl, fun _ => rfl, hi.initial, hi.tree, hi.loaded, hi.present,
          hi.mapped, ?_, hi.fits⟩,
        rfl, rfl, rfl, rfl⟩
      simp only [if_true]
      rw [hlc]
      exact (Int.sub_add_cancel _ _).trans (Int.sub_zero _).symm

end ChainCore

section Ops

variable {core : ChainCore} {chain : MemChain}

/-- A deletion fails only if the chain is block-mapped and the parent cannot be modified, and then
it changes nothing. -/
theorem chainDelete_failed (hdel : chain.deleted = false) (hm : chain.blkmapped = true)
    (hini : core.initial = false) {modify : Nat} (hmod : modify ≠ 0) :
    chainDelete core chain modify = some ⟨modify, core, chain, none⟩ := by
  unfold chainDelete chainDeleteHelper
  rw [hdel, hm, hini]
  simp [hmod]

/-- A deletion takes the chain out of the tree, and its element out of the array. -/
theorem chainDelete_spec (hi : core.Inv) (hmem : chain ∈ core.rbtree) {modify : Nat}
    (hmod : chain.blkmapped = true → modify = 0) :
    ∃ d, chainDelete core chain modify = some d ∧ d.error = 0 ∧
      d.chain = ⟨chain.bref, true, false, d.chain.blkmapupd⟩ ∧ d.parent.Inv ∧
      d.parent.counted = true ∧ d.parent.initial = core.initial ∧ d.parent.count = core.count ∧
      core.view.Perm (chain.bref :: d.parent.view) ∧
      ∀ f ∈ d.obref, f.key = chain.bref.key ∧ f.keybits = chain.bref.keybits := by
  have hc := hi.counted (List.ne_nil_of_mem hmem)
  have htree := List.perm_cons_erase hmem
  have hsorted : ((core.rbtree.erase chain).map MemChain.bref).Pairwise Bref.Before :=
    hi.tree.sublist (List.erase_sublist.map _)
  unfold chainDelete chainDeleteHelper
  rw [hi.present chain hmem, if_neg (by decide)]
  by_cases hm : chain.blkmapped = true
  · obtain ⟨scan, hscan, hkey⟩ := (hi.mapped chain hmem).mp hm
    have hbits : scan.keybits = chain.bref.keybits := by
      rcases hi.loaded chain hmem scan hscan with ⟨-, hb⟩ | hapart
      · exact hb.symm
      · exact absurd hkey.symm (show chain.bref.Apart scan from hapart).key_ne
    have hini : ¬core.initial = true := by
      intro h
      have hnil := hi.initial h
      rw [hnil] at hscan
      cases hscan
    have hsame : chain.blkmapupd = true ∨ scan.keybits = chain.bref.keybits := Or.inr hbits
    obtain ⟨a', p, q, hdelete, ha', hlen, hold, hnew, -⟩ :=
      BrefArray.baseDelete_spec (hi.arrayInv hc) hscan hkey hsame
    rw [if_pos hm, if_neg hini, if_neg (not_not.mpr (hmod hm)), if_neg (by rw [hc]; decide)]
    simp only [ChainCore.unlink, hdelete]
    have hjoin : ChainCore.Joins
        { core with array := a', rbtree := core.rbtree.erase chain, liveCount := core.liveCount - 1 } core
        chain (some scan) := by
      refine ⟨htree, ?_, ?_, hm, hlen.symm⟩
      · unfold ChainCore.elements
        rw [hold, hnew]
        exact List.perm_middle
      · intro f hf
        cases Option.mem_some_iff.mp hf
        exact ⟨hkey, hbits⟩
    have hrest := hjoin.remove hi ha'.sorted ha'.live (fun h => h) rfl hsorted rfl
    exact ⟨_, rfl, rfl, rfl, hrest.1, hc, rfl, hlen, hrest.2, hjoin.same⟩
  · have hjoin : ChainCore.Joins (core.unlink chain) core chain none := by
      refine ⟨htree, List.Perm.refl _, fun f hf => (by cases hf), ?_, rfl⟩
      rw [Bool.eq_false_iff.mpr hm]
      rfl
    have hrest := hjoin.remove hi hi.sorted (hi.live hc) (fun h => h) rfl hsorted rfl
    rw [if_neg hm]
    refine ⟨_, rfl, rfl, ?_, hrest.1, hc, rfl, rfl, hrest.2, hjoin.same⟩
    rw [Bool.eq_false_iff.mpr hm]

/-- The renamed chain is in the tree and counted, and the array is as it was. -/
theorem chainRename_spec (chain : MemChain) (hi : core.Inv) (hapart : ∀ e ∈ core.view, chain.bref.Apart e)
    (hroom : core.view.length < core.count) :
    ∃ tree, chainRename core chain =
        some { core.countbrefs with rbtree := tree, liveCount := core.countbrefs.liveCount + 1 } ∧
      tree.Perm ({ chain with deleted := false } :: core.countbrefs.rbtree) ∧
      (tree.map MemChain.bref).Pairwise Bref.Before := by
  obtain ⟨hi', hc, hview, hcount, -⟩ := ChainCore.countbrefs_spec hi
  have hlc := hi'.liveCount
  rw [hc, if_pos rfl, hview] at hlc
  obtain ⟨tree, hins, hperm, hsorted⟩ := chainTreeInsert_spec { chain with deleted := false }
    hi'.tree fun c hcm => hapart c.bref (hview ▸ ChainCore.Inv.chain_mem_view hcm)
  refine ⟨tree, ?_, hperm, hsorted⟩
  unfold chainRename
  rw [if_neg (by rw [hcount, hlc]; omega), hins]
  rfl

/-- A chain moved to a parent that has room, with its element if it had one in the old parent. -/
theorem chainRenameObref_spec (chain : MemChain) (hi : core.Inv) {obref : Option Bref}
    (hm : chain.blkmapped = false)
    (hsame : ∀ f ∈ obref, f.key = chain.bref.key ∧ f.keybits = chain.bref.keybits)
    (hini : obref.isSome = true → core.initial = false)
    (hapart : ∀ e ∈ core.view, chain.bref.Apart e) (hroom : core.view.length < core.count) :
    ∃ core', chainRenameObref core chain obref = some core' ∧ core'.Inv ∧ core'.counted = true ∧
      core'.initial = core.initial ∧ core'.count = core.count ∧
      core'.view.Perm (chain.bref :: core.view) := by
  obtain ⟨hi', hc, hview, hcount, hinitial⟩ := ChainCore.countbrefs_spec hi
  have hroom' : core.countbrefs.view.length < core.countbrefs.count := by rwa [hview, hcount]
  cases obref with
  | none =>
    obtain ⟨tree, hrename, hperm, hsorted⟩ := chainRename_spec chain hi hapart hroom
    have hjoin : ChainCore.Joins core.countbrefs
        { core.countbrefs with rbtree := tree, liveCount := core.countbrefs.liveCount + 1 }
        { chain with deleted := false } none :=
      ⟨hperm, List.Perm.refl _, fun f hf => (by cases hf), hm, rfl⟩
    obtain ⟨hinv, hv⟩ := hjoin.insert hi' hc hc hi'.sorted (hi'.live hc) hi'.initial hsorted rfl
      (hview ▸ hapart) hroom' rfl
    exact ⟨_, hrename, hinv, hc, hinitial, hcount, hview ▸ hv⟩
  | some f =>
    obtain ⟨hkey, hbits⟩ := hsame f rfl
    obtain ⟨tree, hrename, hperm, hsorted⟩ := chainRename_spec
      { chain with blkmapped := true, blkmapupd := chain.blkmapupd || decide (f ≠ chain.bref) }
      hi hapart hroom
    have hempty : ∃ m : Nat, core.countbrefs.array.base[m]? = some none :=
      BrefArray.exists_empty_slot (lt_of_le_of_lt hi'.elements_le hroom')
    have hdis : ∀ e ∈ SlotList.elements core.countbrefs.array.base, e.Before f ∨ f.Before e := by
      intro e he
      obtain ⟨g, hg, hk, hb⟩ := hi'.element he
      have ha := (hapart g (hview ▸ hg)).congr hk hb
      exact ha.symm.congr hkey.symm hbits.symm
    obtain ⟨a', p, q, hins, ha', hlen, hold, hnew, -⟩ :=
      BrefArray.baseInsert_spec (hi'.arrayInv hc) hempty hdis
    have hini' : ¬core.countbrefs.initial = true := by
      rw [hinitial, hini rfl]
      decide
    have hjoin : ChainCore.Joins core.countbrefs
        { core.countbrefs with
          array := a', rbtree := tree, liveCount := core.countbrefs.liveCount + 1 }
        ⟨chain.bref, false, true, chain.blkmapupd || decide (f ≠ chain.bref)⟩ (some f) := by
      refine ⟨hperm, ?_, hsame, rfl, hlen⟩
      unfold ChainCore.elements
      rw [hold, hnew]
      exact List.perm_middle
    obtain ⟨hinv, hv⟩ := hjoin.insert hi' hc hc ha'.sorted ha'.live (fun h => absurd h hini') hsorted rfl
      (hview ▸ hapart) hroom' rfl
    refine ⟨_, ?_, hinv, hc, hinitial, hlen.trans hcount, hview ▸ hv⟩
    simp only [chainRenameObref, hm, hrename, hins, hini', Bool.false_eq_true, if_false, Option.map_some]

/-- A chain that `hammer2_chain_get` makes stands for its element from then on. -/
theorem chainGet_spec (hi : core.Inv) (hc : core.counted = true) {e : Bref} (he : e ∈ core.elements)
    (hne : ∀ c ∈ core.rbtree, c.bref.key ≠ e.key) :
    ∃ core', chainGet core e = some (core', ⟨e, false, true, false⟩) ∧ core'.Inv ∧
      core'.counted = true ∧ core'.initial = core.initial ∧ core'.count = core.count ∧
      ⟨e, false, true, false⟩ ∈ core'.rbtree ∧ core'.view.Perm core.view := by
  have hapart : ∀ c ∈ core.rbtree, e.Apart c.bref := by
    intro c hc
    rcases hi.loaded c hc e he with ⟨hk, -⟩ | ha
    · exact absurd hk (hne c hc)
    · exact Bref.Apart.symm ha
  obtain ⟨tree, hins, hperm, hsorted⟩ :=
    chainTreeInsert_spec ⟨e, false, true, false⟩ hi.tree hapart
  obtain ⟨p, q, hpq⟩ := List.append_of_mem he
  have helems : core.elements.Perm (e :: (p ++ q)) := by
    rw [hpq]
    exact List.perm_middle
  have hother : ∀ f ∈ p ++ q, f.key ≠ e.key := by
    have hnodup := (helems.map Bref.key).nodup_iff.mp (ChainCore.pairwise_before_nodup hi.sorted)
    rw [List.map_cons] at hnodup
    intro f hf hk
    exact (List.nodup_cons.mp hnodup).1 (hk ▸ List.mem_map_of_mem hf)
  have hview : ({ core with rbtree := tree } : ChainCore).view.Perm core.view := by
    have hnew := viewOf_perm hperm helems
    rw [viewOf_cons_loaded ⟨_, List.mem_cons_self, rfl⟩, viewOf_cons_chain hother] at hnew
    have hold := (viewOf_perm (List.Perm.refl core.rbtree) helems).trans (viewOf_cons_unloaded hne)
    exact hnew.trans hold.symm
  have hcases : ∀ c ∈ tree, c = ⟨e, false, true, false⟩ ∨ c ∈ core.rbtree :=
    fun c hc => List.mem_cons.mp (hperm.mem_iff.mp hc)
  refine ⟨{ core with rbtree := tree }, ?_,
    ⟨hi.sorted, fun _ => hc, hi.live, hi.initial, hsorted, ?_, ?_, ?_, ?_, ?_⟩, hc, rfl, rfl,
      hperm.mem_iff.mpr List.mem_cons_self, hview⟩
  · unfold chainGet
    rw [hins]
    rfl
  · intro c hc f hf
    rcases hcases c hc with rfl | hc
    · rcases List.mem_cons.mp (helems.mem_iff.mp hf) with rfl | hf'
      · exact Or.inl ⟨rfl, rfl⟩
      · have hs : core.elements.Pairwise Bref.Apart := hi.sorted.imp Or.inl
        rw [helems.pairwise_iff fun h => h.symm] at hs
        exact Or.inr ((List.pairwise_cons.mp hs).1 f hf')
    · exact hi.loaded c hc f hf
  · intro c hc
    rcases hcases c hc with rfl | hc
    · rfl
    · exact hi.present c hc
  · intro c hc
    rcases hcases c hc with rfl | hc
    · exact iff_of_true rfl ⟨e, he, rfl⟩
    · exact hi.mapped c hc
  · rw [hview.length_eq]
    exact hi.liveCount
  · rw [hview.length_eq]
    exact hi.fits

end Ops

end Hammer2
