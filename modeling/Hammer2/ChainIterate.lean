import Hammer2.ChainWalkRun

namespace Hammer2

open TurnLoop

section Climb

variable {top : ChainTop} {flags : LookupFlags} {keyBeg keyEnd : Nat} {path : ParentPath}
  {first : Option WalkItem} {c : LookupCursor}

theorem ChainTop.PathIn.within (h : top.PathIn path) (hnest : top.node.WellNested 0 keyMax)
    {m : Match} {node : ChainNode} {above : ParentPath} (hp : path = (m, node) :: above) :
    above.key ≤ path.key ∧ path.last ≤ above.last := by
  subst hp
  obtain ⟨habove, array, chains, below, hnode, hm, -⟩ := h
  have hup := habove.wellNested hnest
  rw [hnode] at hup
  exact ⟨(hup.2 m hm).1, (hup.2 m hm).2.1⟩

/-- What a parent leaves open is answered by the parents above it. -/
theorem walk_up (h : PlainLookup top flags keyEnd) (hnest : top.node.WellNested 0 keyMax)
    (hpath : top.PathIn path) (hkey : path.key ≤ c.keyBeg) (hbeg : c.keyBeg ≤ keyEnd)
    (hlast : c.keyBeg ≤ path.last + 1)
    (hclear : keyEnd ≤ path.last ∧ c.keyBeg = keyEnd ∨ top.node.ClearOf keyEnd)
    (ho : WalkEnd top flags keyEnd path (top.parentAt path).turns
      (firstItem ((top.parentAt path).items path.key path.last) c.keyBeg keyEnd) c) :
    ∃ n ≤ top.node.turns, ∃ r, Finishes (lookupTurn top flags keyEnd) n c r ∧
      r.Answers top keyEnd (firstItem (top.node.items 0 keyMax) c.keyBeg keyEnd) := by
  induction path with
  | nil =>
    rcases ho with ⟨n, hn, r, hfin, hr, -⟩ |
      ⟨hnone, n, hn, keyBeg, keyNext, hsteps, ⟨hpar, ⟨keyNext', hturn⟩, hfree⟩, h1, h2, h3⟩
    · exact ⟨n, hn, r, hfin, hr⟩
    · change firstItem (top.node.items 0 keyMax) c.keyBeg keyEnd = none at hnone
      unfold exhausted at hturn
      dsimp only at hturn
      rw [ite_self] at hturn
      rw [hnone]
      refine ⟨n, hn, _, ⟨_, hsteps, hturn⟩, hpath, rfl, rfl, hpar, Nat.zero_le _, h.keyEnd_le,
        ?_⟩
      intro m hm hint
      exact absurd ⟨h2.trans hint.1, hint.2⟩ (hfree m hm)
  | cons p above ih =>
    obtain ⟨m, node⟩ := p
    obtain ⟨hle, hge⟩ := hpath.within hnest rfl
    have hup := hpath.1.wellNested hnest
    have hpath' := hpath
    obtain ⟨habove, array, chains, below, hnode, hm, hlive, hind, rfl⟩ := hpath
    rw [hnode] at hup
    change m.bref.key ≤ c.keyBeg at hkey
    change ParentPath.key above ≤ m.bref.key at hle
    change m.bref.last ≤ ParentPath.last above at hge
    change c.keyBeg ≤ m.bref.last + 1 at hlast
    change keyEnd ≤ m.bref.last ∧ c.keyBeg = keyEnd ∨ _ at hclear
    obtain ⟨pre, rest, hview⟩ := List.append_of_mem hm
    have hpre := mergedView_before hup.1 hview
    have hfirst : firstItem ((top.parentAt above).items (ParentPath.key above)
          (ParentPath.last above)) c.keyBeg keyEnd =
        (firstItem ((below m.bref.key).items m.bref.key m.bref.last) c.keyBeg keyEnd).or
          (firstItem (rest.flatMap (elementItems below)) c.keyBeg keyEnd) := by
      rw [hnode, firstItem_parent hup hview fun m' hm' => (hpre m' hm').trans_le hkey,
        List.flatMap_cons, firstItem_append]
      congr 2
      simp only [elementItems, hlive, hind, Bool.false_eq_true, if_false, if_true]
    have hclearAbove : top.node.ClearOf keyEnd →
        (ChainNode.parent array chains below).ClearOf keyEnd := fun hc => by
      have hcl := habove.clearOf hc
      rwa [hnode] at hcl
    have hne : keyEnd ≠ m.bref.last + 1 := by
      rcases hclear with ⟨hcov, _⟩ | hc
      · omega
      · exact (hclearAbove hc m hm hlive hind).1
    have hnext : m.bref.last < keyEnd → ∀ keyNext, WalkEnd top flags keyEnd above
        (rest.map (elementTurns below)).sum
        (firstItem (rest.flatMap (elementItems below)) c.keyBeg keyEnd)
        ⟨above, m.bref.last + 1, keyNext⟩ := by
      intro hlt keyNext
      have hc : top.node.ClearOf keyEnd := hclear.resolve_left fun hcov => by omega
      rw [rest_congr hup hview hlast]
      have hkids : ∀ m ∈ mergedView array chains, m.deleted = false → m.indirect = true →
          m.bref.key ≤ keyEnd →
            Walks top flags keyEnd ((m, below m.bref.key) :: above) (below m.bref.key) :=
        fun m hm hlive hind hle => walk_node h (below m.bref.key) ((m, below m.bref.key) :: above)
          ⟨habove, array, chains, below, hnode, hm, hlive, hind, rfl⟩ rfl
          ((hup.2 m hm).2.2 hlive hind) hle
      obtain ⟨hview', hpre', hrs'⟩ := mergedView_split hup.1 hview
      exact walk_elements h habove hnode hup hkids (by omega) (pre ++ [m]) rest _ keyNext hview'
        hpre' hrs' hlt (Nat.succ_le_succ hge) (Or.inr (hclearAbove hc))
    have habv := ho.up h.keyEnd_le hpath' (hkey.trans hbeg) hne hge hlast (rest_none hup hview)
      hnext
    refine ih habove (hle.trans hkey) (by omega) (hclear.imp_left fun hcov => ⟨by omega, hcov.2⟩) ?_
    rw [hfirst, hnode]
    refine habv.of_steps (.refl _) le_rfl ?_
    rw [ChainNode.turns_parent, hview, List.map_append, List.sum_append, List.map_cons,
      List.sum_cons, elementTurns, if_neg (by simp [hlive]), if_pos hind]
    change 0 + ((below m.bref.key).turns + 1 + _) ≤ _
    omega

theorem enclosing_pathIn (keyBeg keyEnd : Nat) (hpath : top.PathIn path) :
    top.PathIn (enclosing keyBeg keyEnd path) := by
  induction path with
  | nil => exact hpath
  | cons p above ih =>
    unfold enclosing
    split
    · exact hpath
    · exact ih hpath.1

theorem enclosing_covers (keyBeg : Nat) (path : ParentPath) (hmax : keyEnd ≤ keyMax) :
    (enclosing keyBeg keyEnd path).key ≤ keyBeg ∧ keyEnd ≤ (enclosing keyBeg keyEnd path).last := by
  induction path with
  | nil => exact ⟨Nat.zero_le _, hmax⟩
  | cons p above ih =>
    unfold enclosing
    split
    next hcov => exact hcov.2
    next => exact ih

/-- The loop of a lookup from any parent of a topology answers with the first item of the range. -/
theorem lookup_finishes (h : PlainLookup top flags keyEnd) (hnest : top.node.WellNested 0 keyMax)
    (hpath : top.PathIn path) (hbeg : keyBeg ≤ keyEnd)
    (hclear : keyBeg = keyEnd ∨ top.node.ClearOf keyEnd) (keyNext : Nat) :
    ∃ n ≤ top.node.turns, ∃ r, Finishes (lookupTurn top flags keyEnd) n
        ⟨enclosing keyBeg keyEnd path, keyBeg, keyNext⟩ r ∧
      r.Answers top keyEnd (firstItem (top.node.items 0 keyMax) keyBeg keyEnd) := by
  have hin := enclosing_pathIn keyBeg keyEnd hpath
  obtain ⟨hlo, hhi⟩ := enclosing_covers keyBeg path h.keyEnd_le
  have hwalk := walk_node h _ _ hin rfl (hin.wellNested hnest) (hlo.trans hbeg) keyBeg keyNext
    (hbeg.trans hhi) hbeg (hclear.imp_right hin.clearOf)
  exact walk_up h hnest hin hlo hbeg ((hbeg.trans hhi).trans (Nat.le_succ _))
    (hclear.imp_left fun heq => ⟨hhi, heq⟩) hwalk

theorem chainLookup_answers (h : PlainLookup top flags keyEnd)
    (hnest : top.node.WellNested 0 keyMax) (hpath : top.PathIn path) (hbeg : keyBeg ≤ keyEnd)
    (hclear : keyBeg = keyEnd ∨ top.node.ClearOf keyEnd) (cacheIndex : Nat → Nat) (keyNext : Nat) :
    ∃ r, r.Answers top keyEnd (firstItem (top.node.items 0 keyMax) keyBeg keyEnd) ∧
      (chainLookup top flags cacheIndex path keyNext keyBeg keyEnd = some r ∨
        maxLoops ≤ top.node.turns ∧
          chainLookup top flags cacheIndex path keyNext keyBeg keyEnd = none) := by
  obtain ⟨n, hn, r, hfin, hr⟩ := lookup_finishes h hnest hpath hbeg hclear keyNext
  refine ⟨r, hr, ?_⟩
  unfold chainLookup
  rw [hfin.run_eq]
  by_cases hlt : n < maxLoops
  · exact Or.inl (if_pos hlt)
  · exact Or.inr ⟨by omega, if_neg hlt⟩

end Climb

section Range

variable {items : List WalkItem} {it : WalkItem} {keyBeg keyEnd lo hi : Nat}

/-- The items in a range of keys. -/
def rangeItems (items : List WalkItem) (keyBeg keyEnd : Nat) : List WalkItem :=
  items.filter fun it => it.Intersects keyBeg keyEnd

theorem ChainNode.items_sorted (t : ChainNode) (hnest : t.WellNested lo hi) :
    (t.items lo hi).Pairwise fun it it' => it.last < it'.key := by
  induction t generalizing lo hi with
  | errored error => exact List.pairwise_singleton _ _
  | parent array chains below ih =>
    rw [ChainNode.items_parent, List.pairwise_flatMap]
    have hin : ∀ m ∈ mergedView array chains, ∀ it ∈ elementItems below m,
        m.bref.key ≤ it.key ∧ it.key ≤ it.last ∧ it.last ≤ m.bref.last := fun m hm it hit =>
      elementItems_within (fun hlive hind it hit => (below m.bref.key).items_within
        m.bref.key_le_last ((hnest.2 m hm).2.2 hlive hind) hit) hit
    refine ⟨fun m hm => ?_,
      (mergedView_sorted hnest.1).imp_of_mem fun hm hm' hlt it hit it' hit' => ?_⟩
    · unfold elementItems
      split
      · exact List.Pairwise.nil
      next hlive =>
        split
        next hind => exact ih _ ((hnest.2 m hm).2.2 (Bool.eq_false_iff.mpr hlive) hind)
        next => exact List.pairwise_singleton _ _
    · have h1 := (hin _ hm it hit).2.2
      have h2 := (hin _ hm' it' hit').1
      unfold Bref.Before at hlt
      omega

theorem rangeItems_empty (hsorted : items.Pairwise fun it it' => it.last < it'.key)
    (hle : ∀ it ∈ items, it.key ≤ it.last) (hit : it ∈ items) (hkey : it.key ≤ keyEnd)
    (hend : keyEnd ≤ it.last) : rangeItems items (it.last + 1) keyEnd = [] := by
  refine List.filter_eq_nil_iff.mpr fun it' hit' hint => ?_
  obtain ⟨h1, h2⟩ := of_decide_eq_true hint
  have h3 := hle it hit
  rcases pairwise_comparable hsorted hit hit' with rfl | hlt | hgt
  · omega
  · omega
  · omega

/-- Behind the first item of a range come those of the range behind it. -/
theorem rangeItems_cons (hsorted : items.Pairwise fun it it' => it.last < it'.key)
    (hle : ∀ it ∈ items, it.key ≤ it.last) (hfirst : firstItem items keyBeg keyEnd = some it) :
    rangeItems items keyBeg keyEnd = it :: rangeItems items (it.last + 1) keyEnd := by
  obtain ⟨hint, pre, rest, rfl, hpre⟩ := List.find?_eq_some_iff_append.mp hfirst
  have hint' : it.Intersects keyBeg keyEnd := of_decide_eq_true hint
  obtain ⟨hrest, hprelt⟩ := (List.pairwise_append.mp hsorted).2
  have hbeg := hint'.1
  have hitle := hle it (List.mem_append_right _ List.mem_cons_self)
  have hself : ¬it.Intersects (it.last + 1) keyEnd := fun h => absurd h.1 (Nat.not_succ_le_self _)
  have hprenil : rangeItems pre keyBeg keyEnd = [] :=
    List.filter_eq_nil_iff.mpr fun it' hit' => by simpa using hpre it' hit'
  have hprenil' : rangeItems pre (it.last + 1) keyEnd = [] := by
    refine List.filter_eq_nil_iff.mpr fun it' hit' hin => ?_
    have hlt := hprelt it' hit' it List.mem_cons_self
    have hge := (of_decide_eq_true hin).1
    omega
  unfold rangeItems at hprenil hprenil' ⊢
  rw [List.filter_append, List.filter_append, hprenil, hprenil', List.nil_append, List.nil_append,
    List.filter_cons, if_pos hint, List.filter_cons, if_neg (by simpa using hself)]
  refine congrArg (it :: ·) (List.filter_congr fun it' hit' => decide_eq_decide.mpr ?_)
  have hlt := (List.pairwise_cons.mp hrest).1 it' hit'
  have hle' := hle it' (List.mem_append_right _ (List.mem_cons_of_mem _ hit'))
  exact and_congr_left fun _ => iff_of_true (by omega) (by omega)

end Range

section Iterate

variable {top : ChainTop} {flags : LookupFlags} {keyBeg keyEnd calls : Nat} {r : LookupResult}

theorem chainNext_past {m : Match} {path : ParentPath} {keyNext : Nat} (hmax : keyEnd ≤ keyMax)
    (hend : keyEnd ≤ m.bref.last) (cacheIndex : Nat → Nat) :
    chainNext top flags cacheIndex path (.element m) keyNext keyEnd =
      some ⟨.null, 0, keyNext, path⟩ :=
  if_pos ((m.bref.next_past_iff hmax).mpr hend)

theorem chainNext_more {m : Match} {path : ParentPath} {keyNext : Nat} (hmax : keyEnd ≤ keyMax)
    (hlt : m.bref.last < keyEnd) (cacheIndex : Nat → Nat) :
    chainNext top flags cacheIndex path (.element m) keyNext keyEnd =
      chainLookup top flags cacheIndex path keyNext (m.bref.last + 1) keyEnd := by
  have hmore := mt (m.bref.next_past_iff hmax).mp (Nat.not_le.mpr hlt)
  rw [chainNext, if_neg hmore, m.bref.next_of_last_lt hmax hlt]

theorem chainIterate_answers (h : PlainLookup top flags keyEnd)
    (hnest : top.node.WellNested 0 keyMax) (cacheIndex : Nat → Nat → Nat)
    (hr : r.Answers top keyEnd (firstItem (top.node.items 0 keyMax) keyBeg keyEnd))
    (hbeg : keyBeg ≤ keyEnd) (hclear : keyBeg = keyEnd ∨ top.node.ClearOf keyEnd)
    (hcalls : (rangeItems (top.node.items 0 keyMax) keyBeg keyEnd).length < calls) :
    chainIterate top flags cacheIndex keyEnd calls r =
        some (WalkItem.walked (rangeItems (top.node.items 0 keyMax) keyBeg keyEnd)) ∨
      maxLoops ≤ top.node.turns ∧ chainIterate top flags cacheIndex keyEnd calls r = none := by
  have hsorted := top.node.items_sorted hnest
  have hle : ∀ it ∈ top.node.items 0 keyMax, it.key ≤ it.last := fun it hit =>
    (top.node.items_within (Nat.zero_le _) hnest hit).2.1
  induction calls generalizing r keyBeg with
  | zero => exact absurd hcalls (Nat.not_lt_zero _)
  | succ calls ih =>
    obtain ⟨hpath, hr⟩ := hr
    cases hfirst : firstItem (top.node.items 0 keyMax) keyBeg keyEnd with
    | none =>
      rw [hfirst] at hr
      obtain ⟨hnull, herr, -⟩ := hr
      have hnil : rangeItems (top.node.items 0 keyMax) keyBeg keyEnd = [] :=
        List.filter_eq_nil_iff.mpr (List.find?_eq_none.mp hfirst)
      rw [chainIterate, if_pos hnull, hnil, herr]
      exact Or.inl rfl
    | some it =>
      rw [hfirst] at hr
      have hcons := rangeItems_cons hsorted hle hfirst
      have hit := List.mem_of_find?_eq_some hfirst
      have hint : it.Intersects keyBeg keyEnd := 
        of_decide_eq_true (List.find?_eq_some_iff_append.mp hfirst).1
      rw [hcons] at hcalls ⊢
      cases it with
      | fault key last error =>
        obtain ⟨hnull, herr⟩ := hr
        rw [chainIterate, if_pos hnull, herr]
        exact Or.inl rfl
      | element m =>
        obtain ⟨hfound, -, -⟩ := hr
        have hsome : r.found ≠ .null := by
          rw [hfound]
          exact FoundChain.noConfusion
        rw [List.length_cons] at hcalls
        rw [chainIterate, if_neg hsome, hfound]
        by_cases hend : keyEnd ≤ m.bref.last
        · obtain ⟨calls, rfl⟩ := Nat.exists_eq_succ_of_ne_zero (show calls ≠ 0 by omega)
          rw [chainNext_past h.keyEnd_le hend, rangeItems_empty hsorted hle hit hint.2 hend]
          exact Or.inl rfl
        · have hlt : m.bref.last < keyEnd := Nat.lt_of_not_le hend
          have hbegm := hint.1
          change keyBeg ≤ m.bref.last at hbegm
          have hclear' : top.node.ClearOf keyEnd := hclear.resolve_left (by omega)
          rw [chainNext_more h.keyEnd_le hlt]
          obtain ⟨r', hr', hrun | ⟨hturns, hrun⟩⟩ := chainLookup_answers h hnest hpath
            (show m.bref.last + 1 ≤ keyEnd by omega) (Or.inr hclear') (cacheIndex calls) r.keyNext
          · rw [hrun]
            rcases ih hr' (by omega) (Or.inr hclear') (Nat.lt_of_succ_lt_succ hcalls) with
              hall | ⟨hturns, hall⟩
            · simp only [hall]
              exact Or.inl rfl
            · simp only [hall]
              exact Or.inr ⟨hturns, rfl⟩
          · rw [hrun]
            exact Or.inr ⟨hturns, rfl⟩

/-- A loop over a range of keys, from any parent of the topology, sees the elements of the range in
the order of their keys up to the first indirect block that cannot be read, and ends with its error.
It holds however the cache indexes move, and fails only where one lookup takes more turns than the
loop counter allows. No range that ends at an odd key meets an indirect block that ends right before
it. -/
theorem chainRange_exact (h : PlainLookup top flags keyEnd) (hnest : top.node.WellNested 0 keyMax)
    {path : ParentPath} (hpath : top.PathIn path) (hbeg : keyBeg ≤ keyEnd)
    (hclear : keyBeg = keyEnd ∨ top.node.ClearOf keyEnd) (cacheIndex : Nat → Nat → Nat)
    (keyNext : Nat)
    (hcalls : (rangeItems (top.node.items 0 keyMax) keyBeg keyEnd).length < calls) :
    chainRange top flags cacheIndex path keyNext keyBeg keyEnd calls =
        some (WalkItem.walked (rangeItems (top.node.items 0 keyMax) keyBeg keyEnd)) ∨
      maxLoops ≤ top.node.turns ∧
        chainRange top flags cacheIndex path keyNext keyBeg keyEnd calls = none := by
  unfold chainRange
  obtain ⟨r, hr, hrun | ⟨hturns, hrun⟩⟩ :=
    chainLookup_answers h hnest hpath hbeg hclear (cacheIndex calls) keyNext
  · rw [hrun]
    exact chainIterate_answers h hnest cacheIndex hr hbeg hclear hcalls
  · rw [hrun]
    exact Or.inr ⟨hturns, rfl⟩

end Iterate

section Nested

def emptyArray : BrefArray := ⟨[], 0, 0, ⟨0, 0, 0⟩⟩

def nestedIndirect : MemChain :=
  ⟨⟨.indirect, 0, 3, 0, ⟨0, 0, 0⟩, by decide, by decide⟩, false, false, false⟩

def innerEntry : MemChain :=
  ⟨⟨.dirent, 1, 0, 0, ⟨0, 0, 0⟩, Nat.succ_pos 63, Nat.le_of_ble_eq_true rfl⟩, false, false, false⟩

def outerEntry : MemChain :=
  ⟨⟨.dirent, 8, 0, 0, ⟨0, 0, 0⟩, Nat.succ_pos 63, Nat.le_of_ble_eq_true rfl⟩, false, false, false⟩

/-- A directory with an entry in an indirect block and an entry behind it. -/
def nestedTop : ChainTop :=
  ⟨false, .parent emptyArray [nestedIndirect, outerEntry] fun _ =>
    .parent emptyArray [innerEntry] fun _ => .errored 1⟩

theorem mergedView_emptyArray (chains : List MemChain)
    (hsorted : chains.Pairwise fun c c' => c.bref.key ≤ c'.bref.key) :
    mergedView emptyArray chains = chains.map fun c => ⟨c.bref, some c⟩ := by
  unfold mergedView
  rw [show unloadedElements emptyArray chains = [] from rfl, List.map_nil, List.append_nil]
  exact List.mergeSort_of_pairwise
    (List.pairwise_map.mpr (hsorted.imp fun hle => decide_eq_true hle))

theorem mergeInv_emptyArray (chains : List MemChain)
    (hsorted : (chains.map MemChain.bref).Pairwise Bref.Before) : MergeInv emptyArray chains :=
  ⟨⟨.nil, rfl⟩, hsorted, fun _ _ _ he => absurd he List.not_mem_nil⟩

theorem nestedTop_view : mergedView emptyArray [nestedIndirect, outerEntry] =
    [⟨nestedIndirect.bref, some nestedIndirect⟩, ⟨outerEntry.bref, some outerEntry⟩] :=
  mergedView_emptyArray _ (by decide)

theorem nestedTop_below : mergedView emptyArray [innerEntry] =
    [⟨innerEntry.bref, some innerEntry⟩] :=
  mergedView_emptyArray _ (by decide)

theorem nestedTop_wellNested : nestedTop.node.WellNested 0 keyMax := by
  refine ⟨mergeInv_emptyArray _ (by decide), ?_⟩
  rw [nestedTop_view]
  refine List.forall_mem_cons.mpr ⟨⟨by decide, by decide, fun _ _ => ?_⟩,
    List.forall_mem_singleton.mpr ⟨by decide, by decide, fun _ h => absurd h (by decide)⟩⟩
  refine ⟨mergeInv_emptyArray _ (by decide), ?_⟩
  rw [nestedTop_below]
  exact List.forall_mem_singleton.mpr ⟨by decide, by decide, fun _ h => absurd h (by decide)⟩

theorem nestedTop_items : nestedTop.node.items 0 keyMax =
    [.element ⟨innerEntry.bref, some innerEntry⟩, .element ⟨outerEntry.bref, some outerEntry⟩] := by
  unfold nestedTop
  rw [ChainNode.items_parent, nestedTop_view]
  change (ChainNode.parent emptyArray [innerEntry] fun _ => .errored 1).items 0 7 ++ _ = _
  rw [ChainNode.items_parent, nestedTop_below]
  rfl

theorem nestedTop_turns : nestedTop.node.turns = 2 := by
  unfold nestedTop
  rw [ChainNode.turns_parent, nestedTop_view]
  change (ChainNode.parent emptyArray [innerEntry] fun _ => .errored 1).turns + 2 + _ = 2
  rw [ChainNode.turns_parent, nestedTop_below]
  rfl

theorem nestedTop_clearOf : nestedTop.node.ClearOf 20 := by
  unfold nestedTop ChainNode.ClearOf
  rw [nestedTop_view]
  refine List.forall_mem_cons.mpr ⟨fun _ _ => ⟨by decide, ?_⟩,
    List.forall_mem_singleton.mpr fun _ h => absurd h (by decide)⟩
  unfold ChainNode.ClearOf
  rw [nestedTop_below]
  exact List.forall_mem_singleton.mpr fun _ h => absurd h (by decide)

theorem chainRange_exact_nested : chainRange nestedTop ⟨false, false⟩ (fun _ _ => 0) [] 0 0 20 3 =
    some ([.element ⟨innerEntry.bref, some innerEntry⟩,
      .element ⟨outerEntry.bref, some outerEntry⟩], 0) := by
  have hitems : rangeItems (nestedTop.node.items 0 keyMax) 0 20 =
      [.element ⟨innerEntry.bref, some innerEntry⟩,
        .element ⟨outerEntry.bref, some outerEntry⟩] := by
    rw [nestedTop_items]
    rfl
  have hexact := @chainRange_exact nestedTop ⟨false, false⟩ 0 20 3 ⟨rfl, rfl, by decide⟩
    nestedTop_wellNested [] trivial (Nat.zero_le 20) (Or.inr nestedTop_clearOf) (fun _ _ => 0) 0
    (by rw [hitems]; decide)
  rw [hitems] at hexact
  rcases hexact with hrun | ⟨hturns, -⟩
  · exact hrun
  · rw [nestedTop_turns] at hturns
    exact absurd hturns (by decide)

end Nested

end Hammer2
