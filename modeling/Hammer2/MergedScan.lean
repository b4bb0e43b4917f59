import Hammer2.BrefArrayRun
import Hammer2.ChainFind

namespace Hammer2

/-- Repeated calls of `hammer2_combined_find`, each from the key that the one before returned, as
long as it is in the range. -/
def combinedScan (a : BrefArray) (chains : List MemChain) (keyEnd : Nat) :
    Nat → Nat → Option (List Match)
  | 0, _ => none
  | fuel + 1, keyBeg =>
    match combinedFind a chains keyBeg keyEnd with
    | none => none
    | some ⟨none, _, _⟩ => some []
    | some ⟨some m, keyNext, cacheIndex⟩ =>
      if keyNext = 0 ∨ keyEnd < keyNext then some [m]
      else (combinedScan { a with cacheIndex := cacheIndex } chains keyEnd fuel keyNext).map (m :: ·)

/-- The elements that repeated calls of `hammer2_chain_scan` return. A deleted chain is skipped with
`goto again`; otherwise the next call goes on after the element. -/
def mergedScan (a : BrefArray) (chains : List MemChain) : Nat → Nat → Option (List Match)
  | 0, _ => none
  | fuel + 1, key =>
    match combinedFind a chains key keyMax with
    | none => none
    | some ⟨none, _, _⟩ => some []
    | some ⟨some m, nextKey, cacheIndex⟩ =>
      let a := { a with cacheIndex := cacheIndex }
      if m.chain.any MemChain.deleted then
        if nextKey = 0 then some [] else mergedScan a chains fuel nextKey
      else if m.bref.next = 0 then some [m]
      else (mergedScan a chains fuel m.bref.next).map (m :: ·)

section Scan

variable {a : BrefArray} {chains : List MemChain} {keyBeg keyEnd : Nat}

theorem MergeInv.cacheIndex (h : MergeInv a chains) (cacheIndex : Nat) :
    MergeInv { a with cacheIndex := cacheIndex } chains :=
  ⟨⟨h.array.sorted, h.array.live⟩, h.sorted, h.loaded⟩

/-- A list of the elements of the merged view that intersect a range, in order. -/
structure RangeOf (a : BrefArray) (chains : List MemChain) (keyBeg keyEnd : Nat) (l : List Match) :
    Prop where
  sorted : l.Pairwise fun m m' => m.bref.Before m'.bref
  mem : ∀ m, m ∈ l ↔ InUnion a chains m ∧ m.bref.Intersects keyBeg keyEnd

/-- The last element of the range ends at or after the end of the range. -/
theorem RangeOf.last {m : Match} (hin : InUnion a chains m) (hint : m.bref.Intersects keyBeg keyEnd)
    (hlow : ∀ m', InUnion a chains m' → m'.bref.Intersects keyBeg keyEnd →
      m' = m ∨ m.bref.Before m'.bref) (hend : keyEnd ≤ m.bref.last) :
    RangeOf a chains keyBeg keyEnd [m] := by
  refine ⟨List.pairwise_singleton _ _, fun m' => ⟨fun h => ?_, fun h => ?_⟩⟩
  · rw [List.mem_singleton.mp h]
    exact ⟨hin, hint⟩
  · rcases hlow m' h.1 h.2 with rfl | hlt
    · exact List.mem_singleton_self _
    · have hle := h.2.2
      unfold Bref.Before at hlt
      omega

/-- The elements after the lowest one are those that intersect the rest of the range. -/
theorem RangeOf.cons {m : Match} {l : List Match} (hin : InUnion a chains m)
    (hint : m.bref.Intersects keyBeg keyEnd)
    (hlow : ∀ m', InUnion a chains m' → m'.bref.Intersects keyBeg keyEnd →
      m' = m ∨ m.bref.Before m'.bref)
    (hl : RangeOf a chains (m.bref.last + 1) keyEnd l) : RangeOf a chains keyBeg keyEnd (m :: l) := by
  have hbeg := hint.1
  refine ⟨List.pairwise_cons.mpr ⟨fun m' hm' => ?_, hl.sorted⟩, fun m' => ?_⟩
  · obtain ⟨hin', hint'⟩ := (hl.mem m').mp hm'
    have hbeg' := hint'.1
    rcases hlow m' hin' ⟨by omega, hint'.2⟩ with rfl | hlt
    · omega
    · exact hlt
  · rw [List.mem_cons, hl.mem]
    constructor
    · rintro (rfl | ⟨hin', hint'⟩)
      · exact ⟨hin, hint⟩
      · have hbeg' := hint'.1
        exact ⟨hin', by omega, hint'.2⟩
    · rintro ⟨hin', hint'⟩
      rcases hlow m' hin' hint' with rfl | hlt
      · exact Or.inl rfl
      · have hle := m'.bref.key_le_last
        unfold Bref.Before at hlt
        exact Or.inr ⟨hin', by omega, hint'.2⟩

/-- Each step of the scan goes on after the element that it returns, so the scan ends. -/
theorem combinedScan_spec (h : MergeInv a chains) (hmax : keyEnd ≤ keyMax) {fuel : Nat}
    (hf : keyEnd + 1 - keyBeg < fuel) :
    ∃ l, combinedScan a chains keyEnd fuel keyBeg = some l ∧ RangeOf a chains keyBeg keyEnd l := by
  induction fuel generalizing a keyBeg with
  | zero => omega
  | succ fuel ih =>
    obtain ⟨⟨found, keyNext, cacheIndex⟩, hfind, hlowest⟩ := combinedFind_lowest h keyBeg hmax
    unfold combinedScan
    rw [hfind]
    cases found with
    | none =>
      refine ⟨[], rfl, List.Pairwise.nil, fun m => iff_of_false (by simp) ?_⟩
      rintro ⟨hin, hint⟩
      exact hlowest m hin hint
    | some m =>
      obtain ⟨hin, hint, hnext, hlow⟩ := hlowest
      have hlt := m.bref.last_lt
      have hbeg := hint.1
      unfold keyMax at hmax
      simp only at hnext ⊢
      by_cases hend : keyEnd ≤ m.bref.last
      · have hstop : keyNext = 0 ∨ keyEnd < keyNext := by
          rw [hnext, Nat.min_eq_left (by omega)]
          omega
        rw [if_pos hstop]
        exact ⟨[m], rfl, RangeOf.last hin hint hlow hend⟩
      · have hk : keyNext = m.bref.last + 1 := by
          rw [hnext, Nat.min_eq_right (by omega), Nat.mod_eq_of_lt (by omega)]
        rw [if_neg (by omega), hk]
        obtain ⟨l, hscan, hl⟩ := ih (h.cacheIndex cacheIndex)
          (show keyEnd + 1 - (m.bref.last + 1) < fuel by omega)
        rw [hscan]
        exact ⟨m :: l, rfl, RangeOf.cons hin hint hlow ⟨hl.sorted, hl.mem⟩⟩

def Match.live (m : Match) : Bool := !m.chain.any MemChain.deleted

/-- `hammer2_chain_scan` skips the deleted chains of the merged view. -/
theorem mergedScan_eq (h : MergeInv a chains) {fuel : Nat} {l : List Match}
    (hl : combinedScan a chains keyMax fuel keyBeg = some l) :
    mergedScan a chains fuel keyBeg = some (l.filter Match.live) := by
  induction fuel generalizing a keyBeg l with
  | zero => cases hl
  | succ fuel ih =>
    obtain ⟨⟨found, keyNext, cacheIndex⟩, hfind, hlowest⟩ := combinedFind_lowest h keyBeg le_rfl
    unfold combinedScan at hl
    unfold mergedScan
    rw [hfind] at hl ⊢
    cases found with
    | none =>
      cases Option.some.inj hl
      rfl
    | some m =>
      obtain ⟨_, _, hnext, _⟩ := hlowest
      have hlt := m.bref.last_lt
      have hk : keyNext = m.bref.next := by
        simp only at hnext
        rw [hnext, Bref.next_eq, Nat.min_eq_right (by unfold keyMax; omega)]
      have hbound : ¬keyMax < m.bref.next := by
        rw [Bref.next_eq]
        unfold keyMax
        omega
      subst hk
      simp only [hbound, or_false] at hl ⊢
      have hdel : m.chain.any MemChain.deleted = !m.live := by
        unfold Match.live
        rw [Bool.not_not]
      rw [hdel]
      split at hl
      next hzero =>
        cases Option.some.inj hl
        cases hlive : m.live with
        | false => simp [hlive, hzero]
        | true => simp [hlive, hzero]
      next hne =>
        obtain ⟨l', hl', rfl⟩ := Option.map_eq_some_iff.mp hl
        have hrest := ih (h.cacheIndex cacheIndex) hl'
        cases hlive : m.live with
        | false => simp [hlive, hne, hrest]
        | true => simp [hlive, hne, hrest]

/-- The merged search returns the lowest element that intersects the range. Repeating it visits
every element once and in order and stops, also at the last key, and `hammer2_chain_scan` visits
those that are not deleted. -/
theorem combined_find_merges (h : MergeInv a chains) (keyBeg : Nat) (hmax : keyEnd ≤ keyMax) :
    (∃ r, combinedFind a chains keyBeg keyEnd = some r ∧ Lowest a chains keyBeg keyEnd r) ∧
      (∃ N, ∀ fuel, N ≤ fuel → ∃ l, combinedScan a chains keyEnd fuel keyBeg = some l ∧
        l.Pairwise (fun m m' => m.bref.Before m'.bref) ∧
        ∀ m, m ∈ l ↔ InUnion a chains m ∧ m.bref.Intersects keyBeg keyEnd) ∧
      ∃ N, ∀ fuel, N ≤ fuel → ∃ l, mergedScan a chains fuel 0 = some l ∧
        l.Pairwise (fun m m' => m.bref.Before m'.bref) ∧
        ∀ m, m ∈ l ↔ InUnion a chains m ∧ m.live = true := by
  refine ⟨combinedFind_lowest h keyBeg hmax, ⟨keyEnd + 1 - keyBeg + 1, fun fuel hf => ?_⟩,
    ⟨keyMax + 1 - 0 + 1, fun fuel hf => ?_⟩⟩
  · obtain ⟨l, hscan, hl⟩ := combinedScan_spec h hmax (Nat.lt_of_succ_le hf)
    exact ⟨l, hscan, hl.sorted, hl.mem⟩
  · obtain ⟨l, hscan, hl⟩ := combinedScan_spec h (le_refl keyMax) (Nat.lt_of_succ_le hf)
    refine ⟨_, mergedScan_eq h hscan, hl.sorted.sublist List.filter_sublist, fun m => ?_⟩
    have hint : m.bref.Intersects 0 keyMax := by
      have hle := m.bref.key_le_last
      have hlt := m.bref.last_lt
      refine ⟨Nat.zero_le _, ?_⟩
      unfold keyMax
      omega
    rw [List.mem_filter, hl.mem]
    simp only [hint, and_true]

end Scan

/-- The last 16KB of the key space. -/
def lastBref : Bref where
  type := .data
  key := 18446744073709535232
  keybits := 14
  dataOff := 14
  stats := ⟨0, 0, 0⟩
  keybits_lt := by omega
  fits := by omega

theorem three_lt_blocks : 3 < 1024 := by decide

/-- A deleted chain over the second element of the array, and one at the end of the key space. -/
def wrapChains : List MemChain :=
  [⟨dataBref 3 three_lt_blocks, true, true, false⟩, ⟨lastBref, false, false, false⟩]

theorem combined_find_merges_wrap :
    (mergedScan holesArray.countbrefs wrapChains 5 0).map (fun l => l.map fun m => m.bref.key) =
        some [16384, 81920, 18446744073709535232] ∧
      ∃ N, ∀ fuel, N ≤ fuel → ∃ l, combinedScan holesArray.countbrefs wrapChains keyMax fuel 0 = some l ∧
        l.Pairwise (fun m m' => m.bref.Before m'.bref) ∧
        ∀ m, m ∈ l ↔ InUnion holesArray.countbrefs wrapChains m ∧ m.bref.Intersects 0 keyMax := by
  have hinv : MergeInv holesArray.countbrefs wrapChains := by
    refine ⟨⟨by decide, rfl⟩, by decide, ?_⟩
    decide
  exact ⟨by decide, (combined_find_merges hinv 0 le_rfl).2.1⟩

end Hammer2
