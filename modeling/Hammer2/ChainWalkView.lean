import Hammer2.ChainWalk
import Hammer2.MergedScan

namespace Hammer2

open TurnLoop

section View

variable {a : BrefArray} {chains : List MemChain} {m m' : Match} {keyBeg keyEnd : Nat}

theorem mem_mergedView : m ∈ mergedView a chains ↔ InUnion a chains m := by
  unfold mergedView unloadedElements InUnion
  rw [List.mem_mergeSort, List.mem_append, List.mem_map, List.mem_map]
  refine or_congr (exists_congr fun c => and_congr_right fun _ => eq_comm) ?_
  simp only [List.mem_filter, List.all_eq_true, decide_eq_true_eq]
  constructor
  · rintro ⟨e, ⟨he, hne⟩, rfl⟩
    exact ⟨rfl, he, hne⟩
  · rintro ⟨hnone, he, hne⟩
    exact ⟨m.bref, ⟨he, hne⟩, by rw [← hnone]⟩

theorem mergedView_nodup (h : MergeInv a chains) : (mergedView a chains).Nodup := by
  unfold mergedView
  rw [(List.mergeSort_perm _ _).nodup_iff, List.nodup_append]
  have hbefore : ∀ e f : Bref, e.Before f → e ≠ f := by
    rintro e f hlt rfl
    exact absurd (Bref.before_trichotomy_key hlt) (lt_irrefl _)
  refine ⟨?_, ?_, ?_⟩
  · refine List.Pairwise.map _ (fun c c' hne heq => hne ?_)
      ((List.pairwise_map.mp h.sorted).imp fun hlt => mt (congrArg MemChain.bref) (hbefore _ _ hlt))
    injection heq with _ hc
    exact Option.some.inj hc
  · refine List.Pairwise.map _ (fun e e' hne heq => hne (congrArg Match.bref heq))
      (List.Pairwise.sublist List.filter_sublist (h.array.sorted.imp fun hlt => hbefore _ _ hlt))
  · intro m hm m' hm' heq
    obtain ⟨c, _, rfl⟩ := List.mem_map.mp hm
    obtain ⟨e, _, rfl⟩ := List.mem_map.mp hm'
    cases congrArg Match.chain heq

theorem mergedView_sorted (h : MergeInv a chains) :
    (mergedView a chains).Pairwise fun m m' => m.bref.Before m'.bref := by
  have hle : (mergedView a chains).Pairwise fun m m' => m.bref.key ≤ m'.bref.key := by
    have hsorted : (mergedView a chains).Pairwise fun m m' =>
        decide (m.bref.key ≤ m'.bref.key) = true := by
      refine List.pairwise_mergeSort (fun m m' m'' h1 h2 => ?_) (fun m m' => ?_) _
      · simp only [decide_eq_true_eq] at *
        omega
      · simp only [Bool.or_eq_true, decide_eq_true_eq]
        omega
    exact hsorted.imp fun hm => of_decide_eq_true hm
  refine (List.pairwise_and_iff.mpr ⟨hle, mergedView_nodup h⟩).imp_of_mem ?_
  rintro m m' hm hm' ⟨hkey, hne⟩
  rcases h.comparable (mem_mergedView.mp hm) (mem_mergedView.mp hm') with heq | hlt | hgt
  · exact absurd heq.symm hne
  · exact hlt
  · have := Bref.before_trichotomy_key hgt
    omega

/-- A search in a range without elements finds nothing, and the next key is behind the range. -/
theorem combinedFind_vacant (h : MergeInv a chains) (hmax : keyEnd ≤ keyMax)
    (hnone : ∀ m ∈ mergedView a chains, ¬m.bref.Intersects keyBeg keyEnd) :
    ∃ cacheIndex, combinedFind a chains keyBeg keyEnd =
      some ⟨none, (keyEnd + 1) % 18446744073709551616, cacheIndex⟩ := by
  obtain ⟨i, cacheIndex, keyNext, best, hfind, hchain, hn⟩ := combinedFind_parts h keyBeg hmax
  have hfree : ∀ c ∈ chains, ¬c.bref.Intersects keyBeg keyEnd := fun c hc =>
    hnone _ (mem_mergedView.mpr (Or.inl ⟨c, hc, rfl⟩))
  cases best with
  | some c =>
    obtain ⟨hc, hint⟩ := hn.best_mem c rfl
    exact absurd hint (hfree c hc)
  | none =>
    refine ⟨cacheIndex, ?_⟩
    unfold combinedFind
    rw [hfind]
    dsimp only
    rw [hchain]
    cases hs : SlotList.slot a.base i with
    | none => rfl
    | some e =>
      obtain ⟨he, hend⟩ := hn.scan_mem e hs
      have hout : keyEnd < e.key := by
        by_contra hin
        have hint : e.Intersects keyBeg keyEnd := ⟨hend, Nat.not_lt.mp hin⟩
        by_cases hover : ∃ c ∈ chains, c.bref.key = e.key
        · obtain ⟨c, hc, hkey⟩ := hover
          rcases h.loaded c hc e he with ⟨_, hbits⟩ | hlt | hgt
          · refine hfree c hc ?_
            unfold Bref.Intersects Bref.last at hint ⊢
            rw [hkey, hbits]
            exact hint
          · have := Bref.before_trichotomy_key hlt
            omega
          · have := Bref.before_trichotomy_key hgt
            omega
        · have hin : InUnion a chains ⟨e, none⟩ :=
            Or.inr ⟨rfl, he, fun c hc heq => hover ⟨c, hc, heq⟩⟩
          exact hnone _ (mem_mergedView.mpr hin) hint
      have hle := e.key_le_last
      dsimp only [inBounds, capped, Option.map_none]
      rw [if_pos hout, Nat.min_eq_left (by omega)]

/-- A search finds the first element of the range. -/
theorem combinedFind_first (h : MergeInv a chains) (hmax : keyEnd ≤ keyMax)
    (hm : m ∈ mergedView a chains) (hint : m.bref.Intersects keyBeg keyEnd)
    (hfirst : ∀ m' ∈ mergedView a chains, m'.bref.Intersects keyBeg keyEnd →
      m.bref.key ≤ m'.bref.key) :
    ∃ cacheIndex, combinedFind a chains keyBeg keyEnd =
      some ⟨some m, min (keyEnd + 1) (m.bref.last + 1) % 18446744073709551616, cacheIndex⟩ := by
  obtain ⟨⟨found, keyNext, cacheIndex⟩, hfind, hlowest⟩ := combinedFind_lowest h keyBeg hmax
  refine ⟨cacheIndex, hfind.trans ?_⟩
  cases found with
  | none => exact absurd hint (hlowest m (mem_mergedView.mp hm))
  | some m0 =>
    obtain ⟨hin, hint0, hnext, hlow⟩ := hlowest
    have heq : m = m0 := by
      rcases hlow m (mem_mergedView.mp hm) hint with heq | hlt
      · exact heq
      · have hkey := Bref.before_trichotomy_key hlt
        have hle := hfirst m0 (mem_mergedView.mpr hin) hint0
        omega
    subst heq
    rw [← hnext]

end View

end Hammer2
