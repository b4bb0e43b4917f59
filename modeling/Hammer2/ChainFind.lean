import Hammer2.BrefArrayOps

namespace Hammer2

/-- A chain in `core.rbtree` of its parent, with the flags `DELETED`, `BLKMAPPED` and
`BLKMAPUPD`. -/
structure MemChain where
  bref : Bref
  deleted : Bool
  blkmapped : Bool
  blkmapupd : Bool
deriving DecidableEq

/-- `struct hammer2_chain_find_info` -/
structure FindInfo where
  best : Option MemChain
  keyNext : Nat

def chainFindCmp (keyBeg keyEnd : Nat) (child : MemChain) : Int :=
  if child.bref.last < keyBeg then -1 else if keyEnd < child.bref.key then 1 else 0

/-- Lowers `key_next` to a key that is not 0, where a `key_next` of 0 is past all keys. -/
def lowerKey (keyNext key : Nat) : Nat :=
  if key ≠ 0 ∧ (key < keyNext ∨ keyNext = 0) then key else keyNext

def chainFindCallback (keyBeg : Nat) (info : FindInfo) (child : MemChain) : Option FindInfo :=
  let picked := match info.best with
    | none => some { info with best := some child }
    | some best =>
      if best.bref.key ≤ keyBeg ∧ child.bref.key ≤ keyBeg then none
      else if child.bref.key < best.bref.key then
        some ⟨some child,
          if best.bref.key < info.keyNext ∨ info.keyNext = 0 then best.bref.key else info.keyNext⟩
      else if child.bref.key = best.bref.key then none
      else
        some { info with keyNext :=
          if child.bref.key < info.keyNext ∨ info.keyNext = 0 then child.bref.key else info.keyNext }
  picked.map fun info => { info with keyNext := lowerKey info.keyNext child.bref.next }

/-- `hammer2_chain_find`. The scan of the tree visits the chains that compare equal in order. -/
def chainFind (chains : List MemChain) (keyNext keyBeg keyEnd : Nat) : Option FindInfo :=
  (chains.filter fun child => chainFindCmp keyBeg keyEnd child = 0).foldlM
    (chainFindCallback keyBeg) ⟨none, keyNext⟩

/-- An element of the merged view: its blockref, and its chain if it is in memory. -/
structure Match where
  bref : Bref
  chain : Option MemChain
deriving DecidableEq

/-- `*brefp` with the returned chain, `*key_nextp` and `cache_index` of the parent. -/
structure CombinedFind where
  found : Option Match
  keyNext : Nat
  cacheIndex : Nat

/-- The end of `hammer2_combined_find`, at the label `found`. -/
def inBounds (keyEnd : Nat) (m : Match) : Option Match := if keyEnd < m.bref.key then none else some m

/-- `hammer2_combined_find` -/
def combinedFind (a : BrefArray) (chains : List MemChain) (keyBeg keyEnd : Nat) :
    Option CombinedFind :=
  match a.baseFind ((keyEnd + 1) % 18446744073709551616) keyBeg with
  | none => none
  | some (i, cacheIndex, keyNext) =>
    match chainFind chains keyNext keyBeg keyEnd with
    | none => none
    | some ⟨best, keyNext⟩ =>
      match SlotList.slot a.base i, best with
      | none, none => some ⟨none, keyNext, cacheIndex⟩
      | none, some chain => some ⟨inBounds keyEnd ⟨chain.bref, some chain⟩, keyNext, cacheIndex⟩
      | some scan, none => some ⟨inBounds keyEnd ⟨scan, none⟩, keyNext, cacheIndex⟩
      | some scan, some chain =>
        if chain.bref.key ≤ keyBeg ∧ scan.key ≤ keyBeg ∨ chain.bref.key = scan.key then
          if chain.bref.key = scan.key then
            some ⟨inBounds keyEnd ⟨chain.bref, some chain⟩, keyNext, cacheIndex⟩
          else none
        else if chain.bref.key < scan.key then
          some ⟨inBounds keyEnd ⟨chain.bref, some chain⟩, keyNext, cacheIndex⟩
        else some ⟨inBounds keyEnd ⟨scan, none⟩, keyNext, cacheIndex⟩

/-- The merged view: chains, and elements of the array that no chain overrides. -/
def InUnion (a : BrefArray) (chains : List MemChain) (m : Match) : Prop :=
  (∃ chain ∈ chains, m = ⟨chain.bref, some chain⟩) ∨
    m.chain = none ∧ m.bref ∈ SlotList.elements a.base ∧ ∀ chain ∈ chains, chain.bref.key ≠ m.bref.key

def Bref.Intersects (e : Bref) (keyBeg keyEnd : Nat) : Prop := keyBeg ≤ e.last ∧ e.key ≤ keyEnd

/-- A sorted array and in-memory chains, each of them over the range of an element of the array or
beside all of them. -/
structure MergeInv (a : BrefArray) (chains : List MemChain) : Prop where
  array : a.Inv
  sorted : (chains.map MemChain.bref).Pairwise Bref.Before
  loaded : ∀ chain ∈ chains, ∀ e ∈ SlotList.elements a.base,
    chain.bref.key = e.key ∧ chain.bref.keybits = e.keybits ∨ chain.bref.Before e ∨
      e.Before chain.bref

section Find

variable {a : BrefArray} {chains : List MemChain} {keyBeg keyEnd : Nat}

theorem lowerKey_mod {k n : Nat} (hk : 1 ≤ k) (hk' : k ≤ 18446744073709551616) (hn : 1 ≤ n)
    (hn' : n ≤ 18446744073709551616) :
    lowerKey (k % 18446744073709551616) (n % 18446744073709551616) =
      min k n % 18446744073709551616 := by
  unfold lowerKey
  rcases Nat.lt_or_ge n 18446744073709551616 with hlt | hge
  · rw [Nat.mod_eq_of_lt hlt]
    rcases Nat.lt_or_ge k 18446744073709551616 with hlt' | hge'
    · rw [Nat.mod_eq_of_lt hlt', Nat.mod_eq_of_lt (by omega)]
      split <;> omega
    · rw [show k = 18446744073709551616 by omega, Nat.mod_self, if_pos (by omega),
        Nat.min_eq_right (by omega), Nat.mod_eq_of_lt hlt]
  · rw [show n = 18446744073709551616 by omega, Nat.mod_self, if_neg (by omega),
      Nat.min_eq_left hk']

theorem chainFindCmp_eq_zero {child : MemChain} :
    chainFindCmp keyBeg keyEnd child = 0 ↔ child.bref.Intersects keyBeg keyEnd := by
  unfold chainFindCmp Bref.Intersects
  split
  · refine iff_of_false (by decide) (by omega)
  · split
    · refine iff_of_false (by decide) (by omega)
    · exact iff_of_true rfl (by omega)

theorem Bref.next_eq (e : Bref) : e.next = (e.last + 1) % 18446744073709551616 := by
  have hpos := Nat.two_pow_pos e.keybits
  unfold Bref.next Bref.last
  rw [Nat.sub_add_cancel (by omega)]

theorem Bref.last_lt (e : Bref) : e.last < 18446744073709551616 := by
  have hpos := Nat.two_pow_pos e.keybits
  have hfits := e.fits
  unfold Bref.last
  omega

/-- Chains after the best one do not change it, and `key_next` is below them already. -/
theorem chainFind_rest {best : MemChain} {k : Nat} {rest : List MemChain} (hbeg : keyBeg ≤ best.bref.last)
    (hk : 1 ≤ k) (hk' : k ≤ best.bref.last + 1)
    (hrest : ∀ child ∈ rest, best.bref.Before child.bref) :
    rest.foldlM (chainFindCallback keyBeg) ⟨some best, k % 18446744073709551616⟩ =
      some ⟨some best, k % 18446744073709551616⟩ := by
  induction rest with
  | nil => rfl
  | cons child rest ih =>
    have hbefore := hrest child List.mem_cons_self
    have hlast := best.bref.key_le_last
    have hchild := child.bref.key_le_last
    have hlt := child.bref.last_lt
    unfold Bref.Before at hbefore
    have hmod : k % 18446744073709551616 = k := Nat.mod_eq_of_lt (by omega)
    have hstep : chainFindCallback keyBeg ⟨some best, k % 18446744073709551616⟩ child =
        some ⟨some best, k % 18446744073709551616⟩ := by
      unfold chainFindCallback
      simp only
      rw [if_neg (by omega), if_neg (by omega), if_neg (by omega), hmod,
        if_neg (show ¬(child.bref.key < k ∨ k = 0) by omega), Option.map_some]
      have hlower := lowerKey_mod hk (by omega) (show 1 ≤ child.bref.last + 1 by omega) (by omega)
      rw [hmod, Nat.min_eq_left (by omega), hmod, ← Bref.next_eq] at hlower
      simp only [hlower]
    rw [List.foldlM_cons, hstep]
    exact ih fun child hc => hrest child (List.mem_cons_of_mem _ hc)

/-- The nearest chain, and `key_next` lowered to the key after it. -/
theorem chainFind_spec (keyBeg keyEnd : Nat) (hs : (chains.map MemChain.bref).Pairwise Bref.Before) {k : Nat}
    (hk : 1 ≤ k) (hk' : k ≤ 18446744073709551616) :
    (chainFind chains (k % 18446744073709551616) keyBeg keyEnd =
        some ⟨none, k % 18446744073709551616⟩ ∧
      ∀ chain ∈ chains, ¬chain.bref.Intersects keyBeg keyEnd) ∨
    ∃ best ∈ chains, best.bref.Intersects keyBeg keyEnd ∧
      chainFind chains (k % 18446744073709551616) keyBeg keyEnd =
        some ⟨some best, min k (best.bref.last + 1) % 18446744073709551616⟩ ∧
      ∀ chain ∈ chains, chain.bref.Intersects keyBeg keyEnd →
        chain = best ∨ best.bref.Before chain.bref := by
  have hmem : ∀ child, child ∈ chains.filter (fun child => chainFindCmp keyBeg keyEnd child = 0) ↔
      child ∈ chains ∧ child.bref.Intersects keyBeg keyEnd := by
    intro child
    rw [List.mem_filter, decide_eq_true_eq, chainFindCmp_eq_zero]
  have hsorted : (chains.filter fun child => chainFindCmp keyBeg keyEnd child = 0).Pairwise
      fun c c' => c.bref.Before c'.bref :=
    (List.pairwise_map.mp hs).sublist List.filter_sublist
  unfold chainFind
  cases hf : chains.filter fun child => chainFindCmp keyBeg keyEnd child = 0 with
  | nil =>
    left
    refine ⟨rfl, fun chain hc hint => ?_⟩
    have hin := (hmem chain).mpr ⟨hc, hint⟩
    rw [hf] at hin
    cases hin
  | cons best rest =>
    right
    rw [hf] at hsorted hmem
    obtain ⟨hbest, hrest⟩ := List.pairwise_cons.mp hsorted
    obtain ⟨hc, hint⟩ := (hmem best).mp List.mem_cons_self
    have hlt := best.bref.last_lt
    refine ⟨best, hc, hint, ?_, fun chain hc hint => ?_⟩
    · have hstep : chainFindCallback keyBeg ⟨none, k % 18446744073709551616⟩ best =
          some ⟨some best, min k (best.bref.last + 1) % 18446744073709551616⟩ := by
        unfold chainFindCallback
        simp only [Option.map_some]
        rw [Bref.next_eq, lowerKey_mod hk hk' (by omega) (by omega)]
      rw [List.foldlM_cons, hstep]
      exact chainFind_rest hint.1 (by omega) (by omega) hbest
    · rcases List.mem_cons.mp ((hmem chain).mpr ⟨hc, hint⟩) with rfl | hin
      · exact Or.inl rfl
      · exact Or.inr (hbest chain hin)

theorem Bref.before_trichotomy_key {e f : Bref} (h : e.Before f) : e.key < f.key := by
  have hle := e.key_le_last
  unfold Bref.Before at h
  omega

/-- The search of the array sees every element that ends at or after the key. -/
theorem BrefArray.Found.first {i : Nat} (hi : a.Inv) (hf : a.Found keyBeg i) {e : Bref}
    (he : e ∈ SlotList.elements a.base) (hend : keyBeg ≤ e.last) :
    ∃ scan, SlotList.slot a.base i = some scan ∧ keyBeg ≤ scan.last ∧ (e = scan ∨ scan.Before e) := by
  obtain ⟨m, hm⟩ := SlotList.mem_elements.mp he
  have hle : i ≤ m := by
    by_contra hlt
    have hbehind := hf.behind e (SlotList.mem_elements_take.mpr ⟨m, by omega, hm⟩)
    omega
  obtain ⟨scan, hscan, hbeg⟩ := hf.here (lt_of_le_of_lt hle (SlotList.slot_lt hm))
  refine ⟨scan, hscan, hbeg, ?_⟩
  rcases Nat.eq_or_lt_of_le hle with rfl | hlt
  · rw [hscan] at hm
    exact Or.inl (Option.some.inj hm).symm
  · exact Or.inr (BrefArray.slot_before hi.sorted hlt hscan hm)

theorem pairwise_comparable {α : Type} {R : α → α → Prop} {l : List α} (hl : l.Pairwise R) {e f : α}
    (he : e ∈ l) (hf : f ∈ l) : f = e ∨ R e f ∨ R f e := by
  induction hl with
  | nil => cases he
  | cons hhead _ ih =>
    rcases List.mem_cons.mp he with rfl | he'
    · rcases List.mem_cons.mp hf with rfl | hf'
      · exact Or.inl rfl
      · exact Or.inr (Or.inl (hhead f hf'))
    · rcases List.mem_cons.mp hf with rfl | hf'
      · exact Or.inr (Or.inr (hhead e he'))
      · exact ih he' hf'

/-- The elements of the merged view are disjoint. -/
theorem MergeInv.comparable (h : MergeInv a chains) {m m' : Match} (hm : InUnion a chains m)
    (hm' : InUnion a chains m') : m' = m ∨ m.bref.Before m'.bref ∨ m'.bref.Before m.bref := by
  rcases hm with ⟨c, hc, rfl⟩ | ⟨hnone, he, hne⟩
  · rcases hm' with ⟨c', hc', rfl⟩ | ⟨hnone', he', hne'⟩
    · rcases pairwise_comparable (List.pairwise_map.mp h.sorted) hc hc' with rfl | hcmp
      · exact Or.inl rfl
      · exact Or.inr hcmp
    · rcases h.loaded c hc m'.bref he' with ⟨hkey, _⟩ | hcmp
      · exact absurd hkey (hne' c hc)
      · exact Or.inr hcmp
  · rcases hm' with ⟨c', hc', rfl⟩ | ⟨hnone', he', hne'⟩
    · rcases h.loaded c' hc' m.bref he with ⟨hkey, _⟩ | hcmp
      · exact absurd hkey (hne c' hc')
      · exact Or.inr hcmp.symm
    · rcases pairwise_comparable h.array.sorted he he' with heq | hcmp
      · left
        cases m
        cases m'
        simp only at hnone hnone' heq
        rw [hnone, hnone', heq]
      · exact Or.inr hcmp

/-- What `hammer2_combined_find` is for: the lowest element of the merged view that intersects the
range, and the key after it. -/
def Lowest (a : BrefArray) (chains : List MemChain) (keyBeg keyEnd : Nat) (r : CombinedFind) : Prop :=
  match r.found with
  | none => ∀ m, InUnion a chains m → ¬m.bref.Intersects keyBeg keyEnd
  | some m => InUnion a chains m ∧ m.bref.Intersects keyBeg keyEnd ∧
      r.keyNext = min (keyEnd + 1) (m.bref.last + 1) % 18446744073709551616 ∧
      ∀ m', InUnion a chains m' → m'.bref.Intersects keyBeg keyEnd → m' = m ∨ m.bref.Before m'.bref

/-- Of two elements of the merged view the one with the lower key comes first. -/
theorem MergeInv.lowest_of_key_le (h : MergeInv a chains) {m m' : Match} (hm : InUnion a chains m)
    (hm' : InUnion a chains m') (hle : m.bref.key ≤ m'.bref.key) :
    m' = m ∨ m.bref.Before m'.bref := by
  rcases h.comparable hm hm' with heq | hlt | hgt
  · exact Or.inl heq
  · exact Or.inr hlt
  · have hkey := Bref.before_trichotomy_key hgt
    omega

/-- The search of the array and the search of the tree, before the nearer result is selected. -/
structure Nearest (a : BrefArray) (chains : List MemChain) (keyBeg keyEnd : Nat)
    (scan : Option Bref) (best : Option MemChain) : Prop where
  scan_mem : ∀ e, scan = some e → e ∈ SlotList.elements a.base ∧ keyBeg ≤ e.last
  scan_le : ∀ f ∈ SlotList.elements a.base, keyBeg ≤ f.last → ∃ e, scan = some e ∧ e.key ≤ f.key
  best_mem : ∀ c, best = some c → c ∈ chains ∧ c.bref.Intersects keyBeg keyEnd
  best_le : ∀ d ∈ chains, d.bref.Intersects keyBeg keyEnd → ∃ c, best = some c ∧ c.bref.key ≤ d.bref.key

/-- The lower of `k` and the key after an element. -/
def capped (k : Nat) : Option Bref → Nat
  | none => k
  | some e => min k (e.last + 1)

theorem capped_pos {k : Nat} (hk : 1 ≤ k) (e : Option Bref) : 1 ≤ capped k e := by
  cases e with
  | none => exact hk
  | some e => exact Nat.le_min.mpr ⟨hk, Nat.le_add_left 1 e.last⟩

theorem capped_le (k : Nat) (e : Option Bref) : capped k e ≤ k := by
  cases e with
  | none => exact le_rfl
  | some e => exact Nat.min_le_left _ _

/-- Both searches find the nearest element of their side, and `key_next` is lowered to the keys
after what they find. -/
theorem combinedFind_parts (h : MergeInv a chains) (keyBeg : Nat) (hmax : keyEnd ≤ keyMax) :
    ∃ i cacheIndex keyNext best,
      a.baseFind ((keyEnd + 1) % 18446744073709551616) keyBeg = some (i, cacheIndex, keyNext) ∧
      chainFind chains keyNext keyBeg keyEnd = some ⟨best,
        capped (capped (keyEnd + 1) (SlotList.slot a.base i)) (best.map MemChain.bref) %
          18446744073709551616⟩ ∧
      Nearest a chains keyBeg keyEnd (SlotList.slot a.base i) best := by
  unfold keyMax at hmax
  obtain ⟨i, cacheIndex, keyNext, hfind, hfound, hnext⟩ :=
    BrefArray.baseFind_spec h.array ((keyEnd + 1) % 18446744073709551616) keyBeg
  have hk : keyNext = capped (keyEnd + 1) (SlotList.slot a.base i) % 18446744073709551616 := by
    rw [hnext]
    cases SlotList.slot a.base i with
    | none => rfl
    | some scan =>
      have hlt := scan.last_lt
      have hlower := lowerKey_mod (show 1 ≤ keyEnd + 1 by omega) (by omega)
        (show 1 ≤ scan.last + 1 by omega) (by omega)
      rw [← Bref.next_eq] at hlower
      exact hlower
  have hpos := capped_pos (show 1 ≤ keyEnd + 1 by omega) (SlotList.slot a.base i)
  have hcap := capped_le (keyEnd + 1) (SlotList.slot a.base i)
  have hscan_mem : ∀ e, SlotList.slot a.base i = some e →
      e ∈ SlotList.elements a.base ∧ keyBeg ≤ e.last := by
    intro e he
    obtain ⟨e', he', hbeg⟩ := hfound.here (SlotList.slot_lt he)
    rw [he] at he'
    cases Option.some.inj he'
    exact ⟨SlotList.mem_elements.mpr ⟨i, he⟩, hbeg⟩
  have hscan_le : ∀ f ∈ SlotList.elements a.base, keyBeg ≤ f.last →
      ∃ e, SlotList.slot a.base i = some e ∧ e.key ≤ f.key := by
    intro f hf hbeg
    obtain ⟨e, he, _, hle⟩ := hfound.first h.array hf hbeg
    refine ⟨e, he, ?_⟩
    rcases hle with rfl | hlt
    · exact le_rfl
    · exact (Bref.before_trichotomy_key hlt).le
  rcases chainFind_spec keyBeg keyEnd h.sorted hpos (by omega) with
    ⟨hchain, hnone⟩ | ⟨best, hmem, hint, hchain, hle⟩
  · refine ⟨i, cacheIndex, keyNext, none, hfind, hk ▸ hchain, hscan_mem, hscan_le, ?_, ?_⟩
    · intro c hc
      cases hc
    · intro d hd hint
      exact absurd hint (hnone d hd)
  · refine ⟨i, cacheIndex, keyNext, some best, hfind, hk ▸ hchain, hscan_mem, hscan_le, ?_, ?_⟩
    · intro c hc
      cases Option.some.inj hc
      exact ⟨hmem, hint⟩
    · intro d hd hint'
      refine ⟨best, rfl, ?_⟩
      rcases hle d hd hint' with rfl | hlt
      · exact le_rfl
      · exact (Bref.before_trichotomy_key hlt).le

theorem MergeInv.last_le (h : MergeInv a chains) {c : MemChain} {e : Bref} (hc : c ∈ chains)
    (he : e ∈ SlotList.elements a.base) (hkey : c.bref.key ≤ e.key) : c.bref.last ≤ e.last := by
  have hle := e.key_le_last
  rcases h.loaded c hc e he with ⟨hk, hb⟩ | hlt | hgt
  · unfold Bref.last
    rw [hk, hb]
  · unfold Bref.Before at hlt
    omega
  · have hgt' := Bref.before_trichotomy_key hgt
    omega

/-- The chain is the lowest element if no element of the array starts before it. -/
theorem Nearest.chain_lowest (h : MergeInv a chains) {scan : Option Bref} {c : MemChain}
    (cacheIndex : Nat) (hn : Nearest a chains keyBeg keyEnd scan (some c))
    (hscan : ∀ e, scan = some e → c.bref.key ≤ e.key) :
    Lowest a chains keyBeg keyEnd ⟨inBounds keyEnd ⟨c.bref, some c⟩,
      capped (capped (keyEnd + 1) scan) (some c.bref) % 18446744073709551616, cacheIndex⟩ := by
  obtain ⟨hmem, hint⟩ := hn.best_mem c rfl
  have hin : InUnion a chains ⟨c.bref, some c⟩ := Or.inl ⟨c, hmem, rfl⟩
  have hbound : inBounds keyEnd ⟨c.bref, some c⟩ = some ⟨c.bref, some c⟩ :=
    if_neg (Nat.not_lt.mpr hint.2)
  have hcap : capped (capped (keyEnd + 1) scan) (some c.bref) =
      min (keyEnd + 1) (c.bref.last + 1) := by
    cases scan with
    | none => rfl
    | some e =>
      have hle := h.last_le hmem (hn.scan_mem e rfl).1 (hscan e rfl)
      simp only [capped]
      omega
  unfold Lowest
  rw [hbound]
  refine ⟨hin, hint, congrArg (· % 18446744073709551616) hcap, fun m' hm' hint' => ?_⟩
  refine h.lowest_of_key_le hin hm' ?_
  rcases hm' with ⟨d, hd, rfl⟩ | ⟨_, hf, _⟩
  · obtain ⟨c', hc', hle⟩ := hn.best_le d hd hint'
    cases Option.some.inj hc'
    exact hle
  · obtain ⟨e, he, hle⟩ := hn.scan_le m'.bref hf hint'.1
    exact (hscan e he).trans hle

/-- The element of the array is the lowest one if no chain starts at or before it. -/
theorem Nearest.scan_lowest (h : MergeInv a chains) {e : Bref} {best : Option MemChain}
    (cacheIndex : Nat) (hn : Nearest a chains keyBeg keyEnd (some e) best)
    (hbest : ∀ c, best = some c → e.key < c.bref.key) :
    Lowest a chains keyBeg keyEnd ⟨inBounds keyEnd ⟨e, none⟩,
      capped (capped (keyEnd + 1) (some e)) (best.map MemChain.bref) % 18446744073709551616,
      cacheIndex⟩ := by
  obtain ⟨hmem, hbeg⟩ := hn.scan_mem e rfl
  have hchain : ∀ d ∈ chains, d.bref.Intersects keyBeg keyEnd → e.key < d.bref.key := by
    intro d hd hint
    obtain ⟨c, hc, hle⟩ := hn.best_le d hd hint
    exact lt_of_lt_of_le (hbest c hc) hle
  have harray : ∀ f ∈ SlotList.elements a.base, keyBeg ≤ f.last → e.key ≤ f.key := by
    intro f hf hbeg'
    obtain ⟨e', he', hle⟩ := hn.scan_le f hf hbeg'
    cases Option.some.inj he'
    exact hle
  unfold Lowest inBounds
  by_cases hout : keyEnd < e.key
  · simp only [hout, if_true]
    rintro m' (⟨d, hd, rfl⟩ | ⟨_, hf, _⟩) hint
    · have hlt := hchain d hd hint
      have hle := hint.2
      simp only at hle
      omega
    · have hle := harray m'.bref hf hint.1
      have hle' := hint.2
      omega
  · simp only [hout, if_false]
    have hint : e.Intersects keyBeg keyEnd := ⟨hbeg, Nat.not_lt.mp hout⟩
    have hin : InUnion a chains ⟨e, none⟩ := by
      refine Or.inr ⟨rfl, hmem, fun d hd heq => ?_⟩
      have hsame : d.bref.last = e.last := by
        rcases h.loaded d hd e hmem with ⟨hk, hb⟩ | hlt | hgt
        · unfold Bref.last
          rw [hk, hb]
        · exact absurd (Bref.before_trichotomy_key hlt) (heq ▸ lt_irrefl _)
        · exact absurd (Bref.before_trichotomy_key hgt) (heq ▸ lt_irrefl _)
      have hlt := hchain d hd ⟨hsame ▸ hbeg, heq ▸ hint.2⟩
      exact absurd heq hlt.ne'
    have hcap : capped (capped (keyEnd + 1) (some e)) (best.map MemChain.bref) =
        min (keyEnd + 1) (e.last + 1) := by
      cases best with
      | none => rfl
      | some c =>
        have hc := (hn.best_mem c rfl).1
        have hlt := hbest c rfl
        have hle := c.bref.key_le_last
        have hlast : e.last < c.bref.key := by
          rcases h.loaded c hc e hmem with ⟨hk, _⟩ | hlt' | hgt
          · omega
          · exact absurd (Bref.before_trichotomy_key hlt') (by omega)
          · exact hgt
        simp only [capped, Option.map_some]
        omega
    refine ⟨hin, hint, congrArg (· % 18446744073709551616) hcap, fun m' hm' hint' => ?_⟩
    refine h.lowest_of_key_le hin hm' ?_
    rcases hm' with ⟨d, hd, rfl⟩ | ⟨_, hf, _⟩
    · exact (hchain d hd hint').le
    · exact harray m'.bref hf hint'.1

/-- `hammer2_combined_find` returns the lowest element of the merged view. -/
theorem combinedFind_lowest (h : MergeInv a chains) (keyBeg : Nat) (hmax : keyEnd ≤ keyMax) :
    ∃ r, combinedFind a chains keyBeg keyEnd = some r ∧ Lowest a chains keyBeg keyEnd r := by
  obtain ⟨i, cacheIndex, keyNext, best, hfind, hchain, hn⟩ := combinedFind_parts h keyBeg hmax
  unfold combinedFind
  rw [hfind]
  simp only
  rw [hchain]
  simp only
  cases hscan : SlotList.slot a.base i with
  | none =>
    rw [hscan] at hn
    cases best with
    | none =>
      refine ⟨_, rfl, ?_⟩
      rintro m' (⟨d, hd, rfl⟩ | ⟨_, hf, _⟩) hint
      · obtain ⟨c, hc, _⟩ := hn.best_le d hd hint
        cases hc
      · obtain ⟨e, he, _⟩ := hn.scan_le m'.bref hf hint.1
        cases he
    | some c => exact ⟨_, rfl, hn.chain_lowest h cacheIndex fun e he => by cases he⟩
  | some e =>
    rw [hscan] at hn
    cases best with
    | none => exact ⟨_, rfl, hn.scan_lowest h cacheIndex fun c hc => by cases hc⟩
    | some c =>
      obtain ⟨hc, hint⟩ := hn.best_mem c rfl
      obtain ⟨he, hbeg⟩ := hn.scan_mem e rfl
      simp only
      split
      next hflush =>
        -- both cover `key_beg`, or have the same key
        have hkey : c.bref.key = e.key := by
          rcases h.loaded c hc e he with ⟨hk, _⟩ | hlt | hgt
          · exact hk
          · have hlt' := Bref.before_trichotomy_key hlt
            have hbeg' := hint.1
            unfold Bref.Before at hlt
            omega
          · have hgt' := Bref.before_trichotomy_key hgt
            unfold Bref.Before at hgt
            omega
        rw [if_pos hkey]
        refine ⟨_, rfl, hn.chain_lowest h cacheIndex fun e' he' => ?_⟩
        cases Option.some.inj he'
        exact hkey.le
      next hflush =>
        split
        next hlt =>
          refine ⟨_, rfl, hn.chain_lowest h cacheIndex fun e' he' => ?_⟩
          cases Option.some.inj he'
          exact hlt.le
        next hge =>
          refine ⟨_, rfl, hn.scan_lowest h cacheIndex fun c' hc' => ?_⟩
          cases Option.some.inj hc'
          omega

end Find

end Hammer2
