import Hammer2.ChainWalkView

namespace Hammer2

open TurnLoop

/-- A lookup among the block references of a topology, without `HAMMER2_LOOKUP_MATCHIND`. -/
structure PlainLookup (top : ChainTop) (flags : LookupFlags) (keyEnd : Nat) : Prop where
  directdata : top.directdata = false
  matchind : flags.matchind = false
  keyEnd_le : keyEnd ≤ keyMax

/-- The parents that a path names are those of the topology. -/
def ChainTop.PathIn (top : ChainTop) : ParentPath → Prop
  | [] => True
  | (m, node) :: above => PathIn top above ∧ ∃ array chains below,
      top.parentAt above = .parent array chains below ∧ m ∈ mergedView array chains ∧
        m.deleted = false ∧ m.indirect = true ∧ node = below m.bref.key

def ParentPath.key : ParentPath → Nat
  | [] => 0
  | (m, _) :: _ => m.bref.key

def ParentPath.last : ParentPath → Nat
  | [] => keyMax
  | (m, _) :: _ => m.bref.last

/-- An element of the parent that a path leads to. -/
def ChainTop.Holds (top : ChainTop) (path : ParentPath) (m : Match) : Prop :=
  ∃ array chains below, top.parentAt path = .parent array chains below ∧ m ∈ mergedView array chains

/-- The parent in which an element with the key would have to be, and is not. -/
structure ChainTop.Vacant (top : ChainTop) (path : ParentPath) (key : Nat) : Prop where
  node : ∃ array chains below, top.parentAt path = .parent array chains below
  key_le : path.key ≤ key
  le_last : key ≤ path.last
  free : ∀ m, top.Holds path m → m.bref.Intersects key key → m.deleted = true

/-- The first of the items in a range of keys. -/
def firstItem (items : List WalkItem) (keyBeg keyEnd : Nat) : Option WalkItem :=
  items.find? fun it => it.Intersects keyBeg keyEnd

/-- What a lookup answers when `first` is the first that the topology has for it. -/
def LookupResult.Answers (r : LookupResult) (top : ChainTop) (keyEnd : Nat)
    (first : Option WalkItem) : Prop :=
  top.PathIn r.path ∧
    match first with
    | none => r.found = .null ∧ r.error = 0 ∧ top.Vacant r.path keyEnd
    | some (.element m) => r.found = .element m ∧ r.error = 0 ∧ top.Holds r.path m
    | some (.fault _ _ error) => r.found = .null ∧ r.error = error

/-- The loop has seen all of the parent that it is at. -/
structure Drained (top : ChainTop) (flags : LookupFlags) (keyEnd : Nat) (c : LookupCursor) :
    Prop where
  node : ∃ array chains below, top.parentAt c.path = .parent array chains below
  turn : ∃ keyNext, ∀ x, lookupTurn top flags keyEnd x c =
    some (exhausted keyEnd { c with keyNext := keyNext })
  free : ∀ m, top.Holds c.path m → ¬m.bref.Intersects c.keyBeg keyEnd

/-- The loop either answers within a parent, or has seen all of it. -/
def WalkEnd (top : ChainTop) (flags : LookupFlags) (keyEnd : Nat) (path : ParentPath) (bound : Nat)
    (first : Option WalkItem) (c : LookupCursor) : Prop :=
  (∃ n ≤ bound, ∃ r, Finishes (lookupTurn top flags keyEnd) n c r ∧ r.Answers top keyEnd first ∧
      (first = none → keyEnd ≤ path.last)) ∨
    first = none ∧ ∃ n ≤ bound, ∃ keyBeg keyNext,
      Steps (lookupTurn top flags keyEnd) n c ⟨path, keyBeg, keyNext⟩ ∧
      Drained top flags keyEnd ⟨path, keyBeg, keyNext⟩ ∧ c.keyBeg ≤ keyBeg ∧ keyBeg ≤ keyEnd ∧
      keyBeg ≤ path.last + 1

section Turns

variable {top : ChainTop} {flags : LookupFlags} {keyEnd : Nat} {c : LookupCursor}
  {array : BrefArray} {chains : List MemChain} {below : Nat → ChainNode} {m : Match}

theorem matchesParent_none (h : flags.matchind = false) : matchesParent flags keyEnd c = none := by
  unfold matchesParent
  rcases c.path with _ | ⟨⟨m, node⟩, above⟩
  · rfl
  · exact if_neg fun hm => absurd hm.1 (by simp [h])

theorem lookupTurn_errored {error : Nat} (h : PlainLookup top flags keyEnd)
    (hnode : top.parentAt c.path = .errored error) (x : Nat) :
    lookupTurn top flags keyEnd x c = some (.done ⟨.null, error, c.keyNext, c.path⟩) := by
  unfold lookupTurn
  rw [matchesParent_none h.matchind]
  dsimp only
  rw [hnode]

theorem lookupTurn_found (h : PlainLookup top flags keyEnd)
    (hnode : top.parentAt c.path = .parent array chains below) {found : Option Match}
    {keyNext x : Nat} (hfind : ∃ cacheIndex, combinedFind { array with cacheIndex := x } chains
      c.keyBeg keyEnd = some ⟨found, keyNext, cacheIndex⟩) :
    lookupTurn top flags keyEnd x c =
      some (foundTurn keyEnd below { c with keyNext := keyNext } found) := by
  obtain ⟨cacheIndex, hfind⟩ := hfind
  unfold lookupTurn
  rw [matchesParent_none h.matchind]
  dsimp only
  rw [hnode]
  dsimp only
  rw [if_neg (fun hd => absurd hd.2 (by simp [h.directdata])), hfind]

theorem lookupTurn_vacant (h : PlainLookup top flags keyEnd)
    (hnode : top.parentAt c.path = .parent array chains below) (hinv : MergeInv array chains)
    (hnone : ∀ m ∈ mergedView array chains, ¬m.bref.Intersects c.keyBeg keyEnd) :
    Drained top flags keyEnd c := by
  refine ⟨⟨array, chains, below, hnode⟩, ⟨_, fun x => lookupTurn_found h hnode
    (combinedFind_vacant (hinv.cacheIndex x) h.keyEnd_le hnone)⟩, ?_⟩
  rintro m ⟨_, _, _, hnode', hm⟩
  rw [hnode] at hnode'
  cases hnode'
  exact hnone m hm

theorem lookupTurn_first (h : PlainLookup top flags keyEnd)
    (hnode : top.parentAt c.path = .parent array chains below) (hinv : MergeInv array chains)
    (hm : m ∈ mergedView array chains) (hint : m.bref.Intersects c.keyBeg keyEnd)
    (hfirst : ∀ m' ∈ mergedView array chains, m'.bref.Intersects c.keyBeg keyEnd →
      m.bref.key ≤ m'.bref.key) (x : Nat) :
    lookupTurn top flags keyEnd x c = some (foundTurn keyEnd below
      { c with keyNext := min (keyEnd + 1) (m.bref.last + 1) % 18446744073709551616 } (some m)) :=
  lookupTurn_found h hnode (combinedFind_first (hinv.cacheIndex x) h.keyEnd_le hm hint hfirst)

end Turns

section Items

variable {below : Nat → ChainNode} {array : BrefArray} {chains : List MemChain} {m : Match}
  {it : WalkItem} {l l' : List WalkItem} {lo hi keyBeg keyEnd : Nat}

/-- What is below an element of a parent. -/
def elementItems (below : Nat → ChainNode) (m : Match) : List WalkItem :=
  if m.deleted then []
  else if m.indirect then (below m.bref.key).items m.bref.key m.bref.last
  else [.element m]

def elementTurns (below : Nat → ChainNode) (m : Match) : Nat :=
  if m.deleted then 1 else if m.indirect then (below m.bref.key).turns + 2 else 0

theorem ChainNode.items_parent : (ChainNode.parent array chains below).items lo hi =
    (mergedView array chains).flatMap (elementItems below) := rfl

theorem ChainNode.turns_parent : (ChainNode.parent array chains below).turns =
    ((mergedView array chains).map (elementTurns below)).sum := rfl

theorem elementItems_within (hkid : m.deleted = false → m.indirect = true →
      ∀ it ∈ (below m.bref.key).items m.bref.key m.bref.last,
        m.bref.key ≤ it.key ∧ it.key ≤ it.last ∧ it.last ≤ m.bref.last)
    (hit : it ∈ elementItems below m) :
    m.bref.key ≤ it.key ∧ it.key ≤ it.last ∧ it.last ≤ m.bref.last := by
  unfold elementItems at hit
  split at hit
  · cases hit
  next hlive =>
    split at hit
    next hind => exact hkid (Bool.eq_false_iff.mpr hlive) hind it hit
    next =>
      rw [List.mem_singleton.mp hit]
      exact ⟨le_rfl, m.bref.key_le_last, le_rfl⟩

theorem ChainNode.items_within (t : ChainNode) (hle : lo ≤ hi) (h : t.WellNested lo hi)
    (hit : it ∈ t.items lo hi) : lo ≤ it.key ∧ it.key ≤ it.last ∧ it.last ≤ hi := by
  induction t generalizing lo hi it with
  | errored error =>
    rw [List.mem_singleton.mp hit]
    exact ⟨le_rfl, hle, le_rfl⟩
  | parent array chains below ih =>
    obtain ⟨m, hm, hitm⟩ := List.mem_flatMap.mp hit
    obtain ⟨hlo, hhi, hkid⟩ := h.2 m hm
    obtain ⟨h1, h2, h3⟩ := elementItems_within (fun hlive hind it' hit' =>
      ih m.bref.key m.bref.key_le_last (hkid hlive hind) hit') hitm
    exact ⟨hlo.trans h1, h2, h3.trans hhi⟩

theorem firstItem_append : firstItem (l ++ l') keyBeg keyEnd =
    (firstItem l keyBeg keyEnd).or (firstItem l' keyBeg keyEnd) := List.find?_append

theorem firstItem_none (h : ∀ it ∈ l, ¬it.Intersects keyBeg keyEnd) :
    firstItem l keyBeg keyEnd = none :=
  List.find?_eq_none.mpr fun it hit => by simpa using h it hit

/-- Items behind two keys are in the range from the one if they are in the range from the other. -/
theorem firstItem_congr (keyBeg' : Nat) (h : ∀ it ∈ l, keyBeg ≤ it.last ∧ keyBeg' ≤ it.last) :
    firstItem l keyBeg keyEnd = firstItem l keyBeg' keyEnd := by
  refine List.find?_congr fun it hit => decide_eq_decide.mpr ?_
  obtain ⟨h1, h2⟩ := h it hit
  exact and_congr_left fun _ => iff_of_true h1 h2

end Items

/-- The loops take the next key as past the range when it wrapped. -/
theorem Bref.next_past_iff (e : Bref) {keyEnd : Nat} (h : keyEnd ≤ keyMax) :
    (e.next = 0 ∨ keyEnd < e.next) ↔ keyEnd ≤ e.last := by
  have hlt := e.last_lt
  unfold keyMax at h
  rw [Bref.next_eq]
  omega

theorem Bref.next_of_last_lt (e : Bref) {keyEnd : Nat} (h : keyEnd ≤ keyMax)
    (hlt : e.last < keyEnd) : e.next = e.last + 1 := by
  unfold keyMax at h
  rw [Bref.next_eq]
  omega

section Walk

variable {top : ChainTop} {flags : LookupFlags} {keyEnd bound bound' k : Nat}
  {path : ParentPath} {first first' : Option WalkItem} {c c' : LookupCursor}
  {array : BrefArray} {chains : List MemChain} {below : Nat → ChainNode} {m : Match}
  {node : ChainNode}

theorem WalkEnd.of_steps (ho : WalkEnd top flags keyEnd path bound first c')
    (hs : Steps (lookupTurn top flags keyEnd) k c c') (hbeg : c.keyBeg ≤ c'.keyBeg)
    (hb : k + bound ≤ bound') : WalkEnd top flags keyEnd path bound' first c := by
  rcases ho with ⟨n, hn, r, hfin, hr⟩ | ⟨hnone, n, hn, keyBeg, keyNext, hsteps, hd, h1, h2⟩
  · exact Or.inl ⟨k + n, by omega, r, hs.finishes hfin, hr⟩
  · exact Or.inr ⟨hnone, k + n, by omega, keyBeg, keyNext, hs.trans hsteps, hd, by omega, h2⟩

/-- What is left of a range behind the keys of a parent is looked up in the parent above. -/
theorem WalkEnd.up (hmax : keyEnd ≤ keyMax) (hpath : top.PathIn ((m, node) :: path))
    (ho : WalkEnd top flags keyEnd ((m, node) :: path) bound first c)
    (hkey : m.bref.key ≤ keyEnd) (hclear : keyEnd ≠ m.bref.last + 1)
    (hlast : m.bref.last ≤ path.last) (hbeg : c.keyBeg ≤ m.bref.last + 1)
    (hnone : keyEnd ≤ m.bref.last → first' = none)
    (hrest : m.bref.last < keyEnd → ∀ keyNext,
      WalkEnd top flags keyEnd path bound' first' ⟨path, m.bref.last + 1, keyNext⟩) :
    WalkEnd top flags keyEnd path (bound + 1 + bound') (first.or first') c := by
  rcases ho with ⟨n, hn, r, hfin, hr, hend⟩ |
    ⟨rfl, n, hn, keyBeg, keyNext, hsteps, ⟨hpar, ⟨keyNext', hturn⟩, hfree⟩, h1, h2, h3⟩
  · cases first with
    | some it => exact Or.inl ⟨n, by omega, r, hfin, hr, fun h => nomatch h⟩
    | none =>
      have hle : keyEnd ≤ m.bref.last := hend rfl
      rw [hnone hle]
      exact Or.inl ⟨n, by omega, r, hfin, hr, fun _ => hle.trans hlast⟩
  · change keyBeg ≤ m.bref.last + 1 at h3
    rw [Option.none_or]
    unfold exhausted at hturn
    dsimp only at hturn
    -- the lookup ends at this parent if its keys go up to the end of the range
    have hover : keyEnd ≤ m.bref.last → ∀ keyNext, LookupResult.Answers
        ⟨.null, 0, keyNext, (m, node) :: path⟩ top keyEnd first' := by
      intro hle keyNext
      rw [hnone hle]
      exact ⟨hpath, rfl, rfl, hpar, hkey, hle, fun m' hm' hint =>
        absurd ⟨h2.trans hint.1, hint.2⟩ (hfree m' hm')⟩
    by_cases hb : keyBeg = keyEnd
    · have hle : keyEnd ≤ m.bref.last := by omega
      rw [if_pos hb] at hturn
      exact Or.inl ⟨n, by omega, _, ⟨_, hsteps, hturn⟩, hover hle _, fun _ => hle.trans hlast⟩
    · rw [if_neg hb] at hturn
      by_cases hle : keyEnd ≤ m.bref.last
      · rw [if_pos ((m.bref.next_past_iff hmax).mpr hle)] at hturn
        exact Or.inl ⟨n, by omega, _, ⟨_, hsteps, hturn⟩, hover hle _, fun _ => hle.trans hlast⟩
      · have hlt : m.bref.last < keyEnd := Nat.lt_of_not_le hle
        have hmore := mt (m.bref.next_past_iff hmax).mp hle
        rw [if_neg hmore, m.bref.next_of_last_lt hmax hlt] at hturn
        exact (hrest hlt keyNext').of_steps (hsteps.trans (.step hturn (.refl _))) hbeg (by omega)

/-- What a lookup that comes to a parent does there. -/
def Walks (top : ChainTop) (flags : LookupFlags) (keyEnd : Nat) (path : ParentPath)
    (t : ChainNode) : Prop :=
  ∀ keyBeg keyNext, keyBeg ≤ path.last → keyBeg ≤ keyEnd →
    (keyBeg = keyEnd ∨ t.ClearOf keyEnd) →
    WalkEnd top flags keyEnd path t.turns (firstItem (t.items path.key path.last) keyBeg keyEnd)
      ⟨path, keyBeg, keyNext⟩

theorem mergedView_after {pre rest : List Match} (hinv : MergeInv array chains)
    (hview : mergedView array chains = pre ++ m :: rest) :
    ∀ m' ∈ rest, m.bref.last < m'.bref.key := by
  have hsorted := mergedView_sorted hinv
  rw [hview] at hsorted
  exact (List.pairwise_cons.mp (List.pairwise_append.mp hsorted).2.1).1

theorem rest_items_behind {lo hi : Nat} {pre rest : List Match} {it : WalkItem}
    (hnest : (ChainNode.parent array chains below).WellNested lo hi)
    (hview : mergedView array chains = pre ++ m :: rest)
    (hit : it ∈ rest.flatMap (elementItems below)) : m.bref.last < it.key ∧ it.key ≤ it.last := by
  obtain ⟨m', hm', hit'⟩ := List.mem_flatMap.mp hit
  have hview' : m' ∈ mergedView array chains := by
    rw [hview]
    exact List.mem_append_right _ (List.mem_cons_of_mem _ hm')
  have hbehind := mergedView_after hnest.1 hview m' hm'
  obtain ⟨h1, h2, -⟩ := elementItems_within (fun hlive hind it hit =>
    (below m'.bref.key).items_within m'.bref.key_le_last ((hnest.2 m' hview').2.2 hlive hind) hit)
    hit'
  exact ⟨by omega, h2⟩

theorem rest_none {lo hi keyBeg : Nat} {pre rest : List Match}
    (hnest : (ChainNode.parent array chains below).WellNested lo hi)
    (hview : mergedView array chains = pre ++ m :: rest) (hle : keyEnd ≤ m.bref.last) :
    firstItem (rest.flatMap (elementItems below)) keyBeg keyEnd = none :=
  firstItem_none fun it hit hint => by
    have hkey := (rest_items_behind hnest hview hit).1
    have hend := hint.2
    omega

theorem rest_congr {lo hi keyBeg : Nat} {pre rest : List Match}
    (hnest : (ChainNode.parent array chains below).WellNested lo hi)
    (hview : mergedView array chains = pre ++ m :: rest) (hbeg : keyBeg ≤ m.bref.last + 1) :
    firstItem (rest.flatMap (elementItems below)) keyBeg keyEnd =
      firstItem (rest.flatMap (elementItems below)) (m.bref.last + 1) keyEnd :=
  firstItem_congr (m.bref.last + 1) fun it hit => by
    have hbehind := rest_items_behind hnest hview hit
    omega

theorem mergedView_before {pre rest : List Match} (hinv : MergeInv array chains)
    (hview : mergedView array chains = pre ++ m :: rest) :
    ∀ m' ∈ pre, m'.bref.last < m.bref.key := by
  have hsorted := mergedView_sorted hinv
  rw [hview] at hsorted
  intro m' hm'
  exact (List.pairwise_append.mp hsorted).2.2 m' hm' m List.mem_cons_self

/-- The elements on both sides of the key behind an element. -/
theorem mergedView_split {pre rest : List Match} (hinv : MergeInv array chains)
    (hview : mergedView array chains = pre ++ m :: rest) :
    mergedView array chains = (pre ++ [m]) ++ rest ∧
      (∀ m' ∈ pre ++ [m], m'.bref.last < m.bref.last + 1) ∧
        ∀ m' ∈ rest, m.bref.last + 1 ≤ m'.bref.last := by
  have hml := m.bref.key_le_last
  refine ⟨by rw [hview, List.append_assoc, List.singleton_append], fun m' hm' => ?_,
    fun m' hm' => ?_⟩
  · rcases List.mem_append.mp hm' with hin | hin
    · have hlt := mergedView_before hinv hview m' hin
      omega
    · rw [List.mem_singleton.mp hin]
      exact Nat.lt_succ_self _
  · have hlt := mergedView_after hinv hview m' hm'
    have hle := m'.bref.key_le_last
    omega

/-- A lookup is at the first element of a parent in its range, and `rest` is what the elements
behind it give. -/
structure AtElement (top : ChainTop) (flags : LookupFlags) (keyEnd : Nat) (path : ParentPath)
    (array : BrefArray) (chains : List MemChain) (below : Nat → ChainNode) (m : Match)
    (keyBeg bound : Nat) (rest : Option WalkItem) : Prop where
  plain : PlainLookup top flags keyEnd
  path_in : top.PathIn path
  node : top.parentAt path = .parent array chains below
  nest : (ChainNode.parent array chains below).WellNested path.key path.last
  key_le : path.key ≤ keyEnd
  mem : m ∈ mergedView array chains
  hit : m.bref.Intersects keyBeg keyEnd
  first : ∀ m' ∈ mergedView array chains, m'.bref.Intersects keyBeg keyEnd →
    m.bref.key ≤ m'.bref.key
  none : keyEnd ≤ m.bref.last → rest = none
  next : m.bref.last < keyEnd → ∀ keyNext,
    WalkEnd top flags keyEnd path bound rest ⟨path, m.bref.last + 1, keyNext⟩

namespace AtElement

variable {keyBeg : Nat} {rest : Option WalkItem}

theorem turn (h : AtElement top flags keyEnd path array chains below m keyBeg bound rest)
    (keyNext x : Nat) : lookupTurn top flags keyEnd x ⟨path, keyBeg, keyNext⟩ =
      some (foundTurn keyEnd below ⟨path, keyBeg,
        min (keyEnd + 1) (m.bref.last + 1) % 18446744073709551616⟩ (some m)) :=
  lookupTurn_first (c := ⟨path, keyBeg, keyNext⟩) h.plain h.node h.nest.1 h.mem h.hit h.first x

theorem vacant (h : AtElement top flags keyEnd path array chains below m keyBeg bound rest)
    (hdel : m.deleted = true) (hle : keyEnd ≤ m.bref.last) : top.Vacant path keyEnd := by
  refine ⟨⟨array, chains, below, h.node⟩, h.key_le, hle.trans (h.nest.2 m h.mem).2.1, ?_⟩
  rintro m' ⟨_, _, _, hnode, hm'⟩ hint
  rw [h.node] at hnode
  cases hnode
  have hcmp := h.nest.1.comparable (mem_mergedView.mp h.mem) (mem_mergedView.mp hm')
  unfold Bref.Before at hcmp
  have h1 := hint.1
  have h2 := hint.2
  have h3 := h.hit.2
  rcases hcmp with rfl | hlt | hgt
  · exact hdel
  · omega
  · omega

/-- A deleted element is skipped. -/
theorem deleted (h : AtElement top flags keyEnd path array chains below m keyBeg bound rest)
    (hdel : m.deleted = true) (keyNext : Nat) : WalkEnd top flags keyEnd path
      (elementTurns below m + bound) ((firstItem (elementItems below m) keyBeg keyEnd).or rest)
      ⟨path, keyBeg, keyNext⟩ := by
  have hmax := h.plain.keyEnd_le
  unfold keyMax at hmax
  have hturn := h.turn keyNext
  unfold foundTurn at hturn
  simp only [if_pos hdel] at hturn
  have hnoitems : elementItems below m = [] := if_pos hdel
  have hone : elementTurns below m = 1 := if_pos hdel
  have hfirst : firstItem [] keyBeg keyEnd = Option.none := rfl
  rw [hnoitems, hone, hfirst, Option.none_or]
  by_cases hle : keyEnd ≤ m.bref.last
  · rw [Nat.min_eq_left (by omega)] at hturn
    have hover : (keyEnd + 1) % 18446744073709551616 = 0 ∨
        keyEnd < (keyEnd + 1) % 18446744073709551616 := by omega
    simp only [if_pos hover] at hturn
    rw [h.none hle]
    exact Or.inl ⟨0, Nat.zero_le _, _, Finishes.of_done hturn,
      ⟨h.path_in, rfl, rfl, h.vacant hdel hle⟩, fun _ => hle.trans (h.nest.2 m h.mem).2.1⟩
  · have hlt : m.bref.last < keyEnd := Nat.lt_of_not_le hle
    have hmod : min (keyEnd + 1) (m.bref.last + 1) % 18446744073709551616 = m.bref.last + 1 := by
      rw [Nat.min_eq_right (by omega), Nat.mod_eq_of_lt (by omega)]
    have hmore : ¬(m.bref.last + 1 = 0 ∨ keyEnd < m.bref.last + 1) := by omega
    rw [hmod] at hturn
    simp only [if_neg hmore] at hturn
    have hbeg : keyBeg ≤ m.bref.last + 1 := h.hit.1.trans (Nat.le_succ _)
    exact (h.next hlt _).of_steps (.step hturn (.refl _)) hbeg le_rfl

/-- An indirect block becomes the parent. -/
theorem indirect (h : AtElement top flags keyEnd path array chains below m keyBeg bound rest)
    (hlive : m.deleted = false) (hind : m.indirect = true)
    (hwalk : Walks top flags keyEnd ((m, below m.bref.key) :: path) (below m.bref.key))
    (hbeg : keyBeg ≤ keyEnd)
    (hclear : keyBeg = keyEnd ∨ keyEnd ≠ m.bref.last + 1 ∧ (below m.bref.key).ClearOf keyEnd)
    (keyNext : Nat) : WalkEnd top flags keyEnd path
      (elementTurns below m + bound) ((firstItem (elementItems below m) keyBeg keyEnd).or rest)
      ⟨path, keyBeg, keyNext⟩ := by
  have hturn := h.turn keyNext
  unfold foundTurn at hturn
  simp only [hlive, hind, Bool.false_eq_true, if_false, if_true] at hturn
  have hsub : elementItems below m = (below m.bref.key).items m.bref.key m.bref.last := by
    simp only [elementItems, hlive, hind, Bool.false_eq_true, if_false, if_true]
  have htwo : elementTurns below m = (below m.bref.key).turns + 2 := by
    simp only [elementTurns, hlive, hind, Bool.false_eq_true, if_false, if_true]
  rw [hsub, htwo]
  have hbegm := h.hit.1
  have hne : keyEnd ≠ m.bref.last + 1 := by
    rcases hclear with heq | ⟨hne, _⟩
    · omega
    · exact hne
  have hpath : top.PathIn ((m, below m.bref.key) :: path) :=
    ⟨h.path_in, array, chains, below, h.node, h.mem, hlive, hind, rfl⟩
  have hchild := hwalk keyBeg (min (keyEnd + 1) (m.bref.last + 1) % 18446744073709551616) hbegm
    hbeg (hclear.imp_right And.right)
  have hup := hchild.up h.plain.keyEnd_le hpath h.hit.2 hne (h.nest.2 m h.mem).2.1
    (hbegm.trans (Nat.le_succ _)) h.none h.next
  exact hup.of_steps (.step hturn (.refl _)) le_rfl (by omega)

theorem element (h : AtElement top flags keyEnd path array chains below m keyBeg bound rest)
    (hlive : m.deleted = false) (hleaf : m.indirect = false) (keyNext : Nat) :
    WalkEnd top flags keyEnd path (elementTurns below m + bound)
      ((firstItem (elementItems below m) keyBeg keyEnd).or rest) ⟨path, keyBeg, keyNext⟩ := by
  have hturn := h.turn keyNext
  unfold foundTurn at hturn
  simp only [hlive, hleaf, Bool.false_eq_true, if_false] at hturn
  have hone : elementItems below m = [.element m] := by
    simp only [elementItems, hlive, hleaf, Bool.false_eq_true, if_false]
  have hitem : WalkItem.Intersects (.element m) keyBeg keyEnd := h.hit
  have hfirst : firstItem [.element m] keyBeg keyEnd = some (.element m) :=
    List.find?_cons_of_pos (decide_eq_true hitem)
  rw [hone, hfirst, Option.some_or]
  exact Or.inl ⟨0, Nat.zero_le _, _, Finishes.of_done hturn,
    ⟨h.path_in, rfl, rfl, array, chains, below, h.node, h.mem⟩, fun hn => nomatch hn⟩

end AtElement

/-- The turns of a lookup at one parent, from the elements that are not before the key. -/
theorem walk_elements (h : PlainLookup top flags keyEnd) (hpath : top.PathIn path)
    (hnode : top.parentAt path = .parent array chains below)
    (hnest : (ChainNode.parent array chains below).WellNested path.key path.last)
    (hkids : ∀ m ∈ mergedView array chains, m.deleted = false → m.indirect = true →
      m.bref.key ≤ keyEnd →
        Walks top flags keyEnd ((m, below m.bref.key) :: path) (below m.bref.key))
    (hkey : path.key ≤ keyEnd) (pre rs : List Match) (keyBeg keyNext : Nat)
    (hview : mergedView array chains = pre ++ rs) (hpre : ∀ m ∈ pre, m.bref.last < keyBeg)
    (hrs : ∀ m ∈ rs, keyBeg ≤ m.bref.last) (hbeg : keyBeg ≤ keyEnd)
    (hlast : keyBeg ≤ path.last + 1)
    (hclear : keyBeg = keyEnd ∨ (ChainNode.parent array chains below).ClearOf keyEnd) :
    WalkEnd top flags keyEnd path (rs.map (elementTurns below)).sum
      (firstItem (rs.flatMap (elementItems below)) keyBeg keyEnd) ⟨path, keyBeg, keyNext⟩ := by
  induction rs generalizing pre keyBeg keyNext with
  | nil =>
    refine Or.inr ⟨rfl, 0, le_rfl, keyBeg, keyNext, .refl _, ?_, le_rfl, hbeg, hlast⟩
    refine lookupTurn_vacant h hnode hnest.1 fun m hm hint => ?_
    rw [hview, List.append_nil] at hm
    exact absurd hint.1 (Nat.not_le.mpr (hpre m hm))
  | cons m rest ih =>
    have hm : m ∈ mergedView array chains := by
      rw [hview]
      exact List.mem_append_right _ List.mem_cons_self
    have hafter := mergedView_after hnest.1 hview
    have hml := m.bref.key_le_last
    have hbegm := hrs m List.mem_cons_self
    have hfirst : ∀ m' ∈ mergedView array chains, m'.bref.Intersects keyBeg keyEnd →
        m.bref.key ≤ m'.bref.key := by
      intro m' hm' hint
      rw [hview] at hm'
      rcases List.mem_append.mp hm' with hin | hin
      · exact absurd hint.1 (Nat.not_le.mpr (hpre m' hin))
      · rcases List.mem_cons.mp hin with rfl | hin
        · exact le_rfl
        · have hlt := hafter m' hin
          omega
    -- the elements behind this one are looked up from the key behind it
    have hnext : m.bref.last < keyEnd → ∀ keyNext, WalkEnd top flags keyEnd path
        (rest.map (elementTurns below)).sum
        (firstItem (rest.flatMap (elementItems below)) keyBeg keyEnd)
        ⟨path, m.bref.last + 1, keyNext⟩ := by
      intro hlt keyNext
      rw [rest_congr hnest hview (by omega)]
      obtain ⟨hview', hpre', hrs'⟩ := mergedView_split hnest.1 hview
      exact ih (pre ++ [m]) _ _ hview' hpre' hrs' hlt (Nat.succ_le_succ (hnest.2 m hm).2.1)
        (Or.inr (hclear.resolve_left (by omega)))
    rw [List.flatMap_cons, firstItem_append, List.map_cons, List.sum_cons]
    by_cases hout : keyEnd < m.bref.key
    · have hitems : ∀ it ∈ elementItems below m, ¬it.Intersects keyBeg keyEnd := by
        intro it hit hint
        have hkey := (elementItems_within (fun hlive hind it hit => (below m.bref.key).items_within
          hml ((hnest.2 m hm).2.2 hlive hind) hit) hit).1
        have hend := hint.2
        omega
      rw [rest_none hnest hview (by omega), Option.or_none, firstItem_none hitems]
      refine Or.inr ⟨rfl, 0, Nat.zero_le _, keyBeg, keyNext, .refl _, ?_, le_rfl, hbeg, hlast⟩
      refine lookupTurn_vacant h hnode hnest.1 fun m' hm' hint => ?_
      have hle := hfirst m' hm' hint
      have hend := hint.2
      omega
    · have hat : AtElement top flags keyEnd path array chains below m keyBeg
          (rest.map (elementTurns below)).sum
          (firstItem (rest.flatMap (elementItems below)) keyBeg keyEnd) :=
        ⟨h, hpath, hnode, hnest, hkey, hm, ⟨hbegm, Nat.not_lt.mp hout⟩, hfirst,
          rest_none hnest hview, hnext⟩
      cases hdel : m.deleted with
      | true => exact hat.deleted hdel keyNext
      | false =>
        cases hind : m.indirect with
        | true =>
          exact hat.indirect hdel hind (hkids m hm hdel hind hat.hit.2) hbeg
            (hclear.imp_right fun hc => hc m hm hdel hind) keyNext
        | false => exact hat.element hdel hind keyNext

theorem sorted_split (l : List Match) (hl : l.Pairwise fun m m' => m.bref.Before m'.bref)
    (keyBeg : Nat) : ∃ pre rs, l = pre ++ rs ∧ (∀ m ∈ pre, m.bref.last < keyBeg) ∧
      ∀ m ∈ rs, keyBeg ≤ m.bref.last := by
  induction hl with
  | nil => exact ⟨[], [], rfl, fun _ hm => absurd hm List.not_mem_nil,
      fun _ hm => absurd hm List.not_mem_nil⟩
  | @cons m l hhead _ ih =>
    by_cases hm : keyBeg ≤ m.bref.last
    · refine ⟨[], m :: l, rfl, fun _ hm => absurd hm List.not_mem_nil, fun m' hm' => ?_⟩
      rcases List.mem_cons.mp hm' with rfl | hin
      · exact hm
      · have hlt := hhead m' hin
        have hle := m'.bref.key_le_last
        unfold Bref.Before at hlt
        omega
    · obtain ⟨pre, rs, rfl, hpre, hrs⟩ := ih
      refine ⟨m :: pre, rs, rfl, fun m' hm' => ?_, hrs⟩
      rcases List.mem_cons.mp hm' with rfl | hin
      · exact Nat.lt_of_not_le hm
      · exact hpre m' hin

/-- The elements before a key have no part in a search from it. -/
theorem firstItem_parent {lo hi keyBeg : Nat} {pre rs : List Match}
    (hnest : (ChainNode.parent array chains below).WellNested lo hi)
    (hview : mergedView array chains = pre ++ rs) (hpre : ∀ m ∈ pre, m.bref.last < keyBeg) :
    firstItem ((ChainNode.parent array chains below).items lo hi) keyBeg keyEnd =
      firstItem (rs.flatMap (elementItems below)) keyBeg keyEnd := by
  rw [ChainNode.items_parent, hview, List.flatMap_append, firstItem_append,
    firstItem_none, Option.none_or]
  intro it hit hint
  obtain ⟨m, hm, hitm⟩ := List.mem_flatMap.mp hit
  have hin : m ∈ mergedView array chains := by
    rw [hview]
    exact List.mem_append_left _ hm
  have hend := (elementItems_within (fun hlive hind it hit => (below m.bref.key).items_within
    m.bref.key_le_last ((hnest.2 m hin).2.2 hlive hind) hit) hitm).2.2
  have hlt := hpre m hm
  have hbeg := hint.1
  omega

theorem walk_node (h : PlainLookup top flags keyEnd) (t : ChainNode) (path : ParentPath)
    (hpath : top.PathIn path) (hnode : top.parentAt path = t)
    (hnest : t.WellNested path.key path.last) (hkey : path.key ≤ keyEnd) :
    Walks top flags keyEnd path t := by
  induction t generalizing path with
  | errored error =>
    intro keyBeg keyNext hlast hbeg hclear
    have hitem : WalkItem.Intersects (.fault path.key path.last error) keyBeg keyEnd :=
      ⟨hlast, hkey⟩
    rw [show firstItem ((ChainNode.errored error).items path.key path.last) keyBeg keyEnd =
      some (.fault path.key path.last error) from List.find?_cons_of_pos (decide_eq_true hitem)]
    exact Or.inl ⟨0, Nat.zero_le _, _, Finishes.of_done (lookupTurn_errored h hnode),
      ⟨hpath, rfl, rfl⟩, fun hn => nomatch hn⟩
  | parent array chains below ih =>
    intro keyBeg keyNext hlast hbeg hclear
    obtain ⟨pre, rs, hview, hpre, hrs⟩ := sorted_split _ (mergedView_sorted hnest.1) keyBeg
    rw [firstItem_parent hnest hview hpre, ChainNode.turns_parent, hview]
    have hkids : ∀ m ∈ mergedView array chains, m.deleted = false → m.indirect = true →
        m.bref.key ≤ keyEnd →
          Walks top flags keyEnd ((m, below m.bref.key) :: path) (below m.bref.key) :=
      fun m hm hlive hind hle => ih m.bref.key ((m, below m.bref.key) :: path)
        ⟨hpath, array, chains, below, hnode, hm, hlive, hind, rfl⟩ rfl
        ((hnest.2 m hm).2.2 hlive hind) hle
    have hwalk := walk_elements h hpath hnode hnest hkids hkey pre rs keyBeg keyNext hview
      hpre hrs hbeg (by omega) hclear
    refine hwalk.of_steps (.refl _) le_rfl ?_
    rw [List.map_append, List.sum_append]
    omega

theorem ChainTop.PathIn.wellNested (h : top.PathIn path) (hnest : top.node.WellNested 0 keyMax) :
    (top.parentAt path).WellNested path.key path.last := by
  induction path with
  | nil => exact hnest
  | cons p above ih =>
    obtain ⟨habove, array, chains, below, hnode, hm, hlive, hind, hp⟩ := h
    have hup := ih habove
    rw [hnode] at hup
    change p.2.WellNested p.1.bref.key p.1.bref.last
    rw [hp]
    exact (hup.2 p.1 hm).2.2 hlive hind

theorem ChainTop.PathIn.clearOf (h : top.PathIn path) (hclear : top.node.ClearOf keyEnd) :
    (top.parentAt path).ClearOf keyEnd := by
  induction path with
  | nil => exact hclear
  | cons p above ih =>
    obtain ⟨habove, array, chains, below, hnode, hm, hlive, hind, hp⟩ := h
    have hup := ih habove
    rw [hnode] at hup
    change p.2.ClearOf keyEnd
    rw [hp]
    exact (hup p.1 hm hlive hind).2

end Walk

end Hammer2
