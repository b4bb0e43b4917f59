import Hammer2.Dmsg

namespace Hammer2

/-- The states that `state0` reaches over the subqs. -/
inductive Below (links : List (Nat × Nat)) : Nat → Prop
  | root : Below links 0
  | child {c p : Nat} : (c, p) ∈ links → Below links p → Below links c

namespace DmsgHeap

/-- The references that trees and subqs hold on a state. -/
def holders (h : DmsgHeap) (s : Nat) : Nat :=
  h.staterd.count s + h.statewr.count s + (h.links.map Prod.fst).count s +
    if h.subq s = [] then 0 else 1

variable {h : DmsgHeap} {s x : Nat} {d : DmsgState} {f : DmsgState → DmsgState}

theorem modify_none (hs : h.states s = none) (f) : h.modify s f = h := by
  have he : Function.update h.states s ((h.states s).map f) = h.states := by
    rw [hs, Option.map_none, ← hs]
    exact Function.update_eq_self s h.states
  unfold modify
  rw [he]

theorem modify_some (hs : h.states s = some d) (f) :
    h.modify s f = { h with states := Function.update h.states s (some (f d)) } := by
  simp [modify, hs]

theorem mem_subq {c : Nat} : c ∈ h.subq s ↔ (c, s) ∈ h.links := by
  simp [subq]

theorem subq_link {c p : Nat} : (h.link c p).subq x = h.subq x ++ if x = p then [c] else [] := by
  by_cases hx : x = p
  · simp [subq, link, hx]
  · simp [subq, link, hx, Ne.symm hx]

theorem refs_of (hs : h.states s = some d) : h.refs s = d.refs := by simp [refs, hs]

@[simp] theorem tree_setTree (wr : Bool) (l) : (h.setTree wr l).tree wr = l := by cases wr <;> rfl

@[simp] theorem setTree_states (wr l) : (h.setTree wr l).states = h.states := by cases wr <;> rfl

@[simp] theorem setTree_next (wr l) : (h.setTree wr l).next = h.next := by cases wr <;> rfl

@[simp] theorem setTree_links (wr l) : (h.setTree wr l).links = h.links := by cases wr <;> rfl

@[simp] theorem alloc_subq (d) : (h.alloc d).subq = h.subq := rfl

@[simp] theorem setTree_subq (wr l) : (h.setTree wr l).subq = h.subq := by cases wr <;> rfl

end DmsgHeap

theorem Below.mono {l l' : List (Nat × Nat)} (hsub : ∀ q ∈ l, q ∈ l') {x : Nat} (hb : Below l x) :
    Below l' x := by
  induction hb with
  | root => exact .root
  | child hm _ ih => exact .child (hsub _ hm) ih

/-- A state without children is not on the way to any other state. -/
theorem Below.erase {l : List (Nat × Nat)} {s x : Nat} (hs : ∀ q ∈ l, q.2 ≠ s) (hb : Below l x)
    (hx : x ≠ s) : Below (l.eraseP (·.1 = s)) x := by
  induction hb with
  | root => exact .root
  | @child c p hm _ ih =>
    refine .child ?_ (ih (hs _ hm))
    exact (List.mem_eraseP_of_neg (by simpa using hx)).mpr hm

theorem Below.linked {l : List (Nat × Nat)} {x : Nat} (hb : Below l x) (hx : x ≠ 0) :
    x ∈ l.map Prod.fst := by
  cases hb with
  | root => exact absurd rfl hx
  | child hm _ => exact List.mem_map_of_mem hm

theorem eq_of_mem_links {l : List (Nat × Nat)} (hn : (l.map Prod.fst).Nodup) {c p q : Nat}
    (hp : (c, p) ∈ l) (hq : (c, q) ∈ l) : p = q := by
  have := List.inj_on_of_nodup_map hn hp hq rfl
  exact congrArg Prod.snd this

/-- The parent of a state that is reached is reached. -/
theorem Below.parent {l : List (Nat × Nat)} (hn : (l.map Prod.fst).Nodup)
    (h0 : 0 ∉ l.map Prod.fst) {c p : Nat} (hb : Below l c) (hm : (c, p) ∈ l) : Below l p := by
  cases hb with
  | root => exact absurd (List.mem_map_of_mem hm) h0
  | child hm' hp => exact eq_of_mem_links hn hm' hm ▸ hp

/-- What the holds of an iocom's heap are when the caches hold `P` and everything else holds `L`. With
`rooted`, every state on a subq can be reached from `state0`. -/
structure HeapInv (rooted : Prop) (h : DmsgHeap) (P L : List Nat) : Prop where
  root : (h.states 0).isSome
  fresh : ∀ s, h.next ≤ s → h.states s = none
  refs_eq : ∀ s, h.refs s = h.holders s + P.count s + L.count s
  held : ∀ s d, s ≠ 0 → h.states s = some d → 0 < d.refs
  tree_count : ∀ s d, h.states s = some d →
    h.staterd.count s + h.statewr.count s = if d.rbinserted then 1 else 0
  closed : ∀ s d, h.states s = some d → d.rbinserted → ¬ (d.txcmd.delete ∧ d.rxcmd.delete)
  tree_linked : ∀ s, s ∈ h.staterd ∨ s ∈ h.statewr → h.linked s
  nodup : (h.links.map Prod.fst).Nodup
  root_unlinked : ¬ h.linked 0
  loopless : ∀ l ∈ h.links, l.1 ≠ l.2
  below : rooted → ∀ l ∈ h.links, Below h.links l.1
  pristine : ∀ c ∈ P, c ≠ 0 ∧ c ∉ L ∧ ¬ h.linked c ∧ h.subq c = []
  pristine_nodup : P.Nodup

namespace HeapInv

variable {rooted : Prop} {h h' : DmsgHeap} {P L L' : List Nat} {s x c p : Nat} {d d' : DmsgState}
  {f : DmsgState → DmsgState}

theorem not_pristine_of_mem (hi : HeapInv rooted h P L) (hs : s ∈ L) : s ∉ P :=
  fun hp => (hi.pristine s hp).2.1 hs

theorem live_lt (hi : HeapInv rooted h P L) (hs : h.states s = some d) : s < h.next := by
  by_contra hc
  rw [hi.fresh s (by omega)] at hs
  cases hs

/-- One state changes and, with it, what is held on it. -/
theorem set (hi : HeapInv rooted h P L) (hs : h.states s = some d) (hp : s ≠ 0 → 0 < d'.refs)
    (hr : d'.rbinserted = d.rbinserted)
    (hcl : d'.rbinserted → ¬ (d'.txcmd.delete ∧ d'.rxcmd.delete))
    (hc : d'.refs + L.count s = d.refs + L'.count s) (ho : ∀ x, x ≠ s → L'.count x = L.count x)
    (hP : s ∉ P) :
    HeapInv rooted { h with states := Function.update h.states s (some d') } P L' where
  root := by
    by_cases h0 : 0 = s
    · simp [h0]
    · simpa [h0] using hi.root
  fresh x hx := by
    have hne : x ≠ s := by
      have := hi.live_lt hs
      have : h.next ≤ x := hx
      omega
    simpa [hne] using hi.fresh x hx
  refs_eq x := by
    have he := hi.refs_eq x
    by_cases hx : x = s
    · subst hx
      rw [DmsgHeap.refs_of hs] at he
      have : DmsgHeap.refs { h with states := Function.update h.states x (some d') } x = d'.refs := by
        simp [DmsgHeap.refs]
      rw [this]
      change d'.refs = h.holders x + _ + _
      omega
    · have hr : DmsgHeap.refs { h with states := Function.update h.states s (some d') } x = h.refs x := by
        simp [DmsgHeap.refs, hx]
      rw [hr, ho x hx]
      exact he
  held x e hx he := by
    by_cases hxs : x = s
    · subst hxs
      simp only [Function.update_self, Option.some.injEq] at he
      exact he ▸ hp hx
    · exact hi.held x e hx (by simpa [hxs] using he)
  tree_count x e he := by
    by_cases hxs : x = s
    · subst hxs
      simp only [Function.update_self, Option.some.injEq] at he
      rw [← he, hr]
      exact hi.tree_count x d hs
    · exact hi.tree_count x e (by simpa [hxs] using he)
  closed x e he := by
    by_cases hxs : x = s
    · subst hxs
      simp only [Function.update_self, Option.some.injEq] at he
      exact he ▸ hcl
    · exact hi.closed x e (by simpa [hxs] using he)
  tree_linked := hi.tree_linked
  nodup := hi.nodup
  root_unlinked := hi.root_unlinked
  loopless := hi.loopless
  below := hi.below
  pristine y hy := by
    obtain ⟨h1, h2, h3, h4⟩ := hi.pristine y hy
    refine ⟨h1, ?_, h3, h4⟩
    have hne : y ≠ s := fun he => hP (he ▸ hy)
    rw [← List.count_eq_zero] at h2 ⊢
    rw [ho y hne, h2]
  pristine_nodup := hi.pristine_nodup

/-- The flags of a state change, but it does not get closed while it is in a tree. -/
theorem modify (hi : HeapInv rooted h P L) (hP : s ∉ P) (hr : ∀ d, (f d).refs = d.refs)
    (hb : ∀ d, (f d).rbinserted = d.rbinserted)
    (hcl : ∀ d, h.states s = some d → d.rbinserted →
      ¬ ((f d).txcmd.delete ∧ (f d).rxcmd.delete)) : HeapInv rooted (h.modify s f) P L := by
  cases hs : h.states s with
  | none => rwa [DmsgHeap.modify_none hs]
  | some d =>
    rw [DmsgHeap.modify_some hs]
    refine hi.set hs ?_ (hb d) ?_ ?_ (fun _ _ => rfl) hP
    · exact fun h0 => (hr d).symm ▸ hi.held s d h0 hs
    · rw [hb d]
      exact hcl d hs
    · rw [hr d]

theorem perm (hi : HeapInv rooted h P L) (hp : ∀ x, L'.count x = L.count x) : HeapInv rooted h P L' where
  root := hi.root
  fresh := hi.fresh
  refs_eq x := by rw [hp x]; exact hi.refs_eq x
  held := hi.held
  tree_count := hi.tree_count
  closed := hi.closed
  tree_linked := hi.tree_linked
  nodup := hi.nodup
  root_unlinked := hi.root_unlinked
  loopless := hi.loopless
  below := hi.below
  pristine y hy := by
    obtain ⟨h1, h2, h3, h4⟩ := hi.pristine y hy
    refine ⟨h1, ?_, h3, h4⟩
    rw [← List.count_eq_zero] at h2 ⊢
    rw [hp y, h2]
  pristine_nodup := hi.pristine_nodup

end HeapInv

variable {rooted : Prop} {h h' : DmsgHeap} {P L : List Nat} {s c p : Nat} {d : DmsgState}

/-- The two heaps differ in references only. -/
structure SameButRefs (h h' : DmsgHeap) : Prop where
  links : h'.links = h.links
  tree : ∀ wr, h'.tree wr = h.tree wr
  body : ∀ x, (h'.states x).map (fun d => { d with refs := 0 }) =
    (h.states x).map fun d => { d with refs := 0 }

namespace SameButRefs

theorem refl (h : DmsgHeap) : SameButRefs h h := ⟨rfl, fun _ => rfl, fun _ => rfl⟩

theorem symm (hk : SameButRefs h h') : SameButRefs h' h where
  links := hk.links.symm
  tree wr := (hk.tree wr).symm
  body x := (hk.body x).symm

theorem trans {h'' : DmsgHeap} (h1 : SameButRefs h h') (h2 : SameButRefs h' h'') :
    SameButRefs h h'' where
  links := h2.links.trans h1.links
  tree wr := (h2.tree wr).trans (h1.tree wr)
  body x := (h2.body x).trans (h1.body x)

theorem state (hk : SameButRefs h h') (hs : h.states s = some d) :
    ∃ n, h'.states s = some { d with refs := n } := by
  have hb := hk.body s
  rw [hs, Option.map_some] at hb
  obtain ⟨d', hs', he⟩ := Option.map_eq_some_iff.mp hb
  refine ⟨d'.refs, hs'.trans ?_⟩
  cases d
  cases d'
  cases he
  rfl

theorem find (hk : SameButRefs h h') (wr : Bool) (msgid : Nat) :
    h'.find wr msgid = h.find wr msgid := by
  unfold DmsgHeap.find
  rw [hk.tree]
  congr 1
  funext x
  have hb := congrArg (Option.map DmsgState.msgid) (hk.body x)
  rw [Option.map_map, Option.map_map] at hb
  exact decide_eq_decide.mpr (by rw [show (h'.states x).map DmsgState.msgid = _ from hb]; rfl)

end SameButRefs

namespace DmsgHeap

theorem subq_eq_nil {x : Nat} : h.subq x = [] ↔ ∀ c, (c, x) ∉ h.links := by
  rw [List.eq_nil_iff_forall_not_mem]
  exact forall_congr' fun c => not_congr mem_subq

theorem tree_count (wr : Bool) (x : Nat) :
    h.staterd.count x + h.statewr.count x = (h.tree wr).count x + (h.tree (!wr)).count x := by
  cases wr
  · rfl
  · exact Nat.add_comm _ _

theorem mem_tree {wr : Bool} {x : Nat} (hx : x ∈ h.tree wr) : x ∈ h.staterd ∨ x ∈ h.statewr := by
  cases wr
  · exact Or.inl hx
  · exact Or.inr hx

theorem mem_setTree {wr : Bool} {l : List Nat} {x : Nat}
    (hx : x ∈ (h.setTree wr l).staterd ∨ x ∈ (h.setTree wr l).statewr) :
    x ∈ l ∨ x ∈ h.staterd ∨ x ∈ h.statewr := by
  cases wr
  · exact hx.elim Or.inl fun hx => Or.inr (Or.inr hx)
  · exact hx.elim (fun hx => Or.inr (Or.inl hx)) Or.inl

theorem setTree_count (wr : Bool) (l : List Nat) (x : Nat) :
    (h.setTree wr l).staterd.count x + (h.setTree wr l).statewr.count x + (h.tree wr).count x =
      l.count x + (h.staterd.count x + h.statewr.count x) := by
  cases wr
  · change l.count x + h.statewr.count x + h.staterd.count x = _
    omega
  · change h.staterd.count x + l.count x + h.statewr.count x = _
    omega

end DmsgHeap

namespace HeapInv

variable {wr : Bool} {f : DmsgState → DmsgState}

theorem not_mem_tree (hi : HeapInv rooted h P L) (hs : h.states s = some d) (hb : d.rbinserted = false) :
    s ∉ h.staterd ∧ s ∉ h.statewr := by
  have hc := hi.tree_count s d hs
  rw [hb] at hc
  simp only [Bool.false_eq_true, if_false] at hc
  rw [← List.count_eq_zero, ← List.count_eq_zero]
  omega

theorem unused_fresh (hi : HeapInv rooted h P L) (hx : h.next ≤ x) :
    h.holders x = 0 ∧ P.count x = 0 ∧ L.count x = 0 := by
  have := hi.refs_eq x
  simp only [DmsgHeap.refs, hi.fresh x hx, Option.elim_none] at this
  omega

theorem fresh_unlinked (hi : HeapInv rooted h P L) :
    ¬ h.linked h.next ∧ h.subq h.next = [] ∧ h.next ≠ 0 := by
  obtain ⟨hh, -, -⟩ := hi.unused_fresh (Nat.le_refl h.next)
  unfold DmsgHeap.holders at hh
  refine ⟨fun hm => ?_, ?_, fun h0 => ?_⟩
  · have := List.count_pos_iff.mpr (show h.next ∈ h.links.map Prod.fst from hm)
    omega
  · by_contra hq
    rw [if_neg hq] at hh
    omega
  · have := hi.root
    rw [hi.fresh 0 (by omega)] at this
    cases this

/-- A new state comes with the references that are taken on it. -/
theorem alloc (hi : HeapInv rooted h P L) {n : Nat} (hn : 0 < n) (hd : d.refs = n)
    (hb : d.rbinserted = false) : HeapInv rooted (h.alloc d) P (List.replicate n h.next ++ L) := by
  obtain ⟨hh, hcP, hcL⟩ := hi.unused_fresh (Nat.le_refl h.next)
  obtain ⟨-, -, h0⟩ := hi.fresh_unlinked
  have hhold : ∀ x, (h.alloc d).holders x = h.holders x := fun _ => rfl
  refine ⟨?_, ?_, ?_, ?_, ?_, ?_, hi.tree_linked, hi.nodup, hi.root_unlinked, hi.loopless,
    hi.below, ?_, hi.pristine_nodup⟩
  · have := hi.root
    simpa [DmsgHeap.alloc, Ne.symm h0] using this
  · intro x hx
    have hx : h.next + 1 ≤ x := hx
    have hne : x ≠ h.next := by omega
    simpa [DmsgHeap.alloc, hne] using hi.fresh x (by omega)
  · intro x
    rw [hhold, List.count_append, List.count_replicate]
    by_cases hx : x = h.next
    · subst hx
      simp only [DmsgHeap.refs, DmsgHeap.alloc, Function.update_self, Option.elim_some, beq_self_eq_true,
        if_true]
      omega
    · have := hi.refs_eq x
      simp only [DmsgHeap.refs, DmsgHeap.alloc, Function.update_of_ne hx] at this ⊢
      rw [if_neg (by simpa using Ne.symm hx)]
      omega
  · intro x e hx he
    by_cases hxs : x = h.next
    · subst hxs
      simp only [DmsgHeap.alloc, Function.update_self, Option.some.injEq] at he
      rw [← he]
      omega
    · exact hi.held x e hx (by simpa [DmsgHeap.alloc, hxs] using he)
  · intro x e he
    by_cases hxs : x = h.next
    · subst hxs
      simp only [DmsgHeap.alloc, Function.update_self, Option.some.injEq] at he
      rw [← he, hb]
      unfold DmsgHeap.holders at hh
      change h.staterd.count h.next + h.statewr.count h.next = 0
      omega
    · exact hi.tree_count x e (by simpa [DmsgHeap.alloc, hxs] using he)
  · intro x e he
    by_cases hxs : x = h.next
    · subst hxs
      simp only [DmsgHeap.alloc, Function.update_self, Option.some.injEq] at he
      rw [← he, hb]
      exact fun hf => by cases hf
    · exact hi.closed x e (by simpa [DmsgHeap.alloc, hxs] using he)
  · intro y hy
    obtain ⟨h1, h2, h3, h4⟩ := hi.pristine y hy
    refine ⟨h1, ?_, h3, h4⟩
    intro hm
    rcases List.mem_append.mp hm with hm | hm
    · rw [List.eq_of_mem_replicate hm] at hy
      exact List.count_eq_zero.mp hcP hy
    · exact h2 hm

/-- A state that only one pointer has goes to the caches. -/
theorem cache (hi : HeapInv rooted h P (c :: L)) (hc : c ∉ L) (h0 : c ≠ 0) (hl : ¬ h.linked c)
    (hq : h.subq c = []) : HeapInv rooted h (c :: P) L where
  root := hi.root
  fresh := hi.fresh
  refs_eq x := by
    have := hi.refs_eq x
    simp only [List.count_cons] at this ⊢
    omega
  held := hi.held
  tree_count := hi.tree_count
  closed := hi.closed
  tree_linked := hi.tree_linked
  nodup := hi.nodup
  root_unlinked := hi.root_unlinked
  loopless := hi.loopless
  below := hi.below
  pristine y hy := by
    rcases List.mem_cons.mp hy with rfl | hy
    · exact ⟨h0, hc, hl, hq⟩
    · obtain ⟨h1, h2, h3, h4⟩ := hi.pristine y hy
      exact ⟨h1, fun hm => h2 (List.mem_cons_of_mem _ hm), h3, h4⟩
  pristine_nodup :=
    List.nodup_cons.mpr ⟨hi.not_pristine_of_mem (List.mem_cons_self ..), hi.pristine_nodup⟩

/-- The state in a cache is taken out of it. -/
theorem take (hi : HeapInv rooted h (c :: P) L) : HeapInv rooted h P (c :: L) where
  root := hi.root
  fresh := hi.fresh
  refs_eq x := by
    have := hi.refs_eq x
    simp only [List.count_cons] at this ⊢
    omega
  held := hi.held
  tree_count := hi.tree_count
  closed := hi.closed
  tree_linked := hi.tree_linked
  nodup := hi.nodup
  root_unlinked := hi.root_unlinked
  loopless := hi.loopless
  below := hi.below
  pristine y hy := by
    obtain ⟨h1, h2, h3, h4⟩ := hi.pristine y (List.mem_cons_of_mem _ hy)
    refine ⟨h1, ?_, h3, h4⟩
    rintro (_ | ⟨_, hm⟩)
    · exact (List.nodup_cons.mp hi.pristine_nodup).1 hy
    · exact h2 hm
  pristine_nodup := (List.nodup_cons.mp hi.pristine_nodup).2

/-- A state that is not in the topology enters a tree and the subq of a parent, with the references for
both and, for the first on that subq, the parent's. -/
theorem enter (hi : HeapInv rooted h P (c :: c :: ((if h.subq p = [] then [p] else []) ++ L)))
    (hs : h.states c = some d) (h0 : c ≠ 0) (hl : ¬ h.linked c) (hq : h.subq c = [])
    (hpP : p ∉ P) (hcp : c ≠ p) (hp : rooted → Below h.links p) (hrb : d.rbinserted = false)
    (hr : (f d).refs = d.refs)
    (hb : (f d).rbinserted = true) (hcl : ¬ ((f d).txcmd.delete ∧ (f d).rxcmd.delete)) :
    HeapInv rooted (((h.setTree wr (h.tree wr ++ [c])).modify c f).link c p) P L := by
  have hP := hi.not_pristine_of_mem (s := c) (List.mem_cons_self ..)
  obtain ⟨hnr, hnw⟩ := hi.not_mem_tree hs hrb
  have hst : (h.setTree wr (h.tree wr ++ [c])).states c = some d := by
    rwa [DmsgHeap.setTree_states]
  rw [DmsgHeap.modify_some hst, DmsgHeap.setTree_states]
  have hcount := fun x => DmsgHeap.setTree_count (h := h) wr (h.tree wr ++ [c]) x
  simp only [List.count_append, List.count_singleton] at hcount
  have hfields : ∀ x, DmsgHeap.holders (DmsgHeap.link { h.setTree wr (h.tree wr ++ [c]) with
      states := Function.update h.states c (some (f d)) } c p) x =
      (h.setTree wr (h.tree wr ++ [c])).staterd.count x +
        (h.setTree wr (h.tree wr ++ [c])).statewr.count x +
        ((h.links.map Prod.fst).count x + if c = x then 1 else 0) +
        if h.subq x ++ (if x = p then [c] else []) = [] then 0 else 1 := by
    intro x
    unfold DmsgHeap.holders
    rw [DmsgHeap.subq_link]
    simp only [DmsgHeap.link, DmsgHeap.setTree_links, List.map_append, List.count_append, List.map_cons,
      List.map_nil, List.count_singleton, beq_iff_eq]
    rfl
  have hsub : ∀ q ∈ h.links, q ∈ h.links ++ [(c, p)] := fun q hm => List.mem_append_left _ hm
  have hlinks : ∀ x, x ∈ (h.links ++ [(c, p)]).map Prod.fst ↔ h.linked x ∨ x = c := by
    intro x
    rw [List.map_append, List.mem_append]
    simp [DmsgHeap.linked]
  refine ⟨?_, ?_, ?_, ?_, ?_, ?_, ?_, ?_, ?_, ?_, ?_, ?_, hi.pristine_nodup⟩
  · have := hi.root
    simpa [DmsgHeap.link, Ne.symm h0] using this
  · intro x hx
    have hne : x ≠ c := by
      have := hi.live_lt hs
      simp only [DmsgHeap.link, DmsgHeap.setTree_next] at hx
      omega
    simpa [DmsgHeap.link, hne] using hi.fresh x (by simpa [DmsgHeap.link] using hx)
  · intro x
    rw [hfields x]
    have hx := hcount x
    have he := hi.refs_eq x
    unfold DmsgHeap.holders at he
    by_cases hxc : x = c
    · subst hxc
      rw [DmsgHeap.refs_of hs] at he
      simp only [DmsgHeap.refs, DmsgHeap.link, Function.update_self, Option.elim_some, hr]
      have hcount0 : (if h.subq p = [] then [p] else []).count x = 0 := by
        split <;> simp [Ne.symm hcp]
      simp only [List.count_cons_self, List.count_append, hcount0, hq, if_true, if_neg hcp,
        List.append_nil] at he ⊢
      simp only [beq_self_eq_true, if_true] at hx
      omega
    · simp only [DmsgHeap.refs, DmsgHeap.link, Function.update_of_ne hxc] at he ⊢
      simp only [List.count_cons_of_ne (Ne.symm hxc), List.count_append, if_neg (Ne.symm hxc),
        beq_iff_eq] at he hx ⊢
      by_cases hxp : x = p
      · subst hxp
        by_cases hqp : h.subq x = []
        · simp only [hqp, if_true, List.count_singleton_self, List.nil_append, List.cons_ne_nil,
            if_false] at he ⊢
          omega
        · simp only [hqp, if_false, List.count_nil, List.append_eq_nil_iff, false_and] at he ⊢
          omega
      · have hcount0 : (if h.subq p = [] then [p] else []).count x = 0 := by
          split <;> simp [Ne.symm hxp]
        simp only [hcount0, if_neg hxp, List.append_nil] at he ⊢
        omega
  · intro x e hx he
    by_cases hxs : x = c
    · subst hxs
      simp only [DmsgHeap.link, Function.update_self, Option.some.injEq] at he
      rw [← he, hr]
      exact hi.held x d hx hs
    · exact hi.held x e hx (by simpa [DmsgHeap.link, hxs] using he)
  · intro x e he
    have hx := hcount x
    change (h.setTree wr (h.tree wr ++ [c])).staterd.count x +
      (h.setTree wr (h.tree wr ++ [c])).statewr.count x = _
    by_cases hxs : x = c
    · subst hxs
      simp only [DmsgHeap.link, Function.update_self, Option.some.injEq] at he
      have := hi.tree_count x d hs
      rw [← he, hb]
      rw [hrb] at this
      simp only [beq_self_eq_true, if_true, Bool.false_eq_true, if_false] at this hx ⊢
      omega
    · have := hi.tree_count x e (by simpa [DmsgHeap.link, hxs] using he)
      simp only [beq_iff_eq, if_neg (Ne.symm hxs)] at hx
      omega
  · intro x e he
    by_cases hxs : x = c
    · subst hxs
      simp only [DmsgHeap.link, Function.update_self, Option.some.injEq] at he
      rw [← he]
      exact fun _ => hcl
    · exact hi.closed x e (by simpa [DmsgHeap.link, hxs] using he)
  · intro x hx
    have hgoal : x ∈ (h.links ++ [(c, p)]).map Prod.fst := by
      apply (hlinks x).mpr
      rcases DmsgHeap.mem_setTree hx with hx | hx
      · rcases List.mem_append.mp hx with hx | hx
        · exact Or.inl (hi.tree_linked x (DmsgHeap.mem_tree hx))
        · exact Or.inr (List.mem_singleton.mp hx)
      · exact Or.inl (hi.tree_linked x hx)
    unfold DmsgHeap.linked
    simpa [DmsgHeap.link] using hgoal
  · have : (h.links.map Prod.fst ++ [c]).Nodup :=
      List.nodup_append.mpr ⟨hi.nodup, List.nodup_singleton c, fun a ha b hb => by
        rw [List.mem_singleton.mp hb]
        rintro rfl
        exact hl ha⟩
    simpa [DmsgHeap.link] using this
  · intro hx
    rcases (hlinks 0).mp (by simpa [DmsgHeap.link, DmsgHeap.linked] using hx) with hx | hx
    · exact hi.root_unlinked hx
    · exact h0 hx.symm
  · intro l hm
    have hm : l ∈ h.links ++ [(c, p)] := by simpa [DmsgHeap.link] using hm
    rcases List.mem_append.mp hm with hm | hm
    · exact hi.loopless l hm
    · rw [List.mem_singleton.mp hm]
      exact hcp
  · intro hroot l hm
    have hm : l ∈ h.links ++ [(c, p)] := by simpa [DmsgHeap.link] using hm
    have hgoal : Below (h.links ++ [(c, p)]) l.1 := by
      rcases List.mem_append.mp hm with hm | hm
      · exact (hi.below hroot l hm).mono hsub
      · rw [List.mem_singleton.mp hm]
        exact .child (List.mem_append_right _ (List.mem_singleton_self _)) ((hp hroot).mono hsub)
    simpa [DmsgHeap.link] using hgoal
  · intro y hy
    obtain ⟨h1, h2, h3, h4⟩ := hi.pristine y hy
    refine ⟨h1, fun hm => h2 ?_, fun hx => ?_, ?_⟩
    · exact List.mem_cons_of_mem _ (List.mem_cons_of_mem _ (List.mem_append_right _ hm))
    · rcases (hlinks y).mp (by simpa [DmsgHeap.link, DmsgHeap.linked] using hx) with hx | hx
      · exact h3 hx
      · exact hP (hx ▸ hy)
    · rw [DmsgHeap.subq_link]
      have hyp : y ≠ p := fun he => hpP (he ▸ hy)
      have : DmsgHeap.subq { h.setTree wr (h.tree wr ++ [c]) with
          states := Function.update h.states c (some (f d)) } y = h.subq y := by
        cases wr <;> rfl
      rw [this, h4, if_neg hyp]
      rfl

/-- A state out of the trees leaves the subq of its parent. If it has children, `state0` loses them. -/
theorem unlink (hi : HeapInv rooted h P L) (hm : (s, p) ∈ h.links) (hq : rooted → h.subq s = [])
    (hnt : s ∉ h.staterd ∧ s ∉ h.statewr) :
    HeapInv rooted { h with links := h.links.eraseP (·.1 = s) } P
      (s :: ((if DmsgHeap.subq { h with links := h.links.eraseP (·.1 = s) } p = [] then [p] else []) ++
        L)) := by
  have hls : h.linked s := List.mem_map_of_mem hm
  have hsp : s ≠ p := hi.loopless _ hm
  have herase : (h.links.eraseP (·.1 = s)).map Prod.fst = (h.links.map Prod.fst).erase s := by
    rw [List.erase_eq_eraseP, List.eraseP_map]
    congr 2
    funext q
    rw [Function.comp_apply, Bool.beq_comm]
    rfl
  have hmem : ∀ q, q ∈ h.links.eraseP (·.1 = s) ↔ q ∈ h.links ∧ q.1 ≠ s := by
    intro q
    constructor
    · intro hqm
      refine ⟨List.mem_of_mem_eraseP hqm, fun he => ?_⟩
      have h1 : q.1 ∈ (h.links.eraseP (·.1 = s)).map Prod.fst := List.mem_map_of_mem hqm
      rw [herase, he] at h1
      exact hi.nodup.not_mem_erase h1
    · rintro ⟨hqm, hne⟩
      exact (List.mem_eraseP_of_neg (by simpa using hne)).mpr hqm
  have hsubq : ∀ x, x ≠ p → (DmsgHeap.subq { h with links := h.links.eraseP (·.1 = s) } x = [] ↔
      h.subq x = []) := by
    intro x hx
    rw [DmsgHeap.subq_eq_nil, DmsgHeap.subq_eq_nil]
    refine forall_congr' fun c => not_congr ?_
    rw [hmem]
    refine ⟨And.left, fun hc => ⟨hc, ?_⟩⟩
    rintro rfl
    exact hx (eq_of_mem_links hi.nodup hc hm)
  have hqp : h.subq p ≠ [] := List.ne_nil_of_mem (DmsgHeap.mem_subq.mpr hm)
  have hnochild : rooted → ∀ q ∈ h.links, q.2 ≠ s := by
    rintro hroot ⟨c, q⟩ hc rfl
    exact DmsgHeap.subq_eq_nil.mp (hq hroot) c hc
  refine ⟨hi.root, hi.fresh, ?_, hi.held, hi.tree_count, hi.closed, ?_, ?_, ?_, ?_, ?_, ?_,
    hi.pristine_nodup⟩
  · intro x
    have he := hi.refs_eq x
    change h.refs x = _
    unfold DmsgHeap.holders at he ⊢
    rw [herase]
    by_cases hxs : x = s
    · subst hxs
      have h1 := List.count_erase_self (a := x) (l := h.links.map Prod.fst)
      have h2 := List.count_pos_iff.mpr (show x ∈ h.links.map Prod.fst from hls)
      have h3 := hsubq x hsp
      have hcount0 : (if DmsgHeap.subq { h with links := h.links.eraseP (·.1 = x) } p = [] then [p]
          else []).count x = 0 := by
        split <;> simp [Ne.symm hsp]
      simp only [h3, List.count_cons_self, List.count_append, hcount0] at he ⊢
      omega
    · rw [List.count_erase_of_ne hxs, List.count_cons_of_ne (Ne.symm hxs), List.count_append]
      by_cases hxp : x = p
      · subst hxp
        rw [if_neg hqp] at he
        split
        next hn =>
          simp only [List.count_singleton_self]
          omega
        next hn =>
          simp only [List.count_nil]
          omega
      · have hcount0 : (if DmsgHeap.subq { h with links := h.links.eraseP (·.1 = s) } p = [] then [p]
            else []).count x = 0 := by
          split <;> simp [Ne.symm hxp]
        rw [hcount0, he]
        simp only [hsubq x hxp]
        omega
  · intro x hx
    have hl := hi.tree_linked x hx
    have hne : x ≠ s := by
      rintro rfl
      exact hx.elim hnt.1 hnt.2
    change x ∈ (h.links.eraseP (·.1 = s)).map Prod.fst
    rw [herase]
    exact (List.mem_erase_of_ne hne).mpr hl
  · change ((h.links.eraseP (·.1 = s)).map Prod.fst).Nodup
    rw [herase]
    exact hi.nodup.erase s
  · intro hx
    change 0 ∈ (h.links.eraseP (·.1 = s)).map Prod.fst at hx
    rw [herase] at hx
    exact hi.root_unlinked (List.mem_of_mem_erase hx)
  · intro l hl
    exact hi.loopless l ((hmem l).mp hl).1
  · intro hroot l hl
    obtain ⟨hl, hne⟩ := (hmem l).mp hl
    exact (hi.below hroot l hl).erase (hnochild hroot) hne
  · intro y hy
    obtain ⟨h1, h2, h3, h4⟩ := hi.pristine y hy
    have hys : y ≠ s := fun he => h3 (he ▸ hls)
    have hyp : y ≠ p := by
      rintro rfl
      exact hqp h4
    refine ⟨h1, ?_, ?_, (hsubq y hyp).mpr h4⟩
    · rintro (_ | ⟨_, hm⟩)
      · exact hys rfl
      · rcases List.mem_append.mp hm with hm | hm
        · split at hm
          · exact hyp (List.mem_singleton.mp hm)
          · cases hm
        · exact h2 hm
    · intro hx
      change y ∈ (h.links.eraseP (·.1 = s)).map Prod.fst at hx
      rw [herase] at hx
      exact h3 (List.mem_of_mem_erase hx)

end HeapInv

end Hammer2
