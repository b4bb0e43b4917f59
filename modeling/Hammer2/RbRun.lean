import Hammer2.ChainCore
import Hammer2.RbScan

namespace Hammer2

open Rb (Order Sorted RangeCmp)

/-- A call of `RB_INSERT` or `RB_REMOVE`. -/
inductive RbOp (α : Type*) where
  | insert (elm : α)
  | remove (elm : α)
deriving DecidableEq

namespace RbOp

variable {α : Type*} [DecidableEq α]

/-- The nodes of the tree after a call. A node that collides is not inserted. -/
def apply (cmp : α → α → Int) (live : Finset α) : RbOp α → Finset α
  | .insert elm => if ∀ y ∈ live, cmp elm y ≠ 0 then Insert.insert elm live else live
  | .remove elm => live.erase elm

/-- Only a node of the tree is removed. -/
def Allowed (live : Finset α) : RbOp α → Prop
  | .insert _ => True
  | .remove elm => elm ∈ live

def AllAllowed (cmp : α → α → Int) : Finset α → List (RbOp α) → Prop
  | _, [] => True
  | live, op :: ops => op.Allowed live ∧ AllAllowed cmp (op.apply cmp live) ops

instance (live : Finset α) : (op : RbOp α) → Decidable (op.Allowed live)
  | .insert _ => isTrue trivial
  | .remove elm => inferInstanceAs (Decidable (elm ∈ live))

instance (cmp : α → α → Int) : (live : Finset α) → (ops : List (RbOp α)) →
    Decidable (AllAllowed cmp live ops)
  | _, [] => isTrue trivial
  | live, op :: ops =>
    have : Decidable (AllAllowed cmp (op.apply cmp live) ops) := instDecidableAllAllowed cmp _ ops
    inferInstanceAs (Decidable (op.Allowed live ∧ AllAllowed cmp (op.apply cmp live) ops))

/-- The call on the heap, without the node that `RB_INSERT` returns. -/
def run (fuel : Nat) (cmp : α → α → Int) (h : RbHeap α) : RbOp α → Option (RbHeap α)
  | .insert elm => (h.rbInsert fuel cmp elm).map Prod.fst
  | .remove elm => h.rbErase fuel elm

end RbOp

section

variable {α : Type*} [DecidableEq α] {cmp : α → α → Int} {h : RbHeap α} {live : Finset α}
  {nodes : List α} {fuel : Nat}

/-- The tree in the heap is red-black and has the live nodes in order. -/
structure HoldsLive (cmp : α → α → Int) (h : RbHeap α) (live : Finset α) (nodes : List α) :
    Prop where
  holds : h.Holds nodes
  sorted : Sorted cmp nodes
  live : nodes.toFinset = live

theorem HoldsLive.length (hl : HoldsLive cmp h live nodes) (ho : Order cmp) :
    nodes.length = live.card := by
  rw [← hl.live, List.toFinset_card_of_nodup (hl.sorted.nodup ho)]

theorem holdsLive_empty (cmp : α → α → Int) (mem : α → RbNode α) :
    HoldsLive cmp ⟨mem, none⟩ ∅ [] :=
  ⟨⟨.leaf, ⟨rfl, trivial, List.nodup_nil⟩, ⟨0, .leaf⟩, rfl⟩, List.Pairwise.nil, rfl⟩

theorem RbOp.card_apply_le (cmp : α → α → Int) (live : Finset α) (op : RbOp α) :
    (op.apply cmp live).card ≤ live.card + 1 := by
  cases op with
  | insert elm =>
    rw [apply]
    split
    next => exact Finset.card_insert_le elm live
    next => exact Nat.le_succ live.card
  | remove elm => exact Finset.card_erase_le.trans (Nat.le_succ live.card)

theorem RbOp.card_foldl_le (cmp : α → α → Int) (ops : List (RbOp α)) (live : Finset α) :
    (ops.foldl (RbOp.apply cmp) live).card ≤ live.card + ops.length := by
  induction ops generalizing live with
  | nil => exact Nat.le_refl _
  | cons op ops ih =>
    have hcard := RbOp.card_apply_le cmp live op
    have hrest := ih (op.apply cmp live)
    rw [List.foldl_cons, List.length_cons]
    omega

/-- One call keeps the tree. -/
theorem RbOp.run_spec (op : RbOp α) (ho : Order cmp) (hl : HoldsLive cmp h live nodes)
    (hop : op.Allowed live) (hfuel : live.card < fuel) :
    ∃ h' nodes', op.run fuel cmp h = some h' ∧ HoldsLive cmp h' (op.apply cmp live) nodes' := by
  have hlen : nodes.length < fuel := hl.length ho ▸ hfuel
  have hmem : ∀ y, y ∈ live ↔ y ∈ nodes := fun y => by rw [← hl.live, List.mem_toFinset]
  cases op with
  | insert elm =>
    rw [RbOp.run, RbOp.apply]
    rcases RbHeap.rbInsert_spec ho elm hl.holds hl.sorted hlen with
      ⟨cur, hcur, hrun, hzero⟩ | ⟨h', pre, post, hrun, hnodes, hholds, hsorted⟩
    · rw [hrun, if_neg fun hnone => hnone cur ((hmem cur).mpr hcur) hzero]
      exact ⟨h, nodes, rfl, hl⟩
    · have hnone : ∀ y ∈ live, cmp elm y ≠ 0 := by
        intro y hy
        obtain ⟨-, hpost, hpre⟩ := List.pairwise_append.mp hsorted
        have hy' := (hmem y).mp hy
        rw [hnodes, List.mem_append] at hy'
        rcases hy' with hy' | hy'
        · have := (ho.swap y elm).mp (hpre y hy' elm List.mem_cons_self)
          omega
        · have := (List.pairwise_cons.mp hpost).1 y hy'
          omega
      rw [hrun, if_pos hnone]
      refine ⟨h', _, rfl, hholds, hsorted, ?_⟩
      rw [← hl.live, hnodes]
      ext y
      simp only [List.mem_toFinset, List.mem_append, List.mem_cons, Finset.mem_insert]
      tauto
  | remove elm =>
    obtain ⟨t, hrep, hrb, rfl⟩ := hl.holds
    obtain ⟨h', hrun, hholds⟩ := RbHeap.rbErase_spec hrep hrb ((hmem elm).mp hop) hlen
    refine ⟨h', _, hrun, hholds, hl.sorted.sublist List.erase_sublist, ?_⟩
    ext y
    rw [List.mem_toFinset, hrep.nodup.mem_erase_iff, RbOp.apply, Finset.mem_erase, hmem]

/-- Any number of calls keeps the tree. -/
theorem rbRun_spec (ops : List (RbOp α)) (ho : Order cmp) (hl : HoldsLive cmp h live nodes)
    (hops : RbOp.AllAllowed cmp live ops) (hfuel : live.card + ops.length ≤ fuel) :
    ∃ h' nodes', ops.foldlM (RbOp.run fuel cmp) h = some h' ∧
      HoldsLive cmp h' (ops.foldl (RbOp.apply cmp) live) nodes' := by
  induction ops generalizing h live nodes with
  | nil => exact ⟨h, nodes, rfl, hl⟩
  | cons op ops ih =>
    rw [List.length_cons] at hfuel
    have hroom : live.card < fuel := by omega
    obtain ⟨h1, nodes1, hrun, hl1⟩ := op.run_spec ho hl hops.1 hroom
    have hcard := RbOp.card_apply_le cmp live op
    obtain ⟨h', nodes', hrest, hl'⟩ := ih hl1 hops.2 (by omega)
    refine ⟨h', nodes', ?_, hl'⟩
    rw [List.foldlM_cons, hrun]
    exact hrest

end

/-- `hammer2_chain_cmp` on the nodes of a tree, each in its chain. -/
def chainOrder {α : Type*} (chain : α → MemChain) (x y : α) : Int := chainCmp (chain x) (chain y)

section

variable {α : Type*} {chain : α → MemChain} {nodes : List α}

theorem chainCmp_neg_iff {c d : MemChain} : chainCmp c d < 0 ↔ c.bref.last < d.bref.key := by
  unfold chainCmp
  by_cases hlt : c.bref.last < d.bref.key
  · rw [if_pos hlt]
    exact iff_of_true (by decide) hlt
  · rw [if_neg hlt]
    refine iff_of_false ?_ hlt
    split <;> decide

theorem chainCmp_pos_iff {c d : MemChain} : 0 < chainCmp c d ↔ d.bref.last < c.bref.key := by
  have hc := c.bref.key_le_last
  have hd := d.bref.key_le_last
  unfold chainCmp
  split
  next hlt => exact iff_of_false (by decide) (by omega)
  next =>
    split
    next hgt => exact iff_of_true (by decide) hgt
    next hle => exact iff_of_false (by decide) hle

theorem chainOrder_order (chain : α → MemChain) : Order (chainOrder chain) where
  swap _ _ := chainCmp_neg_iff.trans chainCmp_pos_iff.symm
  trans x y z hxy hyz := by
    have hy := (chain y).bref.key_le_last
    have hxy' := chainCmp_neg_iff.mp hxy
    have hyz' := chainCmp_neg_iff.mp hyz
    exact chainCmp_neg_iff.mpr (by omega)

theorem chainFindCmp_nonneg_iff {keyBeg keyEnd : Nat} {c : MemChain} :
    0 ≤ chainFindCmp keyBeg keyEnd c ↔ keyBeg ≤ c.bref.last := by
  unfold chainFindCmp
  split
  next hlt => exact iff_of_false (by decide) (by omega)
  next hge => exact iff_of_true (by split <;> decide) (by omega)

theorem chainFindCmp_pos_iff {keyBeg keyEnd : Nat} {c : MemChain} :
    0 < chainFindCmp keyBeg keyEnd c ↔ keyBeg ≤ c.bref.last ∧ keyEnd < c.bref.key := by
  unfold chainFindCmp
  split
  next hlt => exact iff_of_false (by decide) (by omega)
  next hge =>
    split
    next hgt => exact iff_of_true (by decide) ⟨by omega, hgt⟩
    next hle => exact iff_of_false (by decide) (by omega)

/-- `hammer2_chain_find_cmp` is a range comparison for the chains of a tree. -/
theorem chainFindCmp_range (keyBeg keyEnd : Nat) (hsorted : Sorted (chainOrder chain) nodes) :
    RangeCmp (fun x => chainFindCmp keyBeg keyEnd (chain x)) nodes := by
  refine hsorted.imp fun {x y} hxy => ?_
  have hlt : (chain x).bref.last < (chain y).bref.key := chainCmp_neg_iff.mp hxy
  have hx := (chain x).bref.key_le_last
  have hy := (chain y).bref.key_le_last
  rw [chainFindCmp_nonneg_iff, chainFindCmp_nonneg_iff, chainFindCmp_pos_iff, chainFindCmp_pos_iff]
  constructor <;> omega

/-- A chain that collides with one of a sorted list is not inserted. -/
theorem chainTreeInsert_collision {c d : MemChain} {tree : List MemChain}
    (hsorted : Sorted chainCmp tree) (hd : d ∈ tree) (hcol : chainCmp c d = 0) :
    chainTreeInsert c tree = none := by
  induction tree with
  | nil => cases hd
  | cons cur rest ih =>
    obtain ⟨hcur, hrest⟩ := List.pairwise_cons.mp hsorted
    unfold chainTreeInsert
    rcases List.mem_cons.mp hd with rfl | hd
    · rw [hcol]
      rfl
    · have hnot : ¬chainCmp c cur < 0 := fun hlt => by
        have := (chainOrder_order id).trans c cur d hlt (hcur d hd)
        simp only [chainOrder, id] at this
        omega
      rw [if_neg hnot, ih hrest hd]
      split <;> rfl

/-- A chain goes between the chains to its left and those to its right. -/
theorem chainTreeInsert_between {c : MemChain} {pre post : List MemChain}
    (hsorted : Sorted chainCmp (pre ++ c :: post)) :
    chainTreeInsert c (pre ++ post) = some (pre ++ c :: post) := by
  induction pre with
  | nil =>
    obtain ⟨hc, -⟩ := List.pairwise_cons.mp hsorted
    cases post with
    | nil => rfl
    | cons d post => exact if_pos (hc d List.mem_cons_self)
  | cons cur pre ih =>
    obtain ⟨hcur, hrest⟩ := List.pairwise_cons.mp hsorted
    have hpos : 0 < chainCmp c cur :=
      ((chainOrder_order id).swap cur c).mp (hcur c (List.mem_append_right _ List.mem_cons_self))
    rw [List.cons_append]
    unfold chainTreeInsert
    rw [if_neg (by omega), if_pos hpos, ih hrest]
    rfl

end

section

variable {α : Type*} [DecidableEq α] {chain : α → MemChain} {h : RbHeap α} {nodes : List α}
  {fuel : Nat}

/-- On the chains in order `RB_INSERT` is the insertion into a list. -/
theorem rbInsert_refines (elm : α) (hholds : h.Holds nodes)
    (hsorted : Sorted (chainOrder chain) nodes) (hfuel : nodes.length < fuel) :
    ∃ h' cur nodes', h.rbInsert fuel (chainOrder chain) elm = some (h', cur) ∧ h'.Holds nodes' ∧
      chainTreeInsert (chain elm) (nodes.map chain) =
        if cur = none then some (nodes'.map chain) else none := by
  rcases RbHeap.rbInsert_spec (chainOrder_order chain) elm hholds hsorted hfuel with
    ⟨cur, hcur, hrun, hzero⟩ | ⟨h', pre, post, hrun, rfl, hholds', hsorted'⟩
  · refine ⟨h, some cur, nodes, hrun, hholds, ?_⟩
    rw [if_neg (Option.some_ne_none cur)]
    exact chainTreeInsert_collision (List.pairwise_map.mpr hsorted) (List.mem_map_of_mem hcur) hzero
  · refine ⟨h', none, _, hrun, hholds', ?_⟩
    have hmap : Sorted chainCmp ((pre ++ elm :: post).map chain) := List.pairwise_map.mpr hsorted'
    rw [List.map_append, List.map_cons] at hmap
    rw [if_pos rfl, List.map_append, List.map_append, List.map_cons]
    exact chainTreeInsert_between hmap

/-- On the chains in order `RB_REMOVE` is the removal from a list. -/
theorem rbErase_refines {x : α} (hholds : h.Holds nodes)
    (hsorted : Sorted (chainOrder chain) nodes) (hx : x ∈ nodes) (hfuel : nodes.length < fuel) :
    ∃ h' nodes', h.rbErase fuel x = some h' ∧ h'.Holds nodes' ∧
      nodes'.map chain = (nodes.map chain).erase (chain x) := by
  obtain ⟨t, hrep, hrb, rfl⟩ := hholds
  obtain ⟨h', hrun, hholds'⟩ := RbHeap.rbErase_spec hrep hrb hx hfuel
  refine ⟨h', _, hrun, hholds', ?_⟩
  have hmap : Sorted chainCmp (t.toList.map chain) := List.pairwise_map.mpr hsorted
  have hnodup := hmap.nodup (chainOrder_order id)
  have hnodup' := hrep.nodup
  obtain ⟨pre, post, hsplit⟩ := List.append_of_mem hx
  rw [hsplit] at hnodup hnodup' ⊢
  rw [List.map_append, List.map_cons] at hnodup ⊢
  rw [RbHeap.erase_middle hnodup, RbHeap.erase_middle hnodup', List.map_append]

/-- On the chains in order the scan of `hammer2_chain_find` is that of a list. -/
theorem rbScan_refines (keyBeg keyEnd : Nat) (hholds : h.Holds nodes)
    (hsorted : Sorted (chainOrder chain) nodes) (hfuel : nodes.length < fuel) :
    ∃ visited count h', h.rbScan fuel (some fun x => chainFindCmp keyBeg keyEnd (chain x))
        (fun _ => (0, false)) = some (visited, count, h') ∧
      visited.map chain = (nodes.map chain).filter fun c => chainFindCmp keyBeg keyEnd c = 0 := by
  obtain ⟨h', hrun, -⟩ := RbHeap.rbScan_spec (fun _ => (0, false)) hholds
    (chainFindCmp_range keyBeg keyEnd hsorted) hfuel
  refine ⟨_, _, h', hrun, ?_⟩
  rw [RbHeap.scanVisits_eq fun _ _ => Int.le_refl 0, List.filter_map]
  rfl

/-- Every sequence of calls keeps the tree of chains red-black and sorted with the live nodes in it,
and `RB_SCAN` visits the nodes in the range in order, until a callback returns a negative count. -/
theorem chain_tree_run (chain : α → MemChain) (mem : α → RbNode α) (ops : List (RbOp α))
    (hops : RbOp.AllAllowed (chainOrder chain) ∅ ops) (hfuel : ops.length < fuel) :
    ∃ h nodes, ops.foldlM (RbOp.run fuel (chainOrder chain)) ⟨mem, none⟩ = some h ∧
      HoldsLive (chainOrder chain) h (ops.foldl (RbOp.apply (chainOrder chain)) ∅) nodes ∧
      (∀ scancmp callback, RangeCmp scancmp nodes → ∃ h',
        h.rbScan fuel (some scancmp) callback =
          some (RbHeap.scanVisits callback (nodes.filter fun x => scancmp x = 0),
            RbHeap.scanReturn callback 0 (nodes.filter fun x => scancmp x = 0), h') ∧
        h'.Holds (RbHeap.scanKeeps callback
          (RbHeap.scanVisits callback (nodes.filter fun x => scancmp x = 0)) nodes)) ∧
      ∀ callback, ∃ h',
        h.rbScan fuel none callback = some (RbHeap.scanVisits callback nodes,
          RbHeap.scanReturn callback 0 nodes, h') ∧
        h'.Holds (RbHeap.scanKeeps callback (RbHeap.scanVisits callback nodes) nodes) := by
  have ho := chainOrder_order chain
  have hroom : (∅ : Finset α).card + ops.length ≤ fuel := by
    rw [Finset.card_empty]
    omega
  obtain ⟨h, nodes, hrun, hl⟩ := rbRun_spec ops ho (holdsLive_empty _ mem) hops hroom
  have hlen : nodes.length < fuel := by
    have hcard := RbOp.card_foldl_le (chainOrder chain) ops ∅
    rw [hl.length ho]
    rw [Finset.card_empty] at hcard
    omega
  exact ⟨h, nodes, hrun, hl,
    fun _ callback hrange => RbHeap.rbScan_spec callback hl.holds hrange hlen,
    fun callback => RbHeap.rbScan_all callback hl.holds hlen⟩

end

/-- Four chains of 1KB each. -/
def pageChain (i : Nat) : MemChain where
  bref :=
    { type := .data, key := 1024 * (i % 4), keybits := 10, dataOff := 10, stats := ⟨0, 0, 0⟩
      keybits_lt := by decide
      fits := by omega }
  deleted := false
  blkmapped := true
  blkmapupd := false

def blankNodes (_ : Nat) : RbNode Nat := ⟨none, .black, none, none⟩

def pageOps : List (RbOp Nat) :=
  [.insert 2, .insert 0, .insert 1, .insert 3, .remove 2, .remove 0]

theorem chain_tree_run_pages :
    RbOp.AllAllowed (chainOrder pageChain) ∅ pageOps ∧
      ∃ h nodes, pageOps.foldlM (RbOp.run 7 (chainOrder pageChain)) ⟨blankNodes, none⟩ = some h ∧
        HoldsLive (chainOrder pageChain) h {1, 3} nodes := by
  have hops : RbOp.AllAllowed (chainOrder pageChain) ∅ pageOps := by decide
  obtain ⟨h, nodes, hrun, hl, -⟩ := chain_tree_run pageChain blankNodes pageOps hops
    (show pageOps.length < 7 by decide)
  have hlive : pageOps.foldl (RbOp.apply (chainOrder pageChain)) ∅ = {1, 3} := by decide
  exact ⟨hops, h, nodes, hrun, hlive ▸ hl⟩

/-- Two chains are in the range, and the scan ends at the first. -/
theorem scan_ends_at_negative_count :
    (([.insert 0, .insert 1].foldlM (RbOp.run 3 (chainOrder pageChain))
        (⟨blankNodes, none⟩ : RbHeap Nat)).bind fun h =>
      (h.rbScan 3 (some fun x => chainFindCmp 0 2047 (pageChain x)) fun _ => (-1, false)).map
        fun r => r.1) = some [0] ∧
      chainFindCmp 0 2047 (pageChain 0) = 0 ∧ chainFindCmp 0 2047 (pageChain 1) = 0 := by
  decide

end Hammer2
