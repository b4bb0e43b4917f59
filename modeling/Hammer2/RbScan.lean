import Hammer2.RbRemove

namespace Hammer2

open Rb (Dir Color Shape Frame)
open Rb.Shape (build)

namespace RbHeap

variable {α : Type*} {h : RbHeap α} {ctx : List (Frame α)} {l r t : Shape α} {c : Color}
  {x : α} {p best : Option α}

/-- The leftmost node below a node is the first one in order. -/
theorem leftmost_head {fuel : Nat} (hrep : Rep h.mem t p) (hx : t.root = some x)
    (hfuel : t.toList.length < fuel + 1) : leftmost fuel h x = t.toList.head? := by
  obtain ⟨seg, k, n, r, rfl, hleft, hrun⟩ := leftmost_spec hrep hx hfuel
  rw [hrun, toList_fill_left hleft]
  rfl

/-- The way up ends at the node that comes after the subtree. -/
theorem rbClimb_spec [DecidableEq α] {fuel : Nat} (hat : At h ctx t) (hx : t.root = some x)
    (hfuel : ctx.length < fuel) : rbClimb fuel h x = some (Rb.after ctx).head? := by
  induction ctx generalizing t x fuel with
  | nil =>
    obtain ⟨fuel, rfl⟩ : ∃ f, fuel = f + 1 := ⟨fuel - 1, by omega⟩
    have hparent : (h.mem x).parent = none := hat.parent hx
    unfold rbClimb
    rw [hparent]
    rfl
  | cons f ctx ih =>
    obtain ⟨d, k, q, s⟩ := f
    rw [List.length_cons] at hfuel
    obtain ⟨fuel, rfl⟩ : ∃ f, fuel = f + 1 := ⟨fuel - 1, by omega⟩
    have hparent : (h.mem x).parent = some q := hat.parent hx
    have hq := hat.readUp
    have hne := hat.sibling_ne hx
    unfold rbClimb
    rw [hparent]
    dsimp only
    rw [hq]
    cases d with
    | left => exact if_neg hne
    | right =>
      have hup := ih (at_near.mpr hat) (Shape.root_build ..) (Nat.lt_of_succ_lt_succ hfuel)
      exact (if_pos hx).trans hup

theorem At.parent_ne (hat : At h ctx t) (hx : t.root = some x) : (h.mem x).parent ≠ some x := by
  rw [hat.parent hx]
  cases ctx with
  | nil => exact Option.some_ne_none x |>.symm
  | cons f ctx =>
    intro heq
    have hf : f.node = x := Option.some.inj heq
    exact List.disjoint_of_nodup_append hat.nodup (hf ▸ List.mem_cons_self) (Shape.mem_of_root hx)

/-- `rb_next` gives the node that comes after. -/
theorem rbNext_spec [DecidableEq α] {fuel : Nat} {pre post : List α} (hrep : h.Represents t)
    (hlist : t.toList = pre ++ x :: post) (hfuel : t.toList.length < fuel) :
    rbNext fuel h x = some post.head? := by
  have hx : x ∈ t.toList := hlist ▸ List.mem_append_right _ List.mem_cons_self
  obtain ⟨ctx, c, l, r, rfl⟩ := Rb.exists_fill hx
  have hat : At h ctx (build .left c x l r) := represents_fill.mp hrep
  have hpost : post = r.toList ++ Rb.after ctx := by
    have heq : (Rb.fill ctx (.node c l x r)).toList =
        (Rb.before ctx ++ l.toList) ++ x :: (r.toList ++ Rb.after ctx) := by
      simp [Rb.toList_fill, Shape.toList]
    have hnodup := hrep.nodup
    rw [heq] at hnodup
    have hnot := (List.nodup_cons.mp (List.nodup_middle.mp hnodup)).1
    rw [List.mem_append, not_or] at hnot
    have hparts := (List.append_cons_inj_of_notMem hnot.1 hnot.2).mp (heq.symm.trans hlist)
    exact hparts.2.2.symm
  have hread : h.mem x = ⟨up ctx, c, l.root, r.root⟩ := hat.read
  have hself := hat.parent_ne (Shape.root_build ..)
  have hctx := Nat.lt_trans (length_lt_fill ctx (t := .node c l x r) rfl) hfuel
  unfold rbNext
  rw [if_neg fun hempty => hself hempty.1, hread, hpost]
  cases hr : r.root with
  | none =>
    rw [Shape.eq_of_root_none hr]
    exact rbClimb_spec hat (Shape.root_build ..) hctx
  | some z =>
    obtain ⟨-, -, hrrep⟩ := rep_build.mp hat.below
    have hlen : r.toList.length < fuel + 1 := by
      rw [hlist, hpost] at hfuel
      simp only [List.length_append, List.length_cons] at hfuel
      omega
    obtain ⟨y, ys, hys⟩ := List.exists_cons_of_ne_nil (List.ne_nil_of_mem (Shape.mem_of_root hr))
    dsimp only
    rw [leftmost_head hrrep hr hlen, hys]
    rfl

theorem rbFirst_spec {fuel : Nat} (hrep : h.Represents t) (hfuel : t.toList.length < fuel) :
    rbFirst fuel h = some t.toList.head? := by
  unfold rbFirst
  rw [hrep.root]
  cases hx : t.root with
  | none =>
    rw [Shape.eq_of_root_none hx]
    rfl
  | some x =>
    dsimp only
    rw [leftmost_head hrep.cells hx (Nat.lt_succ_of_lt hfuel)]
    obtain ⟨y, ys, hys⟩ := List.exists_cons_of_ne_nil (List.ne_nil_of_mem (Shape.mem_of_root hx))
    rw [hys]
    rfl

/-- The nodes for which `RB_SCAN` calls back, out of those in the range. A negative count ends it. -/
def scanVisits (callback : α → Int × Bool) : List α → List α
  | [] => []
  | x :: xs => x :: if (callback x).1 < 0 then [] else scanVisits callback xs

/-- What `RB_SCAN` returns: a negative count, or the sum. -/
def scanReturn (callback : α → Int × Bool) : Int → List α → Int
  | count, [] => count
  | count, x :: xs =>
    if (callback x).1 < 0 then (callback x).1 else scanReturn callback (count + (callback x).1) xs

/-- The nodes that are left after the callbacks for some of them. -/
def scanKeeps [DecidableEq α] (callback : α → Int × Bool) (visited nodes : List α) : List α :=
  nodes.filter fun y => ¬(y ∈ visited ∧ (callback y).2 = true)

theorem scanVisits_eq {callback : α → Int × Bool} {nodes : List α}
    (h : ∀ x ∈ nodes, 0 ≤ (callback x).1) : scanVisits callback nodes = nodes := by
  induction nodes with
  | nil => rfl
  | cons x xs ih =>
    rw [scanVisits, if_neg (Int.not_lt.mpr (h x List.mem_cons_self)),
      ih fun y hy => h y (List.mem_cons_of_mem x hy)]

theorem scanVisits_sublist (callback : α → Int × Bool) (nodes : List α) :
    (scanVisits callback nodes).Sublist nodes := by
  induction nodes with
  | nil => exact List.Sublist.slnil
  | cons x xs ih =>
    rw [scanVisits]
    split
    next => exact (List.nil_sublist xs).cons_cons x
    next => exact ih.cons_cons x

/-- The descent of `RB_SCAN` ends with the first node that is not before the range. -/
theorem rbScanFirst_spec {fuel : Nat} {scancmp : α → Int} (hrep : Rep h.mem t p)
    (hrange : Rb.RangeCmp scancmp t.toList) (hfuel : t.toList.length < fuel + 1) :
    rbScanFirst scancmp fuel h best t.root =
      some ((t.toList.find? fun x => 0 ≤ scancmp x).or best) := by
  induction t generalizing p fuel best with
  | leaf => cases fuel <;> rfl
  | node c l x r ihl ihr =>
    obtain ⟨hx, hl, hr⟩ := hrep
    simp only [Shape.toList, List.length_append, List.length_cons] at hfuel
    obtain ⟨fuel, rfl⟩ : ∃ f, fuel = f + 1 := ⟨fuel - 1, by omega⟩
    obtain ⟨hrl, hrr, hlr⟩ := List.pairwise_append.mp hrange
    have hrr' := (List.pairwise_cons.mp hrr).2
    have hlen : l.toList.length < fuel + 1 := by omega
    have hlen' : r.toList.length < fuel + 1 := by omega
    rw [Shape.root]
    unfold rbScanFirst
    rw [hx]
    dsimp only
    rw [Shape.toList, List.find?_append]
    split
    next hneg =>
      have hnone : l.toList.find? (fun x => 0 ≤ scancmp x) = none := by
        rw [List.find?_eq_none]
        intro y hy hge
        have := (hlr y hy x List.mem_cons_self).1 (of_decide_eq_true hge)
        omega
      rw [ihr hr hrr' hlen', hnone, Option.none_or, List.find?_cons_of_neg (by simpa using hneg)]
    next hge =>
      rw [ihl hl hrl hlen, List.find?_cons_of_pos (by simpa using hge), Option.or_assoc,
        Option.some_or]

section

variable [DecidableEq α]

/-- One round of `RB_SCAN` at a node in the range. -/
theorem rbScan_callback {depth : Nat} (callback : α → Int × Bool) {pre rest : List α}
    (hholds : Holds h (pre ++ x :: rest)) (hdepth : (pre ++ x :: rest).length < depth) :
    ∃ h', (if (callback x).2 = true then rbErase depth h x else some h) = some h' ∧
      Holds h' ((if (callback x).2 = true then pre else pre ++ [x]) ++ rest) := by
  cases (callback x).2 with
  | false => exact ⟨h, rfl, by simpa using hholds⟩
  | true =>
    obtain ⟨t, hrep, hrb, hlist⟩ := hholds
    have hx : x ∈ t.toList := hlist ▸ List.mem_append_right _ List.mem_cons_self
    have hnodup := hrep.nodup
    obtain ⟨h', hrun, hholds'⟩ := rbErase_spec hrep hrb hx (hlist ▸ hdepth)
    rw [hlist] at hnodup hholds'
    exact ⟨h', hrun, erase_middle hnodup ▸ hholds'⟩

theorem scanKeeps_nil (callback : α → Int × Bool) (nodes : List α) :
    scanKeeps callback [] nodes = nodes := by
  simp [scanKeeps]

theorem scanKeeps_cons {callback : α → Int × Bool} {visited nodes : List α} (hx : x ∉ nodes) :
    scanKeeps callback (x :: visited) (x :: nodes) =
      (if (callback x).2 = true then [] else [x]) ++ scanKeeps callback visited nodes := by
  have hrest : scanKeeps callback (x :: visited) nodes = scanKeeps callback visited nodes := by
    apply List.filter_congr
    intro y hy
    have hne : y ≠ x := fun heq => hx (heq ▸ hy)
    simp [hne]
  rw [← hrest]
  unfold scanKeeps
  rw [List.filter_cons]
  cases (callback x).2 <;> simp

/-- The loop of `RB_SCAN` over the nodes from the first one that is not before the range. -/
theorem rbScanLoop_spec {fuel depth : Nat} {scancmp : α → Int}
    (callback : α → Int × Bool) (count : Int) {pre rest : List α} (hholds : Holds h (pre ++ rest))
    (hge : ∀ y ∈ rest, 0 ≤ scancmp y) (hrange : Rb.RangeCmp scancmp rest)
    (hdepth : (pre ++ rest).length < depth) (hfuel : rest.length ≤ fuel) :
    ∃ h', rbScanLoop scancmp callback depth fuel h rest.head? count =
        some (scanVisits callback (rest.filter fun y => scancmp y = 0),
          scanReturn callback count (rest.filter fun y => scancmp y = 0), h') ∧
      Holds h' (pre ++ scanKeeps callback
        (scanVisits callback (rest.filter fun y => scancmp y = 0)) rest) := by
  induction rest generalizing h pre fuel count with
  | nil =>
    refine ⟨h, ?_, ?_⟩
    · cases fuel <;> rfl
    · exact hholds
  | cons x rest ih =>
    obtain ⟨t, hrep, hrb, hlist⟩ := id hholds
    obtain ⟨fuel, rfl⟩ : ∃ f, fuel = f + 1 := ⟨fuel - 1, by simp at hfuel; omega⟩
    have hnext := rbNext_spec hrep hlist (hlist ▸ hdepth)
    have hnodup := hrep.nodup
    rw [hlist] at hnodup
    have hx : x ∉ rest := fun hmem =>
      (List.nodup_cons.mp (List.nodup_middle.mp hnodup)).1 (List.mem_append_right _ hmem)
    obtain ⟨hxr, hrest⟩ := List.pairwise_cons.mp hrange
    rw [List.head?_cons]
    unfold rbScanLoop
    rw [hnext, Option.bind_some]
    dsimp only
    by_cases hbeyond : 0 < scancmp x
    · have hnone : (x :: rest).filter (fun y => scancmp y = 0) = [] := by
        rw [List.filter_eq_nil_iff]
        intro y hy heq
        have hzero := of_decide_eq_true heq
        rcases List.mem_cons.mp hy with rfl | hy
        · omega
        · have := (hxr y hy).2 hbeyond
          omega
      rw [if_pos hbeyond, hnone, scanVisits, scanKeeps_nil]
      exact ⟨h, rfl, hholds⟩
    · have hzero : scancmp x = 0 := by
        have := hge x List.mem_cons_self
        omega
      obtain ⟨h1, hrun, hholds1⟩ := rbScan_callback callback hholds hdepth
      have hlen : ((if (callback x).2 = true then pre else pre ++ [x]) ++ rest).length < depth := by
        rw [List.length_append, List.length_cons] at hdepth
        split <;> simp only [List.length_append, List.length_cons, List.length_nil] <;> omega
      rw [if_neg hbeyond, hrun, Option.bind_some, List.filter_cons_of_pos (by simpa using hzero),
        scanVisits, scanReturn, scanKeeps_cons hx]
      have hsplit : ∀ l : List α, pre ++ ((if (callback x).2 = true then [] else [x]) ++ l) =
          (if (callback x).2 = true then pre else pre ++ [x]) ++ l := fun l => by
        cases (callback x).2 <;> simp
      rw [hsplit]
      by_cases hneg : (callback x).1 < 0
      · rw [if_pos hneg, if_pos hneg, if_pos hneg, scanKeeps_nil]
        exact ⟨h1, rfl, hholds1⟩
      · obtain ⟨h', hloop, hholds'⟩ := ih (count + (callback x).1) hholds1
          (fun y hy => hge y (List.mem_cons_of_mem x hy)) hrest hlen (Nat.le_of_succ_le_succ hfuel)
        rw [if_neg hneg, if_neg hneg, if_neg hneg, hloop]
        exact ⟨h', rfl, hholds'⟩

/-- `RB_SCAN` with a comparison visits the nodes in the range, in order. -/
theorem rbScan_spec {fuel : Nat} {scancmp : α → Int} (callback : α → Int × Bool) {nodes : List α}
    (hholds : Holds h nodes) (hrange : Rb.RangeCmp scancmp nodes) (hfuel : nodes.length < fuel) :
    ∃ h', rbScan fuel h (some scancmp) callback =
        some (scanVisits callback (nodes.filter fun y => scancmp y = 0),
          scanReturn callback 0 (nodes.filter fun y => scancmp y = 0), h') ∧
      Holds h' (scanKeeps callback
        (scanVisits callback (nodes.filter fun y => scancmp y = 0)) nodes) := by
  obtain ⟨t, hrep, hrb, rfl⟩ := id hholds
  obtain ⟨pre, rest, hlist, hpre, hge, hhead⟩ := Rb.range_split hrange
  have hfirst : rbScanFirst scancmp fuel h none t.root = some rest.head? := by
    rw [rbScanFirst_spec hrep.cells hrange (Nat.lt_succ_of_lt hfuel), hhead, Option.or_none]
  have hfilter : t.toList.filter (fun y => scancmp y = 0) = rest.filter fun y => scancmp y = 0 := by
    rw [hlist, List.filter_append, List.append_left_eq_self, List.filter_eq_nil_iff]
    intro y hy heq
    have hneg := hpre y hy
    have hzero := of_decide_eq_true heq
    omega
  have hkeeps : scanKeeps callback (scanVisits callback (rest.filter fun y => scancmp y = 0))
      t.toList = pre ++
        scanKeeps callback (scanVisits callback (rest.filter fun y => scancmp y = 0)) rest := by
    rw [hlist]
    refine (List.filter_append ..).trans (congrArg (· ++ _) (List.filter_eq_self.mpr ?_))
    intro y hy
    have hnot : y ∉ scanVisits callback (rest.filter fun y => scancmp y = 0) := by
      intro hmem
      have hzero := of_decide_eq_true
        (List.mem_filter.mp ((scanVisits_sublist callback _).subset hmem)).2
      have hneg := hpre y hy
      omega
    exact decide_eq_true fun hrm => hnot hrm.1
  rw [hfilter, hkeeps]
  rw [hlist] at hholds hrange hfuel
  have hrounds : rest.length ≤ fuel := by
    rw [List.length_append] at hfuel
    omega
  obtain ⟨h', hloop, hholds'⟩ := rbScanLoop_spec callback 0 hholds hge
    (List.pairwise_append.mp hrange).2.1 hfuel hrounds
  refine ⟨h', ?_, hholds'⟩
  unfold rbScan
  dsimp only
  rw [hrep.root, hfirst]
  exact hloop

/-- `RB_SCAN` without one visits all nodes. -/
theorem rbScan_all {fuel : Nat} (callback : α → Int × Bool) {nodes : List α}
    (hholds : Holds h nodes) (hfuel : nodes.length < fuel) :
    ∃ h', rbScan fuel h none callback =
        some (scanVisits callback nodes, scanReturn callback 0 nodes, h') ∧
      Holds h' (scanKeeps callback (scanVisits callback nodes) nodes) := by
  obtain ⟨t, hrep, hrb, rfl⟩ := id hholds
  have hrange : Rb.RangeCmp (fun _ => 0) t.toList := List.pairwise_of_forall fun _ _ => ⟨id, id⟩
  have hall : t.toList.filter (fun _ => (0 : Int) = 0) = t.toList := by simp
  have hnil : Holds h ([] ++ t.toList) := hholds
  have hloop := rbScanLoop_spec callback 0 hnil (fun _ _ => Int.le_refl _) hrange hfuel
    (Nat.le_of_lt hfuel)
  rw [hall] at hloop
  unfold rbScan
  dsimp only
  rw [rbFirst_spec hrep hfuel]
  exact hloop

end

end RbHeap

end Hammer2
