import Mathlib.Data.List.Nodup
import Mathlib.Tactic.Tauto

namespace Rb

inductive Dir where
  | left
  | right
deriving DecidableEq, Repr

def Dir.flip : Dir → Dir
  | .left => .right
  | .right => .left

inductive Color where
  | red
  | black
deriving DecidableEq, Repr

/-- A binary tree with coloured nodes. -/
inductive Shape (α : Type*) where
  | leaf
  | node (c : Color) (l : Shape α) (x : α) (r : Shape α)

variable {α : Type*}

namespace Shape

def root : Shape α → Option α
  | leaf => none
  | node _ _ x _ => some x

def toList : Shape α → List α
  | leaf => []
  | node _ l x r => l.toList ++ x :: r.toList

/-- The node that has `near` on the side `d` and `far` on the other. -/
def build (d : Dir) (c : Color) (x : α) (near far : Shape α) : Shape α :=
  match d with
  | .left => node c near x far
  | .right => node c far x near

/-- Both subtrees of a node have the same number of black nodes on every path, and a red node has
black children. The indices are the colour of the root and that number. -/
inductive Balanced : Shape α → Color → Nat → Prop
  | leaf : Balanced leaf .black 0
  | red {l r : Shape α} {x : α} {n : Nat} : Balanced l .black n → Balanced r .black n →
      Balanced (node .red l x r) .red n
  | black {l r : Shape α} {x : α} {c c' : Color} {n : Nat} : Balanced l c n → Balanced r c' n →
      Balanced (node .black l x r) .black (n + 1)

/-- A red-black tree: balanced, with a black root. -/
def RedBlack (t : Shape α) : Prop := ∃ n, t.Balanced .black n

/-- The tree with another colour at its root. -/
def paint (k : Color) : Shape α → Shape α
  | leaf => leaf
  | node _ l x r => node k l x r

@[simp]
theorem root_build (d : Dir) (c : Color) (x : α) (a b : Shape α) :
    (build d c x a b).root = some x := by
  cases d <;> rfl

theorem build_flip (d : Dir) (c : Color) (x : α) (a b : Shape α) :
    build d.flip c x a b = build d c x b a := by
  cases d <;> rfl

theorem toList_build_perm (d : Dir) (c : Color) (x : α) (a b : Shape α) :
    (build d c x a b).toList.Perm (x :: (a.toList ++ b.toList)) := by
  cases d with
  | left => exact List.perm_middle
  | right => exact List.perm_middle.trans ((List.perm_append_comm).cons x)

@[simp]
theorem mem_toList_build {d : Dir} {c : Color} {x y : α} {a b : Shape α} :
    y ∈ (build d c x a b).toList ↔ y = x ∨ y ∈ a.toList ∨ y ∈ b.toList := by
  rw [(toList_build_perm d c x a b).mem_iff, List.mem_cons, List.mem_append]

/-- A rotation that moves the node `p` above `g` keeps the order. -/
theorem toList_rotate_up (e : Dir) (c k c' k' : Color) (g p : α) (t s u : Shape α) :
    (build e.flip k' p (build e.flip c' g u s) t).toList =
      (build e c g (build e k p t s) u).toList := by
  cases e <;> simp [build, toList, Dir.flip]

theorem eq_of_root_none {t : Shape α} (h : t.root = none) : t = leaf := by
  cases t with
  | leaf => rfl
  | node c l x r => cases h

theorem mem_of_root {t : Shape α} {x : α} (h : t.root = some x) : x ∈ t.toList := by
  cases t with
  | leaf => cases h
  | node c l y r =>
    cases Option.some.inj h
    exact List.mem_append_right _ List.mem_cons_self

/-- A tree with a root, seen from the side `d`. -/
theorem exists_build (d : Dir) {t : Shape α} {x : α} (h : t.root = some x) :
    ∃ c a b, t = build d c x a b := by
  cases t with
  | leaf => cases h
  | node c l y r =>
    cases Option.some.inj h
    cases d with
    | left => exact ⟨c, l, r, rfl⟩
    | right => exact ⟨c, r, l, rfl⟩

@[simp]
theorem toList_paint (k : Color) (t : Shape α) : (t.paint k).toList = t.toList := by
  cases t <;> rfl

@[simp]
theorem root_paint (k : Color) (t : Shape α) : (t.paint k).root = t.root := by
  cases t <;> rfl

@[simp]
theorem paint_build (k : Color) (d : Dir) (c : Color) (x : α) (a b : Shape α) :
    (build d c x a b).paint k = build d k x a b := by
  cases d <;> rfl

theorem balanced_red_iff {d : Dir} {x : α} {a b : Shape α} {c : Color} {n : Nat} :
    (build d .red x a b).Balanced c n ↔
      c = .red ∧ a.Balanced .black n ∧ b.Balanced .black n := by
  constructor
  · intro h
    cases d with
    | left => cases h with | red ha hb => exact ⟨rfl, ha, hb⟩
    | right => cases h with | red hb ha => exact ⟨rfl, ha, hb⟩
  · rintro ⟨rfl, ha, hb⟩
    cases d with
    | left => exact ha.red hb
    | right => exact hb.red ha

theorem balanced_black_iff {d : Dir} {x : α} {a b : Shape α} {c : Color} {n : Nat} :
    (build d .black x a b).Balanced c n ↔
      c = .black ∧ ∃ m ca cb, n = m + 1 ∧ a.Balanced ca m ∧ b.Balanced cb m := by
  constructor
  · intro h
    cases d with
    | left => cases h with | black ha hb => exact ⟨rfl, _, _, _, rfl, ha, hb⟩
    | right => cases h with | black hb ha => exact ⟨rfl, _, _, _, rfl, ha, hb⟩
  · rintro ⟨rfl, m, ca, cb, rfl, ha, hb⟩
    cases d with
    | left => exact ha.black hb
    | right => exact hb.black ha

/-- A tree with a red root, seen from the side `d`. -/
theorem Balanced.exists_red (d : Dir) {t : Shape α} {n : Nat} (h : t.Balanced .red n) :
    ∃ x a b, t = build d .red x a b ∧ a.Balanced .black n ∧ b.Balanced .black n := by
  cases h with
  | red hl hr =>
    cases d with
    | left => exact ⟨_, _, _, rfl, hl, hr⟩
    | right => exact ⟨_, _, _, rfl, hr, hl⟩

/-- A tree with a black root that is not empty. -/
theorem Balanced.exists_black (d : Dir) {t : Shape α} {n : Nat} (h : t.Balanced .black (n + 1)) :
    ∃ x a b ca cb, t = build d .black x a b ∧ a.Balanced ca n ∧ b.Balanced cb n := by
  cases h with
  | black hl hr =>
    cases d with
    | left => exact ⟨_, _, _, _, _, rfl, hl, hr⟩
    | right => exact ⟨_, _, _, _, _, rfl, hr, hl⟩

theorem Balanced.paint_red {t : Shape α} {n : Nat} (h : t.Balanced .red n) :
    (t.paint .black).Balanced .black (n + 1) := by
  cases h with
  | red hl hr => exact hl.black hr

theorem Balanced.paint_black {t : Shape α} {n : Nat} (h : t.Balanced .black n) :
    t.paint .black = t := by
  cases h <;> rfl

theorem Balanced.redBlack {t : Shape α} {c : Color} {n : Nat} (h : t.Balanced c n) :
    (t.paint .black).RedBlack := by
  cases c with
  | red => exact ⟨_, h.paint_red⟩
  | black =>
    rw [h.paint_black]
    exact ⟨n, h⟩

end Shape

/-- A step up from a subtree: the parent, the side on which it has the subtree, and the other
subtree of the parent. -/
structure Frame (α : Type*) where
  dir : Dir
  color : Color
  node : α
  sibling : Shape α

open Shape

def Frame.attach (f : Frame α) (t : Shape α) : Shape α := build f.dir f.color f.node t f.sibling

/-- The tree around a subtree, with the frame of its parent first. -/
def fill : List (Frame α) → Shape α → Shape α
  | [], t => t
  | f :: ctx, t => fill ctx (f.attach t)

/-- The nodes that come before the subtree in order. -/
def before : List (Frame α) → List α
  | [] => []
  | f :: ctx => before ctx ++ match f.dir with
    | .left => []
    | .right => f.sibling.toList ++ [f.node]

/-- The nodes that come after the subtree in order. -/
def after : List (Frame α) → List α
  | [] => []
  | f :: ctx => (match f.dir with
    | .left => f.node :: f.sibling.toList
    | .right => []) ++ after ctx

theorem toList_fill (ctx : List (Frame α)) (t : Shape α) :
    (fill ctx t).toList = before ctx ++ t.toList ++ after ctx := by
  induction ctx generalizing t with
  | nil => simp [fill, before, after]
  | cons f ctx ih =>
    obtain ⟨d, c, x, s⟩ := f
    rw [fill, ih]
    cases d <;> simp [Frame.attach, build, toList, before, after]

theorem fill_append (ctx ctx' : List (Frame α)) (t : Shape α) :
    fill (ctx ++ ctx') t = fill ctx' (fill ctx t) := by
  induction ctx generalizing t with
  | nil => rfl
  | cons f ctx ih => exact ih _

theorem exists_root_fill (ctx : List (Frame α)) {t : Shape α} {x : α} (hx : t.root = some x) :
    ∃ z, (fill ctx t).root = some z := by
  induction ctx generalizing t x with
  | nil => exact ⟨x, hx⟩
  | cons f ctx ih => exact ih (root_build f.dir f.color f.node t f.sibling)

/-- Trees with the same nodes in order may replace each other. -/
theorem toList_fill_congr {t t' : Shape α} (ctx : List (Frame α)) (h : t.toList = t'.toList) :
    (fill ctx t).toList = (fill ctx t').toList := by
  rw [toList_fill, toList_fill, h]

/-- Every node of a tree can be brought into focus. -/
theorem exists_fill {t : Shape α} {x : α} (h : x ∈ t.toList) :
    ∃ ctx c l r, t = fill ctx (node c l x r) := by
  induction t with
  | leaf => cases h
  | node c l y r ihl ihr =>
    rw [toList, List.mem_append, List.mem_cons] at h
    rcases h with h | rfl | h
    · obtain ⟨ctx, c', l', r', rfl⟩ := ihl h
      exact ⟨ctx ++ [⟨.left, c, y, r⟩], c', l', r', by rw [fill_append]; rfl⟩
    · exact ⟨[], c, l, r, rfl⟩
    · obtain ⟨ctx, c', l', r', rfl⟩ := ihr h
      exact ⟨ctx ++ [⟨.right, c, y, l⟩], c', l', r', by rw [fill_append]; rfl⟩

/-- A balanced tree around a subtree of black height `n`. The subtree has to be black if the colour
of the hole is red. -/
inductive Hole : List (Frame α) → Color → Nat → Prop
  | root {n : Nat} : Hole [] .red n
  | red {ctx : List (Frame α)} {d : Dir} {x : α} {s : Shape α} {n : Nat} :
      s.Balanced .black n → Hole ctx .black n → Hole (⟨d, .red, x, s⟩ :: ctx) .red n
  | black {ctx : List (Frame α)} {d : Dir} {x : α} {s : Shape α} {c k : Color} {n : Nat} :
      s.Balanced c n → Hole ctx k (n + 1) → Hole (⟨d, .black, x, s⟩ :: ctx) .black n

theorem Hole.fill {ctx : List (Frame α)} {k c : Color} {n : Nat} {t : Shape α}
    (h : Hole ctx k n) (ht : t.Balanced c n) (hc : k = .red → c = .black) :
    (fill ctx t).RedBlack := by
  induction h generalizing c t with
  | root =>
    rw [hc rfl] at ht
    exact ⟨_, ht⟩
  | red hs _ ih =>
    rw [hc rfl] at ht
    exact ih (balanced_red_iff.mpr ⟨rfl, ht, hs⟩) (by simp)
  | black hs _ ih =>
    exact ih (balanced_black_iff.mpr ⟨rfl, _, _, _, rfl, ht, hs⟩) (by simp)

/-- A node with black children of the right height fits where a node of its colour was. -/
theorem Hole.refill {f : Frame α} {ctx : List (Frame α)} {c : Color} {n : Nat} {d : Dir} {x : α}
    {a b : Shape α} (h : Hole (f :: ctx) c n) (ha : a.Balanced .black n)
    (hb : b.Balanced .black n) :
    (Rb.fill ctx (build d f.color x a b)).RedBlack := by
  cases h with
  | red _ hctx => exact hctx.fill (balanced_red_iff.mpr ⟨rfl, ha, hb⟩) (by simp)
  | black _ hctx => exact hctx.fill (balanced_black_iff.mpr ⟨rfl, n, _, _, rfl, ha, hb⟩) (by simp)

/-- A node on the way to the hole may be replaced by another one. -/
theorem Hole.rename {seg ctx : List (Frame α)} {d : Dir} {c k : Color} {x y : α} {s : Shape α}
    {n : Nat} (h : Hole (seg ++ ⟨d, c, x, s⟩ :: ctx) k n) :
    Hole (seg ++ ⟨d, c, y, s⟩ :: ctx) k n := by
  induction seg generalizing k n with
  | nil =>
    cases h with
    | red hs hctx => exact .red hs hctx
    | black hs hctx => exact .black hs hctx
  | cons f seg ih =>
    cases h with
    | red hs hctx => exact .red hs (ih hctx)
    | black hs hctx => exact .black hs (ih hctx)

/-- The hole and the subtree of a red-black tree. -/
theorem Shape.RedBlack.hole {ctx : List (Frame α)} {t : Shape α} (h : (fill ctx t).RedBlack) :
    ∃ k c n, Hole ctx k n ∧ t.Balanced c n ∧ (k = .red → c = .black) := by
  induction ctx generalizing t with
  | nil =>
    obtain ⟨n, hn⟩ := h
    exact ⟨.red, .black, n, .root, hn, by simp⟩
  | cons f ctx ih =>
    obtain ⟨k, c, n, hhole, ht, hc⟩ := ih h
    obtain ⟨d, fc, x, s⟩ := f
    cases fc with
    | red =>
      obtain ⟨rfl, ha, hb⟩ := balanced_red_iff.mp ht
      have hk : k = .black := by
        cases k with
        | red => cases hc rfl
        | black => rfl
      exact ⟨.red, .black, n, .red hb (hk ▸ hhole), ha, by simp⟩
    | black =>
      obtain ⟨rfl, m, ca, cb, rfl, ha, hb⟩ := balanced_black_iff.mp ht
      exact ⟨.black, ca, m, .black hb hhole, ha, by simp⟩

/-- Along the nodes a comparison passes from before a range into it and from there beyond it. -/
def RangeCmp (scancmp : α → Int) (nodes : List α) : Prop :=
  nodes.Pairwise fun a b => (0 ≤ scancmp a → 0 ≤ scancmp b) ∧ (0 < scancmp a → 0 < scancmp b)

/-- A range comparison splits the nodes at the first one that is not before the range. -/
theorem range_split {scancmp : α → Int} {nodes : List α} (hrange : RangeCmp scancmp nodes) :
    ∃ pre rest, nodes = pre ++ rest ∧ (∀ y ∈ pre, scancmp y < 0) ∧ (∀ y ∈ rest, 0 ≤ scancmp y) ∧
      nodes.find? (fun y => 0 ≤ scancmp y) = rest.head? := by
  induction nodes with
  | nil => exact ⟨[], [], rfl, List.forall_mem_nil _, List.forall_mem_nil _, rfl⟩
  | cons x nodes ih =>
    obtain ⟨hx, hnodes⟩ := List.pairwise_cons.mp hrange
    by_cases hge : 0 ≤ scancmp x
    · refine ⟨[], x :: nodes, rfl, List.forall_mem_nil _, ?_, ?_⟩
      · exact List.forall_mem_cons.mpr ⟨hge, fun y hy => (hx y hy).1 hge⟩
      · rw [List.find?_cons_of_pos (by simpa using hge), List.head?_cons]
    · obtain ⟨pre, rest, rfl, hpre, hrest, hhead⟩ := ih hnodes
      refine ⟨x :: pre, rest, rfl, List.forall_mem_cons.mpr ⟨Int.not_le.mp hge, hpre⟩, hrest, ?_⟩
      rw [List.find?_cons_of_neg (by simpa using hge)]
      exact hhead

/-- A comparison that puts two nodes in order unless they collide. -/
structure Order (cmp : α → α → Int) : Prop where
  swap : ∀ x y, cmp x y < 0 ↔ 0 < cmp y x
  trans : ∀ x y z, cmp x y < 0 → cmp y z < 0 → cmp x z < 0

def Sorted (cmp : α → α → Int) (nodes : List α) : Prop := nodes.Pairwise fun x y => cmp x y < 0

theorem Order.self {cmp : α → α → Int} (ho : Order cmp) (x : α) : cmp x x = 0 := by
  have := ho.swap x x
  omega

theorem Sorted.nodup {cmp : α → α → Int} {nodes : List α} (h : Sorted cmp nodes) (ho : Order cmp) :
    nodes.Nodup := by
  refine h.imp fun {x y} hlt heq => ?_
  have := ho.self x
  rw [heq] at hlt this
  omega

/-- The nodes that collide with a new one are a range. -/
theorem Order.range {cmp : α → α → Int} {nodes : List α} (ho : Order cmp) (h : Sorted cmp nodes)
    (elm : α) : RangeCmp (fun x => -cmp elm x) nodes := by
  refine h.imp fun {x y} hxy => ?_
  have hup : cmp elm x < 0 → cmp elm y < 0 := fun hx => ho.trans elm x y hx hxy
  have hdown : 0 < cmp elm y → 0 < cmp elm x := fun hy =>
    (ho.swap x elm).mp (ho.trans x y elm hxy ((ho.swap y elm).mpr hy))
  constructor <;> dsimp only <;> omega

end Rb
