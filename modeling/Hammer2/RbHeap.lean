import Hammer2.RbShape
import Mathlib.Logic.Function.Basic

namespace Hammer2

open Rb (Dir Color Shape)

/-- `struct rb_node`, with the parent pointer and the colour that `__rb_parent_color` packs. A
pointer is NULL or the address of a node. -/
structure RbNode (α : Type*) where
  parent : Option α
  color : Color
  left : Option α
  right : Option α

def RbNode.child {α : Type*} (n : RbNode α) : Dir → Option α
  | .left => n.left
  | .right => n.right

def RbNode.setChild {α : Type*} (n : RbNode α) (d : Dir) (v : Option α) : RbNode α :=
  match d with
  | .left => { n with left := v }
  | .right => { n with right := v }

/-- The nodes in memory and `root->rb_node`. -/
structure RbHeap (α : Type*) where
  mem : α → RbNode α
  root : Option α

/-- Where the descent of `RB_INSERT` ends: at a node that collides, or at a NULL link, given by the
node that has it and the side; `none` is the link of the root. -/
inductive RbSlot (α : Type*) where
  | collision (cur : α)
  | free (par : Option (α × Dir))

namespace RbHeap

variable {α : Type*} [DecidableEq α]

def set (h : RbHeap α) (n : α) (v : RbNode α) : RbHeap α :=
  { h with mem := Function.update h.mem n v }

/-- `rb_set_parent` -/
def setParent (h : RbHeap α) (n : α) (p : Option α) : RbHeap α :=
  h.set n { h.mem n with parent := p }

/-- `rb_set_parent` behind a check for NULL. -/
def setParentOf (h : RbHeap α) (n p : Option α) : RbHeap α :=
  match n with
  | some n => h.setParent n p
  | none => h

def setChild (h : RbHeap α) (n : α) (d : Dir) (v : Option α) : RbHeap α :=
  h.set n ((h.mem n).setChild d v)

/-- `rb_set_black`, `rb_set_red` and the colour of `rb_set_parent_color` -/
def setColor (h : RbHeap α) (n : α) (c : Color) : RbHeap α := h.set n { h.mem n with color := c }

/-- The check `n && rb_is_red(n)`, whose negation is `n == NULL || rb_is_black(n)`. -/
def IsRed (h : RbHeap α) (n : Option α) : Prop :=
  match n with
  | some n => (h.mem n).color = .red
  | none => False

instance (h : RbHeap α) (n : Option α) : Decidable (h.IsRed n) := by
  unfold IsRed
  split <;> infer_instance

/-- The link to `n` in its parent `p`, or in the root, is replaced by `v`: first the child of `p` on
the side `d` is compared with `n`. -/
def relink (h : RbHeap α) (d : Dir) (p : Option α) (n : α) (v : Option α) : RbHeap α :=
  match p with
  | some p =>
    if (h.mem p).child d = some n then h.setChild p d v else h.setChild p d.flip v
  | none => { h with root := v }

/-- `__rb_rotate_left` for `d = left` and `__rb_rotate_right` for `d = right` -/
def rbRotate (h : RbHeap α) (d : Dir) (n : α) : Option (RbHeap α) :=
  match (h.mem n).child d.flip with
  | none => none
  | some r =>
    let p := (h.mem n).parent
    let b := (h.mem r).child d
    let h := h.setChild n d.flip b
    let h := h.setParentOf b (some n)
    let h := h.setChild r d (some n)
    let h := h.setParent r p
    let h := h.relink d p n (some r)
    some (h.setParent n (some r))

def rbRotateLeft (h : RbHeap α) (n : α) : Option (RbHeap α) := h.rbRotate .left n

def rbRotateRight (h : RbHeap α) (n : α) : Option (RbHeap α) := h.rbRotate .right n

/-- The side of `p` on which it has `n`, as `p->rb_left == n` decides it. -/
def sideOf (h : RbHeap α) (p : α) (n : Option α) : Dir :=
  if (h.mem p).left = n then .left else .right

/-- `rb_set_black(root->rb_node)` -/
def blackenRoot (h : RbHeap α) : Option (RbHeap α) := h.root.map fun r => h.setColor r .black

/-- The step of `rb_insert_color` for a red parent and an uncle that is not red; `d` is the side of
the parent. The node with which the loop goes on comes with the heap. -/
def rbInsertRotate (h : RbHeap α) (d : Dir) (n parent gparent : α) : Option (RbHeap α × α) :=
  let inner : Option (RbHeap α × α × α) :=
    if (h.mem parent).child d.flip = some n then
      (h.rbRotate d parent).map fun h => (h, parent, n)
    else some (h, n, parent)
  inner.bind fun (h, n, parent) =>
    let h := h.setColor parent .black
    let h := h.setColor gparent .red
    (h.rbRotate d.flip gparent).map fun h => (h, n)

/-- `rb_insert_color`; `none` for a NULL pointer that is followed, or when the fuel runs out. -/
def rbInsertColor : Nat → RbHeap α → α → Option (RbHeap α)
  | 0, _, _ => none
  | fuel + 1, h, n =>
    match (h.mem n).parent with
    | none => h.blackenRoot
    | some parent =>
      if (h.mem parent).color = .black then h.blackenRoot
      else
        match (h.mem parent).parent with
        | none => none
        | some gparent =>
          let d := h.sideOf gparent (some parent)
          match (h.mem gparent).child d.flip with
          | none => (h.rbInsertRotate d n parent gparent).bind fun (h, n) => rbInsertColor fuel h n
          | some uncle =>
            if (h.mem uncle).color = .red then
              let h := h.setColor uncle .black
              let h := h.setColor parent .black
              let h := h.setColor gparent .red
              rbInsertColor fuel h gparent
            else
              (h.rbInsertRotate d n parent gparent).bind fun (h, n) => rbInsertColor fuel h n

/-- The first step of `__rb_erase_color`: a red sibling is rotated away. -/
def rbEraseRedSibling (h : RbHeap α) (d : Dir) (parent sibling : α) : Option (RbHeap α × α) :=
  if (h.mem sibling).color = .red then
    let h := h.setColor sibling .black
    let h := h.setColor parent .red
    (h.rbRotate d parent).bind fun h => ((h.mem parent).child d.flip).map fun s => (h, s)
  else some (h, sibling)

/-- The last step of `__rb_erase_color`, for a black sibling with a red child. -/
def rbEraseRotate (h : RbHeap α) (d : Dir) (parent sibling : α) : Option (RbHeap α) :=
  let outer : Option (RbHeap α × α) :=
    if ¬h.IsRed ((h.mem sibling).child d.flip) then
      ((h.mem sibling).child d).bind fun near =>
        let h := h.setColor near .black
        let h := h.setColor sibling .red
        (h.rbRotate d.flip sibling).bind fun h =>
          ((h.mem parent).child d.flip).map fun s => (h, s)
    else some (h, sibling)
  outer.bind fun (h, sibling) =>
    let h := h.setColor sibling (h.mem parent).color
    let h := h.setColor parent .black
    let h := match (h.mem sibling).child d.flip with
      | some far => h.setColor far .black
      | none => h
    h.rbRotate d parent

/-- The end of `__rb_erase_color`: `if (n) rb_set_black(n)`. -/
def blackenNode (h : RbHeap α) (n : Option α) : RbHeap α :=
  match n with
  | some n => h.setColor n .black
  | none => h

/-- `__rb_erase_color` -/
def rbEraseColor : Nat → RbHeap α → Option α → Option α → Option (RbHeap α)
  | 0, _, _, _ => none
  | fuel + 1, h, n, parent =>
    if ¬h.IsRed n ∧ n ≠ h.root then
      parent.bind fun p =>
        let d := h.sideOf p n
        ((h.mem p).child d.flip).bind fun sibling =>
          (h.rbEraseRedSibling d p sibling).bind fun (h, sibling) =>
            if ¬h.IsRed ((h.mem sibling).child d) ∧ ¬h.IsRed ((h.mem sibling).child d.flip) then
              let h := h.setColor sibling .red
              rbEraseColor fuel h (some p) (h.mem p).parent
            else (h.rbEraseRotate d p sibling).map fun h => h.blackenNode h.root
    else some (h.blackenNode n)

/-- The leftmost node below `n`, which `rb_erase`, `rb_first` and `rb_next` look for. -/
def leftmost : Nat → RbHeap α → α → Option α
  | 0, _, _ => none
  | fuel + 1, h, n =>
    match (h.mem n).left with
    | none => some n
    | some left => leftmost fuel h left

/-- `rb_erase` of a node with at most one child. -/
def rbEraseOne (fuel : Nat) (h : RbHeap α) (n : α) (child : Option α) : Option (RbHeap α) :=
  let parent := (h.mem n).parent
  let color := (h.mem n).color
  let h := h.setParentOf child parent
  let h := h.relink .left parent n child
  if color = .black then rbEraseColor fuel h child parent else some h

/-- The successor `n` of `old` is taken out from below it, with `child` in its place. The parent of
`child` comes with the heap. -/
def rbSpliceNext (h : RbHeap α) (old n : α) (child : Option α) : Option (RbHeap α × α) :=
  (h.mem n).parent.map fun parent =>
    if parent = old then (h, n)
    else
      let h := h.setParentOf child (some parent)
      let h := h.setChild parent .left child
      let h := h.setChild n .right (h.mem old).right
      (h.setParentOf (h.mem old).right (some n), parent)

/-- `rb_erase` of a node `old` with two children: its successor `n` takes its place. -/
def rbEraseTwo (fuel : Nat) (h : RbHeap α) (old n : α) : Option (RbHeap α) :=
  let h := h.relink .left (h.mem old).parent old (some n)
  let child := (h.mem n).right
  let color := (h.mem n).color
  (h.rbSpliceNext old n child).bind fun (h, parent) =>
    let h := h.set n { h.mem n with parent := (h.mem old).parent, color := (h.mem old).color }
    let h := h.setChild n .left (h.mem old).left
    let h := h.setParentOf (h.mem old).left (some n)
    if color = .black then rbEraseColor fuel h child (some parent) else some h

/-- `rb_erase` -/
def rbErase (fuel : Nat) (h : RbHeap α) (n : α) : Option (RbHeap α) :=
  match (h.mem n).left, (h.mem n).right with
  | none, child => h.rbEraseOne fuel n child
  | some child, none => h.rbEraseOne fuel n (some child)
  | some _, some right => (h.leftmost fuel right).bind fun next => h.rbEraseTwo fuel n next

/-- The descent of `RB_INSERT`; `cmp` compares the new node with those of the tree. -/
def rbDescend (cmp : α → Int) : Nat → RbHeap α → Option (α × Dir) → Option α → Option (RbSlot α)
  | _, _, par, none => some (.free par)
  | 0, _, _, some _ => none
  | fuel + 1, h, _, some cur =>
    if cmp cur < 0 then rbDescend cmp fuel h (some (cur, .left)) (h.mem cur).left
    else if 0 < cmp cur then rbDescend cmp fuel h (some (cur, .right)) (h.mem cur).right
    else some (.collision cur)

/-- `rb_link_node` -/
def rbLinkNode (h : RbHeap α) (node : α) (par : Option (α × Dir)) : RbHeap α :=
  let h := h.set node ⟨par.map (·.1), .red, none, none⟩
  match par with
  | none => { h with root := some node }
  | some (p, d) => h.setChild p d (some node)

/-- `RB_INSERT`, with the node it returns. -/
def rbInsert (fuel : Nat) (cmp : α → α → Int) (h : RbHeap α) (elm : α) :
    Option (RbHeap α × Option α) :=
  (rbDescend (cmp elm) fuel h none h.root).bind fun
    | .collision cur => some (h, some cur)
    | .free par => (rbInsertColor fuel (h.rbLinkNode elm par) elm).map fun h => (h, none)

/-- The way up of `rb_next`. -/
def rbClimb : Nat → RbHeap α → α → Option (Option α)
  | 0, _, _ => none
  | fuel + 1, h, n =>
    match (h.mem n).parent with
    | none => some none
    | some parent =>
      if (h.mem parent).right = some n then rbClimb fuel h parent else some (some parent)

/-- `rb_next`; the outer `none` is for fuel that runs out. -/
def rbNext (fuel : Nat) (h : RbHeap α) (n : α) : Option (Option α) :=
  if (h.mem n).parent = some n ∧ (h.mem n).color = .red then some none
  else
    match (h.mem n).right with
    | some right => (leftmost fuel h right).map some
    | none => rbClimb fuel h n

/-- `rb_first` -/
def rbFirst (fuel : Nat) (h : RbHeap α) : Option (Option α) :=
  match h.root with
  | none => some none
  | some n => (leftmost fuel h n).map some

/-- The descent of `RB_SCAN` to the first node that is not before the range. -/
def rbScanFirst (scancmp : α → Int) : Nat → RbHeap α → Option α → Option α → Option (Option α)
  | _, _, best, none => some best
  | 0, _, _, some _ => none
  | fuel + 1, h, best, some n =>
    if scancmp n < 0 then rbScanFirst scancmp fuel h best (h.mem n).right
    else rbScanFirst scancmp fuel h (some n) (h.mem n).left

/-- The loop of `RB_SCAN` from a node on. The callback returns a count and says whether it removes
the node it is given; the nodes it was called for come first, then what the scan returns. -/
def rbScanLoop (scancmp : α → Int) (callback : α → Int × Bool) (depth : Nat) :
    Nat → RbHeap α → Option α → Int → Option (List α × Int × RbHeap α)
  | _, h, none, count => some ([], count, h)
  | 0, _, some _, _ => none
  | fuel + 1, h, some n, count =>
    (rbNext depth h n).bind fun next =>
      if 0 < scancmp n then some ([], count, h)
      else
        let c := callback n
        (if c.2 then rbErase depth h n else some h).bind fun h =>
          if c.1 < 0 then some ([n], c.1, h)
          else
            (rbScanLoop scancmp callback depth fuel h next (count + c.1)).map fun r =>
              (n :: r.1, r.2)

/-- `RB_SCAN`; without a comparison all nodes are visited. -/
def rbScan (fuel : Nat) (h : RbHeap α) (scancmp : Option (α → Int)) (callback : α → Int × Bool) :
    Option (List α × Int × RbHeap α) :=
  match scancmp with
  | none => (rbFirst fuel h).bind fun n => rbScanLoop (fun _ => 0) callback fuel fuel h n 0
  | some scancmp =>
    (rbScanFirst scancmp fuel h none h.root).bind fun n =>
      rbScanLoop scancmp callback fuel fuel h n 0

end RbHeap

end Hammer2
