import Hammer2.RbHeap

namespace Hammer2

open Rb (Dir Color Shape Frame)
open Rb.Shape (build)

/-- The node with the children `near` on the side `d` and `far` on the other. -/
def RbNode.ofSides {α : Type*} (d : Dir) (p : Option α) (c : Color) (near far : Option α) :
    RbNode α :=
  match d with
  | .left => ⟨p, c, near, far⟩
  | .right => ⟨p, c, far, near⟩

namespace RbNode

variable {α : Type*} (d : Dir) (p q : Option α) (c k : Color) (a b v : Option α)

@[simp]
theorem parent_ofSides : (ofSides d p c a b).parent = p := by cases d <;> rfl

@[simp]
theorem color_ofSides : (ofSides d p c a b).color = c := by cases d <;> rfl

@[simp]
theorem child_ofSides : (ofSides d p c a b).child d = a := by cases d <;> rfl

@[simp]
theorem child_flip_ofSides : (ofSides d p c a b).child d.flip = b := by cases d <;> rfl

@[simp]
theorem setChild_ofSides : (ofSides d p c a b).setChild d v = ofSides d p c v b := by
  cases d <;> rfl

@[simp]
theorem setChild_flip_ofSides : (ofSides d p c a b).setChild d.flip v = ofSides d p c a v := by
  cases d <;> rfl

@[simp]
theorem setParent_ofSides :
    { ofSides d p c a b with parent := q } = ofSides d q c a b := by cases d <;> rfl

@[simp]
theorem setColor_ofSides : { ofSides d p c a b with color := k } = ofSides d p k a b := by
  cases d <;> rfl

theorem ofSides_flip : ofSides d.flip p c a b = ofSides d p c b a := by cases d <;> rfl

end RbNode

namespace RbHeap

variable {α : Type*}

/-- The nodes of the tree are linked in memory, below the parent `p`. -/
def Rep (mem : α → RbNode α) : Shape α → Option α → Prop
  | .leaf, _ => True
  | .node c l x r, p => mem x = ⟨p, c, l.root, r.root⟩ ∧ Rep mem l (some x) ∧ Rep mem r (some x)

/-- The parent of the subtree in a context. -/
def up : List (Frame α) → Option α
  | [] => none
  | f :: _ => some f.node

def ctxNodes : List (Frame α) → List α
  | [] => []
  | f :: ctx => f.node :: (f.sibling.toList ++ ctxNodes ctx)

/-- The context is linked in memory around a subtree with the root `hole`. -/
def RepUp (mem : α → RbNode α) (root : Option α) : List (Frame α) → Option α → Prop
  | [], hole => root = hole
  | f :: ctx, hole => mem f.node = .ofSides f.dir (up ctx) f.color hole f.sibling.root ∧
      Rep mem f.sibling (some f.node) ∧ RepUp mem root ctx (some f.node)

/-- The heap holds the tree, with all its links, colours and parent pointers. -/
structure Represents (h : RbHeap α) (t : Shape α) : Prop where
  root : h.root = t.root
  cells : Rep h.mem t none
  nodup : t.toList.Nodup

/-- The heap is a red-black tree with the given nodes in order. -/
def Holds (h : RbHeap α) (nodes : List α) : Prop :=
  ∃ t, h.Represents t ∧ t.RedBlack ∧ t.toList = nodes

/-- The heap holds a tree with the subtree `t` in the context `ctx`. -/
structure At (h : RbHeap α) (ctx : List (Frame α)) (t : Shape α) : Prop where
  above : RepUp h.mem h.root ctx t.root
  below : Rep h.mem t (up ctx)
  nodup : (ctxNodes ctx ++ t.toList).Nodup

section

variable {mem mem' : α → RbNode α} {h : RbHeap α} {ctx : List (Frame α)} {t a b : Shape α}
  {d : Dir} {c : Color} {x : α} {p hole : Option α}

theorem rep_build : Rep mem (build d c x a b) p ↔
    mem x = .ofSides d p c a.root b.root ∧ Rep mem a (some x) ∧ Rep mem b (some x) := by
  cases d with
  | left => exact Iff.rfl
  | right => exact and_congr_right fun _ => and_comm

theorem Rep.frame (hrep : Rep mem t p) (hsame : ∀ y ∈ t.toList, mem' y = mem y) :
    Rep mem' t p := by
  induction t generalizing p with
  | leaf => trivial
  | node c l x r ihl ihr =>
    obtain ⟨hx, hl, hr⟩ := hrep
    simp only [Shape.toList, List.mem_append, List.mem_cons] at hsame
    refine ⟨?_, ihl hl fun y hy => hsame y (Or.inl hy), ihr hr fun y hy => hsame y (by tauto)⟩
    rw [hsame x (by tauto)]
    exact hx

theorem RepUp.frame {root : Option α} (hrep : RepUp mem root ctx hole)
    (hsame : ∀ y ∈ ctxNodes ctx, mem' y = mem y) : RepUp mem' root ctx hole := by
  induction ctx generalizing hole with
  | nil => exact hrep
  | cons f ctx ih =>
    obtain ⟨hx, hs, hctx⟩ := hrep
    simp only [ctxNodes, List.mem_append, List.mem_cons] at hsame
    refine ⟨?_, hs.frame fun y hy => hsame y (by tauto), ih hctx fun y hy => hsame y (by tauto)⟩
    rw [hsame f.node (by tauto)]
    exact hx

theorem toList_fill_perm (ctx : List (Frame α)) (t : Shape α) :
    (Rb.fill ctx t).toList.Perm (ctxNodes ctx ++ t.toList) := by
  induction ctx generalizing t with
  | nil => exact List.Perm.refl _
  | cons f ctx ih =>
    refine (ih (f.attach t)).trans ?_
    have hattach := Shape.toList_build_perm f.dir f.color f.node t f.sibling
    rw [ctxNodes, List.cons_append]
    refine (hattach.append_left (ctxNodes ctx)).trans ?_
    refine List.perm_middle.trans (List.Perm.cons _ ?_)
    rw [← List.append_assoc]
    refine List.perm_append_comm.trans ?_
    rw [← List.append_assoc]

theorem length_le_ctxNodes (ctx : List (Frame α)) : ctx.length ≤ (ctxNodes ctx).length := by
  induction ctx with
  | nil => exact Nat.le_refl _
  | cons f ctx ih =>
    rw [ctxNodes, List.length_cons, List.length_cons, List.length_append]
    omega

theorem rep_fill : (Rep mem (Rb.fill ctx t) none ∧ h.root = (Rb.fill ctx t).root) ↔
    RepUp mem h.root ctx t.root ∧ Rep mem t (up ctx) := by
  induction ctx generalizing t with
  | nil => exact and_comm
  | cons f ctx ih =>
    rw [Rb.fill, ih]
    unfold Rb.Frame.attach
    rw [rep_build, Shape.root_build]
    constructor
    · rintro ⟨hup, hx, ht, hs⟩
      exact ⟨⟨hx, hs, hup⟩, ht⟩
    · rintro ⟨⟨hx, hs, hup⟩, ht⟩
      exact ⟨hup, hx, ht, hs⟩

theorem represents_fill : Represents h (Rb.fill ctx t) ↔ At h ctx t := by
  have hnd := (toList_fill_perm ctx t).nodup_iff
  constructor
  · rintro ⟨hroot, hcells, hnodup⟩
    obtain ⟨hup, ht⟩ := rep_fill.mp ⟨hcells, hroot⟩
    exact ⟨hup, ht, hnd.mp hnodup⟩
  · rintro ⟨hup, ht, hnodup⟩
    obtain ⟨hcells, hroot⟩ := rep_fill.mpr ⟨hup, ht⟩
    exact ⟨hroot, hcells, hnd.mpr hnodup⟩

/-- The focus moves to the child on the side `d`, or from it to the parent. -/
theorem at_near {s : Shape α} :
    At h ctx (build d c x t s) ↔ At h (⟨d, c, x, s⟩ :: ctx) t := by
  rw [← represents_fill, ← represents_fill]
  exact Iff.rfl

theorem at_far : At h ctx (build d c x a b) ↔ At h (⟨d.flip, c, x, a⟩ :: ctx) b := by
  rw [← Shape.build_flip]
  exact at_near

theorem root_ne_some (hx : x ∉ t.toList) : t.root ≠ some x :=
  fun heq => hx (Shape.mem_of_root heq)

/-- The nodes of the parts of a tree in focus are distinct. -/
theorem At.parts (hat : At h ctx (build d c x a b)) :
    (x ∉ ctxNodes ctx ∧ x ∉ a.toList ∧ x ∉ b.toList) ∧
      (ctxNodes ctx).Nodup ∧ a.toList.Nodup ∧ b.toList.Nodup ∧
      (ctxNodes ctx).Disjoint a.toList ∧ (ctxNodes ctx).Disjoint b.toList ∧
      a.toList.Disjoint b.toList := by
  have hperm := (Shape.toList_build_perm d c x a b).append_left (ctxNodes ctx)
  have hnodup := hperm.nodup_iff.mp hat.nodup
  rw [List.nodup_middle, List.nodup_cons, List.mem_append, List.mem_append, ← List.append_assoc,
    List.nodup_append, List.nodup_append] at hnodup
  simp only [List.mem_append] at hnodup
  obtain ⟨hx, ⟨hctx, ha, hca⟩, hb, hcab⟩ := hnodup
  refine ⟨by tauto, hctx, ha, hb, ?_, ?_, ?_⟩
  · exact fun y h1 h2 => hca y h1 y h2 rfl
  · exact fun y h1 h2 => hcab y (Or.inl h1) y h2 rfl
  · exact fun y h1 h2 => hcab y (Or.inr h1) y h2 rfl

/-- What the node in focus holds. -/
theorem At.read (hat : At h ctx (build d c x a b)) :
    h.mem x = .ofSides d (up ctx) c a.root b.root := (rep_build.mp hat.below).1

/-- What the parent of the subtree in focus holds. -/
theorem At.readUp {s : Shape α} {z : α} (hat : At h (⟨d, c, z, s⟩ :: ctx) t) :
    h.mem z = .ofSides d (up ctx) c t.root s.root := (at_near.mpr hat).read

theorem At.parent (hat : At h ctx t) (hx : t.root = some x) : (h.mem x).parent = up ctx := by
  obtain ⟨c, a, b, rfl⟩ := Shape.exists_build .left hx
  rw [hat.read, RbNode.parent_ofSides]

/-- The colour of a node in memory is that of a balanced tree with it as its root. -/
theorem At.color {n : Nat} (hat : At h ctx t) (hx : t.root = some x) (ht : t.Balanced c n) :
    (h.mem x).color = c := by
  obtain ⟨k, a, b, rfl⟩ := Shape.exists_build .left hx
  rw [hat.read, RbNode.color_ofSides]
  cases k with
  | red => exact (Shape.balanced_red_iff.mp ht).1.symm
  | black => exact (Shape.balanced_black_iff.mp ht).1.symm

/-- The two children of a node are different. -/
theorem At.sibling_ne {s : Shape α} {z : α} (hat : At h (⟨d, c, z, s⟩ :: ctx) t)
    (hx : t.root = some x) : s.root ≠ some x := by
  obtain ⟨_, _, _, _, _, _, hts⟩ := (at_near.mpr hat).parts
  exact root_ne_some fun hs => hts (Shape.mem_of_root hx) hs

end

section

variable [DecidableEq α] {h : RbHeap α} {ctx : List (Frame α)} {a b s t : Shape α} {d : Dir}
  {c k : Color} {x y : α} {p q hole : Option α} {v : RbNode α}

theorem set_mem_self : (h.set x v).mem x = v := Function.update_self _ _ _

theorem set_mem_of_ne (hne : y ≠ x) : (h.set x v).mem y = h.mem y := Function.update_of_ne hne _ _

@[simp]
theorem setParentOf_root : (h.setParentOf p q).root = h.root := by
  cases p <;> rfl

theorem setParentOf_mem_of_ne (hne : p ≠ some y) : (h.setParentOf p q).mem y = h.mem y := by
  cases p with
  | none => rfl
  | some z => exact set_mem_of_ne fun heq => hne (heq ▸ rfl)

/-- The root of a subtree gets another parent. -/
theorem Rep.reparent (hrep : Rep h.mem t p) (hnodup : t.toList.Nodup) :
    Rep (h.setParentOf t.root q).mem t q := by
  cases t with
  | leaf => trivial
  | node c l x r =>
    obtain ⟨hx, hl, hr⟩ := hrep
    rw [Shape.toList, List.nodup_middle, List.nodup_cons, List.mem_append, not_or] at hnodup
    have hother : ∀ y, y ≠ x → (h.setParent x q).mem y = h.mem y := fun y hne => set_mem_of_ne hne
    refine ⟨?_, ?_, ?_⟩
    · apply set_mem_self.trans
      rw [hx]
    · exact hl.frame fun y hy => hother y fun heq => hnodup.1.1 (heq ▸ hy)
    · exact hr.frame fun y hy => hother y fun heq => hnodup.1.2 (heq ▸ hy)

theorem At.setColor (hat : At h ctx (build d c x a b)) :
    At (h.setColor x k) ctx (build d k x a b) := by
  obtain ⟨⟨hxc, hxa, hxb⟩, _⟩ := hat.parts
  obtain ⟨hup, hbelow, hnodup⟩ := hat
  obtain ⟨hx, ha, hb⟩ := rep_build.mp hbelow
  have hother : ∀ y, y ≠ x → (h.setColor x k).mem y = h.mem y := fun y hne => set_mem_of_ne hne
  refine ⟨?_, rep_build.mpr ⟨?_, ?_, ?_⟩, ?_⟩
  · rw [Shape.root_build] at hup ⊢
    exact hup.frame fun y hy => hother y fun heq => hxc (heq ▸ hy)
  · apply set_mem_self.trans
    rw [hx, RbNode.setColor_ofSides]
  · exact ha.frame fun y hy => hother y fun heq => hxa (heq ▸ hy)
  · exact hb.frame fun y hy => hother y fun heq => hxb (heq ▸ hy)
  · have hsame := (Shape.toList_build_perm d c x a b).trans (Shape.toList_build_perm d k x a b).symm
    exact (hsame.append_left _).nodup_iff.mp hnodup

theorem At.paint (hat : At h ctx t) (hx : t.root = some x) :
    At (h.setColor x k) ctx (t.paint k) := by
  obtain ⟨c, a, b, rfl⟩ := Shape.exists_build .left hx
  rw [Shape.paint_build]
  exact hat.setColor

theorem At.sideOf_of_ne {z : α} (hat : At h (⟨d, c, z, s⟩ :: ctx) t) (hne : s.root ≠ t.root) :
    h.sideOf z t.root = d := by
  have hz := hat.readUp
  unfold RbHeap.sideOf
  rw [hz]
  cases d with
  | left => exact if_pos rfl
  | right => exact if_neg hne

theorem At.sideOf {z : α} (hat : At h (⟨d, c, z, s⟩ :: ctx) t) (hx : t.root = some x) :
    h.sideOf z (some x) = d :=
  hx ▸ hat.sideOf_of_ne (hx ▸ hat.sibling_ne hx)

/-- The link to the subtree in a context is replaced, and nothing outside the context changes. -/
theorem RepUp.relink (hup : RepUp h.mem h.root ctx (some x)) (hnodup : (ctxNodes ctx).Nodup)
    (hx : x ∉ ctxNodes ctx) :
    RepUp (h.relink d (up ctx) x q).mem (h.relink d (up ctx) x q).root ctx q ∧
      ∀ y ∉ ctxNodes ctx, (h.relink d (up ctx) x q).mem y = h.mem y := by
  cases ctx with
  | nil => exact ⟨rfl, fun _ _ => rfl⟩
  | cons f ctx =>
    obtain ⟨d', c, z, s⟩ := f
    obtain ⟨hz, hs, hctx⟩ := hup
    simp only at hz hs hctx
    rw [ctxNodes, List.nodup_cons, List.mem_append, not_or] at hnodup
    rw [ctxNodes, List.mem_cons, List.mem_append, not_or, not_or] at hx
    have hset : h.relink d (some z) x q = h.setChild z d' q := by
      have hfar : s.root ≠ some x := root_ne_some hx.2.1
      unfold RbHeap.relink
      simp only [hz]
      cases d <;> cases d'
      · exact if_pos rfl
      · exact if_neg hfar
      · exact if_neg hfar
      · exact if_pos rfl
    have hother : ∀ y, y ≠ z → (h.setChild z d' q).mem y = h.mem y := fun y hne =>
      set_mem_of_ne hne
    change RepUp (h.relink d (some z) x q).mem (h.relink d (some z) x q).root _ q ∧
      ∀ y ∉ _, (h.relink d (some z) x q).mem y = h.mem y
    rw [hset]
    refine ⟨⟨?_, ?_, ?_⟩, ?_⟩
    · apply set_mem_self.trans
      rw [hz, RbNode.setChild_ofSides]
    · exact hs.frame fun y hy => hother y fun heq => hnodup.1.1 (heq ▸ hy)
    · exact hctx.frame fun y hy => hother y fun heq => hnodup.1.2 (heq ▸ hy)
    · intro y hy
      exact hother y fun heq => hy (heq ▸ List.mem_cons_self)

/-- The links that `__rb_rotate_left` and `__rb_rotate_right` set before that of the parent. -/
def rotated (h : RbHeap α) (d : Dir) (x y : α) (b p : Option α) : RbHeap α :=
  (((h.setChild x d.flip b).setParentOf b (some x)).setChild y d (some x)).setParent y p

theorem rotated_other (hx : y ≠ x) {z : α} (hy : y ≠ z) (hb : p ≠ some y) :
    (h.rotated d x z p q).mem y = h.mem y := by
  unfold rotated
  apply (set_mem_of_ne hy).trans
  apply (set_mem_of_ne hy).trans
  apply (setParentOf_mem_of_ne hb).trans
  exact set_mem_of_ne hx

/-- A rotation in memory is the rotation of the tree. -/
theorem At.rotate (hat : At h ctx (build d c x a (build d k y b s))) :
    ∃ h', h.rbRotate d x = some h' ∧ At h' ctx (build d k y (build d c x a b) s) := by
  obtain ⟨⟨hxc, hxa, hxr⟩, hctx, hna, hnr, hca, hcr, har⟩ := hat.parts
  have hx := hat.read
  obtain ⟨hyc, hyb, hys⟩ : (y ∉ ctxNodes ctx ∧ y ∉ a.toList ∧ y ≠ x) ∧ y ∉ b.toList ∧
      y ∉ s.toList ∧ b.toList.Nodup ∧ s.toList.Nodup ∧ b.toList.Disjoint s.toList := by
    have hperm := Shape.toList_build_perm d k y b s
    have hn := hperm.nodup_iff.mp hnr
    rw [List.nodup_cons, List.mem_append, not_or, List.nodup_append] at hn
    have hmem : y ∈ (build d k y b s).toList := Shape.mem_toList_build.mpr (Or.inl rfl)
    refine ⟨⟨fun h' => hcr h' hmem, fun h' => har h' hmem, fun heq => hxr (heq ▸ hmem)⟩, hn.1.1,
      hn.1.2, hn.2.1, hn.2.2.1, fun z h1 h2 => hn.2.2.2 z h1 z h2 rfl⟩
  obtain ⟨hyc, hya, hyx⟩ := hyc
  obtain ⟨hys, hnb, hns, hbs⟩ := hys
  simp only [Shape.mem_toList_build, not_or] at hxr
  obtain ⟨hxy, hxb, hxs⟩ := hxr
  have hbc : ∀ z ∈ b.toList, z ∉ ctxNodes ctx := fun z hz hc =>
    hcr hc (Shape.mem_toList_build.mpr (Or.inr (Or.inl hz)))
  have hsc : ∀ z ∈ s.toList, z ∉ ctxNodes ctx := fun z hz hc =>
    hcr hc (Shape.mem_toList_build.mpr (Or.inr (Or.inr hz)))
  have hab : ∀ z ∈ a.toList, z ∉ b.toList := fun z hz hb =>
    har hz (Shape.mem_toList_build.mpr (Or.inr (Or.inl hb)))
  obtain ⟨hup, hbelow, hnodup⟩ := hat
  obtain ⟨_, ha, hr⟩ := rep_build.mp hbelow
  obtain ⟨hy, hb, hs⟩ := rep_build.mp hr
  rw [Shape.root_build] at hup hx
  -- the heap before the link of the parent is set
  obtain ⟨h4, hh4⟩ : ∃ h4, h4 = h.rotated d x y b.root (up ctx) := ⟨_, rfl⟩
  have hother : ∀ z, z ≠ x → z ≠ y → b.root ≠ some z → h4.mem z = h.mem z := fun z h1 h2 h3 =>
    hh4 ▸ rotated_other h1 h2 h3
  have h4x : h4.mem x = .ofSides d (up ctx) c a.root b.root := by
    rw [hh4]
    unfold rotated
    apply (set_mem_of_ne hxy).trans
    apply (set_mem_of_ne hxy).trans
    apply (setParentOf_mem_of_ne (root_ne_some hxb)).trans
    apply set_mem_self.trans
    rw [hx, RbNode.setChild_flip_ofSides]
  have h4y : h4.mem y = .ofSides d (up ctx) k (some x) s.root := by
    rw [hh4]
    unfold rotated
    apply set_mem_self.trans
    have hold : ((h.setChild x d.flip b.root).setParentOf b.root (some x)).mem y = h.mem y :=
      (setParentOf_mem_of_ne (root_ne_some hyb)).trans (set_mem_of_ne hyx)
    have hchild : (((h.setChild x d.flip b.root).setParentOf b.root (some x)).setChild y d
        (some x)).mem y = .ofSides d (some x) k (some x) s.root := by
      apply set_mem_self.trans
      rw [hold, hy, RbNode.setChild_ofSides]
    rw [hchild, RbNode.setParent_ofSides]
  have h4b : Rep h4.mem b (some x) := by
    have h1 : Rep (h.setChild x d.flip b.root).mem b (some y) :=
      hb.frame fun z hz => set_mem_of_ne fun heq => hxb (heq ▸ hz)
    have h2 := h1.reparent (q := some x) hnb
    have hne : ∀ z ∈ b.toList, z ≠ y := fun z hz heq => hyb (heq ▸ hz)
    rw [hh4]
    exact h2.frame fun z hz => (set_mem_of_ne (hne z hz)).trans (set_mem_of_ne (hne z hz))
  have h4up : RepUp h4.mem h4.root ctx (some x) := by
    have hroot : h4.root = h.root := by
      rw [hh4]
      exact setParentOf_root
    rw [hroot]
    refine hup.frame fun z hz => hother z ?_ ?_ (root_ne_some fun hzb => hbc z hzb hz)
    · exact fun heq => hxc (heq ▸ hz)
    · exact fun heq => hyc (heq ▸ hz)
  obtain ⟨h5up, h5⟩ := h4up.relink (d := d) (q := some y) hctx hxc
  obtain ⟨h5', hh5⟩ : ∃ h5', h5' = h4.relink d (up ctx) x (some y) := ⟨_, rfl⟩
  rw [← hh5] at h5up h5
  have hlast : ∀ z, z ≠ x → z ∉ ctxNodes ctx → (h5'.setParent x (some y)).mem z = h4.mem z :=
    fun z h1 h2 => (set_mem_of_ne h1).trans (h5 z h2)
  refine ⟨h5'.setParent x (some y), ?_, ?_, ?_, ?_⟩
  · have hchild : (h.mem x).child d.flip = some y := by rw [hx, RbNode.child_flip_ofSides]
    have hparent : (h.mem x).parent = up ctx := by rw [hx, RbNode.parent_ofSides]
    have hbroot : (h.mem y).child d = b.root := by rw [hy, RbNode.child_ofSides]
    unfold rbRotate
    simp only [hchild, hparent, hbroot]
    rw [hh5, hh4]
    rfl
  · rw [Shape.root_build]
    exact h5up.frame fun z hz => set_mem_of_ne fun heq => hxc (heq ▸ hz)
  · rw [rep_build, rep_build, Shape.root_build]
    refine ⟨?_, ⟨?_, ?_, ?_⟩, ?_⟩
    · rw [hlast y hyx hyc, h4y]
    · apply set_mem_self.trans
      rw [h5 x hxc, h4x, RbNode.setParent_ofSides]
    · refine ha.frame fun z hz => ?_
      have hzx : z ≠ x := fun heq => hxa (heq ▸ hz)
      rw [hlast z hzx fun hc => hca hc hz]
      exact hother z hzx (fun heq => hya (heq ▸ hz)) (root_ne_some (hab z hz))
    · exact h4b.frame fun z hz => hlast z (fun heq => hxb (heq ▸ hz)) (hbc z hz)
    · refine hs.frame fun z hz => ?_
      have hzx : z ≠ x := fun heq => hxs (heq ▸ hz)
      rw [hlast z hzx (hsc z hz)]
      exact hother z hzx (fun heq => hys (heq ▸ hz)) (root_ne_some fun hzb => hbs hzb hz)
  · have horder : (build d c x a (build d k y b s)).toList.Perm
        (build d k y (build d c x a b) s).toList := by
      cases d <;> simp [build, Shape.toList]
    exact (horder.append_left _).nodup_iff.mp hnodup

end

end RbHeap

end Hammer2
