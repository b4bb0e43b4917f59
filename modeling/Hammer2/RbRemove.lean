import Hammer2.RbErase

namespace Hammer2

open Rb (Dir Color Shape Frame Hole)
open Rb.Shape (build)

namespace RbHeap

variable {α : Type*} {h : RbHeap α} {mem mem' : α → RbNode α} {ctx seg : List (Frame α)}
  {l r s t : Shape α} {d e : Dir} {c k : Color} {x n : α} {p hole : Option α}

/-- The parent of a subtree in a part of a tree whose root has the parent `p`. -/
def upOr (p : Option α) : List (Frame α) → Option α
  | [] => p
  | f :: _ => some f.node

/-- A part of a tree around a subtree with the root `hole` is linked in memory below `p`. -/
def RepSeg (mem : α → RbNode α) (p : Option α) : List (Frame α) → Option α → Prop
  | [], _ => True
  | f :: seg, hole => mem f.node = .ofSides f.dir (upOr p seg) f.color hole f.sibling.root ∧
      Rep mem f.sibling (some f.node) ∧ RepSeg mem p seg (some f.node)

theorem RepSeg.frame (hrep : RepSeg mem p seg hole) (hsame : ∀ y ∈ ctxNodes seg, mem' y = mem y) :
    RepSeg mem' p seg hole := by
  induction seg generalizing hole with
  | nil => trivial
  | cons f seg ih =>
    obtain ⟨hx, hs, hseg⟩ := hrep
    simp only [ctxNodes, List.mem_append, List.mem_cons] at hsame
    refine ⟨?_, hs.frame fun y hy => hsame y (by tauto), ih hseg fun y hy => hsame y (by tauto)⟩
    rw [hsame f.node (by tauto)]
    exact hx

theorem rep_fill_iff : Rep mem (Rb.fill seg t) p ↔
    RepSeg mem p seg t.root ∧ Rep mem t (upOr p seg) := by
  induction seg generalizing t with
  | nil => exact ⟨fun ht => ⟨trivial, ht⟩, fun ht => ht.2⟩
  | cons f seg ih =>
    rw [Rb.fill, ih]
    unfold Rb.Frame.attach
    rw [rep_build, Shape.root_build]
    constructor
    · rintro ⟨hseg, hx, ht, hs⟩
      exact ⟨⟨hx, hs, hseg⟩, ht⟩
    · rintro ⟨⟨hx, hs, hseg⟩, ht⟩
      exact ⟨hseg, hx, ht, hs⟩

/-- The leftmost node of a tree and the way to it. -/
theorem leftmost_spec {fuel : Nat} (hrep : Rep h.mem t p) (hx : t.root = some x)
    (hfuel : t.toList.length < fuel + 1) :
    ∃ seg k n r, t = Rb.fill seg (.node k .leaf n r) ∧ (∀ f ∈ seg, f.dir = .left) ∧
      leftmost fuel h x = some n := by
  induction t generalizing p x fuel with
  | leaf => cases hx
  | node c l y r ihl =>
    cases Option.some.inj hx
    obtain ⟨hy, hl, -⟩ := hrep
    simp only [Shape.toList, List.length_append, List.length_cons] at hfuel
    obtain ⟨fuel, rfl⟩ : ∃ f, fuel = f + 1 := ⟨fuel - 1, by omega⟩
    unfold leftmost
    rw [hy]
    cases hroot : l.root with
    | none => exact ⟨[], c, y, r, by rw [Shape.eq_of_root_none hroot]; rfl, by simp, rfl⟩
    | some z =>
      obtain ⟨seg, k, n, r', rfl, hleft, hrun⟩ :=
        ihl hl hroot (show l.toList.length < fuel + 1 by omega)
      refine ⟨seg ++ [⟨.left, c, y, r⟩], k, n, r', by rw [Rb.fill_append]; rfl, ?_, hrun⟩
      intro f hf
      rcases List.mem_append.mp hf with hf | hf
      · exact hleft f hf
      · rw [List.mem_singleton.mp hf]

theorem before_of_left (hleft : ∀ f ∈ seg, f.dir = .left) : Rb.before seg = [] := by
  induction seg with
  | nil => rfl
  | cons f seg ih =>
    rw [Rb.before, ih fun g hg => hleft g (List.mem_cons_of_mem _ hg),
      hleft f List.mem_cons_self]
    rfl

/-- The root of a tree does not depend on what is filled in below it. -/
theorem root_fill_cons (f : Frame α) (seg : List (Frame α)) (t t' : Shape α) :
    (Rb.fill (f :: seg) t).root = (Rb.fill (f :: seg) t').root := by
  induction seg generalizing f t t' with
  | nil =>
    rw [Rb.fill, Rb.fill, Rb.fill, Rb.fill, Rb.Frame.attach, Rb.Frame.attach, Shape.root_build,
      Shape.root_build]
  | cons g seg ih => exact ih g (f.attach t) (f.attach t')

/-- The leftmost node comes first. -/
theorem toList_fill_left (hleft : ∀ f ∈ seg, f.dir = .left) :
    (Rb.fill seg (.node k .leaf n s)).toList = n :: (Rb.fill seg s).toList := by
  rw [Rb.toList_fill, Rb.toList_fill, before_of_left hleft]
  rfl

theorem erase_middle [DecidableEq α] {l₁ l₂ : List α} (h : (l₁ ++ x :: l₂).Nodup) :
    (l₁ ++ x :: l₂).erase x = l₁ ++ l₂ := by
  have hx : x ∉ l₁ := fun hmem =>
    (List.nodup_cons.mp (List.nodup_middle.mp h)).1 (List.mem_append_left _ hmem)
  rw [List.erase_append_right _ hx, List.erase_cons_head]

/-- The way to a node is shorter than the number of nodes. -/
theorem length_lt_fill (ctx : List (Frame α)) (hx : t.root = some x) :
    ctx.length < (Rb.fill ctx t).toList.length := by
  have hlen := (toList_fill_perm ctx t).length_eq
  have hpos := List.length_pos_of_mem (Shape.mem_of_root hx)
  have hctx := length_le_ctxNodes ctx
  rw [List.length_append] at hlen
  omega

section

variable [DecidableEq α]

/-- The only child of the node in focus takes its place. -/
theorem At.splice (hat : At h ctx (build d c x s .leaf)) :
    At ((h.setParentOf s.root (up ctx)).relink e (up ctx) x s.root) ctx s := by
  obtain ⟨⟨hxc, hxs, -⟩, hctx, hs, -, hcs, -, -⟩ := hat.parts
  obtain ⟨hup, hbelow, -⟩ := hat
  rw [Shape.root_build] at hup
  obtain ⟨-, hsub, -⟩ := rep_build.mp hbelow
  obtain ⟨h1, hh1⟩ : ∃ h1, h1 = h.setParentOf s.root (up ctx) := ⟨_, rfl⟩
  have h1up : RepUp h1.mem h1.root ctx (some x) := by
    rw [hh1, setParentOf_root]
    exact hup.frame fun y hy => setParentOf_mem_of_ne (root_ne_some fun hys => hcs hy hys)
  have h1s : Rep h1.mem s (up ctx) := hh1 ▸ hsub.reparent hs
  obtain ⟨h2up, h2⟩ := h1up.relink (d := e) (q := s.root) hctx hxc
  rw [← hh1]
  exact ⟨h2up, h1s.frame fun y hy => h2 y fun hyc => hcs hyc hy, hctx.append hs hcs⟩

/-- The end of `rb_erase`, after a node of the colour `c` was taken out above `s`. -/
theorem rbErase_finish {fuel m : Nat} {k' : Color} (hfuel : ctx.length < fuel) (hat : At h ctx s)
    (hbal : (build d c x s .leaf).Balanced k' m) (hhole : Hole ctx k m) :
    ∃ h', (if c = .black then rbEraseColor fuel h s.root (up ctx) else some h) = some h' ∧
      Holds h' (Rb.fill ctx s).toList := by
  cases c with
  | red =>
    obtain ⟨-, hs, -⟩ := Shape.balanced_red_iff.mp hbal
    exact ⟨h, rfl, _, represents_fill.mpr hat, hhole.fill hs fun _ => rfl, rfl⟩
  | black =>
    obtain ⟨-, m, _, _, rfl, hs, -⟩ := Shape.balanced_black_iff.mp hbal
    exact rbEraseColor_spec hfuel hat hs hhole

/-- `rb_erase` of a node with at most one child. -/
theorem rbEraseOne_spec {fuel : Nat} (hfuel : ctx.length < fuel)
    (hat : At h ctx (build d c x s .leaf))
    (hrb : (Rb.fill ctx (build d c x s .leaf)).RedBlack) :
    ∃ h', h.rbEraseOne fuel x s.root = some h' ∧ Holds h' (Rb.fill ctx s).toList := by
  obtain ⟨k, k', m, hhole, hbal, -⟩ := hrb.hole
  have hlast := rbErase_finish hfuel (hat.splice (e := .left)) hbal hhole
  unfold rbEraseOne
  rw [hat.read, RbNode.parent_ofSides, RbNode.color_ofSides]
  exact hlast

/-- The leftmost node of a subtree is taken out: its parent gets its right child. -/
theorem splice_leftmost {f : Frame α} (hleft : f.dir = .left)
    (hrep : Rep h.mem (Rb.fill (f :: seg) (.node k .leaf n s)) p)
    (hnodup : (ctxNodes (f :: seg) ++ (Shape.node k .leaf n s).toList).Nodup) :
    Rep ((h.setParentOf s.root (some f.node)).setChild f.node .left s.root).mem
      (Rb.fill (f :: seg) s) p := by
  obtain ⟨⟨hf, hsib, hseg⟩, -, -, hs⟩ := rep_fill_iff.mp hrep
  rw [ctxNodes, List.cons_append, List.nodup_cons, List.mem_append, List.mem_append, not_or,
    not_or, List.append_assoc, List.nodup_append, List.nodup_append] at hnodup
  obtain ⟨⟨⟨hfsib, hfseg⟩, hfn⟩, -, ⟨-, hn, hsegn⟩, hsibn⟩ := hnodup
  simp only [Shape.toList, List.nil_append, List.mem_cons, not_or, List.mem_append,
    List.nodup_cons] at hfn hn hsegn hsibn
  obtain ⟨h1, hh1⟩ : ∃ h1, h1 = h.setParentOf s.root (some f.node) := ⟨_, rfl⟩
  have hsame : ∀ y ∉ s.toList, h1.mem y = h.mem y := fun y hy =>
    hh1 ▸ setParentOf_mem_of_ne (root_ne_some hy)
  have h1s : Rep h1.mem s (some f.node) := hh1 ▸ hs.reparent hn.2
  have hother : ∀ y, y ≠ f.node → (h1.setChild f.node .left s.root).mem y = h1.mem y :=
    fun y hne => set_mem_of_ne hne
  rw [← hh1]
  refine rep_fill_iff.mpr ⟨⟨?_, ?_, ?_⟩, ?_⟩
  · apply set_mem_self.trans
    rw [hsame f.node hfn.2, hf, hleft, RbNode.setChild_ofSides]
  · refine hsib.frame fun y hy => ?_
    rw [hother y fun heq => hfsib (heq ▸ hy)]
    exact hsame y fun hys => hsibn y hy y (Or.inr (Or.inr hys)) rfl
  · refine hseg.frame fun y hy => ?_
    rw [hother y fun heq => hfseg (heq ▸ hy)]
    exact hsame y fun hys => hsegn y hy y (Or.inr hys) rfl
  · exact h1s.frame fun y hy => hother y fun heq => hfn.2 (heq ▸ hy)

/-- The right subtree without the successor, below the successor. -/
theorem rbSpliceNext_spec {old : α} (hleft : ∀ f ∈ seg, f.dir = .left)
    (hrep : Rep h.mem (Rb.fill seg (.node k .leaf n s)) (some old))
    (hnodup : (ctxNodes seg ++ (Shape.node k .leaf n s).toList).Nodup)
    (hold : old ∉ (Rb.fill seg (.node k .leaf n s)).toList)
    (hright : (h.mem old).right = (Rb.fill seg (.node k .leaf n s)).root) :
    ∃ h' q, h.rbSpliceNext old n s.root = some (h', q) ∧ upOr (some n) seg = some q ∧
      Rep h'.mem (Rb.fill seg s) (some n) ∧ (h'.mem n).right = (Rb.fill seg s).root ∧
      h'.root = h.root ∧
      ∀ y ∉ (Rb.fill seg (.node k .leaf n s)).toList, h'.mem y = h.mem y := by
  obtain ⟨-, hn, -, hs⟩ := rep_fill_iff.mp hrep
  unfold rbSpliceNext
  cases seg with
  | nil =>
    have hparent : (h.mem n).parent = some old := by rw [hn]; rfl
    rw [hparent, Option.map_some, if_pos rfl]
    exact ⟨h, n, rfl, rfl, hs, by rw [hn]; rfl, rfl, fun _ _ => rfl⟩
  | cons f seg =>
    have hparent : (h.mem n).parent = some f.node := by rw [hn]; rfl
    have hperm := toList_fill_perm (f :: seg) (Shape.node k .leaf n s)
    have hperm' := toList_fill_perm (f :: seg) s
    obtain ⟨hn', hnodup'⟩ := List.nodup_cons.mp (List.nodup_middle.mp hnodup)
    rw [← hperm'.mem_iff] at hn'
    rw [← hperm'.nodup_iff] at hnodup'
    have hout : ∀ y ∉ (Rb.fill (f :: seg) (Shape.node k .leaf n s)).toList,
        y ≠ n ∧ y ≠ f.node ∧ y ∉ s.toList ∧ y ∉ (Rb.fill (f :: seg) s).toList := by
      intro y hy
      rw [hperm.mem_iff, List.mem_append, not_or] at hy
      have hys : y ∉ s.toList := fun hys => hy.2 (List.mem_cons_of_mem _ hys)
      refine ⟨fun heq => hy.2 (heq ▸ List.mem_cons_self),
        fun heq => hy.1 (heq ▸ List.mem_cons_self), hys, fun h' => ?_⟩
      exact (List.mem_append.mp (hperm'.mem_iff.mp h')).elim hy.1 hys
    have hrep2 := splice_leftmost (hleft f List.mem_cons_self) hrep hnodup
    obtain ⟨h2, hh2⟩ : ∃ h2, h2 = (h.setParentOf s.root (some f.node)).setChild f.node .left
        s.root := ⟨_, rfl⟩
    have h2s : ∀ y ∉ (Rb.fill (f :: seg) (Shape.node k .leaf n s)).toList, h2.mem y = h.mem y := by
      intro y hy
      obtain ⟨-, hyf, hys, -⟩ := hout y hy
      rw [hh2]
      exact (set_mem_of_ne hyf).trans (setParentOf_mem_of_ne (root_ne_some hys))
    rw [root_fill_cons f seg (.node k .leaf n s) s] at hright
    have h2old : (h2.mem old).right = (Rb.fill (f :: seg) s).root := by
      rw [h2s old hold, hright]
    have h3old : ((h2.setChild n .right (Rb.fill (f :: seg) s).root).mem old).right =
        (Rb.fill (f :: seg) s).root := by
      rw [← h2old]
      exact congrArg RbNode.right (set_mem_of_ne (hout old hold).1)
    rw [hparent, Option.map_some, if_neg (hout old hold).2.1.symm]
    dsimp only
    rw [← hh2, h2old, h3old]
    rw [← hh2] at hrep2
    refine ⟨_, f.node, rfl, rfl, ?_, ?_, ?_, ?_⟩
    · have hchild : Rep (h2.setChild n .right (Rb.fill (f :: seg) s).root).mem
          (Rb.fill (f :: seg) s) (some old) :=
        hrep2.frame fun y hy => set_mem_of_ne fun heq => hn' (heq ▸ hy)
      exact hchild.reparent hnodup'
    · rw [setParentOf_mem_of_ne (root_ne_some hn')]
      exact congrArg RbNode.right set_mem_self
    · rw [setParentOf_root, hh2]
      exact setParentOf_root
    · intro y hy
      obtain ⟨hyn, -, -, hyr⟩ := hout y hy
      rw [setParentOf_mem_of_ne (root_ne_some hyr)]
      exact (set_mem_of_ne hyn).trans (h2s y hy)

/-- The successor `n` takes the place of `old`, above what is left of the right subtree. -/
theorem At.substitute {h1 h2 : RbHeap α} {old : α} {r' : Shape α}
    (hat : At h ctx (build .left c old l r)) (hsub : r.toList = n :: r'.toList)
    (hup : RepUp h1.mem h1.root ctx (some n)) (h1s : ∀ y ∉ ctxNodes ctx, h1.mem y = h.mem y)
    (hrep : Rep h2.mem r' (some n)) (hright : (h2.mem n).right = r'.root)
    (hroot : h2.root = h1.root) (h2s : ∀ y ∉ r.toList, h2.mem y = h1.mem y) :
    At (((h2.set n { h2.mem n with parent := up ctx, color := c }).setChild n .left
      l.root).setParentOf l.root (some n)) ctx (build .left c n l r') := by
  obtain ⟨-, hctx, hl, hr, hcl, hcr, hlr⟩ := hat.parts
  obtain ⟨-, hbelow, -⟩ := hat
  obtain ⟨-, hlrep, -⟩ := rep_build.mp hbelow
  have hnr : n ∈ r.toList := hsub ▸ List.mem_cons_self
  have hr' : ∀ y ∈ r'.toList, y ∈ r.toList := fun y hy => hsub ▸ List.mem_cons_of_mem n hy
  rw [hsub, List.nodup_cons] at hr
  have hnl : n ∉ l.toList := fun hy => hlr hy hnr
  obtain ⟨h4, hh4⟩ : ∃ h4, h4 = (h2.set n { h2.mem n with parent := up ctx, color := c }).setChild n
      .left l.root := ⟨_, rfl⟩
  have h4n : h4.mem n = ⟨up ctx, c, l.root, r'.root⟩ := by
    rw [hh4, ← hright]
    apply set_mem_self.trans
    rw [set_mem_self]
    rfl
  have h4s : ∀ y, y ≠ n → h4.mem y = h2.mem y := fun y hne =>
    hh4 ▸ (set_mem_of_ne hne).trans (set_mem_of_ne hne)
  have h4l : Rep h4.mem l (some old) := by
    refine hlrep.frame fun y hy => ?_
    rw [h4s y fun heq => hnl (heq ▸ hy), h2s y (hlr hy), h1s y fun hc => hcl hc hy]
  rw [← hh4]
  refine ⟨?_, rep_build.mpr ⟨?_, h4l.reparent hl, ?_⟩, ?_⟩
  · have h4root : h4.root = h1.root := by
      rw [hh4, ← hroot]
      rfl
    rw [setParentOf_root, h4root]
    refine hup.frame fun y hy => ?_
    rw [setParentOf_mem_of_ne (root_ne_some (hcl hy)), h4s y fun heq => hcr hy (heq ▸ hnr),
      h2s y (hcr hy)]
  · rw [setParentOf_mem_of_ne (root_ne_some hnl), h4n]
    rfl
  · refine hrep.frame fun y hy => ?_
    rw [setParentOf_mem_of_ne (root_ne_some fun hyl => hlr hyl (hr' y hy)),
      h4s y fun heq => hr.1 (heq ▸ hy)]
  · have hlist : (build .left c n l r').toList = l.toList ++ r.toList := by
      rw [hsub]
      rfl
    rw [hlist]
    refine hctx.append (hl.append (hsub ▸ List.nodup_cons.mpr hr) hlr) ?_
    intro y hy hy'
    rcases List.mem_append.mp hy' with hyl | hyr
    · exact hcl hy hyl
    · exact hcr hy hyr

/-- `rb_erase` of a node with two children: its successor takes its place. -/
theorem rbEraseTwo_spec {fuel : Nat} {old : α}
    (hfuel : (seg ++ ⟨.right, c, n, l⟩ :: ctx).length < fuel)
    (hleft : ∀ f ∈ seg, f.dir = .left)
    (hat : At h ctx (build .left c old l (Rb.fill seg (.node k .leaf n s))))
    (hrb : (Rb.fill ctx (build .left c old l (Rb.fill seg (.node k .leaf n s)))).RedBlack) :
    ∃ h', h.rbEraseTwo fuel old n = some h' ∧
      Holds h' (Rb.fill ctx (build .left c n l (Rb.fill seg s))).toList := by
  obtain ⟨⟨hoc, hol, hor⟩, hctx, hl, hr, hcl, hcr, hlr⟩ := hat.parts
  have hperm := toList_fill_perm seg (Shape.node k .leaf n s)
  have hsub : (Rb.fill seg (.node k .leaf n s)).toList = n :: (Rb.fill seg s).toList :=
    toList_fill_left hleft
  have hnr : n ∈ (Rb.fill seg (Shape.node k .leaf n s)).toList := hsub ▸ List.mem_cons_self
  obtain ⟨hup, hbelow, -⟩ := id hat
  obtain ⟨hold, -, hrrep⟩ := rep_build.mp hbelow
  obtain ⟨-, hn, -⟩ := rep_fill_iff.mp hrrep
  rw [Shape.root_build] at hup
  obtain ⟨h1up, h1s⟩ := hup.relink (d := .left) (q := some n) hctx hoc
  obtain ⟨h1, hh1⟩ : ∃ h1, h1 = h.relink .left (up ctx) old (some n) := ⟨_, rfl⟩
  rw [← hh1] at h1up h1s
  have h1r : Rep h1.mem (Rb.fill seg (.node k .leaf n s)) (some old) :=
    hrrep.frame fun y hy => h1s y fun hc => hcr hc hy
  have h1old : h1.mem old = h.mem old := h1s old hoc
  have h1n : h1.mem n = h.mem n := h1s n fun hc => hcr hc hnr
  have h1right : (h1.mem old).right = (Rb.fill seg (.node k .leaf n s)).root := by
    rw [h1old, hold]
    rfl
  obtain ⟨h2, q, hspl, hq, h2r, h2n, h2root, h2s⟩ :=
    rbSpliceNext_spec hleft h1r (hperm.nodup_iff.mp hr) hor h1right
  have hat' := hat.substitute hsub h1up h1s h2r h2n h2root h2s
  obtain ⟨h5, hh5⟩ : ∃ h5, h5 = ((h2.set n { h2.mem n with parent := up ctx, color := c }).setChild
      n .left l.root).setParentOf l.root (some n) := ⟨_, rfl⟩
  rw [← hh5] at hat'
  have hfill : ∀ (y : α) (t : Shape α), Rb.fill (seg ++ ⟨.right, c, y, l⟩ :: ctx) t =
      Rb.fill ctx (build .left c y l (Rb.fill seg t)) := fun y t => by
    rw [Rb.fill_append]
    rfl
  have hat5 : At h5 (seg ++ ⟨.right, c, n, l⟩ :: ctx) s := by
    rw [← represents_fill, hfill]
    exact represents_fill.mpr hat'
  rw [← hfill] at hrb ⊢
  obtain ⟨k', k'', m, hhole, hbal, -⟩ := hrb.hole
  have hbal' : (build .right k n s .leaf).Balanced k'' m := hbal
  obtain ⟨h', hlast, hholds⟩ := rbErase_finish hfuel hat5 hbal' hhole.rename
  refine ⟨h', ?_, hholds⟩
  have hno : old ≠ n := fun heq => hor (heq ▸ hnr)
  have h2old : h2.mem old = ⟨up ctx, c, l.root, (Rb.fill seg (.node k .leaf n s)).root⟩ := by
    rw [h2s old hor, h1old, hold]
    rfl
  have hq' : some q = up (seg ++ ⟨.right, c, n, l⟩ :: ctx) := by
    rw [← hq]
    cases seg <;> rfl
  have h3old : ∀ v, (h2.set n v).mem old = h2.mem old := fun v => set_mem_of_ne hno
  have h4old : ∀ v w, ((h2.set n v).setChild n .left w).mem old = h2.mem old := fun v w =>
    (set_mem_of_ne hno).trans (h3old v)
  unfold rbEraseTwo
  rw [hold, RbNode.parent_ofSides, ← hh1]
  dsimp only
  rw [h1n, hn]
  dsimp only
  rw [hspl, Option.bind_some]
  dsimp only
  rw [h4old, h3old, h2old, ← hh5, hq']
  exact hlast

/-- `rb_erase` of a node of the tree. -/
theorem rbErase_spec {fuel : Nat} (hrep : h.Represents t) (hrb : t.RedBlack) (hx : x ∈ t.toList)
    (hfuel : t.toList.length < fuel) :
    ∃ h', rbErase fuel h x = some h' ∧ Holds h' (t.toList.erase x) := by
  obtain ⟨ctx, c, l, r, rfl⟩ := Rb.exists_fill hx
  have hat : At h ctx (build .left c x l r) := represents_fill.mp hrep
  have hnodup := hrep.nodup
  have hlist : (Rb.fill ctx (.node c l x r)).toList =
      Rb.before ctx ++ l.toList ++ x :: (r.toList ++ Rb.after ctx) := by
    simp [Rb.toList_fill, Shape.toList]
  have herase : (Rb.fill ctx (.node c l x r)).toList.erase x =
      Rb.before ctx ++ l.toList ++ (r.toList ++ Rb.after ctx) := by
    rw [hlist] at hnodup ⊢
    exact erase_middle hnodup
  have hread : h.mem x = ⟨up ctx, c, l.root, r.root⟩ := hat.read
  rw [herase]
  unfold rbErase
  rw [hread]
  cases hl : l.root with
  | none =>
    obtain rfl := Shape.eq_of_root_none hl
    have hfuel' := Nat.lt_trans (length_lt_fill ctx (t := .node c .leaf x r) rfl) hfuel
    obtain ⟨h', hrun, hholds⟩ := rbEraseOne_spec (d := .right) hfuel' hat hrb
    refine ⟨h', hrun, ?_⟩
    rw [Rb.toList_fill] at hholds
    simpa [Shape.toList] using hholds
  | some y =>
    cases hr : r.root with
    | none =>
      obtain rfl := Shape.eq_of_root_none hr
      have hfuel' := Nat.lt_trans (length_lt_fill ctx (t := .node c l x .leaf) rfl) hfuel
      obtain ⟨h', hrun, hholds⟩ := rbEraseOne_spec (d := .left) hfuel' hat hrb
      rw [hl] at hrun
      refine ⟨h', hrun, ?_⟩
      rw [Rb.toList_fill] at hholds
      simpa [Shape.toList] using hholds
    | some z =>
      obtain ⟨-, -, hrrep⟩ := rep_build.mp hat.below
      have hrlen : r.toList.length < fuel + 1 := by
        rw [hlist] at hfuel
        simp only [List.length_append, List.length_cons] at hfuel
        omega
      obtain ⟨seg, k, n, s, rfl, hleft, hnext⟩ := leftmost_spec hrrep hr hrlen
      have hfill : Rb.fill (seg ++ ⟨.right, c, x, l⟩ :: ctx) (.node k .leaf n s) =
          Rb.fill ctx (.node c l x (Rb.fill seg (.node k .leaf n s))) := by
        rw [Rb.fill_append]
        rfl
      have hlen := length_lt_fill (seg ++ ⟨.right, c, x, l⟩ :: ctx) (t := .node k .leaf n s) rfl
      rw [hfill, List.length_append, List.length_cons] at hlen
      have hfuel' : (seg ++ ⟨.right, c, n, l⟩ :: ctx).length < fuel := by
        rw [List.length_append, List.length_cons]
        exact Nat.lt_trans hlen hfuel
      obtain ⟨h', hrun, hholds⟩ := rbEraseTwo_spec hfuel' hleft hat hrb
      refine ⟨h', ?_, ?_⟩
      · dsimp only
        rw [hnext]
        exact hrun
      · rw [toList_fill_left hleft]
        simpa [Rb.toList_fill ctx, build, Shape.toList] using hholds

end

end RbHeap

end Hammer2
