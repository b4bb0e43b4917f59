import Hammer2.RbRep

namespace Hammer2

open Rb (Dir Color Shape Frame Hole)
open Rb.Shape (build)

namespace RbHeap

variable {α : Type*} [DecidableEq α] {h : RbHeap α} {ctx : List (Frame α)} {a b s t u : Shape α}
  {d e : Dir} {c k : Color} {x y p g : α} {n : Nat}

/-- The end of the loop of `rb_insert_color`. -/
theorem blackenRoot_spec (hrep : h.Represents t) (ht : t.Balanced c n) (hx : t.root = some x) :
    ∃ h', h.blackenRoot = some h' ∧ Holds h' t.toList := by
  have hroot : h.root = some x := hrep.root.trans hx
  have hat : At h [] t := represents_fill.mp hrep
  refine ⟨h.setColor x .black, ?_, t.paint .black, ?_, ht.redBlack, Shape.toList_paint _ t⟩
  · unfold blackenRoot
    rw [hroot]
    rfl
  · exact represents_fill.mpr (hat.paint hx)

/-- Below a black parent nothing is to be done but to paint the root. -/
theorem rbInsertColor_black {fuel : Nat} (hat : At h (⟨d, .black, p, s⟩ :: ctx) t)
    (hx : t.root = some x) (hrb : (Rb.fill ctx (build d .black p t s)).RedBlack) :
    ∃ h', rbInsertColor (fuel + 1) h x = some h' ∧
      Holds h' (Rb.fill ctx (build d .black p t s)).toList := by
  have hrep : h.Represents (Rb.fill ctx (build d .black p t s)) :=
    represents_fill.mpr (at_near.mpr hat)
  obtain ⟨m, hm⟩ := hrb
  obtain ⟨z, hz⟩ := Rb.exists_root_fill ctx (Shape.root_build d .black p t s)
  obtain ⟨h', hb, hh⟩ := blackenRoot_spec hrep hm hz
  have hparent : (h.mem x).parent = some p := hat.parent hx
  have hcolor : (h.mem p).color = .black := by rw [hat.readUp, RbNode.color_ofSides]
  refine ⟨h', ?_, hh⟩
  unfold rbInsertColor
  rw [hparent]
  simp only [hcolor, ↓reduceIte]
  exact hb

/-- The two rotations of `rb_insert_color`. The node `n` with which the loop goes on is red again,
now below a black parent. -/
theorem rbInsertRotate_spec {m : Nat} (hat : At h ctx (build e .black g (build d .red p t s) u))
    (hx : t.root = some x) (ht : t.Balanced .red m) (hs : s.Balanced .black m) :
    ∃ h' n q t' s', h.rbInsertRotate e x p g = some (h', n) ∧ t'.root = some n ∧
      At h' ctx (build e.flip .black q (build e.flip .red g u s') t') ∧
      t'.Balanced .red m ∧ s'.Balanced .black m ∧
      (build e.flip .black q (build e.flip .red g u s') t').toList =
        (build e .black g (build d .red p t s) u).toList := by
  -- after the inner rotation the red child of the red parent is on the outer side
  have hinner : ∃ h1 n q t' s', (if (h.mem p).child e.flip = some x then
        (h.rbRotate e p).map fun h => (h, p, x) else some (h, x, p)) = some (h1, n, q) ∧
      t'.root = some n ∧ At h1 ctx (build e .black g (build e .red q t' s') u) ∧
      t'.Balanced .red m ∧ s'.Balanced .black m ∧
      (build e .black g (build e .red q t' s') u).toList =
        (build e .black g (build d .red p t s) u).toList := by
    have hparent := at_near.mp hat
    by_cases hd : d = e
    · subst hd
      have hchild : (h.mem p).child d.flip ≠ some x := by
        rw [hparent.read, RbNode.child_flip_ofSides]
        exact (at_near.mp hparent).sibling_ne hx
      exact ⟨h, x, p, t, s, if_neg hchild, hx, hat, ht, hs, rfl⟩
    · obtain rfl : d = e.flip := by
        cases d <;> cases e <;> first | rfl | exact absurd rfl hd
      have hchild : (h.mem p).child e.flip = some x := by
        rw [hparent.read, RbNode.child_ofSides, hx]
      obtain ⟨z, a, b, rfl, ha, hb⟩ := ht.exists_red e
      obtain rfl : z = x := Option.some.inj ((Shape.root_build ..).symm.trans hx)
      rw [Shape.build_flip] at hparent
      obtain ⟨h1, hrot, hat1⟩ := hparent.rotate
      refine ⟨h1, p, z, build e .red p s a, b, ?_, Shape.root_build .., at_near.mpr hat1,
        Shape.balanced_red_iff.mpr ⟨rfl, hs, ha⟩, hb, ?_⟩
      · rw [if_pos hchild, hrot]
        rfl
      · cases e <;> simp [build, Shape.toList, Dir.flip]
  obtain ⟨h1, n, q, t', s', hrun, hn, hat1, ht', hs', horder⟩ := hinner
  have hblack : At (h1.setColor q .black) ctx (build e .black g (build e .black q t' s') u) :=
    at_near.mpr (at_near.mp hat1).setColor
  have hred := hblack.setColor (k := .red)
  rw [← Shape.build_flip e .red, ← Shape.build_flip e .black] at hred
  obtain ⟨h2, hrot, hat2⟩ := hred.rotate
  refine ⟨h2, n, q, t', s', ?_, hn, hat2, ht', hs', ?_⟩
  · unfold rbInsertRotate
    simp only [hrun, Option.bind_some, hrot, Option.map_some]
  · rw [Shape.toList_rotate_up e .black .red .red .black, horder]

/-- `rb_insert_color` on a red node whose subtrees are black and which may have a red parent. -/
theorem rbInsertColor_spec {fuel m : Nat} (hfuel : ctx.length < fuel)
    (hat : At h ctx (build d .red x a b)) (ha : a.Balanced .black m) (hb : b.Balanced .black m)
    (hhole : Hole ctx k m) :
    ∃ h', rbInsertColor fuel h x = some h' ∧
      Holds h' (Rb.fill ctx (build d .red x a b)).toList := by
  induction fuel generalizing h ctx d x a b k m with
  | zero => omega
  | succ fuel ih =>
  have ht : (build d .red x a b).Balanced .red m := Shape.balanced_red_iff.mpr ⟨rfl, ha, hb⟩
  have hx := Shape.root_build d .red x a b
  cases hhole with
  | root =>
    have hparent : (h.mem x).parent = none := hat.parent hx
    unfold rbInsertColor
    simp only [hparent]
    exact blackenRoot_spec (represents_fill.mpr hat) ht hx
  | @black ctx d' p s c k _ hs hhole =>
    exact rbInsertColor_black hat hx
      (hhole.fill (Shape.balanced_black_iff.mpr ⟨rfl, _, _, _, rfl, ht, hs⟩) (by simp))
  | @red ctx d' p s _ hs hhole =>
    cases hhole with
    | @black ctx e g u c k _ hu hhole =>
    have hatp := at_near.mpr hat
    have hatg := at_near.mpr hatp
    have hparent : (h.mem x).parent = some p := hat.parent hx
    have hp : (h.mem p).color = .red := by rw [hat.readUp, RbNode.color_ofSides]
    have hgp : (h.mem p).parent = some g := hatp.parent (Shape.root_build ..)
    have hside : h.sideOf g (some p) = e := hatp.sideOf (Shape.root_build ..)
    have huncle : (h.mem g).child e.flip = u.root := by
      rw [hatp.readUp, RbNode.child_flip_ofSides]
    have hrotate : u.Balanced .black m → ∃ h', ((h.rbInsertRotate e x p g).bind fun r =>
        rbInsertColor fuel r.1 r.2) = some h' ∧ Holds h' (Rb.fill ctx
          (build e .black g (build d' .red p (build d .red x a b) s) u)).toList := by
      intro hu
      obtain ⟨h2, n, q, t', s', hrun, hn, hat2, ht', hs', horder⟩ :=
        rbInsertRotate_spec hatg hx ht hs
      have hbal : (build e.flip .black q (build e.flip .red g u s') t').Balanced .black (m + 1) :=
        Shape.balanced_black_iff.mpr ⟨rfl, m, _, _, rfl,
          Shape.balanced_red_iff.mpr ⟨rfl, hu, hs'⟩, ht'⟩
      have hrb := hhole.fill hbal (by simp)
      rw [← Shape.build_flip e.flip .black] at hat2 hrb horder
      obtain ⟨f, rfl⟩ : ∃ f, fuel = f + 1 := ⟨fuel - 1, by simp at hfuel; omega⟩
      obtain ⟨h3, hlast, hholds⟩ := rbInsertColor_black (at_near.mp hat2) hn hrb
      refine ⟨h3, ?_, Rb.toList_fill_congr ctx horder ▸ hholds⟩
      rw [hrun]
      exact hlast
    unfold rbInsertColor
    simp only [hparent, hp, hgp, hside, huncle]
    cases c with
    | red =>
      obtain ⟨r, _, _, hbuild, _, _⟩ := hu.exists_red e
      have hr : u.root = some r := hbuild ▸ Shape.root_build ..
      have hatu := at_far.mp hatg
      have hru : (h.mem r).color = .red := hatu.color hr hu
      rw [hr]
      simp only [hru, if_true]
      have h1 := at_far.mpr (hatu.paint (k := .black) hr)
      have h2 := at_near.mpr ((at_near.mp h1).setColor (k := .black))
      have h3 := h2.setColor (k := .red)
      obtain ⟨h', hrun, hholds⟩ := ih (by simp at hfuel; omega) h3
        (Shape.balanced_black_iff.mpr ⟨rfl, m, _, _, rfl, ht, hs⟩) hu.paint_red hhole
      refine ⟨h', hrun, ?_⟩
      have horder : (build e .red g (build d' .black p (build d .red x a b) s)
            (u.paint .black)).toList =
          (build e .black g (build d' .red p (build d .red x a b) s) u).toList := by
        cases e <;> cases d' <;> simp [build, Shape.toList]
      exact Rb.toList_fill_congr ctx horder ▸ hholds
    | black =>
      obtain ⟨h', hrun, hholds⟩ := hrotate hu
      refine ⟨h', ?_, hholds⟩
      cases hr : u.root with
      | none => exact hrun
      | some r =>
        have hru : (h.mem r).color = .black := (at_far.mp hatg).color hr hu
        simp only [hru]
        exact hrun

/-- The link in which a context has its subtree. -/
def slotOf : List (Frame α) → Option (α × Dir)
  | [] => none
  | f :: _ => some (f.node, f.dir)

omit [DecidableEq α] in
/-- The descent of `RB_INSERT` ends at a node that collides or between the nodes to the left and
those to the right of the new one. -/
theorem rbDescend_spec {fuel : Nat} {cmp : α → Int} {p : Option α} (hrep : Rep h.mem t p)
    (hcmp : Rb.RangeCmp (fun y => -cmp y) t.toList) (hbefore : ∀ y ∈ Rb.before ctx, 0 < cmp y)
    (hafter : ∀ y ∈ Rb.after ctx, cmp y < 0) (hfuel : t.toList.length ≤ fuel) :
    (∃ cur ∈ t.toList, rbDescend cmp fuel h (slotOf ctx) t.root = some (.collision cur) ∧
      cmp cur = 0) ∨
    ∃ ctx', rbDescend cmp fuel h (slotOf ctx) t.root = some (.free (slotOf ctx')) ∧
      Rb.fill ctx' .leaf = Rb.fill ctx t ∧
      (∀ y ∈ Rb.before ctx', 0 < cmp y) ∧ ∀ y ∈ Rb.after ctx', cmp y < 0 := by
  induction t generalizing p ctx fuel with
  | leaf =>
    refine Or.inr ⟨ctx, ?_, rfl, hbefore, hafter⟩
    cases fuel <;> rfl
  | node c l y r ihl ihr =>
    obtain ⟨hy, hl, hr⟩ := hrep
    obtain ⟨hcl, hcr, hlr⟩ := List.pairwise_append.mp hcmp
    obtain ⟨hyr, hcr⟩ := List.pairwise_cons.mp hcr
    simp only [Shape.toList, List.length_append, List.length_cons] at hfuel
    obtain ⟨fuel, rfl⟩ : ∃ f, fuel = f + 1 := ⟨fuel - 1, by omega⟩
    rw [Shape.root]
    unfold rbDescend
    rw [hy]
    split
    next hneg =>
      have hafter' : ∀ z ∈ Rb.after (⟨.left, c, y, r⟩ :: ctx), cmp z < 0 := by
        intro z hz
        rw [Rb.after, List.mem_append, List.mem_cons] at hz
        rcases hz with (rfl | hz) | hz
        · exact hneg
        · exact Int.neg_pos.mp ((hyr z hz).2 (Int.neg_pos.mpr hneg))
        · exact hafter z hz
      have hbefore' : ∀ z ∈ Rb.before (⟨.left, c, y, r⟩ :: ctx), 0 < cmp z := by
        intro z hz
        exact hbefore z (by simpa [Rb.before] using hz)
      have hlen : l.toList.length ≤ fuel := by omega
      rcases ihl hl hcl hbefore' hafter' hlen with ⟨cur, hcur, hrun, hzero⟩ | hfree
      · exact Or.inl ⟨cur, List.mem_append_left _ hcur, hrun, hzero⟩
      · exact Or.inr hfree
    next hge =>
      split
      next hpos =>
        have hbefore' : ∀ z ∈ Rb.before (⟨.right, c, y, l⟩ :: ctx), 0 < cmp z := by
          intro z hz
          simp only [Rb.before, List.mem_append, List.mem_singleton] at hz
          rcases hz with hz | hz | rfl
          · exact hbefore z hz
          · refine Int.not_le.mp fun hle => ?_
            have := Int.neg_nonneg.mp ((hlr z hz y List.mem_cons_self).1 (Int.neg_nonneg.mpr hle))
            omega
          · exact hpos
        have hafter' : ∀ z ∈ Rb.after (⟨.right, c, y, l⟩ :: ctx), cmp z < 0 := by
          intro z hz
          exact hafter z (by simpa [Rb.after] using hz)
        have hlen : r.toList.length ≤ fuel := by omega
        rcases ihr hr hcr hbefore' hafter' hlen with ⟨cur, hcur, hrun, hzero⟩ | hfree
        · exact Or.inl ⟨cur, List.mem_append_right _ (List.mem_cons_of_mem y hcur), hrun, hzero⟩
        · exact Or.inr hfree
      next hle =>
        exact Or.inl ⟨y, List.mem_append_right _ List.mem_cons_self, rfl, by omega⟩

/-- `rb_link_node` makes the new node a red leaf. -/
theorem At.link (hat : At h ctx .leaf) (hx : x ∉ ctxNodes ctx) :
    At (h.rbLinkNode x (slotOf ctx)) ctx (build .left .red x .leaf .leaf) := by
  obtain ⟨hup, -, hnodup⟩ := hat
  have hnodup' : (ctxNodes ctx ++ [x]).Nodup := by
    rw [Shape.toList, List.append_nil] at hnodup
    exact hnodup.append (List.nodup_singleton x) (List.disjoint_singleton.mpr hx)
  cases ctx with
  | nil => exact ⟨rfl, ⟨Function.update_self .., trivial, trivial⟩, hnodup'⟩
  | cons f ctx =>
    obtain ⟨d, c, z, s⟩ := f
    obtain ⟨hz, hs, hctx⟩ := hup
    simp only at hz hs hctx
    rw [Shape.toList, List.append_nil, ctxNodes, List.nodup_cons, List.mem_append, not_or] at hnodup
    rw [ctxNodes, List.mem_cons, List.mem_append, not_or, not_or] at hx
    obtain ⟨h1, hh1⟩ : ∃ h1, h1 = h.set x ⟨some z, .red, none, none⟩ := ⟨_, rfl⟩
    have hlink : h.rbLinkNode x (slotOf (⟨d, c, z, s⟩ :: ctx)) = h1.setChild z d (some x) :=
      hh1 ▸ rfl
    have h1other : ∀ y, y ≠ x → h1.mem y = h.mem y := fun y hne => hh1 ▸ set_mem_of_ne hne
    have hother : ∀ y, y ≠ z → y ≠ x → (h1.setChild z d (some x)).mem y = h.mem y :=
      fun y hne hnx => (set_mem_of_ne hne).trans (h1other y hnx)
    rw [hlink]
    refine ⟨⟨?_, ?_, ?_⟩, ⟨?_, trivial, trivial⟩, hnodup'⟩
    · apply set_mem_self.trans
      rw [h1other z (Ne.symm hx.1), hz, RbNode.setChild_ofSides]
      rfl
    · exact hs.frame fun y hy =>
        hother y (fun heq => hnodup.1.1 (heq ▸ hy)) fun heq => hx.2.1 (heq ▸ hy)
    · have hroot : (h1.setChild z d (some x)).root = h.root := hh1 ▸ rfl
      rw [hroot]
      exact hctx.frame fun y hy =>
        hother y (fun heq => hnodup.1.2 (heq ▸ hy)) fun heq => hx.2.2 (heq ▸ hy)
    · apply (set_mem_of_ne hx.1).trans
      rw [hh1]
      exact set_mem_self

/-- `RB_INSERT`: a node that collides is returned, else the new one is put in its place. -/
theorem rbInsert_spec {fuel : Nat} {cmp : α → α → Int} {nodes : List α} (ho : Rb.Order cmp)
    (elm : α) (hholds : Holds h nodes) (hsorted : Rb.Sorted cmp nodes) (hfuel : nodes.length < fuel) :
    (∃ cur ∈ nodes, rbInsert fuel cmp h elm = some (h, some cur) ∧ cmp elm cur = 0) ∨
    ∃ h' pre post, rbInsert fuel cmp h elm = some (h', none) ∧ nodes = pre ++ post ∧
      Holds h' (pre ++ elm :: post) ∧ Rb.Sorted cmp (pre ++ elm :: post) := by
  obtain ⟨t, hrep, hrb, rfl⟩ := hholds
  have hbefore : ∀ y ∈ Rb.before ([] : List (Frame α)), 0 < cmp elm y := List.forall_mem_nil _
  have hafter : ∀ y ∈ Rb.after ([] : List (Frame α)), cmp elm y < 0 := List.forall_mem_nil _
  have hdescend := rbDescend_spec hrep.cells (ho.range hsorted elm) hbefore hafter
    (Nat.le_of_lt hfuel)
  unfold rbInsert
  rw [hrep.root]
  rcases hdescend with ⟨cur, hcur, hrun, hzero⟩ | ⟨ctx, hrun, hfill, hbefore, hafter⟩
  · refine Or.inl ⟨cur, hcur, ?_, hzero⟩
    change (rbDescend (cmp elm) fuel h (slotOf []) t.root).bind _ = _
    rw [hrun]
    rfl
  · obtain rfl : t = Rb.fill ctx .leaf := hfill.symm
    have hlist : (Rb.fill ctx (.leaf : Shape α)).toList = Rb.before ctx ++ Rb.after ctx := by
      rw [Rb.toList_fill, Shape.toList, List.append_nil]
    have hlist' : (Rb.fill ctx (build .left .red elm .leaf .leaf)).toList =
        Rb.before ctx ++ elm :: Rb.after ctx := by
      simp [Rb.toList_fill, build, Shape.toList]
    have hperm := toList_fill_perm ctx (.leaf : Shape α)
    rw [Shape.toList, List.append_nil] at hperm
    have hnot : elm ∉ ctxNodes ctx := by
      intro hmem
      have hzero := ho.self elm
      rw [← hperm.mem_iff, hlist, List.mem_append] at hmem
      rcases hmem with hmem | hmem
      · have := hbefore elm hmem
        omega
      · have := hafter elm hmem
        omega
    have hdepth : ctx.length < fuel := by
      have := length_le_ctxNodes ctx
      have := hperm.length_eq
      omega
    obtain ⟨k, c, m, hhole, hleaf, -⟩ := hrb.hole
    cases hleaf
    obtain ⟨h', hcolor, hholds⟩ := rbInsertColor_spec hdepth ((represents_fill.mp hrep).link hnot)
      .leaf .leaf hhole
    refine Or.inr ⟨h', Rb.before ctx, Rb.after ctx, ?_, hlist, hlist' ▸ hholds, ?_⟩
    · change (rbDescend (cmp elm) fuel h (slotOf []) _).bind _ = _
      rw [hrun, Option.bind_some]
      dsimp only
      rw [hcolor]
      rfl
    · rw [hlist] at hsorted
      obtain ⟨hpre, hpost, hcross⟩ := List.pairwise_append.mp hsorted
      refine List.pairwise_append.mpr ⟨hpre, List.pairwise_cons.mpr ⟨hafter, hpost⟩, ?_⟩
      intro y hy z hz
      rcases List.mem_cons.mp hz with rfl | hz
      · exact (ho.swap y z).mpr (hbefore y hy)
      · exact hcross y hy z hz

end RbHeap

end Hammer2
