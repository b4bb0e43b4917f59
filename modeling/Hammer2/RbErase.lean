import Hammer2.RbInsert

namespace Hammer2

open Rb (Dir Color Shape Frame Hole)
open Rb.Shape (build)

namespace RbHeap

variable {α : Type*} {h : RbHeap α} {ctx : List (Frame α)} {a b s t : Shape α} {d : Dir}
  {c k : Color} {x y p : α} {n m : Nat}

theorem At.isRed_iff (hat : At h ctx t) (ht : t.Balanced c n) : h.IsRed t.root ↔ c = .red := by
  cases hx : t.root with
  | none =>
    cases Shape.eq_of_root_none hx
    cases ht
    simp [IsRed]
  | some x => rw [← hat.color hx ht, IsRed]

/-- The root of the tree is one of the nodes around a subtree. -/
theorem RepUp.exists_root {f : Frame α} {hole : Option α} {mem : α → RbNode α} {root : Option α}
    (hup : RepUp mem root (f :: ctx) hole) : ∃ x ∈ ctxNodes (f :: ctx), root = some x := by
  induction ctx generalizing f hole with
  | nil => exact ⟨f.node, List.mem_cons_self, hup.2.2⟩
  | cons g ctx ih =>
    obtain ⟨x, hx, hroot⟩ := ih hup.2.2
    exact ⟨x, List.mem_cons_of_mem _ (List.mem_append_right _ hx), hroot⟩

theorem At.root_ne {f : Frame α} (hat : At h (f :: ctx) t) : t.root ≠ h.root := by
  intro heq
  obtain ⟨x, hx, hroot⟩ := hat.above.exists_root
  exact (List.disjoint_of_nodup_append hat.nodup) hx (Shape.mem_of_root (heq.trans hroot))

variable [DecidableEq α]

/-- At the end of the loop the root of the whole tree is painted black. -/
theorem blackenNode_root (hrep : h.Represents t) (ht : t.Balanced c n) :
    Holds (h.blackenNode h.root) t.toList := by
  have hat : At h [] t := represents_fill.mp hrep
  have hroot := hrep.root
  cases hx : t.root with
  | none =>
    cases Shape.eq_of_root_none hx
    rw [hroot, hx]
    exact ⟨.leaf, hrep, ⟨0, .leaf⟩, rfl⟩
  | some x =>
    rw [hroot, hx]
    exact ⟨t.paint .black, represents_fill.mpr (hat.paint hx), ht.redBlack, Shape.toList_paint _ t⟩

/-- The loop ends at a red node. -/
theorem rbEraseColor_red {fuel : Nat} {q : Option α} (hfuel : 0 < fuel)
    (hat : At h ctx (build d .red x a b)) (hrb : (Rb.fill ctx (build d .black x a b)).RedBlack) :
    ∃ h', rbEraseColor fuel h (some x) q = some h' ∧
      Holds h' (Rb.fill ctx (build d .black x a b)).toList := by
  obtain ⟨fuel, rfl⟩ : ∃ f, fuel = f + 1 := ⟨fuel - 1, by omega⟩
  have hred : h.IsRed (some x) := by
    change (h.mem x).color = .red
    rw [hat.read, RbNode.color_ofSides]
  refine ⟨h.setColor x .black, ?_, _, represents_fill.mpr hat.setColor, hrb, rfl⟩
  unfold rbEraseColor
  rw [if_neg fun hcond => hcond.1 hred]
  rfl

/-- The last step for a black sibling with a red child. The nephew on the far side is red after the
first rotation, and its black node replaces the one that is missing. -/
theorem rbEraseRotate_spec {ca cb : Color} (hred : ca = .red ∨ cb = .red)
    (hat : At h ctx (build d k p t (build d .black y a b))) (ht : t.Balanced .black m)
    (ha : a.Balanced ca m) (hb : b.Balanced cb m) :
    ∃ h' q u v, h.rbEraseRotate d p y = some h' ∧ At h' ctx (build d k q u v) ∧
      u.Balanced .black (m + 1) ∧ v.Balanced .black (m + 1) ∧
      (build d k q u v).toList = (build d k p t (build d .black y a b)).toList := by
  have hats := at_far.mp hat
  have hfar : h.IsRed ((h.mem y).child d.flip) ↔ cb = .red := by
    rw [hats.read, RbNode.child_flip_ofSides]
    exact (at_far.mp hats).isRed_iff hb
  have houter : ∃ h1 q f a' b' ca', (if ¬h.IsRed ((h.mem y).child d.flip) then
        ((h.mem y).child d).bind fun near =>
          (((h.setColor near .black).setColor y .red).rbRotate d.flip y).bind fun h =>
            ((h.mem p).child d.flip).map fun s => (h, s)
      else some (h, y)) = some (h1, q) ∧
      At h1 ctx (build d k p t (build d .black q a' b')) ∧ b'.root = some f ∧
      a'.Balanced ca' m ∧ (b'.paint .black).Balanced .black (m + 1) ∧
      (build d k p t (build d .black q a' b')).toList =
        (build d k p t (build d .black y a b)).toList := by
    cases cb with
    | red =>
      obtain ⟨f, _, _, hbuild, _, _⟩ := hb.exists_red d
      have hf : b.root = some f := hbuild ▸ Shape.root_build ..
      exact ⟨h, y, f, a, b, ca, if_neg (not_not.mpr (hfar.mpr rfl)), hat, hf, ha, hb.paint_red, rfl⟩
    | black =>
      obtain rfl : ca = .red := hred.resolve_right (by decide)
      obtain ⟨z, a1, a2, rfl, h1, h2⟩ := ha.exists_red d
      have hnear : (h.mem y).child d = some z := by
        rw [hats.read, RbNode.child_ofSides, Shape.root_build]
      have hblack := at_near.mpr ((at_near.mp hats).setColor (k := .black))
      have hpaint := hblack.setColor (k := .red)
      rw [← Shape.build_flip d .red y, ← Shape.build_flip d .black z] at hpaint
      obtain ⟨h', hrot, hat'⟩ := hpaint.rotate
      rw [Shape.build_flip, Shape.build_flip] at hat'
      have hatp := at_far.mpr hat'
      have hsib : (h'.mem p).child d.flip = some z := by
        rw [hatp.read, RbNode.child_flip_ofSides, Shape.root_build]
      refine ⟨h', z, y, a1, build d .red y a2 b, .black, ?_, hatp, Shape.root_build .., h1, ?_, ?_⟩
      · rw [if_pos (mt hfar.mp (by decide)), hnear]
        simp only [Option.bind_some, hrot, hsib, Option.map_some]
      · rw [Shape.paint_build]
        exact Shape.balanced_black_iff.mpr ⟨rfl, m, _, _, rfl, h2, hb⟩
      · cases d <;> simp [build, Shape.toList]
  obtain ⟨h1, q, f, a', b', ca', hrun, hat1, hf, ha', hb', horder⟩ := houter
  have hk : (h1.mem p).color = k := by rw [hat1.read, RbNode.color_ofSides]
  have hat2 := at_far.mpr ((at_far.mp hat1).setColor (k := k))
  have hat3 := hat2.setColor (k := .black)
  have hchild : (((h1.setColor q k).setColor p .black).mem q).child d.flip = some f := by
    rw [(at_far.mp hat3).read, RbNode.child_flip_ofSides, hf]
  have hat4 := at_far.mpr (at_far.mpr ((at_far.mp (at_far.mp hat3)).paint (k := .black) hf))
  obtain ⟨h', hrot, hat'⟩ := hat4.rotate
  refine ⟨h', q, _, _, ?_, hat', Shape.balanced_black_iff.mpr ⟨rfl, m, _, _, rfl, ht, ha'⟩, hb', ?_⟩
  · unfold rbEraseRotate
    simp only [hrun, Option.bind_some, hk, hchild]
    exact hrot
  · rw [← horder]
    cases d <;> simp [build, Shape.toList]

/-- The rest of a round of `__rb_erase_color` once the sibling is black. A red parent takes the
missing black node from its children, below a black one it is still missing. -/
theorem rbEraseColor_blackSibling {ca cb : Color} {fuel : Nat} (hfuel : 0 < fuel)
    (hat : At h ctx (build d k p t (build d .black y a b))) (ht : t.Balanced .black m)
    (ha : a.Balanced ca m) (hb : b.Balanced cb m)
    (hhole : Hole (⟨d, k, p, build d .black y a b⟩ :: ctx) c (m + 1))
    (hrec : k = .black → ∀ {h t c}, At h ctx t → t.Balanced .black (m + 1) → Hole ctx c (m + 2) →
      ∃ h', rbEraseColor fuel h t.root (up ctx) = some h' ∧ Holds h' (Rb.fill ctx t).toList) :
    ∃ h', (if ¬h.IsRed ((h.mem y).child d) ∧ ¬h.IsRed ((h.mem y).child d.flip) then
          rbEraseColor fuel (h.setColor y .red) (some p) ((h.setColor y .red).mem p).parent
        else (h.rbEraseRotate d p y).map fun h => h.blackenNode h.root) = some h' ∧
      Holds h' (Rb.fill ctx (build d k p t (build d .black y a b))).toList := by
  have hats := at_far.mp hat
  have hnear : h.IsRed ((h.mem y).child d) ↔ ca = .red := by
    rw [hats.read, RbNode.child_ofSides]
    exact (at_near.mp hats).isRed_iff ha
  have hfar : h.IsRed ((h.mem y).child d.flip) ↔ cb = .red := by
    rw [hats.read, RbNode.child_flip_ofSides]
    exact (at_far.mp hats).isRed_iff hb
  by_cases hred : ca = .red ∨ cb = .red
  · rw [if_neg (by rw [hnear, hfar]; tauto)]
    obtain ⟨h', q, u, v, hrun, hat', hu, hv, horder⟩ := rbEraseRotate_spec hred hat ht ha hb
    obtain ⟨N, hrb⟩ := hhole.refill (d := d) (x := q) hu hv
    rw [hrun, ← Rb.toList_fill_congr ctx horder]
    exact ⟨_, rfl, blackenNode_root (represents_fill.mpr hat') hrb⟩
  · rw [if_pos (by rw [hnear, hfar]; tauto)]
    obtain rfl : ca = .black := by cases ca <;> tauto
    obtain rfl : cb = .black := by cases cb <;> tauto
    have hat1 := at_far.mpr (hats.setColor (k := .red))
    have hs : (build d .red y a b).Balanced .red m := Shape.balanced_red_iff.mpr ⟨rfl, ha, hb⟩
    have hup : ((h.setColor y .red).mem p).parent = up ctx := hat1.parent (Shape.root_build ..)
    have horder : (build d .black p t (build d .red y a b)).toList =
        (build d k p t (build d .black y a b)).toList := by
      cases d <;> simp [build, Shape.toList]
    rw [hup, ← Rb.toList_fill_congr ctx horder]
    have hbal : (build d .black p t (build d .red y a b)).Balanced .black (m + 1) :=
      Shape.balanced_black_iff.mpr ⟨rfl, m, _, _, rfl, ht, hs⟩
    cases hhole with
    | red _ hctx => exact rbEraseColor_red hfuel hat1 (hctx.fill hbal (by simp))
    | black _ hctx =>
      have hlast := hrec rfl hat1 hbal hctx
      rw [Shape.root_build] at hlast
      exact hlast

/-- One round of `__rb_erase_color`. -/
theorem rbEraseColor_step {fuel : Nat} (hat : At h (⟨d, k, p, s⟩ :: ctx) t)
    (hblack : ¬h.IsRed t.root) (hy : s.root = some y) :
    rbEraseColor (fuel + 1) h t.root (some p) =
      (h.rbEraseRedSibling d p y).bind fun (h, sibling) =>
        if ¬h.IsRed ((h.mem sibling).child d) ∧ ¬h.IsRed ((h.mem sibling).child d.flip) then
          rbEraseColor fuel (h.setColor sibling .red) (some p)
            ((h.setColor sibling .red).mem p).parent
        else (h.rbEraseRotate d p sibling).map fun h => h.blackenNode h.root := by
  have hside : h.sideOf p t.root = d :=
    hat.sideOf_of_ne fun heq => hat.sibling_ne (heq.symm.trans hy) hy
  have hsib : (h.mem p).child d.flip = some y := by
    rw [(at_near.mpr hat).read, RbNode.child_flip_ofSides, hy]
  rw [rbEraseColor, if_pos ⟨hblack, hat.root_ne⟩]
  simp only [Option.bind_some, hside, hsib]

/-- `__rb_erase_color` on a subtree that lacks one black node on every path. -/
theorem rbEraseColor_spec {fuel : Nat} (hfuel : ctx.length < fuel) (hat : At h ctx t)
    (ht : t.Balanced c m) (hhole : Hole ctx k (m + 1)) :
    ∃ h', rbEraseColor fuel h t.root (up ctx) = some h' ∧ Holds h' (Rb.fill ctx t).toList := by
  induction fuel generalizing h ctx t c k m with
  | zero => omega
  | succ fuel ih =>
  cases c with
  | red =>
    obtain ⟨x, a, b, rfl, _, _⟩ := ht.exists_red .left
    have hrb := hhole.fill ht.paint_red (by simp)
    rw [Shape.paint_build] at hrb
    have horder : (build .left .black x a b).toList = (build .left .red x a b).toList := rfl
    rw [← Rb.toList_fill_congr ctx horder, Shape.root_build]
    exact rbEraseColor_red (by omega) hat hrb
  | black =>
    have hblack : ¬h.IsRed t.root := mt (hat.isRed_iff ht).mp (by decide)
    cases ctx with
    | nil =>
      have hrep := represents_fill.mpr hat
      refine ⟨h.blackenNode h.root, ?_, blackenNode_root hrep ht⟩
      unfold rbEraseColor
      rw [if_neg fun hcond => hcond.2 hrep.root.symm, hrep.root]
      rfl
    | cons f ctx =>
      obtain ⟨d, k', p, s⟩ := f
      simp only [List.length_cons, Nat.add_lt_add_iff_right] at hfuel
      have hpos : 0 < fuel := by omega
      rw [up]
      obtain ⟨cs, hs⟩ : ∃ cs, s.Balanced cs (m + 1) := by
        cases hhole with
        | red hs _ => exact ⟨_, hs⟩
        | black hs _ => exact ⟨_, hs⟩
      cases cs with
      | black =>
        obtain ⟨y, a, b, ca, cb, rfl, ha, hb⟩ := hs.exists_black d
        obtain ⟨h', hrun, hholds⟩ := rbEraseColor_blackSibling hpos
          (at_near.mpr hat) ht ha hb hhole fun _ => ih hfuel
        refine ⟨h', ?_, hholds⟩
        rw [rbEraseColor_step hat hblack (Shape.root_build ..), rbEraseRedSibling, if_neg]
        · exact hrun
        · rw [(at_far.mp (at_near.mpr hat)).read, RbNode.color_ofSides]
          decide
      | red =>
        obtain ⟨y, a, b, rfl, ha, hb⟩ := hs.exists_red d
        cases hhole with
        | red hs _ => cases (Shape.balanced_red_iff.mp hs).1
        | @black _ _ _ _ _ k _ _ hctx =>
        -- after the rotation the parent is red and its new sibling is black
        have hpaint := at_far.mpr ((at_far.mp (at_near.mpr hat)).setColor (k := .black))
        obtain ⟨h1, hrot, hat1⟩ := (hpaint.setColor (k := .red)).rotate
        obtain ⟨z, a1, a2, ca, cb, rfl, ha1, ha2⟩ := ha.exists_black d
        have hsib : (h1.mem p).child d.flip = some z := by
          rw [(at_near.mp hat1).read, RbNode.child_flip_ofSides, Shape.root_build]
        obtain ⟨h', hrun, hholds⟩ := rbEraseColor_blackSibling hpos
          (at_near.mp hat1) ht ha1 ha2 (.red ha (.black hb hctx)) fun hk => by cases hk
        refine ⟨h', ?_, ?_⟩
        · rw [rbEraseColor_step hat hblack (Shape.root_build ..), rbEraseRedSibling, if_pos]
          · simp only [hrot, hsib, Option.bind_some, Option.map_some]
            exact hrun
          · rw [(at_far.mp (at_near.mpr hat)).read, RbNode.color_ofSides]
        · have horder : (build d .black y (build d .red p t (build d .black z a1 a2)) b).toList =
              (build d .black p t (build d .red y (build d .black z a1 a2) b)).toList := by
            cases d <;> simp [build, Shape.toList]
          exact Rb.toList_fill_congr ctx horder ▸ hholds

end RbHeap

end Hammer2
