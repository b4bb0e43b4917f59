import Hammer2.ByteImage

/-! Images that a list of writes fills in, some of which store a checksum of a region. -/

namespace ByteImage

inductive Write where
  | store (off n v : Nat)
  | copy (off n : Nat) (src : Image)
  | stamp (pos n off len : Nat)

/-- The first byte that a write changes. -/
def Write.off : Write → Nat
  | .store off _ _ => off
  | .copy off _ _ => off
  | .stamp pos _ _ _ => pos

/-- How many bytes a write changes. -/
def Write.size : Write → Nat
  | .store _ n _ => n
  | .copy _ n _ => n
  | .stamp _ n _ _ => n

def Write.run (checksum : List (BitVec 8) → Nat) (img : Image) : Write → Image
  | .store off n v => setLE img off n v
  | .copy off n src => fun i => if off ≤ i ∧ i < off + n then src (i - off) else img i
  | .stamp pos n off len => setLE img pos n (checksum (slice img off len))

def writeAll (checksum : List (BitVec 8) → Nat) (img : Image) (ws : List Write) : Image :=
  ws.foldl (Write.run checksum) img

/-- A write that changes none of the `len` bytes from `off` on. -/
def Write.Outside (w : Write) (off len : Nat) : Prop := off + len ≤ w.off ∨ w.off + w.size ≤ off

/-- The second write changes neither what the checksum of the first one covers nor the checksum. -/
def Write.Spares : Write → Write → Prop
  | .stamp pos n off len, w => w.Outside off len ∧ w.Outside pos n
  | _, _ => True

/-- No byte is written after a checksum of it has been taken. -/
def StampedLast (ws : List Write) : Prop := ws.Pairwise Write.Spares

def Write.IsStamp : Write → Prop
  | .stamp _ _ _ _ => True
  | _ => False

/-- Writes without a checksum. -/
def Plain (ws : List Write) : Prop := ∀ w ∈ ws, ¬ w.IsStamp

theorem plain_append {ws ws' : List Write} (h : Plain ws) (h' : Plain ws') : Plain (ws ++ ws') :=
  List.forall_mem_append.mpr ⟨h, h'⟩

theorem plain_ite {ws : List Write} {c : Prop} [Decidable c] (h : Plain ws) :
    Plain (if c then ws else []) := by
  split
  · exact h
  · exact List.forall_mem_nil _

theorem writeAll_append (checksum : List (BitVec 8) → Nat) (img : Image) (ws ws' : List Write) :
    writeAll checksum img (ws ++ ws') = writeAll checksum (writeAll checksum img ws) ws' :=
  List.foldl_append

theorem writeAll_ite (checksum : List (BitVec 8) → Nat) (img : Image) (ws : List Write)
    {c : Prop} [Decidable c] : writeAll checksum img (if c then ws else []) =
      if c then writeAll checksum img ws else img := by
  split
  · rfl
  · rfl

section Outside

variable {checksum : List (BitVec 8) → Nat} {img : Image} {off len : Nat}

theorem run_outside {w : Write} (h : w.Outside off len) {i : Nat} (h1 : off ≤ i)
    (h2 : i < off + len) : w.run checksum img i = img i := by
  cases w with
  | store off' n v =>
    have hout : off + len ≤ off' ∨ off' + n ≤ off := h
    exact setLE_of_outside (by omega)
  | copy off' n src =>
    have hout : off + len ≤ off' ∨ off' + n ≤ off := h
    exact if_neg (by omega)
  | stamp pos n off' len' =>
    have hout : off + len ≤ pos ∨ pos + n ≤ off := h
    exact setLE_of_outside (by omega)

theorem writeAll_outside {ws : List Write} (h : ∀ w ∈ ws, w.Outside off len) {i : Nat}
    (h1 : off ≤ i) (h2 : i < off + len) : writeAll checksum img ws i = img i := by
  induction ws generalizing img with
  | nil => rfl
  | cons w ws ih =>
    have hrest : writeAll checksum (w.run checksum img) ws i = w.run checksum img i := by
      apply ih
      exact fun w' hw' => h w' (List.mem_cons_of_mem w hw')
    exact hrest.trans (run_outside (h w List.mem_cons_self) h1 h2)

theorem slice_writeAll {ws : List Write} (h : ∀ w ∈ ws, w.Outside off len) :
    slice (writeAll checksum img ws) off len = slice img off len := by
  apply List.map_congr_left
  intro i hi
  have hlt := List.mem_range.mp hi
  exact writeAll_outside h (by omega) (by omega)

theorem getLE_writeAll {ws : List Write} (h : ∀ w ∈ ws, w.Outside off len) :
    getLE (writeAll checksum img ws) off len = getLE img off len := by
  apply getLE_congr
  intro i h1 h2
  exact writeAll_outside h h1 h2

end Outside

section Stamped

variable {checksum : List (BitVec 8) → Nat} {pos n off len : Nat}

/-- Writes in such an order leave an image that agrees with each of its checksums. -/
theorem checksum_writeAll {ws : List Write} (horder : StampedLast ws)
    (hstamp : Write.stamp pos n off len ∈ ws) (hself : pos + n ≤ off ∨ off + len ≤ pos)
    (hlt : ∀ buf, checksum buf < 256 ^ n) (img : Image) :
    getLE (writeAll checksum img ws) pos n =
      checksum (slice (writeAll checksum img ws) off len) := by
  induction ws generalizing img with
  | nil => cases hstamp
  | cons w ws ih =>
    obtain ⟨hw, hws⟩ := List.pairwise_cons.mp horder
    cases hstamp with
    | tail _ hmem => exact ih hws hmem (w.run checksum img)
    | head =>
      change getLE (writeAll checksum (setLE img pos n (checksum (slice img off len))) ws) pos n =
        checksum (slice (writeAll checksum (setLE img pos n (checksum (slice img off len))) ws)
          off len)
      rw [getLE_writeAll fun w hmem => (hw w hmem).2, slice_writeAll fun w hmem => (hw w hmem).1,
        getLE_setLE_self, slice_setLE_of_disjoint (by omega)]
      exact Nat.mod_eq_of_lt (hlt _)

/-- Only the checksums matter for the order. -/
theorem stampedLast_append {ws stamps : List Write} (hws : Plain ws)
    (hstamps : StampedLast stamps) : StampedLast (ws ++ stamps) := by
  have hspares : ∀ w ∈ ws, ∀ w', w.Spares w' := by
    intro w hw w'
    cases w with
    | store off n v => trivial
    | copy off n src => trivial
    | stamp pos n off len => exact absurd trivial (hws _ hw)
  apply List.pairwise_append.mpr
  refine ⟨?_, hstamps, fun w hw w' _ => hspares w hw w'⟩
  exact List.pairwise_of_forall_mem_list fun w hw w' _ => hspares w hw w'

end Stamped

end ByteImage
