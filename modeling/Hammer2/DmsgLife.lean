import Hammer2.DmsgRun

namespace Hammer2

/-- Every reference is accounted for when `L` is what the code has in hand. -/
def Iocom.Holds (rooted : Prop) (e : Iocom) (L : List Nat) : Prop :=
  HeapInv rooted e.heap (e.freerd.toList ++ e.freewr.toList) (L ++ e.roots)

variable {rooted : Prop} {e e' : Iocom} {L : List Nat} {t s : Nat} {m : DmsgMsg} {f : DmsgFrame}
  {fs : List DmsgFrame}

namespace Iocom

theorem Holds.perm {L' : List Nat} (hi : e.Holds rooted L) (hp : ∀ x, L'.count x = L.count x) :
    e.Holds rooted L' :=
  HeapInv.perm hi fun x => by rw [List.count_append, List.count_append, hp]

theorem Holds.push (hi : e.Holds rooted (fs.flatMap DmsgFrame.holds ++ L)) :
    (e.push t fs).Holds rooted L := by
  have hfs : (fs.map (t, ·)).flatMap (fun f => f.2.holds) = fs.flatMap DmsgFrame.holds :=
    List.flatMap_map ..
  refine HeapInv.perm hi fun x => ?_
  unfold roots Iocom.push
  rw [List.flatMap_append, hfs]
  simp only [List.count_append]
  omega

theorem flatMap_eraseP {l : List (Nat × DmsgFrame)} {q : Nat × DmsgFrame}
    (hf : l.find? (·.1 = t) = some q) (x : Nat) :
    (l.flatMap fun f => f.2.holds).count x =
      q.2.holds.count x + ((l.eraseP (·.1 = t)).flatMap fun f => f.2.holds).count x := by
  induction l with
  | nil => cases hf
  | cons a l ih =>
    by_cases ha : a.1 = t
    · rw [List.find?_cons_of_pos (by simpa using ha)] at hf
      cases Option.some.inj hf
      rw [List.eraseP_cons_of_pos (by simpa using ha), List.flatMap_cons, List.count_append]
    · rw [List.find?_cons_of_neg (by simpa using ha)] at hf
      rw [List.eraseP_cons_of_neg (by simpa using ha), List.flatMap_cons, List.flatMap_cons,
        List.count_append, List.count_append, ih hf]
      omega

theorem Holds.pop (hi : e.Holds rooted L) (ht : e.top t = some f) :
    (e.pop t).Holds rooted (f.holds ++ L) := by
  obtain ⟨q, hq, rfl⟩ := Option.map_eq_some_iff.mp ht
  refine HeapInv.perm hi fun x => ?_
  have := flatMap_eraseP hq x
  unfold roots Iocom.pop
  simp only [List.count_append]
  omega

end Iocom

/-- The state of the message that a frame has. -/
def DmsgFrame.attached : DmsgFrame → List Nat
  | .simulate _ => []
  | .drop _ => []
  | f => f.holds

/-- The state that code holds over a call. -/
def DmsgFrame.heldOver : DmsgFrame → List Nat
  | .simulate s => [s]
  | .drop s => [s]
  | _ => []

namespace Iocom

/-- The messages attached to a state: queued, allocated, being received, transmitted or handled. -/
def attached (e : Iocom) (s : Nat) : Nat :=
  (e.msgq.map DmsgMsg.state).count s + (e.loose.map DmsgMsg.state).count s +
    (e.frames.flatMap fun f => f.2.attached).count s

/-- `conn_state`, `freerd_state` and `freewr_state` -/
def pointers (e : Iocom) (s : Nat) : Nat :=
  e.conn.toList.count s + e.freerd.toList.count s + e.freewr.toList.count s

/-- The holders of a state, with the code that holds it while it runs. -/
def holders (e : Iocom) (s : Nat) : Nat :=
  e.heap.holders s + e.attached s + e.pointers s +
    (e.frames.flatMap fun f => f.2.heldOver).count s

theorem count_holds (l : List (Nat × DmsgFrame)) (x : Nat) :
    (l.flatMap fun f => f.2.holds).count x =
      (l.flatMap fun f => f.2.attached).count x + (l.flatMap fun f => f.2.heldOver).count x := by
  induction l with
  | nil => rfl
  | cons a l ih =>
    have ha : a.2.holds.count x = a.2.attached.count x + a.2.heldOver.count x := by
      cases a.2 <;> simp [DmsgFrame.holds, DmsgFrame.attached, DmsgFrame.heldOver]
    simp only [List.flatMap_cons, List.count_append]
    omega

theorem Holds.refs_eq (hi : e.Holds rooted []) (s : Nat) : e.heap.refs s = e.holders s := by
  have h := HeapInv.refs_eq hi s
  have hc := count_holds e.frames s
  unfold roots at h
  unfold holders attached pointers
  simp only [List.nil_append, List.count_append] at h
  omega

end Iocom

end Hammer2
