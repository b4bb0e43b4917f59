import Hammer2.VnodeRename
import Hammer2.Run

namespace Hammer2.Vnops

open Accounts

/-- What the hash and the checks of a rename see of an inode. -/
structure View where
  metaData : Meta
  mountPoint : Bool
  onhash : Bool
deriving DecidableEq

def Inode.view (n : Inode) : View := ⟨n.metaData, n.mountPoint, n.onhash⟩

def Pmp.view (s : Pmp) (ip : Nat) : Option View := (s.get ip).map Inode.view

/-- No inode looks different, except that some of `ips` may have been freed. -/
structure Frees (ips : List Nat) (s t : Pmp) : Prop where
  length : t.inodes.length = s.inodes.length
  view : ∀ ip, t.view ip = s.view ip ∨ ip ∈ ips ∧ t.view ip = none

section Views

variable {ips : List Nat} {ip dip : Nat}

instance : Std.Refl (Frees ips) := ⟨fun _ => ⟨rfl, fun _ => Or.inl rfl⟩⟩

instance : IsTrans Pmp (Frees ips) where
  trans s t u hst htu := by
    refine ⟨htu.length.trans hst.length, fun ip => ?_⟩
    obtain hu | hu := htu.view ip
    · rw [hu]
      exact hst.view ip
    · exact Or.inr hu

theorem Frees.mono {ips' : List Nat} {s t : Pmp} (h : Frees ips s t) (hsub : ips ⊆ ips') :
    Frees ips' s t :=
  ⟨h.length, fun ip => (h.view ip).imp_right fun hv => ⟨hsub hv.1, hv.2⟩⟩

theorem Frees.view_eq {s t : Pmp} {v : View} (h : Frees ips s t) (hv : t.view ip = some v) :
    s.view ip = some v := by
  obtain he | ⟨-, he⟩ := h.view ip
  · rw [← he, hv]
  · rw [he] at hv
    contradiction

theorem Pmp.view_set {s : Pmp} {n : Inode} (hn : s.get ip = some n) (o : Option Inode) (j : Nat) :
    (s.set ip o).view j = if j = ip then o.map Inode.view else s.view j := by
  unfold Pmp.view
  by_cases hj : j = ip
  · rw [hj, Pmp.get_set_self hn, if_pos rfl]
  · rw [Pmp.get_set_ne hj, if_neg hj]

theorem Pmp.length_set (s : Pmp) (o : Option Inode) :
    (s.set ip o).inodes.length = s.inodes.length := by
  simp [Pmp.set]

theorem Frees.set {s : Pmp} {n n' : Inode} (hn : s.get ip = some n) (hv : n'.view = n.view) :
    Frees ips s (s.set ip (some n')) := by
  refine ⟨Pmp.length_set s _, fun j => Or.inl ?_⟩
  rw [Pmp.view_set hn]
  by_cases hj : j = ip
  · subst hj
    simp [Pmp.view, hn, hv]
  · rw [if_neg hj]

theorem update_frees {f : Inode → Inode} (hf : ∀ n, (f n).view = n.view) :
    Within (Frees ips) (update ip f) := by
  constructor
  intro s a t h
  obtain ⟨n, hn, rfl⟩ := update_run h
  exact Frees.set hn (hf n)

theorem inodeDrop_frees (hip : ip ∈ ips) : Within (Frees ips) (inodeDrop ip) := by
  constructor
  intro s a t h
  obtain ⟨n, hn, ⟨-, -, rfl⟩ | ⟨-, rfl⟩⟩ := inodeDrop_cases h
  · refine ⟨Pmp.length_set s _, fun j => ?_⟩
    rw [Pmp.view_set hn]
    by_cases hj : j = ip
    · subst hj
      exact Or.inr ⟨hip, if_pos rfl⟩
    · exact Or.inl (if_neg hj)
  · exact Frees.set hn rfl

theorem inodeRef_frees : Within (Frees ips) (inodeRef ip) := update_frees fun _ => rfl

theorem mtxEx_frees : Within (Frees ips) (mtxEx ip) := update_frees fun _ => rfl

theorem inodeLockShared_frees : Within (Frees ips) (inodeLock ip true) := by
  apply inodeRef_frees.bind
  intro _
  apply mtxEx_frees.bind
  intro _
  exact Within.pure ()

theorem inodeUnlock_frees (hip : ip ∈ ips) : Within (Frees ips) (inodeUnlock ip) := by
  have hunlock : Within (Frees ips) (mtxUnlock ip) := update_frees fun _ => rfl
  apply hunlock.bind
  intro _
  exact inodeDrop_frees hip

theorem xopRefs_frees (xs : List Nat) : Within (Frees ips) (xopRefs xs) := by
  induction xs with
  | nil => exact Within.pure ()
  | cons x xs ih =>
    apply inodeRef_frees.bind
    intro _
    exact ih

theorem xopRetire_frees {xs : List Nat} (hxs : xs ⊆ ips) : Within (Frees ips) (xopRetire xs) := by
  induction xs with
  | nil => exact Within.pure ()
  | cons x xs ih =>
    obtain ⟨hx, hxs⟩ := List.cons_subset.mp hxs
    apply (inodeDrop_frees hx).bind
    intro _
    exact ih hxs

theorem igetv_frees : Within (Frees ips) (igetv ip) := by
  constructor
  intro s a t h
  obtain ⟨n, hn, h⟩ := readInode_bind h
  split at h
  next hv =>
    obtain ⟨b, u, href, hset⟩ := run_bind_eq_some h
    obtain ⟨m, hm, rfl⟩ := update_run href
    rw [hn] at hm
    cases hm
    obtain ⟨m, hm, rfl⟩ := update_run hset
    rw [Pmp.get_set_self hn] at hm
    cases hm
    rw [Pmp.set_set]
    apply Frees.set hn
    simp [Inode.view, Inode.mountPoint, hv]
  next =>
    obtain ⟨-, rfl⟩ := pure_run h
    exact Std.Refl.refl t

theorem inodeRepoint_frees (xop : Option Found) : Within (Frees ips) (inodeRepoint ip xop) := by
  cases xop with
  | none => exact Within.pure ()
  | some found => exact update_frees fun _ => rfl

theorem Pmp.lookup_eq_some {s : Pmp} {inum : BitVec 64} (h : s.lookup inum = some ip) :
    ip < s.inodes.length ∧ ∃ v, s.view ip = some v ∧ v.metaData.inum = inum := by
  obtain ⟨hmatch, hlt, -⟩ := List.find?_range_eq_some.mp h
  refine ⟨List.mem_range.mp hlt, ?_⟩
  cases hn : s.get ip with
  | none =>
    rw [hn] at hmatch
    contradiction
  | some n =>
    rw [hn, Option.any_some, Bool.and_eq_true, decide_eq_true_eq] at hmatch
    exact ⟨n.view, by simp [Pmp.view, hn], hmatch.2⟩

/-- The hash is read through the views alone. -/
theorem Pmp.lookup_congr {s t : Pmp} (hlen : t.inodes.length = s.inodes.length)
    (hview : ∀ ip, t.view ip = s.view ip) (inum : BitVec 64) : t.lookup inum = s.lookup inum := by
  have hany : ∀ (u : Pmp) (ip : Nat),
      ((u.get ip).any fun n => n.onhash && decide (n.metaData.inum = inum)) =
        (u.view ip).any fun v => v.onhash && decide (v.metaData.inum = inum) := by
    intro u ip
    unfold Pmp.view
    cases u.get ip <;> rfl
  unfold Pmp.lookup
  rw [hlen]
  congr 1
  funext ip
  rw [hany, hany, hview]

theorem Frees.lookup {s t : Pmp} (h : Frees [] s t) (inum : BitVec 64) :
    t.lookup inum = s.lookup inum :=
  Pmp.lookup_congr h.length
    (fun ip => (h.view ip).resolve_right fun hv => List.not_mem_nil hv.1) inum

/-- The state with a new inode for one that has been found. -/
def Pmp.push (s : Pmp) (found : Found) : Pmp :=
  { s with inodes := s.inodes ++ [some (newInode found)] }

theorem Pmp.view_push (s : Pmp) (found : Found) (j : Nat) :
    (s.push found).view j =
      if j = s.inodes.length then some (newInode found).view else s.view j := by
  unfold Pmp.view Pmp.push
  rw [Pmp.get_append]
  split <;> rfl

theorem inodeGet_cases {s t : Pmp} {found : Found} {inum : BitVec 64}
    (h : (inodeGet (some found) inum).run s = some (ip, t)) :
    s.lookup found.metaData.inum = some ip ∧ Frees [] s t ∨
      s.lookup found.metaData.inum = none ∧ ip = s.inodes.length ∧ t = s.push found := by
  unfold inodeGet at h
  obtain ⟨u, v, hget, h⟩ := run_bind_eq_some h
  obtain ⟨rfl, rfl⟩ := Prod.mk.inj (Option.some.inj hget)
  dsimp only [Option.getD_some] at h
  split at h
  next jp hjp =>
    obtain ⟨a, u, href, h⟩ := run_bind_eq_some h
    obtain ⟨b, v, hmtx, h⟩ := run_bind_eq_some h
    obtain ⟨c, w, hrep, h⟩ := run_bind_eq_some h
    obtain ⟨rfl, rfl⟩ := pure_run h
    refine Or.inl ⟨hjp, ?_⟩
    have h₁ : Frees [] s v := IsTrans.trans s u v (inodeRef_frees.holds href)
      (mtxEx_frees.holds hmtx)
    exact IsTrans.trans s v t h₁ ((inodeRepoint_frees _).holds hrep)
  next hnone =>
    obtain ⟨rfl, rfl⟩ := Prod.mk.inj (Option.some.inj h)
    exact Or.inr ⟨hnone, rfl, rfl⟩

theorem Frees.push {s u : Pmp} (h : Frees [] s u) (found : Found) :
    Frees [] (s.push found) (u.push found) := by
  refine ⟨by simp [Pmp.push, h.length], fun j => Or.inl ?_⟩
  rw [Pmp.view_push, Pmp.view_push, h.length]
  split
  next => rfl
  next => exact (h.view j).resolve_right fun hv => List.not_mem_nil hv.1

theorem Pmp.view_lt {s : Pmp} {v : View} (h : s.view ip = some v) : ip < s.inodes.length := by
  by_contra hlt
  have hnone : s.get ip = none := by
    simp [Pmp.get, List.getElem?_eq_none (Nat.le_of_not_lt hlt)]
  simp [Pmp.view, hnone] at h

/-- A name that is looked up again gives the inode of its number: the one in the hash, or a new one. -/
theorem reResolve_ok {s t : Pmp} {found : Found} {r : Except Errno Nat}
    (h : (reResolve dip (.ok found)).run s = some (r, t)) :
    ∃ ip, r = .ok ip ∧ (s.lookup found.metaData.inum = some ip ∧ Frees [dip, ip] s t ∨
      s.lookup found.metaData.inum = none ∧ ip = s.inodes.length ∧
        Frees [dip, ip] (s.push found) t) := by
  obtain ⟨_, s₁, hlock, h⟩ := run_bind_eq_some h
  obtain ⟨_, u, hrefs, h⟩ := run_bind_eq_some h
  obtain ⟨ip, w, hget, h⟩ := run_bind_eq_some h
  obtain ⟨_, w₁, hdir, h⟩ := run_bind_eq_some h
  obtain ⟨_, w₂, hvp, h⟩ := run_bind_eq_some h
  obtain ⟨_, w₃, hip, h⟩ := run_bind_eq_some h
  obtain ⟨_, w₄, hret, h⟩ := run_bind_eq_some h
  obtain ⟨rfl, rfl⟩ := pure_run h
  have hsu : Frees [] s u := IsTrans.trans s s₁ u (inodeLockShared_frees.holds hlock)
    ((xopRefs_frees _).holds hrefs)
  have hw₁ : Frees [dip, ip] w w₁ := (inodeUnlock_frees List.mem_cons_self).holds hdir
  have hw₂ : Frees [dip, ip] w w₂ := IsTrans.trans w w₁ w₂ hw₁ (igetv_frees.holds hvp)
  have hmem : ip ∈ [dip, ip] := List.mem_cons_of_mem _ List.mem_cons_self
  have hw₃ : Frees [dip, ip] w w₃ := IsTrans.trans w w₂ w₃ hw₂ ((inodeUnlock_frees hmem).holds hip)
  have hsub : [dip] ⊆ [dip, ip] := List.cons_subset_cons _ (List.nil_subset _)
  have hwt : Frees [dip, ip] w t := IsTrans.trans w w₃ t hw₃ ((xopRetire_frees hsub).holds hret)
  refine ⟨ip, rfl, ?_⟩
  obtain ⟨hlook, huw⟩ | ⟨hlook, hip, rfl⟩ := inodeGet_cases hget
  · rw [hsu.lookup] at hlook
    have hsw : Frees [] s w := IsTrans.trans s u w hsu huw
    exact Or.inl ⟨hlook, IsTrans.trans s w t (hsw.mono (List.nil_subset _)) hwt⟩
  · rw [hsu.lookup] at hlook
    rw [hsu.length] at hip
    have hpush := (hsu.push found).mono (List.nil_subset [dip, ip])
    exact Or.inr ⟨hlook, hip, IsTrans.trans _ _ t hpush hwt⟩

theorem reResolve_error {s t : Pmp} {error : XopError} {r : Except Errno Nat}
    (h : (reResolve dip (.error error)).run s = some (r, t)) :
    r = .error (errorToErrno error) ∧ Frees [dip] s t := by
  obtain ⟨_, s₁, hlock, h⟩ := run_bind_eq_some h
  obtain ⟨_, s₂, hrefs, h⟩ := run_bind_eq_some h
  obtain ⟨_, s₃, hdir, h⟩ := run_bind_eq_some h
  obtain ⟨_, s₄, hret, h⟩ := run_bind_eq_some h
  obtain ⟨rfl, rfl⟩ := pure_run h
  have h₂ : Frees [dip] s s₂ := IsTrans.trans s s₁ s₂ (inodeLockShared_frees.holds hlock)
    ((xopRefs_frees _).holds hrefs)
  have h₃ : Frees [dip] s s₃ :=
    IsTrans.trans s s₂ s₃ h₂ ((inodeUnlock_frees List.mem_cons_self).holds hdir)
  exact ⟨rfl, IsTrans.trans s s₃ t h₃ ((xopRetire_frees (List.Subset.refl _)).holds hret)⟩

/-- The inode that a lookup gives: the one in the hash, or one made of what the media has. -/
def Pmp.inodeOf (s : Pmp) (found : Found) : Inode :=
  ((s.lookup found.metaData.inum).bind s.get).getD (newInode found)

theorem Pmp.inodeOf_view (s : Pmp) (found : Found) :
    (s.inodeOf found).view =
      ((s.lookup found.metaData.inum).bind s.view).getD (newInode found).view := by
  unfold Pmp.inodeOf
  cases s.lookup found.metaData.inum with
  | none => rfl
  | some ip =>
    simp only [Option.bind_some, Pmp.view]
    cases s.get ip <;> rfl

theorem Pmp.inodeOf_hashed {s : Pmp} {found : Found} {v : View}
    (hlook : s.lookup found.metaData.inum = some ip) (hv : s.view ip = some v) :
    (s.inodeOf found).view = v := by
  simp [Pmp.inodeOf_view, hlook, hv]

theorem Pmp.get_push (s : Pmp) (found : Found) (j : Nat) :
    (s.push found).get j = if j = s.inodes.length then some (newInode found) else s.get j :=
  Pmp.get_append

theorem Pmp.length_push (s : Pmp) (found : Found) :
    (s.push found).inodes.length = s.inodes.length + 1 := by
  simp [Pmp.push]

theorem Pmp.lookup_push_self {s : Pmp} {found : Found}
    (h : s.lookup found.metaData.inum = none) :
    (s.push found).lookup found.metaData.inum = some s.inodes.length := by
  have hnone := List.find?_range_eq_none.mp h
  apply List.find?_range_eq_some.mpr
  rw [Pmp.length_push]
  refine ⟨?_, List.mem_range.mpr (Nat.lt_succ_self _), fun j hj => ?_⟩
  · rw [Pmp.get_push, if_pos rfl]
    simp [newInode]
  · rw [Pmp.get_push, if_neg hj.ne]
    exact hnone j hj

theorem Pmp.lookup_push_ne {s : Pmp} {found : Found} {inum : BitVec 64}
    (h : inum ≠ found.metaData.inum) : (s.push found).lookup inum = s.lookup inum := by
  have hlast : ((s.push found).get s.inodes.length).any
      (fun n => n.onhash && decide (n.metaData.inum = inum)) = false := by
    rw [Pmp.get_push, if_pos rfl]
    simp [newInode, Ne.symm h]
  cases hs : s.lookup inum with
  | none =>
    have hnone := List.find?_range_eq_none.mp hs
    apply List.find?_range_eq_none.mpr
    rw [Pmp.length_push]
    intro j hj
    obtain hlt | rfl := Nat.lt_succ_iff_lt_or_eq.mp hj
    · rw [Pmp.get_push, if_neg hlt.ne]
      exact hnone j hlt
    · rw [hlast]
      rfl
  | some ip =>
    obtain ⟨hp, hmem, hbefore⟩ := List.find?_range_eq_some.mp hs
    have hlt := List.mem_range.mp hmem
    apply List.find?_range_eq_some.mpr
    rw [Pmp.length_push]
    refine ⟨?_, List.mem_range.mpr (Nat.lt_succ_of_lt hlt), fun j hj => ?_⟩
    · rw [Pmp.get_push, if_neg hlt.ne]
      exact hp
    · rw [Pmp.get_push, if_neg (hj.trans hlt).ne]
      exact hbefore j hj

/-- What a second lookup finds in the state that the first has left, when the directory and the
inode of the first are still there. -/
structure Looked (s t : Pmp) (found : Found) (ip : Nat) : Prop where
  length : s.inodes.length ≤ t.inodes.length
  view : ∀ {j v}, j < s.inodes.length → t.view j = some v → s.view j = some v
  self : ∀ {v}, t.view ip = some v → v = (s.inodeOf found).view
  lt : ip < t.inodes.length
  hash : ∀ {j}, j < s.inodes.length → (s.lookup found.metaData.inum = some j ↔ j = ip)

theorem reResolve_looked {s t : Pmp} {found : Found}
    (h : (reResolve dip (.ok found)).run s = some (.ok ip, t)) : Looked s t found ip := by
  obtain ⟨jp, hjp, hcase⟩ := reResolve_ok h
  cases hjp
  obtain ⟨hlook, hf⟩ | ⟨hlook, rfl, hf⟩ := hcase
  · refine ⟨hf.length.ge, fun _ hv => hf.view_eq hv, fun hv => ?_, ?_, fun _ => ?_⟩
    · exact (Pmp.inodeOf_hashed hlook (hf.view_eq hv)).symm
    · rw [hf.length]
      exact (Pmp.lookup_eq_some hlook).1
    · rw [hlook, Option.some.injEq]
      exact eq_comm
  · have hlen := hf.length
    rw [Pmp.length_push] at hlen
    refine ⟨by omega, fun hj hv => ?_, fun hv => ?_, by omega, fun hj => ?_⟩
    · have hpush := hf.view_eq hv
      rwa [Pmp.view_push, if_neg hj.ne] at hpush
    · have hpush := hf.view_eq hv
      rw [Pmp.view_push, if_pos rfl, Option.some.injEq] at hpush
      rw [← hpush]
      simp [Pmp.inodeOf, hlook]
    · rw [hlook]
      exact iff_of_false (Option.some_ne_none _).symm hj.ne

/-- The hash after a lookup: nothing is freed but the directory and the inode. -/
theorem reResolve_hash {s t : Pmp} {found : Found}
    (h : (reResolve dip (.ok found)).run s = some (.ok ip, t)) (hdip : t.view dip ≠ none)
    (hip : t.view ip ≠ none) :
    t.lookup found.metaData.inum = some ip ∧
      ∀ {other : Found}, other.metaData.inum ≠ found.metaData.inum →
        (t.inodeOf other).view = (s.inodeOf other).view := by
  have hsame : ∀ {u : Pmp}, Frees [dip, ip] u t → ∀ j, t.view j = u.view j := by
    intro u hf j
    obtain hv | ⟨hj, hv⟩ := hf.view j
    · exact hv
    · obtain rfl | hj := List.mem_cons.mp hj
      · exact absurd hv hdip
      · rw [List.mem_singleton.mp hj] at hv
        exact absurd hv hip
  obtain ⟨jp, hjp, hcase⟩ := reResolve_ok h
  cases hjp
  obtain ⟨hlook, hf⟩ | ⟨hlook, rfl, hf⟩ := hcase
  · have hview := hsame hf
    refine ⟨(Pmp.lookup_congr hf.length hview _).trans hlook, fun {other} _ => ?_⟩
    rw [Pmp.inodeOf_view, Pmp.inodeOf_view, Pmp.lookup_congr hf.length hview, funext hview]
  · have hview := hsame hf
    refine ⟨(Pmp.lookup_congr hf.length hview _).trans (Pmp.lookup_push_self hlook),
      fun {other} hne => ?_⟩
    rw [Pmp.inodeOf_view, Pmp.inodeOf_view, Pmp.lookup_congr hf.length hview,
      Pmp.lookup_push_ne hne, funext hview]
    cases hother : s.lookup other.metaData.inum with
    | none => rfl
    | some jp =>
      have hlt := (Pmp.lookup_eq_some hother).1
      simp only [Option.bind_some, Pmp.view_push, if_neg hlt.ne]

end Views

/-- The mount or a sticky directory refuses the rename. -/
def RenameArgs.EntryRefused (a : RenameArgs) (s : Pmp) : Prop :=
  ¬ a.sameMount ∨ s.rdonly ∨ s.emerg ∨
    (∃ fd f, s.get a.fdip = some fd ∧ s.get a.fip = some f ∧
      StickyDenies fd.metaData f.metaData a.fuid) ∨
    ∃ td, s.get a.tdip = some td ∧
      (a.tip.bind s.get).any fun t => StickyDenies td.metaData t.metaData a.tuid

/-- A name cannot be looked up again; that the target does not exist is no failure. -/
def RenameArgs.LookupFails (a : RenameArgs) : Prop :=
  (∃ error, a.source = .error error) ∨
    ∃ error, a.target = .error error ∧ errorToErrno error ≠ .enoent

/-- The inodes that the names are of refuse the rename. -/
def RenameArgs.NodesRefuse (a : RenameArgs) (s : Pmp) : Prop :=
  ∃ source fd td, a.source = .ok source ∧ s.get a.fdip = some fd ∧ s.get a.tdip = some td ∧
    (renameRefusal a (s.lookup source.metaData.inum = some a.fdip)
      (a.target.toOption.any fun target => target.metaData.inum = source.metaData.inum) fd td
      (s.inodeOf source) (a.target.toOption.map s.inodeOf)).isSome

def RenameArgs.Refused (a : RenameArgs) (s : Pmp) : Prop :=
  a.EntryRefused s ∨ a.LookupFails ∨ a.NodesRefuse s

section Refusals

theorem kkassert_bind {α : Type} {p : Prop} [Decidable p] {f : Unit → VopM α} {s t : Pmp} {b : α}
    (h : (kkassert p >>= f).run s = some (b, t)) : (f ()).run s = some (b, t) := by
  obtain ⟨u, v, hassert, hf⟩ := run_bind_eq_some h
  by_cases hp : p
  · have hs : some ((), s) = some (u, v) := (if_pos hp).symm.trans hassert
    obtain ⟨-, rfl⟩ := Prod.mk.inj (Option.some.inj hs)
    exact hf
  · have hs : none = some (u, v) := (if_neg hp).symm.trans hassert
    contradiction

theorem get_bind {α : Type} {f : Pmp → VopM α} {s t : Pmp} {b : α}
    (h : (get >>= f : VopM α).run s = some (b, t)) : (f s).run s = some (b, t) := by
  obtain ⟨u, v, hget, hf⟩ := run_bind_eq_some h
  obtain ⟨rfl, rfl⟩ := Prod.mk.inj (Option.some.inj hget)
  exact hf

theorem readTarget_bind {α : Type} {tip : Option Nat} {f : Option Inode → VopM α} {s t : Pmp}
    {b : α} (h : (readTarget tip >>= f).run s = some (b, t)) :
    (∀ ip ∈ tip, s.get ip ≠ none) ∧ (f (tip.bind s.get)).run s = some (b, t) := by
  cases tip with
  | none => exact ⟨fun ip hip => absurd hip (Option.not_mem_none ip), h⟩
  | some tip =>
    obtain ⟨x, u, hx, hf⟩ := run_bind_eq_some h
    obtain ⟨n, hn, hp⟩ := readInode_bind hx
    obtain ⟨rfl, rfl⟩ := pure_run hp
    refine ⟨fun ip hip => ?_, ?_⟩
    · rw [← Option.some.inj hip, hn]
      exact Option.some_ne_none n
    · rw [Option.bind_some, hn]
      exact hf

theorem renameEntry_run {a : RenameArgs} {s t : Pmp} {r : Option Errno}
    (h : (renameEntry a).run s = some (r, t)) :
    t = s ∧ (r.isSome ↔ a.EntryRefused s) ∧
      (r = none → s.get a.fdip ≠ none ∧ s.get a.tdip ≠ none) := by
  replace h := kkassert_bind (kkassert_bind h)
  unfold RenameArgs.EntryRefused
  split at h
  next hmount =>
    obtain ⟨rfl, rfl⟩ := pure_run h
    exact ⟨rfl, iff_of_true rfl (Or.inl hmount), fun hr => nomatch hr⟩
  next hmount =>
    replace h := get_bind h
    split at h
    next hro =>
      obtain ⟨rfl, rfl⟩ := pure_run h
      exact ⟨rfl, iff_of_true rfl (Or.inr (or_assoc.mp (Or.inl hro))), fun hr => nomatch hr⟩
    next hro =>
      rw [if_neg (by decide)] at h
      obtain ⟨fd, hfd, h⟩ := readInode_bind h
      obtain ⟨f, hf, h⟩ := readInode_bind h
      obtain ⟨td, htd, h⟩ := readInode_bind h
      obtain ⟨-, h⟩ := readTarget_bind h
      rw [not_or] at hro
      have halive : s.get a.fdip ≠ none ∧ s.get a.tdip ≠ none := by
        rw [hfd, htd]
        exact ⟨Option.some_ne_none fd, Option.some_ne_none td⟩
      split at h
      next hsticky =>
        obtain ⟨rfl, rfl⟩ := pure_run h
        exact ⟨rfl, iff_of_true rfl (Or.inr (Or.inr (Or.inr (Or.inl ⟨fd, f, hfd, hf, hsticky⟩)))),
          fun hr => nomatch hr⟩
      next hsource =>
        split at h
        next hsticky =>
          obtain ⟨rfl, rfl⟩ := pure_run h
          exact ⟨rfl, iff_of_true rfl (Or.inr (Or.inr (Or.inr (Or.inr ⟨td, htd, hsticky⟩)))),
            fun hr => nomatch hr⟩
        next htarget =>
          obtain ⟨rfl, rfl⟩ := pure_run h
          refine ⟨rfl, iff_of_false Bool.false_ne_true ?_, fun _ => halive⟩
          rintro (hm | hr | he | ⟨fd', f', hfd', hf', hs⟩ | ⟨td', htd', hs⟩)
          · exact hmount hm
          · exact hro.1 hr
          · exact hro.2 he
          · rw [hfd] at hfd'
            rw [hf] at hf'
            cases hfd'
            cases hf'
            exact hsource hs
          · rw [htd] at htd'
            cases htd'
            exact htarget hs

theorem renameRefusal_congr {a : RenameArgs} {self same : Bool} {fd fd' td td' f f' : Inode}
    {t t' : Option Inode} (hfd : fd.view = fd'.view) (htd : td.view = td'.view)
    (hf : f.view = f'.view) (ht : t.map Inode.view = t'.map Inode.view) :
    renameRefusal a self same fd td f t = renameRefusal a self same fd' td' f' t' := by
  have hmeta : ∀ {n n' : Inode}, n.view = n'.view → n.metaData = n'.metaData :=
    fun h => congrArg View.metaData h
  have hmount : ∀ {n n' : Inode}, n.view = n'.view → n.mountPoint = n'.mountPoint :=
    fun h => congrArg View.mountPoint h
  unfold renameRefusal
  rw [hmeta hfd, hmeta htd, hmeta hf, hmount hf]
  cases t with
  | none =>
    cases t' with
    | none => rfl
    | some t' => simp at ht
  | some t =>
    cases t' with
    | none => simp at ht
    | some t' =>
      rw [Option.map_some, Option.map_some, Option.some.injEq] at ht
      simp only [Option.any_some, hmeta ht, hmount ht]

theorem renameRefusal_same {a : RenameArgs} {self : Bool} {fd td f : Inode} {t : Option Inode} :
    (renameRefusal a self true fd td f t).isSome := by
  unfold renameRefusal
  rw [if_pos rfl]
  split <;> rfl

theorem nodesRefuse_iff {a : RenameArgs} {s : Pmp} {source : Found} {self same : Bool}
    {fd fd₀ td td₀ f : Inode} {t : Option Inode} (hsource : a.source = .ok source)
    (hfd₀ : s.get a.fdip = some fd₀) (htd₀ : s.get a.tdip = some td₀) (hfd : fd.view = fd₀.view)
    (htd : td.view = td₀.view) (hf : f.view = (s.inodeOf source).view)
    (hself : decide (s.lookup source.metaData.inum = some a.fdip) = self)
    (hsame : (a.target.toOption.any fun target =>
      target.metaData.inum = source.metaData.inum) = same)
    (ht : same = false →
      t.map Inode.view = (a.target.toOption.map s.inodeOf).map Inode.view) :
    a.NodesRefuse s ↔ (renameRefusal a self same fd td f t).isSome := by
  have hrefusal : (renameRefusal a self same fd₀ td₀ (s.inodeOf source)
      (a.target.toOption.map s.inodeOf)).isSome = (renameRefusal a self same fd td f t).isSome := by
    cases same with
    | true => rw [renameRefusal_same, renameRefusal_same]
    | false => rw [renameRefusal_congr hfd htd hf (ht rfl)]
  rw [← hrefusal]
  constructor
  · rintro ⟨source', fd', td', hsource', hfd', htd', hr⟩
    rw [hsource] at hsource'
    cases hsource'
    rw [hfd₀] at hfd'
    rw [htd₀] at htd'
    cases hfd'
    cases htd'
    rwa [hself, hsame] at hr
  · intro hr
    refine ⟨source, fd₀, td₀, hsource, hfd₀, htd₀, ?_⟩
    rwa [hself, hsame]

/-- A rename with both names looked up goes on if none of its checks refuses. -/
theorem renameChecked_run {a : RenameArgs} {fip : Nat} {tip : Option Nat} {s t : Pmp}
    {error : Option Errno} (h : (renameChecked a fip tip).run s = some (error, t)) :
    ∃ fd td f, s.get a.fdip = some fd ∧ s.get a.tdip = some td ∧ s.get fip = some f ∧
      (∀ ip ∈ tip, s.get ip ≠ none) ∧
      ((renameRefusal a (a.fdip = fip) (some fip = tip) fd td f (tip.bind s.get)).isSome ∧ t = s ∨
        ¬ (renameRefusal a (a.fdip = fip) (some fip = tip) fd td f (tip.bind s.get)).isSome ∧
          (renameNodes a fip tip).run s = some (error, t)) := by
  obtain ⟨fd, hfd, h⟩ := readInode_bind h
  obtain ⟨td, htd, h⟩ := readInode_bind h
  obtain ⟨f, hf, h⟩ := readInode_bind h
  obtain ⟨halive, h⟩ := readTarget_bind h
  refine ⟨fd, td, f, hfd, htd, hf, halive, ?_⟩
  split at h
  next e he =>
    obtain ⟨-, rfl⟩ := pure_run h
    exact Or.inl ⟨Option.isSome_iff_exists.mpr ⟨e, he⟩, rfl⟩
  next hnone => exact Or.inr ⟨by rw [hnone]; exact Bool.false_ne_true, h⟩

/-- Every lock count is as before, and so is every count of loose references if none was negative. -/
structure Settled (s t : Pmp) : Prop where
  locks : t.locks = s.locks
  loose : 0 ≤ s.loose → t.loose = s.loose

instance : IsTrans Pmp Settled where
  trans s t u hst htu := by
    refine ⟨htu.locks.trans hst.locks, fun hs => ?_⟩
    have ht := hst.loose hs
    exact (htu.loose (ht ▸ hs)).trans ht

theorem Settled.refl (s : Pmp) : Settled s s := ⟨rfl, fun _ => rfl⟩

theorem settled_of_neutral {α : Type} {x : VopM α} (hx : Neutral Pmp.locks Pmp.loose x) {s t : Pmp}
    {a : α} (h : x.run s = some (a, t)) : Settled s t :=
  ⟨(hx.exact h).trans (add_zero _), fun hs => (hx.backed h hs).trans (add_zero _)⟩

/-- How a rename ends: it is refused with everything settled, or it reaches its inodes with every lock
count as before. -/
def RenameArgs.Ends (a : RenameArgs) (refused : Prop) (s t : Pmp) (error : Option Errno) : Prop :=
  refused ∧ Settled s t ∨
    ¬ refused ∧ ∃ fip tip u, u.locks = s.locks ∧ (renameNodes a fip tip).run u = some (error, t)

theorem renameChecked_ends {a : RenameArgs} {fip : Nat} {tip : Option Nat} {refused : Prop}
    {s u t : Pmp} {error : Option Errno} (hu : Settled s u)
    (h : (renameChecked a fip tip).run u = some (error, t))
    (hiff : ∀ {fd td f}, u.get a.fdip = some fd → u.get a.tdip = some td → u.get fip = some f →
      (∀ ip ∈ tip, u.get ip ≠ none) →
      (refused ↔ (renameRefusal a (a.fdip = fip) (some fip = tip) fd td f
        (tip.bind u.get)).isSome)) :
    a.Ends refused s t error := by
  obtain ⟨fd, td, f, hfd, htd, hf, halive, ⟨hr, rfl⟩ | ⟨hr, hrun⟩⟩ := renameChecked_run h
  · exact Or.inl ⟨(hiff hfd htd hf halive).mpr hr, hu⟩
  · exact Or.inr ⟨fun hrefused => hr ((hiff hfd htd hf halive).mp hrefused), fip, tip, u,
      hu.locks, hrun⟩

theorem Pmp.view_of_get {s : Pmp} {ip : Nat} {n : Inode} (h : s.get ip = some n) :
    s.view ip = some n.view := by
  simp [Pmp.view, h]

theorem Looked.self_view {s t : Pmp} {found : Found} {ip : Nat} {n : Inode}
    (h : Looked s t found ip) (hn : t.get ip = some n) : n.view = (s.inodeOf found).view :=
  h.self (Pmp.view_of_get hn)

/-- An inode that is there before and after some lookups looks the same. -/
theorem view_unchanged {s t : Pmp} {ip : Nat} {n n₀ : Inode} (hn₀ : s.get ip = some n₀)
    (hview : ∀ {v}, t.view ip = some v → s.view ip = some v) (hn : t.get ip = some n) :
    n.view = n₀.view := by
  have hv := hview (Pmp.view_of_get hn)
  rw [Pmp.view_of_get hn₀] at hv
  exact (Option.some.inj hv).symm

theorem renameTarget_ends {a : RenameArgs} {source : Found} {fip : Nat} {s u t : Pmp}
    {error : Option Errno} {fd₀ td₀ : Inode} (hsource : a.source = .ok source)
    (hfd₀ : s.get a.fdip = some fd₀) (htd₀ : s.get a.tdip = some td₀)
    (hrun : (reResolve a.fdip (.ok source)).run s = some (.ok fip, u)) (hu : Settled s u)
    (h : (renameTarget a fip).run u = some (error, t)) :
    a.Ends (a.LookupFails ∨ a.NodesRefuse s) s t error := by
  have hl := reResolve_looked hrun
  have hfdlt := Pmp.view_lt (Pmp.view_of_get hfd₀)
  have htdlt := Pmp.view_lt (Pmp.view_of_get htd₀)
  have hself : decide (s.lookup source.metaData.inum = some a.fdip) = decide (a.fdip = fip) :=
    decide_eq_decide.mpr (hl.hash hfdlt)
  obtain ⟨r, w, htarget, h⟩ := run_bind_eq_some h
  have hw : Settled s w := IsTrans.trans s u w hu (settled_of_neutral (reResolve_neutral _ _) htarget)
  cases htgt : a.target with
  | error e =>
    rw [htgt] at htarget
    obtain ⟨rfl, hf⟩ := reResolve_error htarget
    dsimp only at h
    by_cases he : errorToErrno e ≠ .enoent
    · rw [if_pos he] at h
      obtain ⟨-, rfl⟩ := pure_run h
      exact Or.inl ⟨Or.inl (Or.inr ⟨e, htgt, he⟩), hw⟩
    · rw [if_neg he] at h
      apply renameChecked_ends hw h
      intro fd td f hfd htd hfip halive
      have hfound : ¬ a.LookupFails := by
        rintro (⟨e', he'⟩ | ⟨e', he', hne⟩)
        · rw [hsource] at he'
          contradiction
        · rw [htgt] at he'
          cases he'
          exact he hne
      have hfdv := view_unchanged hfd₀ (fun hv => hl.view hfdlt (hf.view_eq hv)) hfd
      have htdv := view_unchanged htd₀ (fun hv => hl.view htdlt (hf.view_eq hv)) htd
      have hfv := hl.self (hf.view_eq (Pmp.view_of_get hfip))
      rw [or_iff_right hfound]
      apply nodesRefuse_iff hsource hfd₀ htd₀ hfdv htdv hfv hself
      · rw [htgt]
        simp [Except.toOption]
      · intro _
        rw [htgt]
        rfl
  | ok target =>
    rw [htgt] at htarget
    obtain ⟨tip, rfl, -⟩ := reResolve_ok htarget
    have hl' := reResolve_looked htarget
    apply renameChecked_ends hw h
    intro fd td f hfd htd hfip halive
    have hfound : ¬ a.LookupFails := by
      rintro (⟨e', he'⟩ | ⟨e', he', hne⟩)
      · rw [hsource] at he'
        contradiction
      · rw [htgt] at he'
        contradiction
    have hfdu := hl'.view (hfdlt.trans_le hl.length) (Pmp.view_of_get hfd)
    have hfdv := view_unchanged hfd₀
      (fun hv => hl.view hfdlt (hl'.view (hfdlt.trans_le hl.length) hv)) hfd
    have htdv := view_unchanged htd₀
      (fun hv => hl.view htdlt (hl'.view (htdlt.trans_le hl.length) hv)) htd
    have hfu := hl'.view hl.lt (Pmp.view_of_get hfip)
    have hfv := hl.self hfu
    have hdir : u.view a.fdip ≠ none := by
      rw [hfdu]
      exact Option.some_ne_none _
    have hself' : u.view fip ≠ none := by
      rw [hfu]
      exact Option.some_ne_none _
    obtain ⟨hhash, hother⟩ := reResolve_hash hrun hdir hself'
    have hsame : target.metaData.inum = source.metaData.inum ↔ some fip = some tip := by
      rw [Option.some.injEq, ← hl'.hash hl.lt]
      constructor
      · intro heq
        rw [heq, hhash]
      · intro hlook
        obtain ⟨-, v, hv, hinum⟩ := Pmp.lookup_eq_some hlook
        obtain ⟨-, v', hv', hinum'⟩ := Pmp.lookup_eq_some hhash
        rw [hv] at hv'
        cases hv'
        exact hinum.symm.trans hinum'
    rw [or_iff_right hfound]
    apply nodesRefuse_iff hsource hfd₀ htd₀ hfdv htdv hfv hself
    · rw [htgt]
      exact decide_eq_decide.mpr hsame
    · intro hne
      have hinum := fun heq => of_decide_eq_false hne (hsame.mp heq)
      obtain ⟨n, hn⟩ := Option.ne_none_iff_exists'.mp (halive tip rfl)
      rw [htgt, Option.bind_some, hn]
      show some n.view = some (s.inodeOf target).view
      rw [hl'.self_view hn, hother hinum]

theorem vopRename_ends {a : RenameArgs} {s t : Pmp} {error : Option Errno}
    (h : (vopRename a).run s = some (error, t)) : a.Ends (a.Refused s) s t error := by
  obtain ⟨r, s₁, hentry, h⟩ := run_bind_eq_some h
  obtain ⟨hs₁, hiff, halive⟩ := renameEntry_run hentry
  rw [hs₁] at h
  cases r with
  | some e =>
    obtain ⟨-, rfl⟩ := pure_run h
    exact Or.inl ⟨Or.inl (hiff.mp rfl), Settled.refl _⟩
  | none =>
    have hentry : ¬ a.EntryRefused s := fun he => Bool.false_ne_true (hiff.mpr he)
    obtain ⟨fd₀, hfd₀⟩ := Option.ne_none_iff_exists'.mp (halive rfl).1
    obtain ⟨td₀, htd₀⟩ := Option.ne_none_iff_exists'.mp (halive rfl).2
    have hrefused : a.Refused s ↔ a.LookupFails ∨ a.NodesRefuse s := or_iff_right hentry
    obtain ⟨r, u, hrun, h⟩ := run_bind_eq_some h
    have hu := settled_of_neutral (reResolve_neutral _ _) hrun
    cases hsource : a.source with
    | error e =>
      rw [hsource] at hrun
      obtain ⟨rfl, -⟩ := reResolve_error hrun
      obtain ⟨-, rfl⟩ := pure_run h
      exact Or.inl ⟨hrefused.mpr (Or.inl (Or.inl ⟨e, hsource⟩)), hu⟩
    | ok source =>
      rw [hsource] at hrun
      obtain ⟨fip, rfl, -⟩ := reResolve_ok hrun
      rw [RenameArgs.Ends, hrefused]
      exact renameTarget_ends hsource hfd₀ htd₀ hrun hu h

end Refusals

/-- The lock counts are the same, and so are the references that neither a vnode nor the side queue
holds. -/
def Balanced (s t : Pmp) : Prop := t.locks = s.locks ∧ t.loose = s.loose

/-- Every reference that a vnode or the side queue holds has been counted. -/
def Pmp.Sound (s : Pmp) : Prop := 0 ≤ s.loose

theorem Settled.balanced {s t : Pmp} (h : Settled s t) (hs : s.Sound) : Balanced s t :=
  ⟨h.locks, h.loose hs⟩

/-- A lock count that has gone down at some inode is not balanced. -/
theorem not_balanced {s u t : Pmp} {d : Nat → Int} (ip : Nat) (hu : u.locks = s.locks)
    (ht : t.locks = u.locks + -d) (hd : 0 < d ip) : ¬ Balanced s t := by
  intro hb
  have hlocks := congrFun (ht.symm.trans hb.1) ip
  rw [hu] at hlocks
  simp at hlocks
  omega

/-- A namespace operation with its arguments. -/
inductive NamespaceOp where
  | mkdir (a : MakeArgs)
  | create (a : MakeArgs)
  | remove (a : UnlinkArgs)
  | rmdir (a : UnlinkArgs)
  | link (a : LinkArgs)
  | rename (a : RenameArgs)

def NamespaceOp.run : NamespaceOp → VopM (Option Errno)
  | .mkdir a => vopMkdir a
  | .create a => vopCreate a
  | .remove a => vopRemove a
  | .rmdir a => vopRmdir a
  | .link a => vopLink a
  | .rename a => vopRename a

/-- The mounts differ, or the inode or the mount refuses the link. -/
def LinkArgs.Refused (a : LinkArgs) (s : Pmp) : Prop :=
  ¬ a.sameMount ∨ ∃ n, s.get a.ip = some n ∧
    (AtLinkMax n.metaData.nlinks.toNat ∨
      n.metaData.uflags &&& (flagImmutable ||| flagAppend) ≠ 0 ∨ s.rdonly ∨ s.emerg)

/-- The operation returns before it comes to `hammer2_inode_lock4`. -/
def NamespaceOp.SkipsLock4 (s : Pmp) : NamespaceOp → Prop
  | .mkdir _ => True
  | .create _ => True
  | .remove _ => True
  | .rmdir _ => True
  | .link a => a.Refused s
  | .rename a => a.Refused s

theorem linkRefusal_isSome {s : Pmp} {n : Inode} :
    (linkRefusal s n).isSome ↔ AtLinkMax n.metaData.nlinks.toNat ∨
      n.metaData.uflags &&& (flagImmutable ||| flagAppend) ≠ 0 ∨ s.rdonly ∨ s.emerg := by
  unfold linkRefusal
  split
  next hmax => exact iff_of_true rfl (Or.inl hmax)
  next hmax =>
    split
    next hflags => exact iff_of_true rfl (Or.inr (Or.inl hflags))
    next hflags =>
      split
      next hro => exact iff_of_true rfl (Or.inr (Or.inr hro))
      next hro =>
        refine iff_of_false Bool.false_ne_true ?_
        rintro (hm | hf | hr)
        · exact hmax hm
        · exact hflags hf
        · exact hro hr

theorem vopLink_balanced_iff {a : LinkArgs} {s t : Pmp} {error : Option Errno} (hs : s.Sound)
    (h : (vopLink a).run s = some (error, t)) : Balanced s t ↔ a.Refused s := by
  unfold vopLink at h
  split at h
  next hmount =>
    obtain ⟨-, rfl⟩ := pure_run h
    exact iff_of_true ((Settled.refl _).balanced hs) (Or.inl hmount)
  next hmount =>
    obtain ⟨n, hn, h⟩ := readInode_bind h
    replace h := get_bind h
    split at h
    next e he =>
      obtain ⟨-, rfl⟩ := pure_run h
      have hr := linkRefusal_isSome.mp (Option.isSome_iff_exists.mpr ⟨e, he⟩)
      exact iff_of_true ((Settled.refl _).balanced hs) (Or.inr ⟨n, hn, hr⟩)
    next hnone =>
      have hlocks := (linkNode_posts a).exact h
      have hunlocks : refsOf [a.ip, a.tdip] = Pi.single a.ip 1 + Pi.single a.tdip 1 := by
        rw [refsOf_cons, refsOf_singleton]
      rw [← neg_add', ← hunlocks] at hlocks
      apply iff_of_false
      · apply not_balanced a.ip rfl hlocks
        rw [refsOf_apply, Int.natCast_pos]
        exact List.count_pos_iff.mpr List.mem_cons_self
      · rintro (hm | ⟨n', hn', hr⟩)
        · exact hmount hm
        · rw [hn] at hn'
          cases hn'
          have hsome := linkRefusal_isSome.mpr hr
          rw [hnone] at hsome
          exact Bool.false_ne_true hsome

theorem vopRename_balanced_iff {a : RenameArgs} {s t : Pmp} {error : Option Errno} (hs : s.Sound)
    (h : (vopRename a).run s = some (error, t)) : Balanced s t ↔ a.Refused s := by
  obtain ⟨hr, hsettled⟩ | ⟨hr, fip, tip, u, hu, hrun⟩ := vopRename_ends h
  · exact iff_of_true (hsettled.balanced hs) hr
  · have hlocks := (renameNodes_posts a fip tip).exact hrun
    apply iff_of_false _ hr
    apply not_balanced fip hu hlocks
    rw [refsOf_apply, Int.natCast_pos]
    exact List.count_pos_iff.mpr (List.mem_append_right _ List.mem_cons_self)

/-- A namespace operation leaves locks and references balanced exactly if it takes no part in
`hammer2_inode_lock4`: `hammer2_mkdir`, `hammer2_create`, `hammer2_remove` and `hammer2_rmdir` always,
and `hammer2_link` and `hammer2_rename` when one of their checks refuses them. -/
theorem namespace_op_balanced_iff (op : NamespaceOp) {s t : Pmp} {error : Option Errno}
    (hs : s.Sound) (h : op.run.run s = some (error, t)) : Balanced s t ↔ op.SkipsLock4 s := by
  cases op with
  | mkdir a =>
    exact iff_of_true ((settled_of_neutral (vopMkdir_neutral a) h).balanced hs) trivial
  | create a =>
    exact iff_of_true ((settled_of_neutral (makeNode_neutral a id) h).balanced hs) trivial
  | remove a =>
    exact iff_of_true ((settled_of_neutral (unlinkNode_neutral a id) h).balanced hs) trivial
  | rmdir a =>
    exact iff_of_true ((settled_of_neutral (vopRmdir_neutral a) h).balanced hs) trivial
  | link a => exact vopLink_balanced_iff hs h
  | rename a => exact vopRename_balanced_iff hs h

def namespaceStep (s : Pmp) (op : NamespaceOp) : Option Pmp := (op.run.run s).map Prod.snd

/-- Locks and references stay balanced over any run in which no operation comes to
`hammer2_inode_lock4`. -/
theorem namespace_run_balanced {s t : Pmp} (hs : s.Sound)
    (h : Run.Reach namespaceStep (fun s op => op.SkipsLock4 s) s t) : Balanced s t := by
  apply h.invariant (I := Balanced s)
  · exact ⟨rfl, rfl⟩
  · intro u op w hu hskip hstep
    obtain ⟨⟨error, v⟩, hrun, rfl⟩ := Option.map_eq_some_iff.mp hstep
    have hsound : u.Sound := by
      show 0 ≤ u.loose
      rw [hu.2]
      exact hs
    have hw := (namespace_op_balanced_iff op hsound hrun).mpr hskip
    exact ⟨hw.1.trans hu.1, hw.2.trans hu.2⟩

/-- A mount with a file in its root directory, each of them held by its vnode alone. -/
def rootAndFile : Pmp :=
  ⟨[some ⟨⟨1, .directory, 0, false, 0, 1, 1⟩, 1, 0, some ⟨false⟩, true, false, false, false, false,
      false, false, false, 1⟩,
    some ⟨⟨16, .regfile, 0, false, 0, 1, 16⟩, 1, 0, some ⟨false⟩, true, false, false, false, false,
      false, false, false, 1⟩], false, false, 17⟩

theorem enoent_ne_zero : errorEnoent ≠ 0 := by decide

/-- A second name `b` for the file. Its collision space is empty. -/
def secondName : LinkArgs := ⟨0, 1, [0x62], true, ⟨⟨[], ⟨errorEnoent, enoent_ne_zero⟩⟩, none⟩⟩

theorem rootAndFile_sound : rootAndFile.Sound := by
  intro ip
  match ip with
  | 0 => decide
  | 1 => decide
  | ip + 2 => exact le_rfl

/-- The link succeeds and leaves the file's lock with a count of -1. -/
theorem secondName_run : ∃ t, (NamespaceOp.link secondName).run.run rootAndFile = some (none, t) ∧
    t.locks 1 = -1 := by
  have hany : (((NamespaceOp.link secondName).run.run rootAndFile).any fun r =>
      decide (r.1 = none ∧ r.2.locks 1 = -1)) = true := by
    decide
  cases hrun : (NamespaceOp.link secondName).run.run rootAndFile with
  | none =>
    rw [hrun] at hany
    contradiction
  | some r =>
    rw [hrun] at hany
    obtain ⟨herror, hlocks⟩ := of_decide_eq_true hany
    exact ⟨r.2, congrArg some (Prod.ext herror rfl), hlocks⟩

theorem namespace_op_balanced_link :
    ∃ t, (NamespaceOp.link secondName).run.run rootAndFile = some (none, t) ∧
      (Balanced rootAndFile t ↔ (NamespaceOp.link secondName).SkipsLock4 rootAndFile) := by
  obtain ⟨t, hrun, -⟩ := secondName_run
  exact ⟨t, hrun, namespace_op_balanced_iff (.link secondName) rootAndFile_sound hrun⟩

theorem link_unlocks_unlocked : ¬ ∀ (op : NamespaceOp) (s t : Pmp) (error : Option Errno),
    s.Sound → op.run.run s = some (error, t) → Balanced s t := by
  intro h
  obtain ⟨t, hrun, hlocks⟩ := secondName_run
  have hb := h (.link secondName) rootAndFile t none rootAndFile_sound hrun
  have hzero : t.locks 1 = 0 := congrFun hb.1 1
  rw [hlocks] at hzero
  contradiction

end Hammer2.Vnops
