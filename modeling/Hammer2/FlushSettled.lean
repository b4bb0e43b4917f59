import Hammer2.FlushScan

set_option linter.unusedSectionVars false

namespace Hammer2

open CowTree

variable {ι α : Type} [DecidableEq ι]

def Forest.nodes : Forest ι → List ι
  | .nil => []
  | .cons c kids rest => c :: (kids.nodes ++ rest.nodes)

def Forest.roots : Forest ι → List ι
  | .nil => []
  | .cons c _ rest => c :: rest.roots

/-- The chains of the forest are the children of `p`, and below each of them are all of its own. -/
def Forest.Fits (parent : ι → Option ι) : Forest ι → ι → Prop
  | .nil, _ => True
  | .cons c kids rest, p => parent c = some p ∧ kids.Fits parent c ∧
      (∀ d, parent d = some c → d ∈ kids.roots) ∧ rest.Fits parent p

/-- The chains below `p` that its flush is for: those that are reached without another inode and,
outside of a sync, without the inode index. -/
def Forest.region (kinds : ChainKinds ι) (call : FlushCall ι) : Forest ι → ι → List ι
  | .nil, _ => []
  | .cons c kids rest, p =>
    (if kinds.inode c || call.hides kinds p c then [] else c :: kids.region kinds call c) ++
      rest.region kinds call p

/-- Where a forest stands during a flush. -/
structure Forest.Below (parent : ι → Option ι) (active path : List ι) (p : ι) (F : Forest ι) :
    Prop where
  fits : F.Fits parent p
  nodup : F.nodes.Nodup
  apart : ∀ c ∈ F.nodes, c ∉ path
  idle : ∀ c ∈ F.nodes, c ∉ active

variable {kinds : ChainKinds ι} {call : FlushCall ι} {s s' : ChainState ι α} {r r' : FlushInfo ι α}
variable {active path above : List ι} {c p : ι} {F kids rest : Forest ι}

omit [DecidableEq ι] in
theorem Ascends.mem {parent : ι → Option ι} (h : Ascends parent path) (hc : c ∈ path)
    (hp : parent c = some p) : p ∈ path := by
  induction path with
  | nil => cases hc
  | cons a above ih =>
    rcases List.mem_cons.mp hc with rfl | hc
    · rw [h.1] at hp
      exact List.mem_cons_of_mem _ (List.mem_of_mem_head? hp)
    · exact List.mem_cons_of_mem _ (ih h.2 hc)

theorem Forest.Fits.root {parent : ι → Option ι} (h : F.Fits parent p) (hc : c ∈ F.roots) :
    parent c = some p := by
  induction F with
  | nil => cases hc
  | cons a kids rest _ ih =>
    rcases List.mem_cons.mp hc with rfl | hc
    · exact h.1
    · exact ih h.2.2.2 hc

theorem Forest.mem_nodes_of_region (hc : c ∈ F.region kinds call p) : c ∈ F.nodes := by
  induction F generalizing p with
  | nil => cases hc
  | cons a kids rest ihk ihr =>
    unfold Forest.region at hc
    rcases List.mem_append.mp hc with hc | hc
    · split at hc
      next => cases hc
      next =>
        rcases List.mem_cons.mp hc with rfl | hc
        · exact List.mem_cons_self
        · exact List.mem_cons_of_mem _ (List.mem_append_left _ (ihk hc))
    · exact List.mem_cons_of_mem _ (List.mem_append_right _ (ihr hc))

theorem settled_of_not_flagged (h : s.flagged c = false) : Settled s.tree c := by
  have hno : ¬s.flagged c = true := by rw [h]; exact Bool.false_ne_true
  rw [flagged_iff] at hno
  refine ⟨?_, ?_⟩
  · exact Bool.not_eq_true _ ▸ fun hm => hno (Or.inl hm)
  · exact Bool.not_eq_true _ ▸ fun hu => hno (Or.inr (Or.inl hu))

/-- Below chains that nothing flags, nothing is flagged. -/
theorem Forest.quiet (hfits : F.Fits s.parent p) (hmarked : ∀ q ∈ F.nodes, s.Marked kinds q)
    (hroots : ∀ c ∈ F.roots, kinds.inode c = false → s.flagged c = false) :
    ∀ c ∈ F.region kinds call p, s.flagged c = false := by
  induction F generalizing p with
  | nil => simp [Forest.region]
  | cons a kids rest ihk ihr =>
    intro c hc
    unfold Forest.region at hc
    rcases List.mem_append.mp hc with hc | hc
    · split at hc
      next => cases hc
      next hin =>
        have hi : kinds.inode a = false := by
          by_contra hi
          simp [hi] at hin
        have ha := hroots a List.mem_cons_self hi
        rcases List.mem_cons.mp hc with rfl | hc
        · exact ha
        · refine ihk hfits.2.1 (fun q hq => hmarked q ?_) (fun d hd hdi => ?_) c hc
          · exact List.mem_cons_of_mem _ (List.mem_append_left _ hq)
          · by_contra hf
            have halarm := hmarked a List.mem_cons_self d (hfits.2.1.root hd) hdi
              (by simpa using hf)
            have hfa : s.flagged a = true := by
              rw [flagged_iff]
              exact Or.inr (Or.inr halarm)
            rw [ha] at hfa
            cases hfa
    · exact ihr hfits.2.2.2
        (fun q hq => hmarked q (List.mem_cons_of_mem _ (List.mem_append_right _ hq)))
        (fun d hd => hroots d (List.mem_cons_of_mem _ hd)) c hc

/-- What is not flagged has nothing flagged below it. -/
theorem Forest.quiet_below (hfits : kids.Fits s.parent c)
    (hmarked : ∀ q ∈ kids.nodes, s.Marked kinds q) (hc : s.Marked kinds c) (halarm : ¬s.Alarm c) :
    ∀ d ∈ kids.region kinds call c, Settled s.tree d := by
  intro d hd
  refine settled_of_not_flagged (Forest.quiet hfits hmarked (fun e he hi => ?_) d hd)
  by_contra hf
  exact halarm (hc e (hfits.root he) hi (by simpa using hf))

/-- What a scan over the children of the first chain of `path` leaves behind. -/
structure ScanPost (kinds : ChainKinds ι) (call : FlushCall ι) (p : ι) (above : List ι)
    (F : Forest ι) (active : List ι) (r r' : FlushInfo ι α) : Prop where
  inv : r'.ScanInv kinds active
  within : r.Within F.nodes (p :: above) r'.toChainState
  error : r.error = true → r'.error = true
  roots : ∀ c ∈ F.roots, kinds.inode c = false → r'.flagged c = true → r'.Alarm p ∨ r'.error = true
  settled : r'.error = false → ∀ c ∈ F.region kinds call p, Settled r'.tree c

/-- What the passes over the children of `c` leave behind. -/
structure PassPost (kinds : ChainKinds ι) (call : FlushCall ι) (c : ι) (path : List ι)
    (kids : Forest ι) (active : List ι) (r r' : FlushInfo ι α) : Prop where
  inv : r'.ScanInv kinds (c :: active)
  within : r.Within (c :: kids.nodes) path r'.toChainState
  error : r.error = true → r'.error = true
  below : ∀ d, r'.parent d = some c → kinds.inode d = false → r'.flagged d = true →
    r'.Alarm c ∨ r'.error = true
  settled : r'.error = false → ∀ d ∈ kids.region kinds call c, Settled r'.tree d

/-- What the downward part leaves behind. -/
structure DownPost (kinds : ChainKinds ι) (call : FlushCall ι) (c : ι) (path : List ι)
    (kids : Forest ι) (active : List ι) (r r' : FlushInfo ι α) : Prop where
  inv : r'.ScanInv kinds active
  within : r.Within (c :: kids.nodes) path r'.toChainState
  error : r.error = true → r'.error = true
  raised : ∀ p, r'.parent c = some p → kinds.inode c = false → r'.onflush c = true → r'.Alarm p
  settled : r'.error = false → ∀ d ∈ kids.region kinds call c, Settled r'.tree d

theorem clearOnflush_within (nodes path : List ι) (s : ChainState ι α) (hc : c ∈ nodes) :
    s.Within nodes path (s.clearOnflush c) := by
  have hother : ∀ d ∉ nodes, (s.clearOnflush c).onflush d = s.onflush d :=
    fun d hd => Function.update_of_ne (ne_of_mem_of_not_mem hc hd).symm _ _
  exact ⟨rfl, fun _ _ _ => rfl, fun d hd _ => hother d hd, fun d hd ho => (hother d hd).trans ho,
    fun _ _ => rfl⟩

/-- One chain of a flush together with the chains below it: how they stand, and the scan over the
children. -/
structure CoreSite (kinds : ChainKinds ι) (call : FlushCall ι) (c : ι) (path : List ι)
    (kids : Forest ι) (active : List ι) (parent : ι → Option ι)
    (scanKids : FlushInfo ι α → FlushInfo ι α) : Prop where
  ascends : Ascends parent (c :: path)
  apart : c ∉ path
  idle : c ∉ active
  idleKids : ∀ q ∈ kids.nodes, q ∉ active
  apartKids : ∀ q ∈ kids.nodes, q ∉ c :: path
  noKid : ∀ q ∈ active, parent q ≠ some c
  fits : kids.Fits parent c
  all : ∀ d, parent d = some c → d ∈ kids.roots
  scan : ∀ r : FlushInfo ι α, r.parent = parent → r.ScanInv kinds (c :: active) →
    ScanPost kinds call c path kids (c :: active) r (scanKids r)

section

variable {parent : ι → Option ι} {scanKids : FlushInfo ι α → FlushInfo ι α}

theorem CoreSite.quiet (hs : CoreSite kinds call c path kids active parent scanKids)
    (hparent : s.parent = parent) (h : s.ScanInv kinds active) (halarm : ¬s.Alarm c) :
    ∀ d ∈ kids.region kinds call c, Settled s.tree d :=
  Forest.quiet_below (hparent ▸ hs.fits) (fun q hq => h.marked q (hs.idleKids q hq))
    (h.marked c hs.idle) halarm

theorem flushPass_spec {active' : List ι}
    (hs : CoreSite kinds call c path kids active parent scanKids) (hparent : r.parent = parent)
    (h : r.ScanInv kinds active') (hle : ∀ q ∈ active', q ∈ c :: active)
    (hge : ∀ q ∈ active, q ∈ active') :
    PassPost kinds call c path kids active r (flushPass c scanKids r) := by
  have henter := h.enter hle hge (hparent ▸ hs.noKid)
  have hpost := hs.scan { r with toChainState := r.clearOnflush c } hparent henter
  have hclear := clearOnflush_within (c :: kids.nodes) path r.toChainState List.mem_cons_self
  refine ⟨hpost.inv, hclear.trans hpost.within.lift, hpost.error, ?_, hpost.settled⟩
  intro d hd hi hf
  refine hpost.roots d (hs.all d ?_) hi hf
  rw [← hparent, ← hd]
  exact congrFun hpost.within.parent.symm d

theorem flushDown_spec (hs : CoreSite kinds call c path kids active parent scanKids)
    (hparent : r.parent = parent) (h : r.ScanInv kinds active) :
    DownPost kinds call c path kids active r (flushDown kinds c path scanKids r) := by
  have h₁ := flushPass_spec (r := { r with error := false }) hs hparent h
    (fun q hq => List.mem_cons_of_mem _ hq) fun q hq => hq
  unfold flushDown
  dsimp only
  generalize flushPass c scanKids { r with error := false } = r₁ at h₁
  have hparent₁ : r₁.parent = parent := h₁.within.parent.trans hparent
  have h₂ : PassPost kinds call c path kids active { r with error := false }
      (if r₁.onflush c = true then flushPass c scanKids r₁ else r₁) := by
    split
    next =>
      have h' := flushPass_spec hs hparent₁ h₁.inv (fun q hq => hq)
        fun q hq => List.mem_cons_of_mem _ hq
      exact ⟨h'.inv, h₁.within.trans h'.within, fun he => h'.error (h₁.error he), h'.below,
        h'.settled⟩
    next => exact h₁
  generalize (if r₁.onflush c = true then flushPass c scanKids r₁ else r₁) = r₂ at h₂
  have hparent₂ : r₂.parent = parent := h₂.within.parent.trans hparent
  by_cases herr : r₂.error = true
  · rw [if_pos herr]
    have hraise := setFlush_raises kinds (s := r₂.toChainState) (hparent₂ ▸ hs.ascends)
    have hadv := hraise.advances
    have hinv := h₂.inv.advance hadv
    have hmarked : (r₂.setFlush kinds (c :: path)).Marked kinds c :=
      fun _ _ _ _ => Or.inl (setFlush_head c path)
    refine ⟨hinv.leave hmarked, ?_, fun _ => by rw [herr]; rfl, ?_, ?_⟩
    · have hw := (hraise.toWithin kids.nodes).lift
      exact h₂.within.trans hw
    · exact fun p hp hi ho => hinv.raised c p List.mem_cons_self hp hi ho
    · intro he
      rw [herr] at he
      cases he
  · rw [if_neg herr]
    have hmarked : r₂.Marked kinds c :=
      fun d hd hi hf => (h₂.below d hd hi hf).resolve_right herr
    refine ⟨h₂.inv.leave hmarked, h₂.within, fun he => by rw [he, Bool.or_true], ?_, ?_⟩
    · exact fun p hp hi ho => h₂.inv.raised c p List.mem_cons_self hp hi ho
    · exact fun _ => h₂.settled (by simpa using herr)

/-- What the flush of one chain leaves behind, with the chains below it. -/
structure CorePost (kinds : ChainKinds ι) (call : FlushCall ι) (top : Bool) (c : ι) (path : List ι)
    (kids : Forest ι) (active : List ι) (r r' : FlushInfo ι α) : Prop where
  inv : r'.ScanInv kinds active
  within : r.Within (c :: kids.nodes) path r'.toChainState
  error : r.error = true → r'.error = true
  kid : ∀ p, r'.parent c = some p → kinds.inode c = false → r'.flagged c = true →
    r'.Alarm p ∨ r'.error = true
  written : top = true ∨ kinds.inode c = false → r'.error = false →
    (r'.tree.node c).modified = false
  entered : top = true ∨ kinds.inode c = false → r'.error = false →
    call.keepsParent kinds c = false ∨ path = [] → (r'.tree.node c).update = false
  settled : top = true ∨ kinds.inode c = false → r'.error = false →
    ∀ d ∈ kids.region kinds call c, Settled r'.tree d

/-- A chain that no flush stops at. -/
theorem not_stopped {top : Bool} (h : top = true ∨ kinds.inode c = false) :
    call.stopsAtPfs kinds top c = false ∧ call.stopsAtInode kinds top c = false := by
  rcases h with rfl | h
  · simp [FlushCall.stopsAtPfs, FlushCall.stopsAtInode]
  · have hb : kinds.pfsBoundary c = false := by
      by_contra hb
      have hi := kinds.inode_of_boundary c (by simpa using hb)
      rw [h] at hi
      cases hi
    simp [FlushCall.stopsAtPfs, FlushCall.stopsAtInode, hb, h]

theorem CorePost.of_down (hs : CoreSite kinds call c path kids active parent scanKids)
    (hparent : r.parent = parent) (top : Bool) (h : DownPost kinds call c path kids active r r') :
    CorePost kinds call top c path kids active r (flushBottom kinds call c path r') := by
  have hparent' : r'.parent = parent := h.within.parent.trans hparent
  have hb := flushBottom_spec kinds call (r := r') (hparent' ▸ hs.ascends)
    hs.apart
  generalize flushBottom kinds call c path r' = r'' at hb
  have hinv := h.inv.advance hb.advances
  refine ⟨hinv, h.within.trans (hb.within.mono fun d hd => ?_), fun he => hb.error (h.error he),
    ?_, fun _ => hb.written, fun _ => hb.entered, ?_⟩
  · rw [List.mem_singleton.mp hd]
    exact List.mem_cons_self
  · intro p hp hi hf
    by_cases herr : r''.error = true
    · exact Or.inr herr
    have herr' : r''.error = false := by simpa using herr
    have hkeeps : call.keepsParent kinds c = false := by simp [FlushCall.keepsParent, hi]
    rw [flagged_iff, hb.written herr', hb.entered herr' (Or.inl hkeeps)] at hf
    rcases hf with hf | hf | hf | hf
    · cases hf
    · cases hf
    · rw [hb.onflush] at hf
      exact Or.inl (hb.advances.alarm p (h.raised p (hb.advances.parent ▸ hp) hi hf))
    · exact Or.inl (Or.inr (hinv.doomed c p hp hi hf))
  · intro _ he d hd
    have he' : r'.error = false := by
      by_contra hno
      have := hb.error (by simpa using hno)
      rw [he] at this
      cases this
    have hnode := Forest.mem_nodes_of_region hd
    have hout := hs.apartKids d hnode
    have hdc : d ∉ [c] := fun hn => hout (List.mem_singleton.mp hn ▸ List.mem_cons_self)
    have hdp : path.head? ≠ some d := by
      intro hp
      exact hout (List.mem_cons_of_mem _ (List.mem_of_mem_head? hp))
    unfold Settled
    rw [hb.within.node d hdc hdp]
    exact h.settled he' d hd

theorem flushCore_spec (hs : CoreSite kinds call c path kids active parent scanKids)
    (hparent : r.parent = parent) (h : r.ScanInv kinds active) (top : Bool) :
    CorePost kinds call top c path kids active r (flushCore kinds call top c path scanKids r) := by
  have hquiet : ¬r.Alarm c → ∀ d ∈ kids.region kinds call c, Settled r.tree d :=
    hs.quiet hparent h
  unfold flushCore
  by_cases hf : r.flagged c = false
  · rw [if_pos hf]
    have hset := settled_of_not_flagged hf
    refine ⟨h, .refl _ _ _, id, fun _ _ _ hf' => ?_, fun _ _ => hset.1, fun _ _ _ => hset.2,
      fun _ _ => hquiet fun ha => ?_⟩
    · rw [hf] at hf'
      cases hf'
    · have hf' : r.flagged c = true := by
        rw [flagged_iff]
        exact Or.inr (Or.inr ha)
      rw [hf] at hf'
      cases hf'
  rw [if_neg hf]
  -- the two stops leave everything below an inode to someone else
  have hstop : ∀ r' : FlushInfo ι α, r.Raises kinds path r'.toChainState → r'.error = r.error →
      ¬(top = true ∨ kinds.inode c = false) → CorePost kinds call top c path kids active r r' := by
    intro r' hr he hno
    exact ⟨h.advance hr.advances, (hr.toWithin _), fun hr' => he ▸ hr',
      fun p _ hi => absurd (Or.inr hi) hno, fun hy => absurd hy hno, fun hy => absurd hy hno,
      fun hy => absurd hy hno⟩
  by_cases hpfs : call.stopsAtPfs kinds top c = true
  · rw [if_pos hpfs]
    have hno : ¬(top = true ∨ kinds.inode c = false) := by
      intro hy
      rw [(not_stopped hy).1] at hpfs
      cases hpfs
    split
    next => exact hstop _ (setFlush_raises kinds (hparent ▸ hs.ascends.2)) rfl hno
    next => exact hstop _ (.refl _ _) rfl hno
  rw [if_neg hpfs]
  by_cases hino : call.stopsAtInode kinds top c = true
  · rw [if_pos hino]
    refine hstop _ (.refl _ _) rfl fun hy => ?_
    rw [(not_stopped hy).2] at hino
    cases hino
  rw [if_neg hino]
  by_cases hdown : (r.onflush c || r.destroy c) = true
  · rw [if_pos hdown]
    exact .of_down hs hparent top (flushDown_spec hs hparent h)
  · rw [if_neg hdown]
    have hno : ¬r.Alarm c := by
      intro ha
      apply hdown
      rcases ha with ha | ha
      · rw [ha]
        rfl
      · rw [ha, Bool.or_true]
    exact .of_down hs hparent top ⟨h, .refl _ _ _, id,
      fun _ _ _ ho => absurd (Or.inl ho) hno, fun _ => hquiet hno⟩

/-- What `hammer2_flush_recurse` leaves behind for the child `c` of `p`. -/
structure RecursePost (kinds : ChainKinds ι) (call : FlushCall ι) (p : ι) (above : List ι) (c : ι)
    (kids : Forest ι) (active : List ι) (r r' : FlushInfo ι α) : Prop where
  inv : r'.ScanInv kinds active
  within : r.Within (c :: kids.nodes) (p :: above) r'.toChainState
  error : r.error = true → r'.error = true
  kid : kinds.inode c = false → r'.flagged c = true → r'.Alarm p ∨ r'.error = true
  settled : kinds.inode c = false → call.hides kinds p c = false → r'.error = false →
    Settled r'.tree c ∧ ∀ d ∈ kids.region kinds call c, Settled r'.tree d

theorem flushRecurse_spec (hs : CoreSite kinds call c (p :: above) kids active parent scanKids)
    (hparent : r.parent = parent) (h : r.ScanInv kinds active) :
    RecursePost kinds call p above c kids active r
      (flushRecurse kinds call p above c scanKids r) := by
  unfold flushRecurse
  dsimp only
  -- the error of the parent comes last and only voids what is promised
  have hlast : ∀ r' : FlushInfo ι α, RecursePost kinds call p above c kids active r r' →
      RecursePost kinds call p above c kids active r
        (if r'.chainError p = true then { r' with error := true } else r') := by
    intro r' hr
    split
    next => exact ⟨hr.inv, hr.within, fun _ => rfl, fun _ _ => Or.inr rfl,
      fun _ _ he => absurd he Bool.false_ne_true.symm⟩
    next => exact hr
  apply hlast
  by_cases herr : r.chainError c = true
  · rw [if_pos herr]
    exact ⟨h, .refl _ _ _, fun _ => rfl, fun _ _ => Or.inr rfl,
      fun _ _ he => absurd he Bool.false_ne_true.symm⟩
  rw [if_neg herr]
  have hpc : r.parent c = some p := hparent ▸ hs.ascends.1
  have hadv := inheritDestroy_advances kinds c r.toChainState
  have hwithin : r.Within (c :: kids.nodes) (p :: above) (r.inheritDestroy (some p) c) :=
    inheritDestroy_within (some p) List.mem_cons_self (p :: above) r.toChainState
  rw [hpc] at hadv
  have h₀ := h.advance hadv
  have hparent₀ := hadv.parent.trans hparent
  generalize r.inheritDestroy (some p) c = s₀ at hadv hwithin h₀ hparent₀
  have hrest : ∀ r' : FlushInfo ι α, RecursePost kinds call p above c kids active
      { r with toChainState := s₀ } r' → RecursePost kinds call p above c kids active r r' :=
    fun r' hr => ⟨hr.inv, hwithin.trans hr.within, hr.error, hr.kid, hr.settled⟩
  apply hrest
  by_cases hhide : (call.hides kinds p c && !s₀.destroy c) = true
  · rw [if_pos hhide]
    have hh : call.hides kinds p c = true := (Bool.and_eq_true_iff.mp hhide).1
    have hno : call.hides kinds p c ≠ false := by
      rw [hh]
      exact Bool.false_ne_true.symm
    split
    next =>
      have hpath₀ : Ascends s₀.parent (p :: above) := hparent₀ ▸ hs.ascends.2
      have hraise := setFlush_raises kinds hpath₀
      exact ⟨h₀.advance hraise.advances, hraise.toWithin _, id,
        fun _ _ => Or.inl (Or.inl (setFlush_head p above)), fun _ hn => absurd hn hno⟩
    next hf =>
      exact ⟨h₀, .refl _ _ _, id, fun _ hf' => absurd hf' hf, fun _ hn => absurd hn hno⟩
  rw [if_neg hhide]
  by_cases hf : s₀.flagged c = true
  · rw [if_pos hf]
    have hcore := flushCore_spec (r := { r with toChainState := s₀ }) hs hparent₀ h₀ false
    generalize flushCore kinds call false c (p :: above) scanKids { r with toChainState := s₀ } = r'
      at hcore
    have hpc' : r'.parent c = some p := by
      rw [hcore.within.parent]
      exact hparent₀ ▸ hs.ascends.1
    refine ⟨hcore.inv, hcore.within, hcore.error, fun hi hf' => hcore.kid p hpc' hi hf', ?_⟩
    intro hi _ he
    have hkeeps : call.keepsParent kinds c = false := by simp [FlushCall.keepsParent, hi]
    exact ⟨⟨hcore.written (Or.inr hi) he, hcore.entered (Or.inr hi) he (Or.inl hkeeps)⟩,
      hcore.settled (Or.inr hi) he⟩
  · rw [if_neg hf]
    refine ⟨h₀, .refl _ _ _, id, fun _ hf' => absurd hf' hf, fun _ _ _ => ⟨?_, ?_⟩⟩
    · exact settled_of_not_flagged (by simpa using hf)
    · refine hs.quiet hparent₀ h₀ fun ha => hf ?_
      rw [flagged_iff]
      exact Or.inr (Or.inr ha)

end

section

variable {parent : ι → Option ι}

theorem Forest.mem_kids {q : ι} (hq : q ∈ kids.nodes) : q ∈ (Forest.cons c kids rest).nodes :=
  List.mem_cons_of_mem _ (List.mem_append_left _ hq)

theorem Forest.mem_rest {q : ι} (hq : q ∈ rest.nodes) : q ∈ (Forest.cons c kids rest).nodes :=
  List.mem_cons_of_mem _ (List.mem_append_right _ hq)

theorem Forest.Below.ofKids (hF : (Forest.cons c kids rest).Below parent active (p :: above) p) :
    kids.Below parent (c :: active) (c :: p :: above) c := by
  obtain ⟨⟨-, hfits, -, -⟩, hnodup, hapart, hidle⟩ := hF
  obtain ⟨hcn, hnodup⟩ := List.nodup_cons.mp hnodup
  have hkc : ∀ q ∈ kids.nodes, q ≠ c := fun q hq heq => hcn (List.mem_append_left _ (heq ▸ hq))
  refine ⟨hfits, (List.nodup_append.mp hnodup).1, fun q hq hn => ?_, fun q hq hn => ?_⟩
  · exact (List.mem_cons.mp hn).elim (hkc q hq) (hapart q (mem_kids hq))
  · exact (List.mem_cons.mp hn).elim (hkc q hq) (hidle q (mem_kids hq))

theorem Forest.Below.ofRest (hF : (Forest.cons c kids rest).Below parent active (p :: above) p) :
    rest.Below parent active (p :: above) p :=
  ⟨hF.fits.2.2.2, (List.nodup_append.mp (List.nodup_cons.mp hF.nodup).2).2.1,
    fun q hq => hF.apart q (mem_rest hq), fun q hq => hF.idle q (mem_rest hq)⟩

/-- A child of `p` as a chain of the flush. -/
theorem Forest.Below.site {scanKids : FlushInfo ι α → FlushInfo ι α}
    (hF : (Forest.cons c kids rest).Below parent active (p :: above) p)
    (hpath : Ascends parent (p :: above)) (hsub : ∀ q ∈ active, q ∈ p :: above)
    (hscan : ∀ r : FlushInfo ι α, r.parent = parent → r.ScanInv kinds (c :: active) →
      ScanPost kinds call c (p :: above) kids (c :: active) r (scanKids r)) :
    CoreSite kinds call c (p :: above) kids active parent scanKids := by
  have hca : c ∉ p :: above := hF.apart c List.mem_cons_self
  exact ⟨⟨hF.fits.1, hpath⟩, hca, hF.idle c List.mem_cons_self, fun q hq => hF.idle q (mem_kids hq),
    hF.ofKids.apart, fun q hq hqc => hca (hpath.mem (hsub q hq) hqc), hF.fits.2.1, hF.fits.2.2.1,
    hscan⟩

theorem mem_cons_of_sub (hsub : ∀ q ∈ active, q ∈ path) : ∀ q ∈ c :: active, q ∈ c :: path := by
  intro q hq
  rcases List.mem_cons.mp hq with rfl | hq
  · exact List.mem_cons_self
  · exact List.mem_cons_of_mem _ (hsub q hq)

end

/-- The scan over the children of `p`, whose own `ONFLUSH` is cleared. -/
theorem flushScan_spec {parent : ι → Option ι} (hpath : Ascends parent (p :: above))
    (hF : F.Below parent active (p :: above) p) (hp : p ∈ active)
    (hsub : ∀ q ∈ active, q ∈ p :: above) (hparent : r.parent = parent)
    (h : r.ScanInv kinds active) :
    ScanPost kinds call p above F active r (flushScan kinds call F p above r) := by
  induction F generalizing p above active r with
  | nil =>
    exact ⟨h, .refl _ _ _, id, fun _ hc => absurd hc List.not_mem_nil,
      fun _ _ hc => absurd hc List.not_mem_nil⟩
  | cons c kids rest ihk ihr =>
    have hs : CoreSite kinds call c (p :: above) kids active parent
        (flushScan (α := α) kinds call kids c (p :: above)) :=
      hF.site hpath hsub fun r₁ hr₁ h₁ =>
        ihk ⟨hF.fits.1, hpath⟩ hF.ofKids List.mem_cons_self (mem_cons_of_sub hsub) hr₁ h₁
    have hca := hs.apart
    obtain ⟨hcn, hnodup⟩ := List.nodup_cons.mp hF.nodup
    have hdisj := (List.nodup_append.mp hnodup).2.2
    have h₁ := flushRecurse_spec hs hparent h
    unfold flushScan
    generalize flushRecurse kinds call p above c (flushScan kinds call kids c (p :: above)) r = r₁
      at h₁
    have h₂ := ihr hpath hF.ofRest hp hsub (h₁.within.parent.trans hparent) h₁.inv
    generalize flushScan kinds call rest p above r₁ = r₂ at h₂
    have herr : r₂.error = false → r₁.error = false := by
      intro he
      by_contra hno
      have := h₂.error (by simpa using hno)
      rw [he] at this
      cases this
    have hnode : ∀ q ∉ rest.nodes, q ∉ p :: above → r₂.tree.node q = r₁.tree.node q := by
      intro q hq hqp
      refine h₂.within.node q hq fun heq => hqp ?_
      rw [← Option.some.inj heq]
      exact List.mem_cons_self
    have hcr : c ∉ rest.nodes := fun hn => hcn (List.mem_append_right _ hn)
    refine ⟨h₂.inv, ?_, fun he => h₂.error (h₁.error he), ?_, ?_⟩
    · refine (h₁.within.mono fun q hq => ?_).trans (h₂.within.mono fun q => Forest.mem_rest)
      rcases List.mem_cons.mp hq with rfl | hq
      · exact List.mem_cons_self
      · exact Forest.mem_kids hq
    · intro q hq hi hf
      rcases List.mem_cons.mp hq with rfl | hq
      · have hf' : r₁.flagged q = true := by
          rw [flagged_iff] at hf ⊢
          rw [hnode q hcr hca, h₂.within.onflush q hcr hca, h₂.within.destroy q hcr] at hf
          exact hf
        have hpr : p ∉ rest.nodes := fun hn => hF.ofRest.apart p hn List.mem_cons_self
        rcases h₁.kid hi hf' with ha | he
        · exact Or.inl (ha.imp (h₂.within.keeps p hpr) fun hd => (h₂.within.destroy p hpr).trans hd)
        · exact Or.inr (h₂.error he)
      · exact h₂.roots q hq hi hf
    · intro he q hq
      unfold Forest.region at hq
      rcases List.mem_append.mp hq with hq | hq
      · split at hq
        next => cases hq
        next hin =>
          have hin' : kinds.inode c = false ∧ call.hides kinds p c = false := by simpa using hin
          obtain ⟨hset, hregion⟩ := h₁.settled hin'.1 hin'.2 (herr he)
          unfold Settled
          rcases List.mem_cons.mp hq with rfl | hq
          · rw [hnode q hcr hca]
            exact hset
          · have hqn := Forest.mem_nodes_of_region hq
            rw [hnode q (fun hn => hdisj q hqn q hn rfl) (hF.apart q (Forest.mem_kids hqn))]
            exact hregion q hq
      · exact h₂.settled he q hq

end Hammer2
