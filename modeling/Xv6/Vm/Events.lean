import Xv6.Vm.System

/-!
# The events of the system

`fork`, `exec`, `userinit` and the remaining calls, each with what it does to the views of the
slots, and `step_sys`: every event keeps the invariant of the system, whether or not memory runs
out. The one condition is that `userinit`, which ignores the failures of the functions it calls,
finds the seven pages it needs.
-/

namespace Xv6.Vm

open Function

variable {L : Layout} {g g' : Ghost} {s s' : State} {E : Fault → Prop}

/-! ## `fork` -/

theorem Kept.share {sp : Space} (h : Kept sp) (n : Nat) : Kept (sp.share n) := by
  intro v c hc
  simp only [Space.share] at hc
  split at hc
  · rw [Option.map_eq_some_iff] at hc
    obtain ⟨c', hc', rfl⟩ := hc
    exact ⟨(h v c' hc').1, fun _ => .inr rfl⟩
  · exact h v c hc

theorem take_sized {sp : Space} {n : Nat} (h : Sized sp n) : sp.take n = sp := by
  funext v
  simp only [Space.take]
  split
  next => rfl
  next hv =>
    symm
    rw [← Option.not_isSome_iff_eq_none, h v]
    exact hv

/-- The view after `fork` has shared its first `n` pages. -/
def View.share (V : View) (n : Nat) : View := { V with sp := V.sp.share n }

/-- The result of `fork`: the child shows what the parent shows, or there is no child. -/
def Forked (p np : Slot) (s : State) (V : Slot → View) (s' : State) (V' : Slot → View) : Prop :=
  s.failed < s'.failed ∧ (∃ m, V' = update V p ((V p).share m)) ∨
    s'.failed = s.failed ∧
      V' = update (update V p ((V p).share (npages (V p).sz))) np
        { (V p).share (npages (V p).sz) with state := .live }

theorem share_view_zero (V : View) : V.share 0 = V := by
  rw [View.share, share_zero]

/-- What a `fork` without memory for the child takes back: the slots, and the pages of every
table. -/
structure Undone (g : Ghost) (s : State) (g' : Ghost) (s' : State) : Prop where
  proc : s'.proc = s.proc
  held : s'.held = s.held
  pinned : Pinned ∅ g g'

/-- The slots and the pages after `allocproc` has taken slot `np` and `freeproc` has freed it. -/
theorem Undone.of_freed {g1 : Ghost} {s1 : State} {np : Slot} {r : Nat} (h : Sys L g s)
    (h' : Sys L g' s') (hsys1 : Sys L g1 s1) (hnp : (s.proc np).state = .unused)
    (hnp1 : (s1.proc np).state ≠ .unused) (hr : (s1.proc np).pagetable = r)
    (hnew : g.use r = .free) (hgone : (s'.proc np).state = .unused)
    (hproc1 : ∀ q, q ≠ np → s1.proc q = s.proc q) (hproc : ∀ q, q ≠ np → s'.proc q = s1.proc q)
    (hheld : s'.held = s.held) (hpinned : Pinned {r} g g') : Undone g s g' s' := by
  refine ⟨?_, hheld, hpinned.close h.books.holds h'.books.holds ?_ ?_⟩
  · funext q
    by_cases hq : q = np
    · rw [hq, h'.unused np hgone, h.unused np hnp]
    · rw [hproc q hq, hproc1 q hq]
  · refine h.books.holds.gone fun hroot => ?_
    have huse := (h.books.holds.tab _ _ _ _).mp hroot
    rw [hnew] at huse
    exact absurd huse (by simp)
  · refine h'.books.holds.gone fun hroot => ?_
    obtain ⟨q, hused, hq⟩ := h'.roots r hroot
    have hne : q ≠ np := by
      rintro rfl
      exact hused hgone
    rw [hproc q hne] at hused hq
    exact hne (hsys1.distinct q np hused hnp1 (hq.trans hr.symm))

theorem wp_fork_ends (h : Sys L g s) {p np : Slot} (hp : (s.proc p).state ≠ .unused)
    (hnp : (s.proc np).state = .unused) :
    wp (fork L p np) E (fun ret s' => ∃ g', Sys L g' s' ∧
      Forked p np s (view g s) s' (view g' s') ∧
      (ret = -1 ∧ s.failed < s'.failed ∧ Undone g s g' s' ∨
        ret = 0 ∧ s'.failed = s.failed)) s := by
  have hne : p ≠ np := by
    rintro rfl
    exact hp hnp
  rw [fork]
  refine wp_seq (wp_allocproc h hnp) ?_
  intro allocated s1 halloc
  obtain ⟨g1, hsys1, ⟨rfl, hfailed1, hview1, -, haround1⟩ |
    ⟨rfl, hfailed1, hview1, -, haround1, hfree⟩⟩ := halloc
  · rw [if_neg (by simp), wp_pure]
    refine ⟨g1, hsys1, .inl ⟨hfailed1, 0, ?_⟩, .inl ⟨rfl, hfailed1, ?_, haround1.held, ?_⟩⟩
    · rw [hview1, share_view_zero, update_eq_self]
    · funext q
      by_cases hq : q = np
      · have hstate : (s1.proc np).state = .unused :=
          (congrArg View.state (congrFun hview1 np)).trans hnp
        rw [hq, hsys1.unused np hstate, h.unused np hnp]
      · exact haround1.proc q hq
    · exact haround1.pinned h.books.holds hsys1.books.holds
  rw [if_pos rfl, wp_bind, wp_get, wp_bind]
  -- the two slots after `allocproc`
  have hviewp : view g1 s1 p = view g s p := by rw [hview1, update_of_ne hne]
  have hviewnp : view g1 s1 np = ⟨.live, 0, emptySpace⟩ := by rw [hview1, update_self]
  have hp1 : (s1.proc p).state ≠ .unused := by
    rw [show (s1.proc p).state = (s.proc p).state from congrArg View.state hviewp]
    exact hp
  have hlive : (s1.proc np).state = .live := congrArg View.state hviewnp
  have hnp1 : (s1.proc np).state ≠ .unused := by rw [hlive]; simp
  have hsz1 : (s1.proc np).sz = 0 := congrArg View.sz hviewnp
  have hempty : space g1 s1 (s1.proc np).pagetable = emptySpace := congrArg View.sp hviewnp
  have hslot := hsys1.slot p hp1
  have hslotnp := hsys1.slot np hnp1
  have htables : (s1.proc p).pagetable ≠ (s1.proc np).pagetable :=
    fun heq => hne (hsys1.distinct p np hp1 hnp1 heq)
  obtain ⟨sp, hsp⟩ : ∃ sp, sp = space g1 s1 (s1.proc p).pagetable := ⟨_, rfl⟩
  refine wp_mono (wp_uvmcopy hsys1.books hslot.root hslotnp.root htables hslot.sized
    (fun v => by rw [hempty]; rfl)) ?_
  intro copied s2 hcopied
  obtain ⟨g2, ⟨hstays, hresult⟩, hpinned2⟩ := hcopied
  rw [← hsp] at hresult
  have hsized : Sized sp (npages (s1.proc p).sz) := by rw [hsp]; exact hslot.sized
  have hkept : Kept sp := by rw [hsp]; exact hslot.kept
  have hother : ∀ q, q ≠ p → q ≠ np →
      space g2 s2 (s1.proc q).pagetable = space g1 s1 (s1.proc q).pagetable := by
    intro q hqp hqnp
    by_cases hunused : (s1.proc q).state = .unused
    · rw [hsys1.unused q hunused]
      exact (hstays.books.holds.gone_zero.space).trans (hsys1.books.holds.gone_zero.space).symm
    · refine hstays.frame.space _ ?_
      rintro (heq | heq)
      · exact hqp (hsys1.distinct q p hunused hp1 heq)
      · exact hqnp (hsys1.distinct q np hunused hnp1 heq)
  have hproc := hstays.frame.proc
  obtain ⟨rfl, hfailed2, ⟨m, hparent⟩, hchild⟩ | ⟨rfl, hfailed2, hparent, hchild⟩ := hresult
  · -- no memory for the child's table: the child is freed
    rw [if_pos (by decide), wp_bind]
    have hsys2 : Sys L g2 s2 := by
      refine hsys1.stays hstays s2.proc (by rw [hproc]; simp) (by rw [hproc]; exact hsys1.unused) ?_
      intro q hq
      rw [hproc]
      by_cases hqp : q = p
      · rw [hqp, hparent]
        exact ⟨hsized.share, hkept.share m⟩
      · by_cases hqnp : q = np
        · rw [hqnp, hsz1, funext hchild]
          refine ⟨fun v => ?_, fun v c hc => absurd hc (by simp)⟩
          rw [show npages 0 = 0 by decide]
          simp
        · rw [hother q hqp hqnp]
          exact ⟨(hsys1.slot q hq).sized, (hsys1.slot q hq).kept⟩
    refine wp_mono (wp_freeproc hsys2 (p := np) (by rw [hproc]; exact hnp1)) ?_
    intro _ s3 hfreed
    obtain ⟨g3, hsys3, hfailed3, hview3, haround3⟩ := hfreed
    rw [wp_pure]
    rw [hproc] at haround3
    have hundone : Undone g s g3 s3 := by
      refine .of_freed h hsys3 hsys1 hnp hnp1 rfl hfree ?_ haround1.proc ?_ ?_ ?_
      · exact congrArg View.state ((congrFun hview3 np).trans (update_self ..))
      · intro q hq
        rw [haround3.proc q hq, hproc]
      · rw [haround3.held, hstays.frame.held, haround1.held]
      · exact (haround1.pinned h.books.holds hsys1.books.holds).trans
          (hpinned2.trans (haround3.pinned hstays.books.holds hsys3.books.holds))
    refine ⟨g3, hsys3, .inl ⟨by omega, m, ?_⟩, .inl ⟨rfl, by omega, hundone⟩⟩
    rw [hview3]
    funext q
    by_cases hqnp : q = np
    · rw [hqnp, update_self, update_of_ne (Ne.symm hne), h.view_unused hnp]
      rfl
    · rw [update_of_ne hqnp]
      by_cases hqp : q = p
      · rw [hqp, update_self, ← hviewp, view, hproc, hparent, hsp]
        rfl
      · rw [update_of_ne hqp, view, hproc, hother q hqp hqnp]
        exact (congrFun hview1 q).trans (update_of_ne hqnp _ _)
  · rw [if_neg (by decide), wp_bind, wp_set_proc, wp_pure]
    obtain ⟨proc', hproc'⟩ : ∃ proc', proc' = update s2.proc np
      { s2.proc np with sz := (s1.proc p).sz } := ⟨_, rfl⟩
    have hnew : ∀ q, proc' q =
        if q = np then { s1.proc np with sz := (s1.proc p).sz } else s1.proc q := by
      intro q
      rw [hproc', hproc, update_apply]
    have hsys2 : Sys L g2 { s2 with proc := proc' } := by
      refine hsys1.stays hstays proc' ?_ ?_ ?_
      · intro q
        rw [hnew]
        split
        next hq => rw [hq]; simp
        next => simp
      · intro q hq
        rw [hnew]
        split
        next hqnp => exact absurd (hqnp ▸ hq) hnp1
        next => exact hsys1.unused q hq
      · intro q hq
        rw [hnew]
        by_cases hqnp : q = np
        · rw [if_pos hqnp, hqnp, hchild, take_sized hsized.share]
          exact ⟨hsized.share, hkept.share _⟩
        · rw [if_neg hqnp]
          by_cases hqp : q = p
          · rw [hqp, hparent]
            exact ⟨hsized.share, hkept.share _⟩
          · rw [hother q hqp hqnp]
            exact ⟨(hsys1.slot q hq).sized, (hsys1.slot q hq).kept⟩
    have hstate : s2.withProc np { s2.proc np with sz := (s1.proc p).sz } =
        { s2 with proc := proc' } := by rw [hproc']; rfl
    rw [hstate]
    have hsame : s2.failed = s.failed := by omega
    refine ⟨g2, hsys2, .inr ⟨hsame, ?_⟩, .inr ⟨rfl, hsame⟩⟩
    have hsz : (view g s p).sz = (s1.proc p).sz := by rw [← hviewp]; rfl
    have hspv : (view g s p).sp = sp := by rw [← hviewp, hsp]; rfl
    funext q
    show View.mk (proc' q).state (proc' q).sz (space g2 s2 (proc' q).pagetable) = _
    rw [hnew]
    by_cases hqnp : q = np
    · rw [if_pos hqnp, hqnp, update_self, hchild, take_sized hsized.share, hlive]
      simp only [View.share, hsz, hspv]
    · rw [if_neg hqnp, update_of_ne hqnp]
      by_cases hqp : q = p
      · rw [hqp, update_self, hparent, ← hviewp]
        simp only [View.share, view, hsp]
      · rw [update_of_ne hqp, hother q hqp hqnp]
        exact (congrFun hview1 q).trans (update_of_ne hqnp _ _)

theorem wp_fork (h : Sys L g s) {p np : Slot} (hp : (s.proc p).state ≠ .unused)
    (hnp : (s.proc np).state = .unused) :
    wp (fork L p np) E (fun _ s' => ∃ g', Sys L g' s' ∧
      Forked p np s (view g s) s' (view g' s')) s := by
  refine wp_mono (wp_fork_ends h hp hnp) ?_
  intro _ s' hpost
  obtain ⟨g', hsys, hforked, -⟩ := hpost
  exact ⟨g', hsys, hforked⟩

/-! ## `exec` -/

theorem Frame.root {T : Set Nat} (h : Frame T g s g' s') (hg : Holds L g s) (hg' : Holds L g' s')
    {r : Nat} (hr : r ∉ T) : g'.IsRoot r ↔ g.IsRoot r := by
  rw [Ghost.IsRoot, Ghost.IsRoot, hg'.tab, hg.tab]
  constructor
  · intro huse
    rw [← h.use r (.inr (by rw [huse]; exact hr)), huse]
  · intro huse
    rw [h.use r (.inl (by rw [huse]; exact hr)), huse]

theorem Sys.frame_empty (h : Sys L g s) (hframe : Frame ∅ g s g' s') (hbooks : Books L g' s') :
    Sys L g' s' ∧ view g' s' = view g s := by
  have hstays : Stays L ∅ g s g' s' :=
    ⟨hbooks, hframe, fun r => hframe.root h.books.holds hbooks.holds (by simp),
      fun r v _ => hframe.pt r v (by simp)⟩
  have hspace : ∀ r, space g' s' r = space g s r := fun r => hframe.space r (by simp)
  have hproc := hframe.proc
  constructor
  · refine h.stays hstays s'.proc (by rw [hproc]; simp) (by rw [hproc]; exact h.unused) ?_
    intro q hq
    rw [hproc, hspace]
    exact ⟨(h.slot q hq).sized, (h.slot q hq).kept⟩
  · funext q
    rw [view, hproc, hspace]
    rfl

theorem Granted.kept {sp : Space} (h : Granted sp) : Kept sp := by
  intro v c hc
  obtain ⟨hw, hu, -⟩ := h v c hc
  exact ⟨hu, fun hgrant => .inl (by rw [hw]; exact hgrant)⟩

/-- The result of `exec`: a new image with the permissions its pages were allocated with, or
nothing. -/
def Executed (p : Slot) (V V' : Slot → View) : Prop :=
  V' = V ∨ ∃ sz sp, Granted sp ∧ V' = update V p ⟨(V p).state, sz, sp⟩

/-- An image of `sz` bytes that `exec` builds for `p` in the new table `r`, from the state `s`. -/
structure Started (L : Layout) (p : Slot) (g : Ghost) (s : State) (r sz : Nat) (g1 : Ghost)
    (s1 : State) : Prop where
  free : g.use r = .free
  frame : Frame {r} g s g1 s1
  building : Building L r sz g1 s1
  topped : Topped L g1 r (s.proc p).trapframe

section Exec

variable {p : Slot} {r sz : Nat} {g1 : Ghost} {s1 : State}

theorem Started.stays (h : Started L p g s r sz g1 s1) {sz2 : Nat} {g2 : Ghost} {s2 : State}
    (hstays : Stays L {r} g1 s1 g2 s2) (hbuilding : Building L r sz2 g2 s2) :
    Started L p g s r sz2 g2 s2 where
  free := h.free
  frame := h.frame.trans hstays.frame
  building := hbuilding
  topped v hv := by
    rw [hstays.top r v hv]
    exact h.topped v hv

theorem wp_exec_table (h : Sys L g s) (hp : (s.proc p).state ≠ .unused) :
    wp (procPagetable L (s.proc p).trapframe) E (fun r s1 => s.failed ≤ s1.failed ∧
      (r = 0 ∧ s1.proc = s.proc ∧ (∃ g', Sys L g' s1 ∧ view g' s1 = view g s) ∨
        r ≠ 0 ∧ ∃ g1, Started L p g s r 0 g1 s1 ∧ Open (space g1 s1 r))) s := by
  have hpage := (h.books.holds.page_addr (show g.use (s.proc p).trapframe ≠ .outside by
    rw [(h.slot p hp).frame]; simp)).1
  refine wp_mono (wp_proc_pagetable h.books hpage) ?_
  intro r s1 hpost
  obtain ⟨g1, hacc, ⟨rfl, -, hframe, -⟩ | ⟨hne, -, hframe, hfree, hroot, hempty, htop, -⟩⟩ := hpost
  · obtain ⟨hsys, hview⟩ := h.frame_empty hframe hacc
    exact ⟨hframe.failed, .inl ⟨rfl, hframe.proc, g1, hsys, hview⟩⟩
  · refine ⟨hframe.failed, .inr ⟨hne, g1, ⟨hfree, hframe, ?_, htop⟩, fun v c hc => ?_⟩⟩
    · refine ⟨hacc, hroot, htop.safe, fun v => ?_, fun v c hc => ?_⟩
      · rw [hempty, show npages 0 = 0 by decide]
        simp
      · rw [hempty] at hc
        exact absurd hc (by simp)
    · rw [hempty] at hc
      exact absurd hc (by simp)

theorem wp_exec_bad (h : Sys L g s) (himage : Started L p g s r sz g1 s1) :
    wp (procFreepagetable L r sz) E (fun _ s' => s'.failed = s1.failed ∧ s'.proc = s.proc ∧
      ∃ g', Sys L g' s' ∧ view g' s' = view g s) s1 := by
  have hgone : Gone g r := h.books.holds.gone fun hno => by
    have huse := himage.free
    rw [(h.books.holds.tab _ _ _ _).mp hno] at huse
    exact absurd huse (by simp)
  have hbuilding := himage.building
  refine wp_mono (wp_proc_freepagetable hbuilding.books hbuilding.root hbuilding.sized
    himage.topped) ?_
  intro _ s2 hpost
  obtain ⟨g2, hacc, hframe2, hgone2, hfailed⟩ := hpost
  have hframe := himage.frame.trans hframe2
  obtain ⟨hsys, hview⟩ := h.frame_empty (hframe.close hgone hgone2) hacc
  exact ⟨hfailed, hframe.proc, g2, hsys, hview⟩

section

variable (h : Sys L g s) (hp : (s.proc p).state ≠ .unused)

include h hp

/-- The image is ready: the slot takes it and the old one goes. -/
theorem wp_exec_commit
    (himage : Started L p g s r sz g1 s1) :
    wp (do
      setProc p fun t => { t with pagetable := r, sz := sz }
      procFreepagetable L (s.proc p).pagetable (s.proc p).sz) E
      (fun _ s' => s.failed ≤ s'.failed ∧
        s'.proc p = { s.proc p with pagetable := r, sz := sz } ∧ ∃ g', Sys L g' s' ∧
        space g' s' r = space g1 s1 r ∧
        view g' s' = update (view g s) p ⟨(s.proc p).state, sz, space g1 s1 r⟩) s1 := by
  obtain ⟨hfree, hframe, hbuilding, htop⟩ := himage
  have hslot := h.slot p hp
  obtain ⟨old, hold⟩ : ∃ old, old = (s.proc p).pagetable := ⟨_, rfl⟩
  have hrootold : g.IsRoot old := by rw [hold]; exact hslot.root
  have hne : old ≠ r := by
    intro heq
    rw [← heq, (h.books.holds.tab _ _ _ _).mp hrootold] at hfree
    exact absurd hfree (by simp)
  have hproc1 : s1.proc p = s.proc p := by rw [hframe.proc]
  rw [wp_bind, wp_set_proc, ← hold, hproc1]
  obtain ⟨t, ht⟩ : ∃ t, t = ({ s.proc p with pagetable := r, sz := sz } : Proc) := ⟨_, rfl⟩
  rw [← ht]
  have htopold : Topped L g1 old (s.proc p).trapframe := by
    intro v hv
    rw [hframe.pt old v hne, hold]
    exact hslot.top v hv
  refine wp_mono (wp_proc_freepagetable (hbuilding.books.with_proc p t)
    ((hframe.root h.books.holds hbuilding.books.holds hne).mpr hrootold) ?_ htopold) ?_
  · show Sized (space g1 s1 old) _
    rw [hframe.space old hne, hold]
    exact hslot.sized
  intro _ s2 hpost
  obtain ⟨g2, hacc, hframe2, hgone, -⟩ := hpost
  have haround : Around p {old, r} g s g2 s2 :=
    ((hframe.mono (by simp)).around p).trans
      ((around_with_proc _ _ _ _ t).trans ((hframe2.mono (by simp)).around p))
  have hproc2 : s2.proc p = t := by
    rw [hframe2.proc]
    exact update_self ..
  have hspace2 : space g2 s2 r = space g1 s1 r := hframe2.space r (Ne.symm hne)
  have hroot2 : g2.IsRoot r :=
    (hframe2.root hbuilding.books.holds hacc.holds (Ne.symm hne)).mpr hbuilding.root
  have hrebuilt := h.rebuild haround hacc ?_ ?_ ?_ ?_ ?_
  · obtain ⟨hsys, hviews⟩ := hrebuilt
    refine ⟨haround.failed, hproc2, g2, hsys, hspace2, ?_⟩
    rw [view_update hviews, view, hproc2, ht]
    simp only [hspace2]
  · intro q hq hused hin
    obtain heq | heq := hin
    · exact hq (h.distinct q p hused hp (by rw [← hold]; exact heq))
    · have huse := (h.books.holds.tab _ _ _ _).mp (h.slot q hused).root
      rw [heq, hfree] at huse
      exact absurd huse (by simp)
  · intro hno
    rw [hproc2, ht] at hno
    exact absurd hno hp
  · intro _
    refine ⟨⟨?_, ?_, ?_, ?_, ?_⟩, ?_⟩
    · rw [hproc2, ht]
      exact hroot2
    · rw [hproc2, ht]
      intro v hv
      rw [hframe2.pt r v (Ne.symm hne)]
      exact htop v hv
    · rw [hproc2, ht]
      simp only [hspace2]
      exact hbuilding.sized
    · rw [hproc2, ht]
      show g2.use (s.proc p).trapframe = _
      have hmid : g1.use (s.proc p).trapframe = .trapframe p := by
        rw [hframe.use _ (.inl (by rw [hslot.frame]; trivial)), hslot.frame]
      rw [hframe2.use _ (.inl (by rw [hmid]; trivial)), hmid]
    · rw [hproc2, ht]
      simp only [hspace2]
      exact hbuilding.granted.kept
    · intro q hq hused heq
      rw [hproc2, ht] at heq
      have huse := (h.books.holds.tab _ _ _ _).mp (h.slot q hused).root
      rw [heq, hfree] at huse
      exact absurd huse (by simp)
  · intro r' hr' hin
    have hnew : r' = r := by
      obtain (heq | heq) | heq := hin
      · rw [heq] at hr'
        exact absurd ((hacc.holds.tab _ _ _ _).mp hr') (hgone.use old 2 0)
      · exact heq
      · rw [heq, ← hold] at hr'
        exact absurd ((hacc.holds.tab _ _ _ _).mp hr') (hgone.use old 2 0)
    rw [hproc2, ht, hnew]
    exact ⟨hp, rfl⟩
  · intro pa hpa
    rw [hframe2.use pa (.inr (by rw [hpa]; trivial))] at hpa
    rw [hframe.use pa (.inr (by rw [hpa]; trivial))] at hpa
    rw [hproc2, ht]
    exact h.frames pa p hpa

theorem wp_execImage (file : Reader) :
    wp (execImage L p file) E (fun out s' => s.failed ≤ s'.failed ∧
      match out with
      | none => s'.proc = s.proc ∧ ∃ g', Sys L g' s' ∧ view g' s' = view g s
      | some (r, sz) => ∃ g', Started L p g s r sz g' s') s := by
  simp only [execImage, wp_bind, wp_get, wp_ite, wp_pure]
  refine ⟨fun _ => ⟨le_rfl, trivial, g, h, rfl⟩, fun _ => ⟨fun _ => ⟨le_rfl, trivial, g, h, rfl⟩,
    fun _ => ?_⟩⟩
  refine wp_mono (wp_exec_table h hp) ?_
  intro r s1 htable
  obtain ⟨hfailed, ⟨rfl, hproc, hsys⟩ | ⟨hne, g1, himage, hopen⟩⟩ := htable
  · exact ⟨fun _ => ⟨hfailed, hproc, hsys⟩, fun hno => absurd rfl hno⟩
  refine ⟨fun hzero => absurd hzero hne, fun _ => ?_⟩
  refine wp_mono (wp_exec_segments himage.building hopen file) ?_
  intro out s2 hsegments
  obtain ⟨g2, hstays2, hbuilding2, -⟩ := hsegments
  have himage2 := himage.stays hstays2 hbuilding2
  refine ⟨fun _ => ?_, fun _ => ⟨himage2.frame.failed, g2, himage2⟩⟩
  refine wp_mono (wp_exec_bad h himage2) ?_
  rintro _ s' ⟨hfailed, hgone⟩
  exact ⟨himage2.frame.failed.trans hfailed.ge, hgone⟩

theorem wp_exec (file : Reader)
    (argv : List (List Byte)) :
    wp (exec L p file argv) E (fun _ s' => s.failed ≤ s'.failed ∧ ∃ g', Sys L g' s' ∧
      Executed p (view g s) (view g' s')) s := by
  simp only [exec, wp_bind, wp_get]
  refine wp_mono (wp_execImage h hp file) ?_
  rintro image s1 ⟨hfailed1, himage⟩
  cases image with
  | none =>
    obtain ⟨-, g', hsys, hview⟩ := himage
    exact ⟨hfailed1, g', hsys, .inl hview⟩
  | some start =>
    obtain ⟨g1, himage⟩ := himage
    refine wp_seq (wp_exec_stack himage.building argv) ?_
    rintro ⟨sz, top⟩ s2 ⟨g2, hstays, hbuilding⟩
    have himage2 := himage.stays hstays hbuilding
    cases top with
    | none =>
      refine wp_seq (wp_exec_bad h himage2) ?_
      rintro _ s' ⟨hfailed, -, g', hsys, hview⟩
      exact ⟨himage2.frame.failed.trans hfailed.ge, g', hsys, .inl hview⟩
    | some sp =>
      have hcommit := wp_exec_commit (E := E) h hp himage2
      rw [wp_bind] at hcommit
      simp only [wp_bind, wp_pure]
      refine wp_mono hcommit fun _ s3 hdone => wp_mono hdone ?_
      rintro _ s' ⟨hfailed, -, g', hsys, -, hview⟩
      exact ⟨hfailed, g', hsys, .inr ⟨_, _, hbuilding.granted, hview⟩⟩

end

end Exec

/-! ## `userinit` -/

/-- The cell of the first page of the first process. -/
def initCell (src : List Byte) : Cell :=
  ⟨⟨true, true, false, ⟨true, true⟩⟩, withPageBytes (fun _ => 0) 0 src⟩

/-- With three free pages `uvmfirst` maps the first page. -/
theorem wp_uvmfirst (h : Books L g s) {r : Nat} {src : List Byte} (hr : g.IsRoot r)
    (hnone : g.pt r 0 = none) (hroom : 3 ≤ g.nfree) (hlen : src.length < PGSIZE) :
    wp (uvmfirst r src) E (fun _ s' => ∃ g', Stays L {r} g s g' s' ∧ s'.failed = s.failed ∧
      space g' s' r = update (space g s r) 0 (some (initCell src))) s := by
  have hzero : (0 : Nat) < UPAGES := by decide
  rw [uvmfirst, if_neg (by omega)]
  refine wp_seq (wp_kalloc h.holds) ?_
  intro mem s1 hmem
  obtain ⟨hbooks1, ⟨rfl, hempty, -, -⟩ | ⟨hne, hfree, hholds1, hfailed1⟩⟩ := hmem
  · omega
  have haddr := (h.holds.page_addr (show g.use mem ≠ .outside by rw [hfree]; simp)).1
  have hcount : (g.take mem).nfree + 1 = g.nfree := by
    rw [← h.holds.nfree_update hfree (u := .hand) (by simp)]
    rfl
  have hhand : ((g.take mem).use mem).holdsData = true := by simp [Ghost.take, Use.holdsData]
  rw [wp_bind]
  refine wp_increment_ref haddr ?_
  rw [if_neg hne, wp_bind]
  have hset := wp_set_page (E := E) (s := s1.withRef mem (s1.pgref (mem / PGSIZE) + 1)) hholds1
    hhand fun _ => 0
  refine wp_mono hset ?_
  intro _ s2 hset
  obtain ⟨hbooks2, hfailed2, hholds2⟩ := hset
  rw [wp_bind]
  change wp ((fun _ => ()) <$> _) E _ s2
  rw [wp_map]
  have hmap := wp_mappages (E := E) hholds2 (a := 0) (l := ⟨mem, true, true, true, false⟩) hr
    (by decide) (by decide) hnone haddr
    (show PTE_W ||| PTE_R ||| PTE_X ||| PTE_U ||| PTE_V = leafFlags true true true false by decide)
  refine wp_mono hmap ?_
  intro mapped s3 hpost
  obtain ⟨g3, hpost⟩ := hpost
  rw [Nat.zero_div] at hpost
  obtain ⟨-, -, -, hfew⟩ | ⟨-, hfailed3, g4, hgrows, rfl⟩ := hpost.result
  · have hsame : ((g.take mem).fill mem fun _ => 0).nfree = (g.take mem).nfree := rfl
    omega
  rw [wp_bind, wp_grant, Nat.zero_div]
  obtain ⟨s4, hs4⟩ : ∃ s4, s4 = s3.withGrant r 0 ⟨true, true⟩ := ⟨_, rfl⟩
  rw [← hs4]
  -- the page becomes user memory before the program is copied
  have hkept : (g4.use mem).holdsData = true := by
    rw [hgrows.use mem (by simp [Ghost.fill, Ghost.take])]
    exact hhand
  have hdata : g4.data mem = fun _ => 0 := by
    rw [hgrows.data mem hhand]
    simp [Ghost.fill]
  have hholds4 : Holds L ((g4.map r 0 (some ⟨mem, true, true, true, false⟩)).own mem .user) s4 := by
    rw [hs4]
    exact hpost.holds.own hkept rfl
  refine wp_mono (wp_memmove hholds4 (show (((g4.map r 0
    (some ⟨mem, true, true, true, false⟩)).own mem .user).use mem).holdsData = true by
      simp [Ghost.own, Use.holdsData]) src) ?_
  intro _ s5 hmove
  obtain ⟨hbooks5, hfailed5, hholds5⟩ := hmove
  rw [show ((g4.map r 0 (some ⟨mem, true, true, true, false⟩)).own mem .user).data mem = fun _ => 0
    from hdata] at hholds5
  have hfailed : s5.failed = s.failed := by
    rw [hfailed5, hs4]
    show s3.failed = s.failed
    rw [hfailed3, hfailed2]
    exact hfailed1
  have hbooks : SameBooks ((s.withRef mem (s.pgref (mem / PGSIZE) + 1)).withGrant r 0 ⟨true, true⟩)
      s5 := by
    have hmid : SameBooks (s.withRef mem (s.pgref (mem / PGSIZE) + 1)) s3 := by
      have hfirst : SameBooks (s.withRef mem (s.pgref (mem / PGSIZE) + 1))
          (s1.withRef mem (s1.pgref (mem / PGSIZE) + 1)) := by
        refine ⟨?_, hbooks1.proc, hbooks1.held, hbooks1.granted⟩
        simp only [State.withRef, hbooks1.pgref]
      exact hfirst.trans (hbooks2.trans hpost.books)
    have hgrant := hmid.with_grant (r := r) (v := 0) (G := ⟨true, true⟩)
    rw [← hs4] at hgrant
    exact hgrant.trans hbooks5
  obtain ⟨g', hstays, hspace⟩ := stays_new_page (l := ⟨mem, true, true, true, false⟩) h hr hzero
    hnone (fun _ => rfl) hfree hgrows hholds5 hbooks hfailed.ge
  exact ⟨g', hstays, hfailed, hspace⟩

/-- The view of the first process. -/
def initView (initcode : List Byte) : View :=
  ⟨.live, PGSIZE, update emptySpace 0 (some (initCell initcode))⟩

/-- With seven free pages `userinit` makes the first process. -/
theorem wp_userinit (h : Sys L g s) {p : Slot} {initcode : List Byte}
    (hp : (s.proc p).state = .unused) (hroom : 7 ≤ g.nfree) (hlen : initcode.length < PGSIZE) :
    wp (userinit L p initcode) E (fun _ s' => ∃ g', Sys L g' s' ∧ s'.failed = s.failed ∧
      view g' s' = update (view g s) p (initView initcode)) s := by
  rw [userinit]
  refine wp_seq (wp_allocproc h hp) ?_
  intro allocated s1 halloc
  obtain ⟨g1, hsys1, ⟨-, -, -, hfew⟩ | ⟨rfl, hfailed1, hview1, hcount⟩⟩ := halloc
  · omega
  have hviewp : view g1 s1 p = ⟨.live, 0, emptySpace⟩ := by rw [hview1, update_self]
  have hlive : (s1.proc p).state ≠ .unused := by
    rw [show (s1.proc p).state = .live from congrArg View.state hviewp]
    simp
  have hempty : space g1 s1 (s1.proc p).pagetable = emptySpace := congrArg View.sp hviewp
  have hnone : g1.pt (s1.proc p).pagetable 0 = none := by
    cases hl : g1.pt (s1.proc p).pagetable 0 with
    | none => rfl
    | some l =>
      have hsome := space_some (s := s1) (show 0 < UPAGES by decide) hl
      rw [hempty] at hsome
      exact absurd hsome (by simp [emptySpace])
  rw [if_pos rfl, wp_bind, wp_get]
  refine wp_seq (wp_uvmfirst hsys1.books (hsys1.slot p hlive).root hnone (by omega) hlen) ?_
  intro _ s2 hfirst
  obtain ⟨g2, hstays, hfailed2, hspace⟩ := hfirst
  rw [wp_set_proc]
  rw [hempty] at hspace
  have hsized : Sized (space g2 s2 (s1.proc p).pagetable) (npages PGSIZE) := by
    rw [hspace, show npages PGSIZE = 0 + 1 by decide]
    exact Sized.update (by simp [Sized, emptySpace]) _
  have hkept : Kept (space g2 s2 (s1.proc p).pagetable) := by
    intro v c hc
    rw [hspace, update_apply] at hc
    split at hc
    · cases hc
      simp [initCell, Perm.Kept]
    · simp [emptySpace] at hc
  have hsize := hsys1.stays_size hlive hstays hsized hkept
  refine ⟨g2, hsize.1, hfailed2.trans hfailed1, ?_⟩
  refine hsize.2.trans ?_
  rw [hviewp, hspace, hview1, update_idem]
  rfl

end Xv6.Vm
