import Xv6.Vm.Image

/-!
# The processes of the system

`Sys` is the invariant between events: every slot in use has a page table of its own, with its
trapframe, the trampoline and as many user pages as its size says; every root and every trapframe
belongs to a slot; the pages the rest of the kernel took are those in `held`; and no page is in
the hands of running code. `view` is what a slot shows: its state, its size and its address
space. The lemmas about `allocproc`, `freeproc`, `fork`, `exec` and `growproc` say what becomes of
the views.
-/

namespace Xv6.Vm

open Function

variable {L : Layout} {g g' : Ghost} {s s' : State} {E : Fault → Prop} {p : Slot} {T : Set Nat}

/-- A page that has kept the permissions it was allocated with, the right to write possibly in
the form of the copy-on-write bit. -/
def Perm.Kept (p : Perm) : Prop :=
  p.u = p.grant.u ∧ (p.grant.w = true → p.w = true ∨ p.cow = true)

/-- Every page has kept its permissions. -/
def Kept (sp : Space) : Prop := ∀ v c, sp v = some c → c.perm.Kept

/-- What holds of a slot in use. -/
structure SlotOk (L : Layout) (g : Ghost) (s : State) (p : Slot) : Prop where
  root : g.IsRoot (s.proc p).pagetable
  top : Topped L g (s.proc p).pagetable (s.proc p).trapframe
  sized : Sized (space g s (s.proc p).pagetable) (npages (s.proc p).sz)
  frame : g.use (s.proc p).trapframe = .trapframe p
  kept : Kept (space g s (s.proc p).pagetable)

/-- The invariant of the system between events. -/
structure Sys (L : Layout) (g : Ghost) (s : State) : Prop where
  books : Books L g s
  unused : ∀ p, (s.proc p).state = .unused → s.proc p = {}
  slot : ∀ p, (s.proc p).state ≠ .unused → SlotOk L g s p
  distinct : ∀ p q, (s.proc p).state ≠ .unused → (s.proc q).state ≠ .unused →
    (s.proc p).pagetable = (s.proc q).pagetable → p = q
  roots : ∀ r, g.IsRoot r → ∃ p, (s.proc p).state ≠ .unused ∧ (s.proc p).pagetable = r
  frames : ∀ pa p, g.use pa = .trapframe p →
    (s.proc p).state ≠ .unused ∧ (s.proc p).trapframe = pa
  held : ∀ pa, g.use pa = .kernel ↔ pa ∈ s.held
  nodup : s.held.Nodup
  hand : ∀ pa, g.use pa ≠ .hand

/-! ## Views -/

/-- What a slot shows of its memory. -/
structure View where
  state : ProcState
  sz : Nat
  sp : Space

/-- The address space without pages. -/
def emptySpace : Space := fun _ => none

/-- What slot `p` shows. -/
def view (g : Ghost) (s : State) (p : Slot) : View :=
  ⟨(s.proc p).state, (s.proc p).sz, space g s (s.proc p).pagetable⟩

theorem Gone.space {r : Nat} (h : Gone g r) : space g s r = emptySpace := by
  funext v
  simp [Vm.space, h.pt, emptySpace]

theorem Rep.gone_zero {mem : Nat → Page} {freelist : Nat} (h : Rep L g mem freelist) :
    Gone g 0 := by
  refine h.gone fun hroot => ?_
  have huse := (h.tab _ _ _ _).mp hroot
  exact (h.page_addr (show g.use 0 ≠ .outside by rw [huse]; simp)).2.2 rfl

theorem Sys.view_unused (h : Sys L g s) (hp : (s.proc p).state = .unused) :
    view g s p = ⟨.unused, 0, emptySpace⟩ := by
  rw [view, h.unused p hp]
  simp only [h.books.holds.gone_zero.space]

/-! ## Operations on user memory -/

/-- An operation on the user memory of some processes, after which their sizes may be others. -/
theorem Sys.stays (h : Sys L g s) (hstays : Stays L T g s g' s') (proc' : Slot → Proc)
    (hsame : ∀ p, (proc' p).pagetable = (s.proc p).pagetable ∧
      (proc' p).trapframe = (s.proc p).trapframe ∧
      ((proc' p).state = .unused ↔ (s.proc p).state = .unused))
    (hunused : ∀ p, (s.proc p).state = .unused → proc' p = {})
    (hspace : ∀ p, (s.proc p).state ≠ .unused →
      Sized (space g' s' (s.proc p).pagetable) (npages (proc' p).sz) ∧
        Kept (space g' s' (s.proc p).pagetable)) :
    Sys L g' { s' with proc := proc' } := by
  have huse := hstays.frame.use
  refine ⟨⟨hstays.books.holds, hstays.books.counted⟩, ?_, ?_, ?_, ?_, ?_, ?_, ?_, ?_⟩
  · intro p hp
    exact hunused p ((hsame p).2.2.mp hp)
  · intro p hp
    obtain ⟨hpt, htf, hstate⟩ := hsame p
    have hused : (s.proc p).state ≠ .unused := fun hno => hp (hstate.mpr hno)
    have hold := h.slot p hused
    obtain ⟨hsized, hkept⟩ := hspace p hused
    have hproc : ({ s' with proc := proc' } : State).proc p = proc' p := rfl
    refine ⟨?_, ?_, ?_, ?_, ?_⟩
    · rw [hproc, hpt]
      exact (hstays.root _).mpr hold.root
    · rw [hproc, hpt, htf]
      intro v hv
      rw [hstays.top _ v hv]
      exact hold.top v hv
    · rw [hproc, hpt]
      exact hsized
    · rw [hproc, htf, huse _ (.inl (by rw [hold.frame]; trivial)), hold.frame]
    · rw [hproc, hpt]
      exact hkept
  · intro p q hp hq heq
    have hsamep := hsame p
    have hsameq := hsame q
    simp only at hp hq heq
    refine h.distinct p q (fun hno => hp (hsamep.2.2.mpr hno))
      (fun hno => hq (hsameq.2.2.mpr hno)) ?_
    rw [← hsamep.1, ← hsameq.1, heq]
  · intro r hr
    obtain ⟨p, hp, hpt⟩ := h.roots r ((hstays.root r).mp hr)
    exact ⟨p, fun hno => hp ((hsame p).2.2.mp hno), (hsame p).1.trans hpt⟩
  · intro pa p hpa
    rw [huse pa (.inr (by rw [hpa]; trivial))] at hpa
    obtain ⟨hp, htf⟩ := h.frames pa p hpa
    exact ⟨fun hno => hp ((hsame p).2.2.mp hno), (hsame p).2.1.trans htf⟩
  · intro pa
    show _ ↔ pa ∈ s'.held
    rw [hstays.frame.held, ← h.held pa]
    constructor
    · intro hpa
      rw [← huse pa (.inr (by rw [hpa]; trivial)), hpa]
    · intro hpa
      rw [huse pa (.inl (by rw [hpa]; trivial)), hpa]
  · show s'.held.Nodup
    rw [hstays.frame.held]
    exact h.nodup
  · intro pa hpa
    rw [huse pa (.inr (by rw [hpa]; trivial))] at hpa
    exact h.hand pa hpa

/-- The state with another size for slot `p`. -/
def State.withSz (s : State) (p : Slot) (n : Nat) : State :=
  { s with proc := update s.proc p { s.proc p with sz := n } }

/-- Slot `p` alone works on its memory and gets a new size. -/
theorem Sys.stays_size (h : Sys L g s) (hp : (s.proc p).state ≠ .unused)
    (hstays : Stays L {(s.proc p).pagetable} g s g' s') {n : Nat}
    (hsized : Sized (space g' s' (s.proc p).pagetable) (npages n))
    (hkept : Kept (space g' s' (s.proc p).pagetable)) :
    Sys L g' (s'.withSz p n) ∧ view g' (s'.withSz p n) = update (view g s) p
      { view g s p with sz := n, sp := space g' s' (s.proc p).pagetable } := by
  have hother : ∀ q, q ≠ p → space g' s' (s.proc q).pagetable = space g s (s.proc q).pagetable := by
    intro q hq
    by_cases hunused : (s.proc q).state = .unused
    · rw [h.unused q hunused]
      exact (hstays.books.holds.gone_zero.space).trans (h.books.holds.gone_zero.space).symm
    · exact hstays.frame.space _ fun heq => hq (h.distinct q p hunused hp heq)
  have hproc := hstays.frame.proc
  have hnew : ∀ q, (s'.withSz p n).proc q =
      if q = p then { s.proc p with sz := n } else s.proc q := by
    intro q
    simp only [State.withSz, hproc, update_apply]
  constructor
  · refine h.stays hstays (s'.withSz p n).proc ?_ ?_ ?_
    · intro q
      rw [hnew]
      split
      next hq => rw [hq]; simp
      next => simp
    · intro q hq
      rw [hnew]
      split
      next hqp => exact absurd (hqp ▸ hq) hp
      next => exact h.unused q hq
    · intro q hq
      rw [hnew]
      split
      next hqp =>
        rw [hqp]
        exact ⟨hsized, hkept⟩
      next hqp =>
        rw [hother q hqp]
        exact ⟨(h.slot q hq).sized, (h.slot q hq).kept⟩
  · funext q
    rw [view, hnew]
    by_cases hqp : q = p
    · rw [hqp, update_self, if_pos rfl]
      rfl
    · rw [update_of_ne hqp, if_neg hqp]
      show View.mk _ _ (space g' s' _) = _
      rw [hother q hqp]
      rfl

theorem with_sz_self (s : State) (p : Slot) : s.withSz p (s.proc p).sz = s := by
  simp [State.withSz]

/-- Slot `p` alone works on its memory and keeps its size. -/
theorem Sys.stays_one (h : Sys L g s) (hp : (s.proc p).state ≠ .unused)
    (hstays : Stays L {(s.proc p).pagetable} g s g' s')
    (hsized : Sized (space g' s' (s.proc p).pagetable) (npages (s.proc p).sz))
    (hkept : Kept (space g' s' (s.proc p).pagetable)) :
    Sys L g' s' ∧ view g' s' = update (view g s) p
      { view g s p with sp := space g' s' (s.proc p).pagetable } := by
  have hsize := h.stays_size hp hstays hsized hkept
  rw [show (s.proc p).sz = (s'.proc p).sz by rw [hstays.frame.proc], with_sz_self,
    hstays.frame.proc] at hsize
  exact hsize

theorem view_update_self (V : Slot → View) (p : Slot) :
    update V p { V p with sp := (V p).sp } = V := by
  simp

/-! ## `growproc` -/

theorem Kept.extend {sp : Space} {a b : Nat} {w : Bool} (h : Kept sp) :
    Kept (sp.extend a b (zeroCell w)) := by
  intro v c hc
  simp only [Space.extend] at hc
  split at hc
  · obtain rfl := Option.some.inj hc
    exact ⟨rfl, fun hw => .inl hw⟩
  · exact h v c hc

theorem Kept.without {sp : Space} {a b : Nat} (h : Kept sp) : Kept (sp.without a b) := by
  intro v c hc
  simp only [Space.without] at hc
  split at hc
  · exact absurd hc (by simp)
  · exact h v c hc

/-- What `growproc(n)` makes of a view. -/
def View.grow (V : View) (n : Int) : View :=
  let newsz := (((V.sz : Int) + n) % 2 ^ 64).toNat
  if 0 < n then
    { V with sz := max V.sz newsz, sp := V.sp.extend (npages V.sz) (npages newsz) (zeroCell true) }
  else if n < 0 then
    { V with sz := min V.sz newsz, sp := V.sp.without (npages newsz) (npages V.sz) }
  else V

/-- A process in use grows or shrinks, unless memory runs out. -/
theorem wp_growproc (h : Sys L g s) (hp : (s.proc p).state ≠ .unused) (n : Int) :
    wp (growproc L p n) E (fun _ s' => ∃ g', Sys L g' s' ∧
      (s'.failed = s.failed ∧
          view g' s' = update (view g s) p ((view g s p).grow n) ∨
        s.failed < s'.failed ∧ view g' s' = view g s)) s := by
  have hslot := h.slot p hp
  have hwritable : PTE_R ||| PTE_U ||| PTE_W ||| PTE_V = leafFlags true false true false := by
    decide
  simp only [growproc, wp_bind, wp_get]
  by_cases hpos : 0 < n
  · rw [if_pos hpos]
    refine wp_seq (wp_uvmalloc h.books hslot.root hslot.sized hwritable (by decide)) ?_
    intro grown s1 halloc
    obtain ⟨g1, hstays, ⟨rfl, hfailed, hspace⟩ | ⟨hret, hfailed, hspace⟩⟩ := halloc
    · rw [if_pos rfl, wp_pure]
      obtain ⟨hsys, hview⟩ := h.stays_one hp hstays (by rw [hspace]; exact hslot.sized)
        (by rw [hspace]; exact hslot.kept)
      refine ⟨g1, hsys, .inr ⟨hfailed, ?_⟩⟩
      rw [hview, hspace]
      exact view_update_self _ _
    · have hsized : Sized (space g1 s1 (s.proc p).pagetable) (npages grown) := by
        rw [hspace, hret, npages_max]
        exact hslot.sized.extend_max _
      have hkept : Kept (space g1 s1 (s.proc p).pagetable) := by
        rw [hspace]
        exact hslot.kept.extend
      have hgrow : (view g s p).grow n =
          { view g s p with sz := grown, sp := space g1 s1 (s.proc p).pagetable } := by
        simp only [View.grow, view, if_pos hpos]
        rw [hspace, hret]
      rw [wp_ite, wp_pure]
      constructor
      · intro hzero
        -- the old and the new size are both zero
        have hsz : (s.proc p).sz = grown := by omega
        obtain ⟨hsys, hview⟩ := h.stays_one hp hstays (by rw [hsz]; exact hsized) hkept
        refine ⟨g1, hsys, .inl ⟨hfailed, ?_⟩⟩
        rw [hview, hgrow, ← hsz]
        rfl
      · intro _
        obtain ⟨hsys, hview⟩ := h.stays_size hp hstays hsized hkept
        refine ⟨g1, hsys, .inl ⟨hfailed, ?_⟩⟩
        rw [hgrow]
        exact hview
  · rw [if_neg hpos]
    by_cases hneg : n < 0
    · rw [if_pos hneg]
      refine wp_seq (wp_uvmdealloc h.books hslot.root hslot.sized) ?_
      intro shrunk s1 hdealloc
      obtain ⟨g1, hstays, hfailed, -, hret, hspace⟩ := hdealloc
      obtain ⟨newsz, hnewsz⟩ : ∃ newsz, newsz = ((((s.proc p).sz : Int) + n) % 2 ^ 64).toNat :=
        ⟨_, rfl⟩
      rw [← hnewsz, ← min_def] at hret
      rw [← hnewsz] at hspace
      have hsized : Sized (space g1 s1 (s.proc p).pagetable) (npages shrunk) := by
        rw [hspace, hret]
        rcases le_total (s.proc p).sz newsz with hle | hle
        · rw [min_eq_left hle, without_ge (npages_mono hle)]
          exact hslot.sized
        · rw [min_eq_right hle]
          exact hslot.sized.without (npages_mono hle)
      have hkept : Kept (space g1 s1 (s.proc p).pagetable) := by
        rw [hspace]
        exact hslot.kept.without
      obtain ⟨hsys, hview⟩ := h.stays_size hp hstays hsized hkept
      refine ⟨g1, hsys, .inl ⟨hfailed, ?_⟩⟩
      have hgrow : (view g s p).grow n =
          { view g s p with sz := shrunk, sp := space g1 s1 (s.proc p).pagetable } := by
        simp only [View.grow, view, if_neg hpos, if_pos hneg]
        rw [← hnewsz, hspace, hret]
      rw [hgrow]
      exact hview
    · rw [if_neg hneg, wp_pure]
      refine ⟨g, h, .inl ⟨rfl, ?_⟩⟩
      simp [View.grow, hpos, hneg]

/-! ## Work on one slot -/

/-- The owners of pages that work on slot `p` and the tables in `T` leaves alone. -/
def Use.FixedFor (p : Slot) (T : Set Nat) (u : Use) : Prop := u.Fixed T ∧ u ≠ .trapframe p

/-- Nothing but slot `p`, its trapframe, the tables in `T`, user memory and the free list has
changed. -/
structure Around (p : Slot) (T : Set Nat) (g : Ghost) (s : State) (g' : Ghost) (s' : State) :
    Prop where
  proc : ∀ q, q ≠ p → s'.proc q = s.proc q
  held : s'.held = s.held
  failed : s.failed ≤ s'.failed
  use : ∀ pa, (g.use pa).FixedFor p T ∨ (g'.use pa).FixedFor p T → g'.use pa = g.use pa
  pt : ∀ r v, r ∉ T → g'.pt r v = g.pt r v
  space : ∀ r, r ∉ T → space g' s' r = space g s r

theorem Around.trans {g1 g2 g3 : Ghost} {s1 s2 s3 : State} (h : Around p T g1 s1 g2 s2)
    (h' : Around p T g2 s2 g3 s3) : Around p T g1 s1 g3 s3 := by
  refine ⟨?_, h'.held.trans h.held, h.failed.trans h'.failed, ?_, ?_, ?_⟩
  · intro q hq
    rw [h'.proc q hq, h.proc q hq]
  · intro pa hpa
    have := h.use pa
    have := h'.use pa
    grind
  · intro r v hr
    rw [h'.pt r v hr, h.pt r v hr]
  · intro r hr
    rw [h'.space r hr, h.space r hr]

theorem Frame.around (h : Frame T g s g' s') (p : Slot) : Around p T g s g' s' :=
  ⟨fun q _ => by rw [h.proc], h.held, h.failed,
    fun pa hpa => h.use pa (hpa.imp And.left And.left), h.pt, h.space⟩

theorem Around.pinned (h : Around p T g s g' s') (hg : Holds L g s) (hg' : Holds L g' s') :
    Pinned T g g' := by
  refine ⟨fun r l x hr => tab_eq_of_use hg hg' (fun pa l x => ?_) l x,
    fun r v hr => by rw [h.pt r v hr]⟩
  constructor
  · intro htab
    rw [← h.use pa (.inr (by rw [htab]; exact ⟨hr, by simp⟩)), htab]
  · intro htab
    rw [h.use pa (.inl (by rw [htab]; exact ⟨hr, by simp⟩)), htab]

/-- The state with slot `p` assigned to. -/
def State.withProc (s : State) (p : Slot) (t : Proc) : State :=
  { s with proc := update s.proc p t }

theorem wp_set_proc {f : Proc → Proc} {Q : Unit → State → Prop} :
    wp (setProc p f) E Q s ↔ Q () (s.withProc p (f (s.proc p))) := Iff.rfl

theorem around_with_proc (p : Slot) (T : Set Nat) (g : Ghost) (s : State) (t : Proc) :
    Around p T g s g (s.withProc p t) :=
  ⟨fun _ hq => update_of_ne hq _ _, rfl, le_rfl, fun _ _ => rfl, fun _ _ _ => rfl,
    fun _ _ => rfl⟩

theorem Books.with_proc (h : Books L g s) (p : Slot) (t : Proc) : Books L g (s.withProc p t) :=
  ⟨h.holds, h.counted⟩

theorem around_free_frame {pa : Nat} (h : Books L g s) (hpa : g.use pa = .trapframe p)
    (hbooks : SameBooks s s') (hfailed : s'.failed = s.failed) (hholds : Holds L (g.give pa) s') :
    Books L (g.give pa) s' ∧ Around p T g s (g.give pa) s' := by
  constructor
  · refine ⟨hholds, ?_⟩
    rw [hbooks.pgref]
    refine h.counted.same rfl fun q => ?_
    simp only [Ghost.give, update_apply]
    grind
  · refine ⟨fun q _ => by rw [hbooks.proc], hbooks.held, hfailed.ge, ?_, fun _ _ _ => rfl, ?_⟩
    · intro q hq
      simp only [Ghost.give, update_apply] at hq ⊢
      grind [Use.FixedFor, Use.Fixed]
    · intro r _
      exact space_congr (fun _ _ => rfl) (fun _ _ _ _ => rfl) fun v _ => by rw [hbooks.granted]

theorem around_new_frame {pa : Nat} (h : Books L g s) (hpa : g.use pa = .free)
    (hbooks : SameBooks s s') (hfailed : s'.failed = s.failed) (hholds : Holds L (g.take pa) s') :
    Books L ((g.take pa).own pa (.trapframe p)) s' ∧
      Around p T g s ((g.take pa).own pa (.trapframe p)) s' := by
  have hown := hholds.own (u := .trapframe p) (show ((g.take pa).use pa).holdsData = true by
    simp [Ghost.take, Use.holdsData]) rfl
  constructor
  · refine ⟨hown, ?_⟩
    rw [hbooks.pgref]
    refine h.counted.same rfl fun q => ?_
    simp only [Ghost.own, Ghost.take, update_apply]
    grind
  · refine ⟨fun q _ => by rw [hbooks.proc], hbooks.held, hfailed.ge, ?_, fun _ _ _ => rfl, ?_⟩
    · intro q hq
      simp only [Ghost.own, Ghost.take, update_apply] at hq ⊢
      grind [Use.FixedFor, Use.Fixed]
    · intro r _
      refine space_congr (fun _ _ => rfl) ?_ fun v _ => by rw [hbooks.granted]
      intro v l hv hl
      have hne : l.pa ≠ pa := h.counted.unmapped (by rw [hpa]; simp) hv hl
      simp only [Ghost.own, Ghost.take, update_of_ne hne]

theorem Sys.rebuild (h : Sys L g s) (haround : Around p T g s g' s') (hbooks : Books L g' s')
    (hothers : ∀ q, q ≠ p → (s.proc q).state ≠ .unused → (s.proc q).pagetable ∉ T)
    (hunused : (s'.proc p).state = .unused → s'.proc p = {})
    (hslot : (s'.proc p).state ≠ .unused → SlotOk L g' s' p ∧
      ∀ q, q ≠ p → (s.proc q).state ≠ .unused → (s.proc q).pagetable ≠ (s'.proc p).pagetable)
    (hroots : ∀ r, g'.IsRoot r → r ∈ T ∨ r = (s.proc p).pagetable →
      (s'.proc p).state ≠ .unused ∧ (s'.proc p).pagetable = r)
    (hframes : ∀ pa, g'.use pa = .trapframe p →
      (s'.proc p).state ≠ .unused ∧ (s'.proc p).trapframe = pa) :
    Sys L g' s' ∧ ∀ q, q ≠ p → view g' s' q = view g s q := by
  have hspace : ∀ q, q ≠ p →
      space g' s' (s.proc q).pagetable = space g s (s.proc q).pagetable := by
    intro q hq
    by_cases hq' : (s.proc q).state = .unused
    · rw [h.unused q hq']
      exact (hbooks.holds.gone_zero.space).trans (h.books.holds.gone_zero.space).symm
    · exact haround.space _ (hothers q hq hq')
  have hroot : ∀ r, r ∉ T → (g'.IsRoot r ↔ g.IsRoot r) := by
    intro r hr
    rw [Ghost.IsRoot, Ghost.IsRoot, hbooks.holds.tab, h.books.holds.tab]
    constructor
    · intro huse
      rw [← haround.use r (.inr (by rw [huse]; exact ⟨hr, by simp⟩)), huse]
    · intro huse
      rw [haround.use r (.inl (by rw [huse]; exact ⟨hr, by simp⟩)), huse]
  refine ⟨⟨hbooks, ?_, ?_, ?_, ?_, ?_, ?_, ?_, ?_⟩, ?_⟩
  · intro q hq
    by_cases hqp : q = p
    · rw [hqp] at hq ⊢
      exact hunused hq
    · rw [haround.proc q hqp] at hq ⊢
      exact h.unused q hq
  · intro q hq
    by_cases hqp : q = p
    · rw [hqp] at hq ⊢
      exact (hslot hq).1
    · have hproc := haround.proc q hqp
      rw [hproc] at hq
      have hold := h.slot q hq
      refine ⟨?_, ?_, ?_, ?_, ?_⟩
      · rw [hproc]
        exact (hroot _ (hothers q hqp hq)).mpr hold.root
      · rw [hproc]
        intro v hv
        rw [haround.pt _ v (hothers q hqp hq)]
        exact hold.top v hv
      · rw [hproc, hspace q hqp]
        exact hold.sized
      · rw [hproc, haround.use _ (.inl (by rw [hold.frame]; exact ⟨trivial, by simpa using hqp⟩)),
          hold.frame]
      · rw [hproc, hspace q hqp]
        exact hold.kept
  · intro q q' hq hq' heq
    by_cases hqp : q = p
    · by_cases hqp' : q' = p
      · rw [hqp, hqp']
      · rw [hqp] at hq heq
        rw [haround.proc q' hqp'] at hq' heq
        exact absurd heq.symm ((hslot hq).2 q' hqp' hq')
    · rw [haround.proc q hqp] at hq heq
      by_cases hqp' : q' = p
      · rw [hqp'] at hq' heq
        exact absurd heq ((hslot hq').2 q hqp hq)
      · rw [haround.proc q' hqp'] at hq' heq
        exact h.distinct q q' hq hq' heq
  · intro r hr
    by_cases hrT : r ∈ T ∨ r = (s.proc p).pagetable
    · exact ⟨p, hroots r hr hrT⟩
    · obtain ⟨q, hq, hqr⟩ := h.roots r ((hroot r fun hno => hrT (.inl hno)).mp hr)
      have hqp : q ≠ p := by
        rintro rfl
        exact hrT (.inr hqr.symm)
      exact ⟨q, by rw [haround.proc q hqp]; exact hq, by rw [haround.proc q hqp]; exact hqr⟩
  · intro pa q hpa
    by_cases hqp : q = p
    · rw [hqp] at hpa ⊢
      exact hframes pa hpa
    · rw [haround.use pa (.inr (by rw [hpa]; exact ⟨trivial, by simpa using hqp⟩))] at hpa
      rw [haround.proc q hqp]
      exact h.frames pa q hpa
  · intro pa
    rw [haround.held, ← h.held pa]
    constructor
    · intro hpa
      rw [← haround.use pa (.inr (by rw [hpa]; exact ⟨trivial, by simp⟩)), hpa]
    · intro hpa
      rw [haround.use pa (.inl (by rw [hpa]; exact ⟨trivial, by simp⟩)), hpa]
  · rw [haround.held]
    exact h.nodup
  · intro pa hpa
    rw [haround.use pa (.inr (by rw [hpa]; exact ⟨trivial, by simp⟩))] at hpa
    exact h.hand pa hpa
  · intro q hq
    rw [view, haround.proc q hq, hspace q hq]
    rfl

/-! ## `freeproc` and `allocproc` -/

/-- The view of an UNUSED slot. -/
def View.unused : View := ⟨.unused, 0, emptySpace⟩

theorem view_update {V V' : Slot → View} (hothers : ∀ q, q ≠ p → V' q = V q) :
    V' = update V p (V' p) := by
  funext q
  by_cases hq : q = p
  · rw [hq, update_self]
  · rw [update_of_ne hq, hothers q hq]

theorem wp_freeproc (h : Sys L g s) (hp : (s.proc p).state ≠ .unused) :
    wp (freeproc L p) E (fun _ s' => ∃ g', Sys L g' s' ∧ s'.failed = s.failed ∧
      view g' s' = update (view g s) p .unused ∧
      Around p {(s.proc p).pagetable} g s g' s') s := by
  have hslot := h.slot p hp
  obtain ⟨r, hr⟩ : ∃ r, r = (s.proc p).pagetable := ⟨_, rfl⟩
  obtain ⟨tf, htf⟩ : ∃ tf, tf = (s.proc p).trapframe := ⟨_, rfl⟩
  have hroot : g.IsRoot r := by rw [hr]; exact hslot.root
  have hframe : g.use tf = .trapframe p := by rw [htf]; exact hslot.frame
  have htf0 : tf ≠ 0 := (h.books.holds.page_addr (show g.use tf ≠ .outside by
    rw [hframe]; simp)).2.2
  have hr0 : r ≠ 0 := by
    have huse := (h.books.holds.tab _ _ _ _).mp hroot
    exact (h.books.holds.page_addr (show g.use r ≠ .outside by rw [huse]; simp)).2.2
  simp only [freeproc, wp_bind, wp_get]
  rw [← htf, ← hr, if_pos htf0]
  refine wp_seq (wp_kfree h.books.holds (show (g.use tf).holdsData = true by rw [hframe]; rfl)) ?_
  intro _ s1 hfree
  obtain ⟨hbooks1, hfailed1, hholds1⟩ := hfree
  obtain ⟨hacc1, haround1⟩ :=
    around_free_frame (T := {r}) h.books hframe hbooks1 hfailed1 hholds1
  rw [wp_bind, wp_set_proc]
  obtain ⟨t, ht⟩ : ∃ t, t = ({ s1.proc p with trapframe := 0 } : Proc) := ⟨_, rfl⟩
  rw [← ht, if_pos hr0, wp_bind]
  have hspace1 : space (g.give tf) (s1.withProc p t) r = space g s r := by
    refine space_congr (fun _ _ => rfl) (fun _ _ _ _ => rfl) fun v _ => ?_
    show s1.granted r v = _
    rw [hbooks1.granted]
  have htopped : Topped L (g.give tf) r tf := by
    rw [hr, htf]
    exact hslot.top
  refine wp_mono (wp_proc_freepagetable (hacc1.with_proc p t) hroot ?_ htopped) ?_
  · rw [hspace1, hr]
    exact hslot.sized
  · intro _ s2 hpost
    obtain ⟨g2, hacc2, hframe2, hgone, hfailed2⟩ := hpost
    rw [wp_set_proc]
    obtain ⟨s3, hs3⟩ : ∃ s3, s3 = s2.withProc p {} := ⟨_, rfl⟩
    have haround : Around p {r} g s g2 s3 := by
      rw [hs3]
      exact (haround1.trans (around_with_proc _ _ _ _ t)).trans
        ((hframe2.around p).trans (around_with_proc _ _ _ _ _))
    have hproc : s3.proc p = {} := by
      rw [hs3]
      exact update_self ..
    have hacc3 : Books L g2 s3 := by
      rw [hs3]
      exact hacc2.with_proc p _
    have hnoroot : ¬ g2.IsRoot r := fun hno => hgone.use r 2 0 ((hacc2.holds.tab _ _ _ _).mp hno)
    have hrebuilt := h.rebuild haround hacc3 ?_ ?_ ?_ ?_ ?_
    · obtain ⟨hsys, hviews⟩ := hrebuilt
      refine ⟨g2, by rw [← hs3]; exact hsys, ?_, ?_⟩
      · show s2.failed = s.failed
        rw [hfailed2]
        exact hfailed1
      · rw [← hs3, view_update hviews, hsys.view_unused (by rw [hproc])]
        exact ⟨rfl, haround⟩
    · intro q hq hused heq
      exact hq (h.distinct q p hused hp (by rw [← hr]; exact heq))
    · intro _
      exact hproc
    · intro hno
      rw [hproc] at hno
      exact absurd rfl hno
    · intro r' hr' hin
      obtain rfl : r' = r := by
        obtain hin | heq := hin
        · exact hin
        · rw [heq, hr]
      exact absurd hr' hnoroot
    · -- the trapframe was the only one of this slot
      intro pa hpa
      exfalso
      have hsame : (g.give tf).use pa = .trapframe p := by
        rw [← hframe2.use pa (.inr (by rw [hpa]; trivial)), hpa]
      simp only [Ghost.give, update_apply] at hsame
      split at hsame
      next => exact absurd hsame (by simp)
      next hne => exact hne (htf ▸ (h.frames pa p hsame).2.symm)

theorem SameBooks.frame (h : SameBooks s s') (hfailed : s.failed ≤ s'.failed) (T : Set Nat)
    (g : Ghost) : Frame T g s g s' :=
  ⟨h.proc, h.held, hfailed, fun _ _ => rfl, fun _ _ _ => rfl,
    fun _ _ => space_congr (fun _ _ => rfl) (fun _ _ _ _ => rfl) fun _ _ => by rw [h.granted]⟩

theorem Sys.undo (h : Sys L g s) (hp : (s.proc p).state = .unused) (haround : Around p ∅ g s g' s')
    (hbooks : Books L g' s') (hproc : s'.proc p = {}) (hframes : ∀ pa, g'.use pa ≠ .trapframe p) :
    Sys L g' s' ∧ view g' s' = view g s := by
  have hempty : (s.proc p).pagetable = 0 := by rw [h.unused p hp]
  have hrebuilt := h.rebuild haround hbooks (by simp) (fun _ => hproc)
    (fun hno => absurd (by rw [hproc]) hno) ?_ (fun pa hpa => absurd hpa (hframes pa))
  · obtain ⟨hsys, hviews⟩ := hrebuilt
    refine ⟨hsys, ?_⟩
    rw [view_update hviews, hsys.view_unused (by rw [hproc]), ← h.view_unused hp,
      update_eq_self]
  · intro r hr hin
    obtain hin | rfl := hin
    · exact absurd hin (by simp)
    · rw [hempty] at hr
      exact absurd ((hbooks.holds.tab _ _ _ _).mp hr) (hbooks.holds.gone_zero.use 0 2 0)

/-- An UNUSED slot gets a trapframe and an empty page table, or nothing. Four pages are
enough. -/
theorem wp_allocproc (h : Sys L g s) (hp : (s.proc p).state = .unused) :
    wp (allocproc L p) E (fun ret s' => ∃ g', Sys L g' s' ∧
      (ret = false ∧ s.failed < s'.failed ∧ view g' s' = view g s ∧ g.nfree < 4 ∧
          Around p ∅ g s g' s' ∨
        ret = true ∧ s'.failed = s.failed ∧
          view g' s' = update (view g s) p ⟨.live, 0, emptySpace⟩ ∧
          g.nfree ≤ g'.nfree + 4 ∧ Around p {(s'.proc p).pagetable} g s g' s' ∧
          g.use (s'.proc p).pagetable = .free)) s := by
  have hzero := h.unused p hp
  have hnoframe : ∀ pa, g.use pa ≠ .trapframe p := fun pa hpa => (h.frames pa p hpa).1 hp
  rw [allocproc]
  refine wp_seq (wp_kalloc h.books.holds) ?_
  intro tf s1 hkalloc
  obtain ⟨hbooks1, ⟨rfl, hnone, hholds1, hfailed1⟩ | ⟨hne, hfree, hholds1, hfailed1⟩⟩ := hkalloc
  · -- no trapframe
    have hproc1 : s1.proc p = {} := by rw [hbooks1.proc, hzero]
    rw [wp_bind, wp_set_proc, if_pos rfl, wp_bind, freeproc]
    simp only [wp_bind, wp_get, State.withProc, update_self, hproc1, ne_eq,
      not_true_eq_false, if_false, wp_pure, setProc, wp_modify, update_idem]
    have haround : Around p ∅ g s g (s1.withProc p {}) :=
      ((hbooks1.frame (by omega) ∅ g).around p).trans (around_with_proc _ _ _ _ _)
    have hacc : Books L g (s1.withProc p {}) :=
      ⟨hholds1, by show Counted g s1.pgref; rw [hbooks1.pgref]; exact h.books.counted⟩
    obtain ⟨hsys, hview⟩ := h.undo hp haround hacc (update_self ..) hnoframe
    exact ⟨g, hsys, .inl ⟨trivial, by show s.failed < s1.failed; omega, hview, by omega, haround⟩⟩
  obtain ⟨g1, hg1⟩ : ∃ g1, g1 = (g.take tf).own tf (.trapframe p) := ⟨_, rfl⟩
  have hframe1 : g1.use tf = .trapframe p := by
    rw [hg1]
    simp [Ghost.own]
  have honly : ∀ pa, g1.use pa = .trapframe p → pa = tf := by
    intro pa hpa
    by_contra hother
    rw [hg1] at hpa
    simp only [Ghost.own, Ghost.take, update_of_ne hother] at hpa
    exact hnoframe pa hpa
  have hcount1 : g1.nfree + 1 = g.nfree := by
    rw [← h.books.holds.nfree_update hfree (u := .trapframe p) (by simp), hg1, Ghost.nfree]
    simp only [Ghost.own, Ghost.take, update_idem]
  have hpage := (h.books.holds.page_addr (show g.use tf ≠ .outside by rw [hfree]; simp)).1
  rw [wp_bind, wp_set_proc, if_neg hne, wp_bind]
  obtain ⟨t, ht⟩ : ∃ t, t = ({ s1.proc p with state := .live, trapframe := tf } : Proc) := ⟨_, rfl⟩
  rw [← ht]
  -- everything up to the page table, around the slot
  have hstart : ∀ T : Set Nat,
      Around p T g s g1 (s1.withProc p t) ∧ Books L g1 (s1.withProc p t) := by
    intro T
    obtain ⟨hacc, haround⟩ :=
      around_new_frame (p := p) (T := T) h.books hfree hbooks1 hfailed1 hholds1
    rw [← hg1] at hacc haround
    exact ⟨haround.trans (around_with_proc _ _ _ _ t), hacc.with_proc p t⟩
  refine wp_mono (wp_proc_pagetable (hstart ∅).2 hpage) ?_
  intro r s2 hpost
  obtain ⟨g2, hacc2, ⟨rfl, hfailed2, hframe2, hfew⟩ | ⟨hr0, hfailed2, hframe2, hrfree, hroot,
    hempty, htop, hcount2⟩⟩ := hpost
  · -- no page table: the trapframe goes back
    have hproc2 : s2.proc p = t := by
      rw [hframe2.proc]
      exact update_self ..
    have htf2 : g2.use tf = .trapframe p := by
      rw [hframe2.use tf (.inl (by rw [hframe1]; trivial)), hframe1]
    have htproc : t.trapframe = tf := by rw [ht]
    rw [wp_bind, wp_set_proc, if_pos rfl, wp_bind, freeproc]
    simp only [wp_bind, wp_get, State.withProc, update_self, hproc2, htproc, ne_eq, hne,
      not_false_eq_true, if_true, not_true_eq_false, if_false]
    have hfreed := wp_kfree (E := E) (s := s2.withProc p { t with pagetable := 0, trapframe := tf })
      (hacc2.with_proc p _).holds (show (g2.use tf).holdsData = true by rw [htf2]; rfl)
    refine wp_mono hfreed ?_
    intro _ s3 hfree3
    obtain ⟨hbooks3, hfailed3, hholds3⟩ := hfree3
    obtain ⟨hacc3, haround3⟩ :=
      around_free_frame (T := ∅) (hacc2.with_proc p _) htf2 hbooks3 hfailed3 hholds3
    simp only [setProc, wp_modify, update_idem, wp_pure]
    have haround : Around p ∅ g s (g2.give tf) (s3.withProc p {}) :=
      ((hstart ∅).1.trans (hframe2.around p)).trans
        (((around_with_proc _ _ _ _ _).trans haround3).trans (around_with_proc _ _ _ _ _))
    have hundone := h.undo hp haround (hacc3.with_proc p _) (update_self ..) ?_
    · obtain ⟨hsys, hview⟩ := hundone
      refine ⟨_, hsys, .inl ⟨trivial, ?_, hview, by omega, haround⟩⟩
      show s.failed < s3.failed
      have hsame : s3.failed = s2.failed := hfailed3
      have hlast : s1.failed < s2.failed := hfailed2
      omega
    · intro pa hpa
      simp only [Ghost.give, update_apply] at hpa
      split at hpa
      next => exact absurd hpa (by simp)
      next hother =>
        rw [hframe2.use pa (.inr (by rw [hpa]; trivial))] at hpa
        exact hother (honly pa hpa)
  · rw [wp_bind, wp_set_proc, if_neg hr0, wp_pure]
    obtain ⟨s3, hs3⟩ : ∃ s3, s3 = s2.withProc p { s2.proc p with pagetable := r } := ⟨_, rfl⟩
    have hproc : s3.proc p = ⟨.live, r, tf, 0⟩ := by
      rw [hs3]
      simp only [State.withProc, update_self, hframe2.proc, ht, hbooks1.proc, hzero]
    have haround : Around p {r} g s g2 s3 := by
      rw [hs3]
      exact (hstart {r}).1.trans ((hframe2.around p).trans (around_with_proc _ _ _ _ _))
    have hspace : space g2 s3 r = emptySpace := by
      rw [hs3]
      exact funext hempty
    have hgfree : g.use r = .free := by
      rw [hg1] at hrfree
      simp only [Ghost.own, Ghost.take, update_apply] at hrfree
      grind
    have hrebuilt := h.rebuild haround (by rw [hs3]; exact hacc2.with_proc p _) ?_ ?_ ?_ ?_ ?_
    · obtain ⟨hsys, hviews⟩ := hrebuilt
      rw [← hs3]
      refine ⟨g2, hsys, .inr ⟨rfl, ?_, ?_, by omega, by rw [hproc]; exact haround,
        by rw [hproc]; exact hgfree⟩⟩
      · rw [hs3]
        show s2.failed = s.failed
        have hsame : s2.failed = s1.failed := hfailed2
        omega
      · rw [view_update hviews, view, hproc, hspace]
    · intro q hq hused heq
      have huse := (h.books.holds.tab _ _ _ _).mp (h.slot q hused).root
      rw [Set.mem_singleton_iff] at heq
      rw [heq, hgfree] at huse
      exact absurd huse (by simp)
    · intro hno
      rw [hproc] at hno
      exact absurd hno (by simp)
    · intro _
      refine ⟨⟨?_, ?_, ?_, ?_, ?_⟩, ?_⟩
      · rw [hproc]
        exact hroot
      · rw [hproc]
        exact htop
      · rw [hproc, hspace, show npages 0 = 0 by decide]
        intro v
        simp [emptySpace]
      · rw [hproc, hframe2.use tf (.inl (by rw [hframe1]; trivial)), hframe1]
      · rw [hproc, hspace]
        intro v c hc
        exact absurd hc (by simp [emptySpace])
      · intro q hq hused heq
        rw [hproc] at heq
        have huse := (h.books.holds.tab _ _ _ _).mp (h.slot q hused).root
        rw [heq, hgfree] at huse
        exact absurd huse (by simp)
    · intro r' hr' hin
      obtain hin | heq := hin
      · rw [hproc]
        exact ⟨by simp, hin.symm⟩
      · rw [heq, hzero] at hr'
        exact absurd ((hacc2.holds.tab _ _ _ _).mp hr') (hacc2.holds.gone_zero.use 0 2 0)
    · intro pa hpa
      rw [hframe2.use pa (.inr (by rw [hpa]; trivial))] at hpa
      rw [hproc]
      exact ⟨by simp, (honly pa hpa).symm⟩

end Xv6.Vm
