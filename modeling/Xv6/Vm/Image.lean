import Xv6.Vm.Share

/-!
# Page tables of processes

`proc_pagetable` makes a table with the trampoline and the trapframe and no user memory, and
`proc_freepagetable` takes a table apart completely. `exec` builds an image in a table of its own:
while it does, no page of it is shared, and every page has the permissions it was allocated with.
-/

namespace Xv6.Vm

open Function

variable {L : Layout} {g g' : Ghost} {s s' : State} {E : Fault → Prop}
  {r sz v a n b trapframe : Nat} {sp sp' : Space} {c c' : Cell} {o : Option Leaf}

/-! ## The entries above user memory -/

/-- The entry of a page number above user memory in the table of a process. -/
def topEntry (L : Layout) (trapframe v : Nat) : Option Leaf :=
  if v = UPAGES then some ⟨trapframe, true, false, false, false⟩
  else if v = UPAGES + 1 then some ⟨L.trampoline, false, true, false, false⟩
  else none

/-- Above user memory the table maps the trapframe and the trampoline. -/
def Topped (L : Layout) (g : Ghost) (r trapframe : Nat) : Prop :=
  ∀ v, UPAGES ≤ v → g.pt r v = topEntry L trapframe v

theorem Topped.safe (h : Topped L g r trapframe) : TopSafe g r := by
  intro v l hv hl
  rw [h v hv, topEntry] at hl
  split at hl
  · obtain rfl := Option.some.inj hl
    exact ⟨rfl, rfl⟩
  · split at hl
    · obtain rfl := Option.some.inj hl
      exact ⟨rfl, rfl⟩
    · exact absurd hl (by simp)

theorem trapframe_page : TRAPFRAME / PGSIZE = UPAGES := rfl

theorem trampoline_page_number : TRAMPOLINE / PGSIZE = UPAGES + 1 := by decide

theorem Counted.map_top {pgref : Nat → Int} (h : Counted g pgref) (hv : UPAGES ≤ v) :
    Counted (g.map r v o) pgref := by
  have hlow : ∀ r' v', v' < UPAGES → (g.map r v o).pt r' v' = g.pt r' v' := by
    intro r' v' hv'
    have hne : v' ≠ v := by omega
    simp only [Ghost.map, update_apply]
    grind
  have hmaps : (g.map r v o).maps = g.maps := by
    funext pa
    ext ⟨r', v'⟩
    rw [mem_maps, mem_maps]
    constructor
    · rintro ⟨hv', hl⟩
      rw [hlow r' v' hv'] at hl
      exact ⟨hv', hl⟩
    · rintro ⟨hv', hl⟩
      rw [← hlow r' v' hv'] at hl
      exact ⟨hv', hl⟩
  refine ⟨?_, ?_, ?_, ?_, ?_, ?_⟩
  · rw [hmaps]
    exact h.finite
  · rw [hmaps]
    exact h.refs
  · rw [hmaps]
    exact h.user
  · intro r' v1 v2 l1 l2 hv1 hv2 hl1 hl2
    rw [hlow _ _ hv1] at hl1
    rw [hlow _ _ hv2] at hl2
    exact h.once r' v1 v2 l1 l2 hv1 hv2 hl1 hl2
  · intro r1 v1 l1 r2 v2 l2 hv1 hv2 hl1 hl2
    rw [hlow _ _ hv1] at hl1
    rw [hlow _ _ hv2] at hl2
    exact h.excl r1 v1 l1 r2 v2 l2 hv1 hv2 hl1 hl2
  · intro r1 v1 l1 hv1 hl1
    rw [hlow _ _ hv1] at hl1
    exact h.owned r1 v1 l1 hv1 hl1

theorem space_map_top {r' : Nat} (hv : UPAGES ≤ v) (hbooks : SameBooks s s') :
    space (g.map r v o) s' r' = space g s r' := by
  refine space_congr ?_ (fun _ _ _ _ => rfl) ?_
  · intro v' hv'
    have hne : v' ≠ v := by omega
    simp only [Ghost.map, update_apply]
    grind
  · intro v' _
    rw [hbooks.granted]

theorem frame_map_top (hv : UPAGES ≤ v) (hbooks : SameBooks s s') (hfailed : s.failed ≤ s'.failed) :
    Frame {r} g s (g.map r v o) s' := by
  refine ⟨hbooks.proc, hbooks.held, hfailed, fun _ _ => rfl, ?_, ?_⟩
  · intro r' v' hr'
    simp only [Ghost.map, update_of_ne (show r' ≠ r from hr')]
  · exact fun r' _ => space_map_top hv hbooks

theorem wp_unmap_top (h : Books L g s) {l : Leaf} (hr : g.IsRoot r) (halign : a % PGSIZE = 0)
    (hva : a < MAXVA) (hv : UPAGES ≤ a / PGSIZE) (hl : g.pt r (a / PGSIZE) = some l) :
    wp (uvmunmap L r a 1 false) E (fun _ s' => SameBooks s s' ∧ s'.failed = s.failed ∧
      Books L (g.map r (a / PGSIZE) none) s') s := by
  have haddr := h.holds.addr r _ l hl
  rw [uvmunmap, if_neg (by omega)]
  simp only [unmapLoop, wp_bind]
  refine wp_mono (wp_walk_some h.holds hr hva hl) ?_
  intro res s1 hwalk
  obtain ⟨rfl, q, k, rfl, he, hword⟩ := hwalk
  simp only [wp_bind, wp_readWord, hword, encode_has_v haddr, Bool.not_true,
    Bool.false_eq_true, if_false, if_neg (encode_is_leaf haddr)]
  refine wp_mono (wp_write_entry h.holds he (o := none) (by simp)) ?_
  intro _ s2 hwrite
  obtain ⟨hbooks, hfailed, hholds⟩ := hwrite
  refine ⟨hbooks, hfailed, hholds, ?_⟩
  rw [hbooks.pgref]
  exact h.counted.map_top hv

/-! ## Taking a table apart -/

/-- Nothing is left of table `r`. -/
structure Gone (g : Ghost) (r : Nat) : Prop where
  use : ∀ pa l x, g.use pa ≠ .table r l x
  pt : ∀ v, g.pt r v = none

theorem Rep.gone {mem : Nat → Page} {freelist : Nat} (h : Rep L g mem freelist)
    (hr : ¬ g.IsRoot r) : Gone g r := by
  have hroot : g.tab r 2 0 = none := by
    cases hx : g.tab r 2 0 with
    | none => rfl
    | some q =>
      obtain ⟨-, rfl⟩ := (h.top r 2 0 q hx).2 rfl
      exact absurd hx hr
  refine ⟨?_, h.no_root_pt hroot⟩
  intro pa l x hpa
  have htab := (h.tab r l x pa).mpr hpa
  rw [h.no_root hroot] at htab
  exact absurd htab (by simp)

theorem Pinned.close (h : Pinned {r} g g') (hholds : Holds L g s) (hholds' : Holds L g' s')
    (hg : Gone g r) (hg' : Gone g' r) : Pinned ∅ g g' := by
  constructor
  · intro r' l x _
    by_cases hr' : r' = r
    · subst hr'
      refine tab_eq_of_use hholds hholds' (fun pa l x => ?_) l x
      exact ⟨fun huse => absurd huse (hg'.use pa l x), fun huse => absurd huse (hg.use pa l x)⟩
    · exact h.tab r' l x hr'
  · intro r' v _
    by_cases hr' : r' = r
    · rw [hr', hg.pt, hg'.pt]
    · exact h.pa r' v hr'

/-- A table that was not there before and is gone again leaves no trace. -/
theorem Frame.close (h : Frame {r} g s g' s') (hg : Gone g r) (hg' : Gone g' r) :
    Frame ∅ g s g' s' := by
  refine ⟨h.proc, h.held, h.failed, ?_, ?_, ?_⟩
  · intro pa hfixed
    refine h.use pa ?_
    have hone := hg.use pa
    have htwo := hg'.use pa
    refine hfixed.imp ?_ ?_
    · intro hf
      cases hu : g.use pa with
      | table r' l x =>
        intro hr'
        rw [Set.mem_singleton_iff] at hr'
        exact hone l x (hr' ▸ hu)
      | free | user => rw [hu] at hf; exact hf
      | outside | hand | trapframe p | kernel => trivial
    · intro hf
      cases hu : g'.use pa with
      | table r' l x =>
        intro hr'
        rw [Set.mem_singleton_iff] at hr'
        exact htwo l x (hr' ▸ hu)
      | free | user => rw [hu] at hf; exact hf
      | outside | hand | trapframe p | kernel => trivial
  · intro r' v _
    by_cases hr' : r' = r
    · rw [hr', hg.pt, hg'.pt]
    · exact h.pt r' v hr'
  · intro r' _
    by_cases hr' : r' = r
    · funext v
      simp [Vm.space, hr', hg.pt, hg'.pt]
    · exact h.space r' hr'

theorem wp_free_table (h : Books L g s) (hr : g.IsRoot r) (hempty : ∀ v, g.pt r v = none) :
    wp (freewalk L 3 r) E (fun _ s' => ∃ g', Books L g' s' ∧ Frame {r} g s g' s' ∧ Gone g' r ∧
      s'.failed = s.failed) s := by
  refine wp_mono (wp_freewalk h.holds hr hempty) ?_
  intro _ s' hpost
  obtain ⟨hbooks, hfailed, g', hholds, hfreed⟩ := hpost
  have hpt : g'.pt = g.pt := by
    funext r' v
    by_cases hr' : r' = r
    · rw [hr', hfreed.gone, hempty]
    · rw [hfreed.pt r' hr']
  have huse : ∀ pa, (∃ l x, g.use pa = .table r l x ∧ g'.use pa = .free) ∨
      (∀ l x, g.use pa ≠ .table r l x) ∧ g'.use pa = g.use pa := by
    intro pa
    by_cases hpa : ∃ l x, g.use pa = .table r l x
    · obtain ⟨l, x, hpa⟩ := hpa
      exact .inl ⟨l, x, hpa, hfreed.free pa l x hpa⟩
    · have hno : ∀ l x, g.use pa ≠ .table r l x := by simpa using hpa
      exact .inr ⟨hno, hfreed.use pa hno⟩
  have hcounted : Counted g' s'.pgref := by
    rw [hbooks.pgref]
    refine h.counted.same hpt fun pa => ?_
    have := huse pa
    grind
  refine ⟨g', ⟨hholds, hcounted⟩, ?_, ?_, hfailed⟩
  · refine ⟨hbooks.proc, hbooks.held, hfailed.ge, ?_, ?_, ?_⟩
    · intro pa hfixed
      have := huse pa
      grind [Use.Fixed]
    · intro r' v _
      rw [hpt]
    · intro r' _
      refine space_congr ?_ ?_ ?_
      · intro v _
        rw [hpt]
      · intro v l hv hl
        refine hfreed.data l.pa ?_
        rw [(h.leaf hv hl).2.2]
        simp
      · intro v _
        rw [hbooks.granted]
  · refine ⟨?_, hfreed.gone⟩
    intro pa l x
    have := huse pa
    grind

theorem wp_uvmfree (h : Books L g s) (hr : g.IsRoot r) (hsized : Sized (space g s r) (npages sz))
    (htop : ∀ v, UPAGES ≤ v → g.pt r v = none) :
    wp (uvmfree L r sz) E (fun _ s' => ∃ g', Books L g' s' ∧ Frame {r} g s g' s' ∧ Gone g' r ∧
      s'.failed = s.failed) s := by
  obtain ⟨hbound, hmapped⟩ := hsized.mapped
  -- once the space is empty, so is the table
  have hfree : ∀ {g1 : Ghost} {s1 : State}, Stays L {r} g s g1 s1 → s1.failed = s.failed →
      (∀ v, space g1 s1 r v = none) →
      wp (freewalk L 3 r) E (fun _ s' => ∃ g', Books L g' s' ∧ Frame {r} g s g' s' ∧ Gone g' r ∧
        s'.failed = s.failed) s1 := by
    intro g1 s1 hstays hfailed hspace
    have hempty : ∀ v, g1.pt r v = none := by
      intro v
      by_cases hv : v < UPAGES
      · cases hl : g1.pt r v with
        | none => rfl
        | some l =>
          have hsome := space_some (s := s1) hv hl
          rw [hspace] at hsome
          exact absurd hsome (by simp)
      · rw [hstays.top r v (by omega), htop v (by omega)]
    refine wp_mono (wp_free_table hstays.books ((hstays.root r).mpr hr) hempty) ?_
    intro _ s2 hpost
    obtain ⟨g2, hbooks, hframe, hgone, hfailed2⟩ := hpost
    exact ⟨g2, hbooks, hstays.frame.trans hframe, hgone, hfailed2.trans hfailed⟩
  rw [uvmfree]
  by_cases hsz : 0 < sz
  · rw [if_pos hsz, wp_bind, uvmunmap, if_neg (by decide)]
    have hunmap := wp_unmap_loop (E := E) h (r := r) (n := npages sz) (v := 0) hr (by omega)
      (fun v' _ hv' => (hmapped v' (by omega)).mpr (by omega))
    rw [zero_mul] at hunmap
    refine wp_mono hunmap ?_
    intro _ s1 hpost
    obtain ⟨g1, hstays, hfailed, -, hspace⟩ := hpost
    refine hfree hstays hfailed ?_
    intro v
    rw [hspace, Space.without]
    split
    next => rfl
    next hno =>
      rw [← Option.not_isSome_iff_eq_none, hsized v]
      omega
  · rw [if_neg hsz]
    refine hfree (.refl h) rfl ?_
    intro v
    obtain rfl : sz = 0 := by omega
    rw [← Option.not_isSome_iff_eq_none, hsized v]
    have hzero : npages 0 = 0 := by decide
    omega

/-- `proc_freepagetable` takes the table of a process apart. -/
theorem wp_proc_freepagetable (h : Books L g s) (hr : g.IsRoot r)
    (hsized : Sized (space g s r) (npages sz)) (htop : Topped L g r trapframe) :
    wp (procFreepagetable L r sz) E (fun _ s' => ∃ g', Books L g' s' ∧ Frame {r} g s g' s' ∧
      Gone g' r ∧ s'.failed = s.failed) s := by
  have hne : UPAGES ≠ UPAGES + 1 := by omega
  rw [procFreepagetable, wp_bind]
  have htramp := htop (UPAGES + 1) (by omega)
  rw [topEntry, if_neg hne.symm, if_pos rfl] at htramp
  have hfirst := wp_unmap_top (E := E) h (a := TRAMPOLINE) hr (by decide) (by decide)
    (by rw [trampoline_page_number]; omega) (by rw [trampoline_page_number]; exact htramp)
  rw [trampoline_page_number] at hfirst
  refine wp_mono hfirst ?_
  intro _ s1 hpost
  obtain ⟨hbooks1, hfailed1, hacc1⟩ := hpost
  have hframe1 : Frame {r} g s (g.map r (UPAGES + 1) none) s1 :=
    frame_map_top (by omega) hbooks1 hfailed1.ge
  have hframe := htop UPAGES le_rfl
  rw [topEntry, if_pos rfl] at hframe
  have hframe' : (g.map r (UPAGES + 1) none).pt r UPAGES =
      some ⟨trapframe, true, false, false, false⟩ := by
    simp only [Ghost.map, update_self, update_of_ne hne]
    exact hframe
  rw [wp_bind]
  have hsecond := wp_unmap_top (E := E) hacc1 (a := TRAPFRAME) hr (by decide) (by decide)
    (by rw [trapframe_page]) (by rw [trapframe_page]; exact hframe')
  rw [trapframe_page] at hsecond
  refine wp_mono hsecond ?_
  intro _ s2 hpost
  obtain ⟨hbooks2, hfailed2, hacc2⟩ := hpost
  have hframe2 : Frame {r} (g.map r (UPAGES + 1) none) s1
      ((g.map r (UPAGES + 1) none).map r UPAGES none) s2 :=
    frame_map_top le_rfl hbooks2 hfailed2.ge
  refine wp_mono (wp_uvmfree hacc2 hr ?_ ?_) ?_
  · rw [space_map_top le_rfl hbooks2, space_map_top (by omega) hbooks1]
    exact hsized
  · intro v hv
    have hold := htop v hv
    simp only [topEntry] at hold
    simp only [Ghost.map, update_self, update_apply]
    grind
  · intro _ s3 hpost
    obtain ⟨g3, hacc3, hframe3, hgone, hfailed3⟩ := hpost
    exact ⟨g3, hacc3, (hframe1.trans hframe2).trans hframe3, hgone,
      hfailed3.trans (hfailed2.trans hfailed1)⟩

/-! ## `proc_pagetable` -/

/-- A new root that is not in use yet is a table that has grown. -/
theorem wp_uvmcreate (h : Books L g s) :
    wp uvmcreate E (fun r s' => SameBooks s s' ∧
      (r = 0 ∧ g.nfree = 0 ∧ Holds L g s' ∧ s'.failed = s.failed + 1 ∨
        r ≠ 0 ∧ g.use r = .free ∧ Holds L (g.extend r 2 0 r) s' ∧ s'.failed = s.failed)) s := by
  rw [uvmcreate]
  refine wp_seq (wp_kalloc h.holds) ?_
  intro r s1 hr
  obtain ⟨hbooks, ⟨rfl, hnone, hholds, hfailed⟩ | ⟨hne, hfree, hholds, hfailed⟩⟩ := hr
  · rw [if_pos rfl, wp_pure]
    exact ⟨hbooks, .inl ⟨rfl, hnone, hholds, hfailed⟩⟩
  · rw [if_neg hne, wp_bind]
    have hhand : (g.take r).use r = .hand := by simp [Ghost.take]
    refine wp_mono (wp_set_page hholds (by rw [hhand]; rfl) fun _ => 0) ?_
    intro _ s2 hset
    obtain ⟨hbooks2, hfailed2, hholds2⟩ := hset
    rw [wp_pure]
    exact ⟨hbooks.trans hbooks2, .inr ⟨hne, hfree,
      hholds2.new_root hhand (by simp [Ghost.fill]), hfailed2.trans hfailed⟩⟩

/-- The result of `proc_pagetable`: no table and no trace of one, or a table that maps the
trapframe and the trampoline. It takes three pages. -/
def NewTable (L : Layout) (trapframe : Nat) (g : Ghost) (s : State) (ret : Nat) (s' : State)
    (g' : Ghost) : Prop :=
  Books L g' s' ∧
    (ret = 0 ∧ s.failed < s'.failed ∧ Frame ∅ g s g' s' ∧ g.nfree < 3 ∨
      ret ≠ 0 ∧ s'.failed = s.failed ∧ Frame {ret} g s g' s' ∧ g.use ret = .free ∧
        g'.IsRoot ret ∧ (∀ v, space g' s' ret v = none) ∧ Topped L g' ret trapframe ∧
        g.nfree ≤ g'.nfree + 3)

theorem wp_proc_pagetable (h : Books L g s) (hframe : PageAddr trapframe) :
    wp (procPagetable L trapframe) E
      (fun ret s' => ∃ g', NewTable L trapframe g s ret s' g') s := by
  rw [procPagetable]
  refine wp_seq (wp_uvmcreate h) ?_
  intro r s1 hr
  obtain ⟨hbooks1, ⟨rfl, hnone, hholds1, hfailed1⟩ | ⟨hne, hfree, hholds1, hfailed1⟩⟩ := hr
  · rw [if_pos rfl, wp_pure]
    obtain ⟨hcounted, hframe1, -⟩ := (Grows.refl 0 g).frame h hbooks1 (by omega)
    have hgone : Gone g 0 := h.holds.gone fun hroot => by
      have huse := (h.holds.tab _ _ _ _).mp hroot
      exact (h.holds.page_addr (show g.use 0 ≠ .outside by rw [huse]; simp)).2.2 rfl
    exact ⟨g, ⟨hholds1, hcounted⟩, .inl ⟨rfl, by omega, hframe1.close hgone hgone, by omega⟩⟩
  rw [if_neg hne, wp_bind]
  -- the root alone
  have hgone : Gone g r := h.holds.gone fun hroot => by
    rw [(h.holds.tab _ _ _ _).mp hroot] at hfree
    exact absurd hfree (by simp)
  obtain ⟨hcounted1, hframe1, hspace1⟩ :=
    (grows_extend (r := r) (l := 2) (x := 0) hfree).frame h hbooks1 hfailed1.ge
  have hacc1 : Books L (g.extend r 2 0 r) s1 := ⟨hholds1, hcounted1⟩
  have hroot1 : (g.extend r 2 0 r).IsRoot r := by simp [Ghost.IsRoot, Ghost.extend, Ghost.attach]
  have hcount1 := nfree_extend h.holds (r := r) (l := 2) (x := 0) hfree
  have hempty1 : ∀ v, (g.extend r 2 0 r).pt r v = none := hgone.pt
  have hspace : ∀ v, space g s r v = none := by
    intro v
    simp [space, hgone.pt]
  -- the trampoline
  have hmap := wp_mappages (E := E) hholds1 (a := TRAMPOLINE)
    (l := ⟨L.trampoline, false, true, false, false⟩) hroot1 (by decide) (by decide) (hempty1 _)
    L.trampoline_page (show PTE_R ||| PTE_X ||| PTE_V = leafFlags false true false false by decide)
  rw [trampoline_page_number] at hmap
  refine wp_mono hmap ?_
  intro mapped s2 hpost
  obtain ⟨g2, hpost⟩ := hpost
  have hcount2 := hpost.nfree
  obtain ⟨rfl, hfailed2, hgrows, hfew⟩ | ⟨rfl, hfailed2, g3, hgrows, rfl⟩ := hpost.result
  · rw [if_pos (by decide), wp_bind]
    obtain ⟨hstays2, hspace2⟩ := hgrows.stays hacc1 hroot1 hpost.holds hpost.books hfailed2.le
    refine wp_mono (wp_uvmfree hstays2.books ((hstays2.root r).mpr hroot1) ?_ ?_) ?_
    · intro v
      rw [hspace2, hspace1, hspace, show npages 0 = 0 by decide]
      simp
    · intro v _
      rw [hgrows.pt]
      exact hempty1 v
    · intro _ s3 hlast
      obtain ⟨g3, hacc3, hframe3, hgone3, hfailed3⟩ := hlast
      rw [wp_pure]
      refine ⟨g3, hacc3, .inl ⟨rfl, by omega, ?_, by omega⟩⟩
      exact ((hframe1.trans hstays2.frame).trans hframe3).close hgone hgone3
  rw [if_neg (by decide), wp_bind]
  obtain ⟨hcounted2, hframe2, hspace2⟩ := hgrows.frame hacc1 hpost.books hfailed2.ge
  have hframe3 := hframe2.trans (frame_map_top (r := r) (v := UPAGES + 1)
    (o := some ⟨L.trampoline, false, true, false, false⟩) (by omega) (.refl s2) le_rfl)
  have hroot3 : g3.IsRoot r := by
    have huse := (hholds1.tab r 2 0 r).mp hroot1
    refine (hpost.holds.tab r 2 0 r).mpr ?_
    show g3.use r = _
    rw [hgrows.use r (by rw [huse]; simp), huse]
  obtain ⟨g4, hg4⟩ : ∃ g4, g4 =
    g3.map r (UPAGES + 1) (some ⟨L.trampoline, false, true, false, false⟩) := ⟨_, rfl⟩
  have hholds4 := hpost.holds
  have hcounted4 : Counted g4 s2.pgref := by
    rw [hg4]
    exact hcounted2.map_top (by omega)
  have hpt4 : ∀ v, g4.pt r v =
      if v = UPAGES + 1 then some ⟨L.trampoline, false, true, false, false⟩ else none := by
    intro v
    have hnone := hempty1 v
    rw [hg4]
    simp only [Ghost.map, update_self, update_apply, hgrows.pt]
    grind
  rw [← hg4] at hholds4 hframe3 hcount2
  -- the trapframe is in the same table page as the trampoline
  have hq : ∃ q, g4.tab r 0 (UPAGES / 512) = some q := by
    cases hq : g4.tab r 0 (UPAGES / 512) with
    | some q => exact ⟨q, rfl⟩
    | none =>
      have habsent := hholds4.absent r (UPAGES + 1)
        (by rw [show (UPAGES + 1) / 512 = UPAGES / 512 by decide]; exact hq)
      rw [hpt4, if_pos rfl] at habsent
      exact absurd habsent (by simp)
  obtain ⟨q, hq⟩ := hq
  have hroot4 : g4.IsRoot r := by
    rw [hg4]
    exact hroot3
  have hmap' := wp_mappages_present (E := E) hholds4 (a := TRAPFRAME)
    (l := ⟨trapframe, true, false, false, false⟩) hroot4 (by decide) (by decide)
    (by rw [trapframe_page, hpt4, if_neg (by omega)]) hframe
    (show PTE_R ||| PTE_W ||| PTE_V = leafFlags true false false false by decide)
    (by rw [trapframe_page]; exact hq)
  rw [trapframe_page] at hmap'
  refine wp_mono hmap' ?_
  intro mapped s3 hlast
  obtain ⟨rfl, hbooks5, hfailed5, hholds5⟩ := hlast
  rw [if_neg (by decide), wp_pure]
  refine ⟨_, ⟨hholds5, by rw [hbooks5.pgref]; exact hcounted4.map_top le_rfl⟩,
    .inr ⟨hne, by omega, ?_, hfree, hroot4, ?_, ?_, ?_⟩⟩
  · exact (hframe1.trans hframe3).trans (frame_map_top le_rfl hbooks5 hfailed5.ge)
  · intro v
    rw [space_map_top le_rfl hbooks5, hg4, space_map_top (by omega) (.refl s2), hspace2, hspace1,
      hspace]
  · intro v hv
    simp only [Ghost.map, update_self, update_apply, hpt4, topEntry]
  · rw [nfree_map]
    omega

/-! ## Building an image -/

/-- A page that has the permissions it was allocated with. -/
def Perm.AsGranted (p : Perm) : Prop := p.w = p.grant.w ∧ p.u = p.grant.u ∧ p.cow = false

/-- Every page has the permissions it was allocated with. -/
def Granted (sp : Space) : Prop := ∀ v c, sp v = some c → c.perm.AsGranted

/-- The pages have the same permissions. -/
def SamePerms (sp sp' : Space) : Prop := ∀ v, (sp' v).map Cell.perm = (sp v).map Cell.perm

theorem SamePerms.refl (sp : Space) : SamePerms sp sp := fun _ => rfl

theorem SamePerms.trans {sp1 sp2 sp3 : Space} (h : SamePerms sp1 sp2) (h' : SamePerms sp2 sp3) :
    SamePerms sp1 sp3 := fun v => (h' v).trans (h v)

theorem SamePerms.cell (h : SamePerms sp sp') (hc : sp' v = some c') :
    ∃ c, sp v = some c ∧ c.perm = c'.perm := by
  have hv := h v
  rw [hc] at hv
  cases hold : sp v with
  | none =>
    rw [hold] at hv
    exact absurd hv (by simp)
  | some c =>
    rw [hold] at hv
    exact ⟨c, rfl, (Option.some.inj hv).symm⟩

theorem SamePerms.symm (h : SamePerms sp sp') : SamePerms sp' sp :=
  fun v => (h v).symm

theorem SamePerms.sized (h : SamePerms sp sp') (hn : Sized sp n) :
    Sized sp' n := by
  intro v
  have hv := congrArg Option.isSome (h v)
  rw [Option.isSome_map, Option.isSome_map] at hv
  rw [hv]
  exact hn v

theorem SamePerms.granted (h : SamePerms sp sp') (hg : Granted sp) :
    Granted sp' := by
  intro v c' hc'
  obtain ⟨c, hc, hperm⟩ := h.cell hc'
  rw [← hperm]
  exact hg v c hc

theorem same_perms_update (hc : sp v = some c) (hperm : c'.perm = c.perm) :
    SamePerms sp (update sp v (some c')) := by
  intro v'
  by_cases hv : v' = v
  · rw [hv, update_self, hc]
    simp [hperm]
  · rw [update_of_ne hv]

/-- Writes change no permission of an image that nobody shares. -/
theorem Touched.same_perms (h : Touched sp sp') (hg : Granted sp) :
    SamePerms sp sp' := by
  intro v
  obtain hsame | ⟨c, page, hc, hw, hnew⟩ := h v
  · rw [hsame]
  · obtain ⟨-, -, hcow⟩ := hg v c hc
    have hw : c.perm.w = true := by simpa [hcow] using hw
    rw [hc, hnew]
    simp only [Option.map_some, Cell.own]
    rw [← hw, ← hcow]

theorem Sized.extend_max (h : Sized sp a) (cell : Cell) :
    Sized (sp.extend a b cell) (max a b) := by
  rcases le_total a b with hab | hab
  · rw [max_eq_right hab]
    exact h.extend hab cell
  · rw [max_eq_left hab, extend_ge hab]
    exact h

theorem granted_extend {w : Bool} (h : Granted sp) :
    Granted (sp.extend a b (zeroCell w)) := by
  intro v c hc
  simp only [Space.extend] at hc
  split at hc
  · obtain rfl := Option.some.inj hc
    exact ⟨rfl, rfl, rfl⟩
  · exact h v c hc

/-- Every page is for the user. -/
def Open (sp : Space) : Prop := ∀ v c, sp v = some c → c.perm.u = true

theorem open_extend {w : Bool} (h : Open sp) :
    Open (sp.extend a b (zeroCell w)) := by
  intro v c hc
  simp only [Space.extend] at hc
  split at hc
  · obtain rfl := Option.some.inj hc
    rfl
  · exact h v c hc

theorem SamePerms.is_open (h : SamePerms sp sp') (hopen : Open sp) : Open sp' := by
  intro v c' hc'
  obtain ⟨c, hc, hperm⟩ := h.cell hc'
  rw [← hperm]
  exact hopen v c hc

/-- `loadseg` writes to pages that are mapped for the user and not shared. -/
theorem wp_load_loop (h : Books L g s) {va offset i : Nat} {file : Reader} (hr : g.IsRoot r)
    (htop : TopSafe g r)
    (hcells : ∀ j < n, ∃ c, space g s r (va + i + j) = some c ∧
      c.perm.u = true ∧ c.perm.cow = false) :
    wp (loadLoop r (va * PGSIZE) file offset sz n (i * PGSIZE)) E (fun _ s' => ∃ g',
      Stays L {r} g s g' s' ∧ s'.failed = s.failed ∧
      SamePerms (space g s r) (space g' s' r)) s := by
  induction n generalizing g s i with
  | zero => exact ⟨g, .refl h, rfl, .refl _⟩
  | succ n ih =>
    obtain ⟨c, hc, hu, hcow⟩ := hcells 0 (by omega)
    rw [add_zero] at hc
    have hnumber : (va * PGSIZE + i * PGSIZE) / PGSIZE = va + i := by
      rw [← add_mul, Nat.mul_div_cancel _ (by decide)]
    rw [loadLoop, wp_bind]
    refine wp_walkaddr h hr htop ?_ ?_
    · intro hno
      rw [hnumber] at hno
      rw [hno c hc] at hu
      exact absurd hu (by simp)
    · intro l hv hl _
      rw [hnumber] at hv hl
      have hcell := space_some (s := s) hv hl
      rw [hc] at hcell
      obtain rfl := Option.some.inj hcell
      have huser := (h.leaf hv hl).2.2
      have hne := (h.holds.page_addr (show g.use l.pa ≠ .outside by rw [huser]; simp)).2.2
      rw [if_neg hne]
      refine wp_seq (wp_write_page h hr hv hl hcow _) ?_
      intro _ s1 hpost
      obtain ⟨g1, hstays, hfailed, -, hspace⟩ := hpost
      have hperms : SamePerms (space g s r) (space g1 s1 r) := by
        rw [hspace]
        exact same_perms_update hc rfl
      rw [wp_ite, wp_pure]
      refine ⟨fun _ => ⟨g1, hstays, hfailed, hperms⟩, fun _ => ?_⟩
      rw [show i * PGSIZE + PGSIZE = (i + 1) * PGSIZE by ring]
      refine wp_mono (ih hstays.books ((hstays.root r).mpr hr) (hstays.top_safe htop) ?_) ?_
      · intro j hj
        obtain ⟨c', hc', hu', hcow'⟩ := hcells (j + 1) (by omega)
        rw [show va + i + (j + 1) = va + (i + 1) + j by omega] at hc'
        obtain ⟨c'', hc'', hperm⟩ := hperms.symm.cell hc'
        exact ⟨c'', hc'', by rw [hperm]; exact hu', by rw [hperm]; exact hcow'⟩
      · intro _ s2 hrest
        obtain ⟨g2, hstays2, hfailed2, hperms2⟩ := hrest
        exact ⟨g2, hstays.trans hstays2, hfailed2.trans hfailed, hperms.trans hperms2⟩

theorem flags2perm_leaf (flags : Nat) :
    PTE_R ||| PTE_U ||| flags2perm flags ||| PTE_V =
      leafFlags (flags.testBit 1) (flags.testBit 0) true false := by
  have hall : ∀ x w : Bool, PTE_R ||| PTE_U |||
      ((if x = true then PTE_X else 0) ||| (if w = true then PTE_W else 0)) ||| PTE_V =
      leafFlags w x true false := by decide
  exact hall _ _

theorem flags2perm_w (flags : Nat) : hasFlag (flags2perm flags) PTE_W = flags.testBit 1 := by
  have hall : ∀ x w : Bool, hasFlag ((if x = true then PTE_X else 0) |||
      (if w = true then PTE_W else 0)) PTE_W = w := by decide
  exact hall _ _

/-- The image that `exec` is building in table `r`: `sz` bytes, with the permissions its pages
were allocated with. -/
structure Building (L : Layout) (r sz : Nat) (g : Ghost) (s : State) : Prop where
  books : Books L g s
  root : g.IsRoot r
  safe : TopSafe g r
  sized : Sized (space g s r) (npages sz)
  granted : Granted (space g s r)

theorem Building.stays {sz' : Nat} (h : Building L r sz g s) (hstays : Stays L {r} g s g' s')
    (hsized : Sized (space g' s' r) (npages sz')) (hgranted : Granted (space g' s' r)) :
    Building L r sz' g' s' :=
  ⟨hstays.books, (hstays.root r).mpr h.root, hstays.top_safe h.safe, hsized, hgranted⟩

/-- The pages of a segment lie inside an image that reaches to its end. -/
theorem segment_pages {vaddr filesz memsz j : Nat} (halign : vaddr % PGSIZE = 0)
    (hfile : filesz ≤ memsz) (hend : vaddr + memsz ≤ sz) (hj : j < npages filesz) :
    vaddr / PGSIZE + j < npages sz := by
  unfold npages PGROUNDUP PGSIZE at *
  omega

theorem wp_exec_segment (h : Building L r sz g s) (hopen : Open (space g s r)) (file : Reader)
    (ph : Proghdr) :
    wp (execSegment L r sz file ph) E (fun ret s' => ∃ g', Stays L {r} g s g' s' ∧
      Building L r ret.1 g' s' ∧ Open (space g' s' r)) s := by
  simp only [execSegment, wp_ite, wp_pure]
  refine ⟨fun _ => ⟨g, .refl h.books, h, hopen⟩, fun _ => ⟨fun _ => ⟨g, .refl h.books, h, hopen⟩,
    fun hfile => ⟨fun _ => ⟨g, .refl h.books, h, hopen⟩, fun _ =>
    ⟨fun _ => ⟨g, .refl h.books, h, hopen⟩, fun halign => ?_⟩⟩⟩⟩
  refine wp_seq (wp_uvmalloc h.books h.root h.sized (flags2perm_leaf _) (flags2perm_w _)) ?_
  intro sz1 s1 halloc
  obtain ⟨g1, hstays, ⟨rfl, hfailed, hspace⟩ | ⟨hret, hfailed, hspace⟩⟩ := halloc
  · rw [if_pos rfl, wp_pure]
    exact ⟨g1, hstays, h.stays hstays (by rw [hspace]; exact h.sized)
      (by rw [hspace]; exact h.granted), by rw [hspace]; exact hopen⟩
  have hsized : Sized (space g1 s1 r) (npages sz1) := by
    rw [hspace, hret, npages_max]
    exact h.sized.extend_max _
  have hgranted : Granted (space g1 s1 r) := by
    rw [hspace]
    exact granted_extend h.granted
  have hopen1 : Open (space g1 s1 r) := by
    rw [hspace]
    exact open_extend hopen
  have hbuilding := h.stays hstays hsized hgranted
  rw [wp_ite, wp_pure]
  constructor
  · intro hzero
    -- both the old and the new size are zero
    refine ⟨g1, hstays, h.stays hstays ?_ hgranted, hopen1⟩
    obtain rfl : sz = 0 := by omega
    rw [← hzero]
    exact hsized
  · intro _
    have hva : ph.vaddr / PGSIZE * PGSIZE = ph.vaddr := page_number_mul (by simpa using halign)
    have hload : loadseg r ph.vaddr file (ph.off % 2 ^ 32) (ph.filesz % 2 ^ 32) =
        loadLoop r (ph.vaddr / PGSIZE * PGSIZE) file (ph.off % 2 ^ 32) (ph.filesz % 2 ^ 32)
          (npages (ph.filesz % 2 ^ 32)) (0 * PGSIZE) := by
      rw [hva, zero_mul]
      rfl
    rw [wp_bind, hload]
    refine wp_mono (wp_load_loop hstays.books ((hstays.root r).mpr h.root)
      (hstays.top_safe h.safe) ?_) ?_
    · intro j hj
      have hlt := segment_pages (by simpa using halign)
        (le_trans (Nat.mod_le ph.filesz (2 ^ 32)) (not_lt.mp hfile))
        (show ph.vaddr + ph.memsz ≤ sz1 by rw [hret]; exact le_max_right _ _) hj
      obtain ⟨c, hc⟩ := Option.isSome_iff_exists.mp ((hsized _).mpr hlt)
      rw [add_zero]
      exact ⟨c, hc, hopen1 _ c hc, (hgranted _ c hc).2.2⟩
    · intro loaded s2 hpost
      obtain ⟨g2, hstays2, -, hperms⟩ := hpost
      rw [wp_pure]
      exact ⟨g2, hstays.trans hstays2, hbuilding.stays hstays2 (hperms.sized hsized)
        (hperms.granted hgranted), hperms.is_open hopen1⟩

theorem wp_exec_segments {off : Nat} (h : Building L r sz g s) (hopen : Open (space g s r))
    (file : Reader) :
    wp (execSegments L r file n off sz) E (fun ret s' => ∃ g', Stays L {r} g s g' s' ∧
      Building L r ret.1 g' s' ∧ Open (space g' s' r)) s := by
  induction n generalizing g s off sz with
  | zero => exact ⟨g, .refl h.books, h, hopen⟩
  | succ n ih =>
    simp only [execSegments, wp_ite, wp_pure]
    refine ⟨fun _ => ⟨g, .refl h.books, h, hopen⟩, fun _ => ?_⟩
    refine wp_seq (wp_exec_segment h hopen file _) ?_
    intro ret s1 hpost
    obtain ⟨g1, hstays, hbuilding, hopen1⟩ := hpost
    obtain ⟨sz1, loaded⟩ := ret
    simp only [wp_ite, wp_pure]
    refine ⟨fun _ => ?_, fun _ => ⟨g1, hstays, hbuilding, hopen1⟩⟩
    refine wp_mono (ih hbuilding hopen1) ?_
    intro ret s2 hrest
    obtain ⟨g2, hstays2, hbuilding2, hopen2⟩ := hrest
    exact ⟨g2, hstays.trans hstays2, hbuilding2, hopen2⟩

theorem wp_copyout_image {dstva : Nat} {src : List Byte} (h : Building L r sz g s) :
    wp (copyout L r dstva src) E (fun _ s' => ∃ g', Stays L {r} g s g' s' ∧
      Building L r sz g' s') s := by
  refine wp_mono (wp_copyout_loop h.books h.root h.safe) ?_
  intro _ s' hpost
  obtain ⟨g', hstays, htouched, -⟩ := hpost
  have hperms := htouched.same_perms h.granted
  exact ⟨g', hstays, h.stays hstays (hperms.sized h.sized) (hperms.granted h.granted)⟩

theorem wp_push_args {stackbase sp : Nat} {argv : List (List Byte)} {ustack : List Nat}
    (h : Building L r sz g s) :
    wp (pushArgs L r stackbase argv sp ustack) E (fun _ s' => ∃ g', Stays L {r} g s g' s' ∧
      Building L r sz g' s') s := by
  induction argv generalizing g s sp ustack with
  | nil => exact ⟨g, .refl h.books, h⟩
  | cons arg rest ih =>
    simp only [pushArgs, wp_ite, wp_pure]
    refine ⟨fun _ => ⟨g, .refl h.books, h⟩, fun _ => ⟨fun _ => ⟨g, .refl h.books, h⟩, fun _ => ?_⟩⟩
    refine wp_seq (wp_copyout_image h) ?_
    intro copied s1 hpost
    obtain ⟨g1, hstays, hbuilding⟩ := hpost
    rw [wp_ite, wp_pure]
    refine ⟨fun _ => ⟨g1, hstays, hbuilding⟩, fun _ => ?_⟩
    refine wp_mono (ih hbuilding) ?_
    intro _ s2 hrest
    obtain ⟨g2, hstays2, hbuilding2⟩ := hrest
    exact ⟨g2, hstays.trans hstays2, hbuilding2⟩

theorem npages_stack (n : Nat) : npages (n * PGSIZE + (USERSTACK + 1) * PGSIZE) = n + 2 := by
  rw [← add_mul, npages_mul]
  rfl

theorem granted_clear (h : Granted sp) (hc : sp v = some c) :
    Granted (update sp v (some c.clear)) := by
  intro v' c' hc'
  by_cases hv : v' = v
  · rw [hv, update_self] at hc'
    obtain rfl := Option.some.inj hc'
    obtain ⟨hw, -, hcow⟩ := h v c hc
    exact ⟨hw, rfl, hcow⟩
  · rw [update_of_ne hv] at hc'
    exact h v' c' hc'

theorem Sized.update_some (h : Sized sp n) (hc : sp v = some c) :
    Sized (Function.update sp v (some c')) n := by
  intro v'
  rw [← h v']
  by_cases hv : v' = v
  · rw [hv, update_self, hc]
    rfl
  · rw [update_of_ne hv]

/-- The pages of the stack: the guard page, and the page above it for the arguments. -/
theorem wp_stack_pages (h : Building L r sz g s) :
    wp (uvmalloc L r (npages sz * PGSIZE) (npages sz * PGSIZE + (USERSTACK + 1) * PGSIZE) PTE_W) E
      (fun sz1 s1 => ∃ g1, Stays L {r} g s g1 s1 ∧
        (sz1 = 0 ∧ s.failed < s1.failed ∧ Building L r (npages sz * PGSIZE) g1 s1 ∨
          sz1 = (npages sz + 2) * PGSIZE ∧ s1.failed = s.failed ∧ Building L r sz1 g1 s1 ∧
            (∃ c, space g1 s1 r (npages sz) = some c) ∧
            space g1 s1 r (npages sz + 1) = some (zeroCell true))) s := by
  have hsized : Sized (space g s r) (npages (npages sz * PGSIZE)) := by
    rw [npages_mul]
    exact h.sized
  have hwritable : PTE_R ||| PTE_U ||| PTE_W ||| PTE_V = leafFlags true false true false := by
    decide
  refine wp_mono (wp_uvmalloc h.books h.root hsized hwritable (by decide)) ?_
  intro sz1 s1 halloc
  obtain ⟨g1, hstays, ⟨rfl, hfailed, hspace⟩ | ⟨hret, hfailed, hspace⟩⟩ := halloc
  · exact ⟨g1, hstays, .inl ⟨rfl, hfailed, h.stays hstays (by rw [hspace]; exact hsized)
      (by rw [hspace]; exact h.granted)⟩⟩
  have hsz1 : sz1 = (npages sz + 2) * PGSIZE := by
    rw [hret, max_eq_right (Nat.le_add_right _ _), ← add_mul]
    rfl
  rw [npages_mul, npages_stack] at hspace
  have hsized1 : Sized (space g1 s1 r) (npages sz1) := by
    rw [hspace, hsz1, npages_mul]
    exact h.sized.extend (by omega) _
  refine ⟨g1, hstays, .inr ⟨hsz1, hfailed, h.stays hstays hsized1 ?_, ?_, ?_⟩⟩
  · rw [hspace]
    exact granted_extend h.granted
  · exact Option.isSome_iff_exists.mp ((hsized1 _).mpr (by rw [hsz1, npages_mul]; omega))
  · rw [hspace, Space.extend, if_pos (by omega)]

theorem wp_stack_guard (h : Building L r sz g s) (hc : space g s r v = some c) :
    wp (uvmclear r (v * PGSIZE)) E (fun _ s' => s'.failed = s.failed ∧ ∃ g', Stays L {r} g s g' s' ∧
      Building L r sz g' s' ∧ ∀ v' ≠ v, space g' s' r v' = space g s r v') s := by
  refine wp_mono (wp_uvmclear h.books h.root hc) ?_
  intro _ s' hclear
  obtain ⟨g', hstays, hfailed, hspace⟩ := hclear
  refine ⟨hfailed, g', hstays, h.stays hstays (by rw [hspace]; exact h.sized.update_some hc)
    (by rw [hspace]; exact granted_clear h.granted hc), fun v' hne => ?_⟩
  rw [hspace, update_of_ne hne]

theorem stack_size_ne_zero (n : Nat) : (n + 2) * PGSIZE ≠ 0 :=
  Nat.mul_ne_zero (by omega) (by decide)

theorem stack_guard_eq (n : Nat) : (n + 2) * PGSIZE - (USERSTACK + 1) * PGSIZE = n * PGSIZE := by
  rw [← Nat.sub_mul]
  rfl

theorem wp_exec_stack (h : Building L r sz g s) (argv : List (List Byte)) :
    wp (execArgs L r sz argv) E (fun ret s' => ∃ g', Stays L {r} g s g' s' ∧
      Building L r ret.1 g' s') s := by
  rw [execArgs, pgroundup_eq]
  refine wp_seq (wp_stack_pages h) ?_
  intro sz1 s1 halloc
  obtain ⟨g1, hstays, ⟨hsz1, -, hbuilding⟩ | ⟨hsz1, -, hbuilding, ⟨c, hc⟩, -⟩⟩ := halloc
  · rw [if_pos hsz1, wp_pure]
    exact ⟨g1, hstays, hbuilding⟩
  subst hsz1
  rw [if_neg (stack_size_ne_zero _), wp_bind, stack_guard_eq]
  refine wp_mono (wp_stack_guard hbuilding hc) ?_
  intro _ s2 hguard
  obtain ⟨-, g2, hstays2, hbuilding2, -⟩ := hguard
  refine wp_seq (wp_push_args hbuilding2) ?_
  intro pushed s3 hpost
  obtain ⟨g3, hstays3, hbuilding3⟩ := hpost
  have hall := (hstays.trans hstays2).trans hstays3
  cases pushed with
  | none => exact ⟨g3, hall, hbuilding3⟩
  | some top =>
    simp only [pushArray, wp_bind, wp_ite, wp_pure]
    refine ⟨fun _ => ⟨g3, hall, hbuilding3⟩, fun _ => ?_⟩
    refine wp_mono (wp_copyout_image hbuilding3) ?_
    intro copied s4 hlast
    obtain ⟨g4, hstays4, hbuilding4⟩ := hlast
    have hdone := hall.trans hstays4
    exact ⟨fun _ => ⟨g4, hdone, hbuilding4⟩, fun _ => ⟨g4, hdone, hbuilding4⟩⟩

end Xv6.Vm
