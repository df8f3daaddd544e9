import Xv6.Vm.Books

/-!
# Operations on user memory

`uvmunmap`, `uvmdealloc`, `uvmalloc` and `uvmclear`, each specified by what it does to the address
space of its table. None of them faults on a table whose user pages are the first `n`, whether or
not memory runs out.
-/

namespace Xv6.Vm

open Function

variable {L : Layout} {g g' : Ghost} {s s' : State} {E : Fault → Prop} {r v n a b pa newsz : Nat}
  {sp : Space} {G : Grant} {l : Leaf} {g1 : Ghost} {page : Page}

/-- The address space maps exactly its first `n` pages. -/
def Sized (sp : Space) (n : Nat) : Prop := ∀ v, (sp v).isSome ↔ v < n

theorem Sized.mapped (h : Sized (space g s r) n) :
    n ≤ UPAGES ∧ ∀ v, v < UPAGES → ((∃ l, g.pt r v = some l) ↔ v < n) := by
  constructor
  · by_contra hlt
    exact absurd (space_isSome.mp ((h UPAGES).mpr (by omega))).1 (lt_irrefl _)
  · intro v hv
    rw [← h v, space_isSome]
    simp [hv]

/-- Without the pages from `a` up to `b`. -/
def Space.without (sp : Space) (a b : Nat) : Space := fun v => if a ≤ v ∧ v < b then none else sp v

theorem without_empty (sp : Space) (a : Nat) : sp.without a a = sp := by
  funext v
  simp only [Space.without]
  rw [if_neg (by omega)]

theorem without_succ (sp : Space) (a n : Nat) :
    Space.without (update sp a none) (a + 1) (a + 1 + n) =
      sp.without a (a + (n + 1)) := by
  funext v
  simp only [Space.without, update_apply]
  grind

theorem Sized.without (h : Sized sp n) (ha : a ≤ n) :
    Sized (sp.without a n) a := by
  intro v
  have := h v
  simp only [Space.without]
  grind

theorem Books.leaf (h : Books L g s) (hv : v < UPAGES) (hl : g.pt r v = some l) :
    PageAddr l.pa ∧ (g.use l.pa).holdsData = true ∧ g.use l.pa = .user := by
  have huse := h.counted.is_user hv hl
  exact ⟨h.holds.addr r v l hl, by rw [huse]; rfl, huse⟩

/-! ## Reference counts -/

/-- The state with another count for the page at `pa`. -/
def State.withRef (s : State) (pa : Nat) (r : Int) : State :=
  { s with pgref := update s.pgref (pa / PGSIZE) r }

/-- The state with another grant for page `v` of table `r`. -/
def State.withGrant (s : State) (r v : Nat) (G : Grant) : State :=
  { s with granted := update s.granted r (update (s.granted r) v G) }

theorem wp_grant {va : Nat} {Q : Unit → State → Prop} :
    wp (grant r va G) E Q s ↔ Q () (s.withGrant r (va / PGSIZE) G) := Iff.rfl

theorem wp_increment_ref (hpa : PageAddr pa) {Q : Unit → State → Prop}
    (hQ : Q () (s.withRef pa (s.pgref (pa / PGSIZE) + 1))) :
    wp (incrementRef pa) E Q s := by
  have hbound := hpa.bound
  rw [incrementRef, if_neg (by omega), wp_modify]
  exact hQ

/-- `decrement_ref` frees the page when its count was one. -/
theorem wp_decrement_ref (h : Holds L g s) (hpa : (g.use pa).holdsData = true) :
    wp (decrementRef L pa) E (fun _ s' =>
      SameBooks (s.withRef pa (s.pgref (pa / PGSIZE) - 1)) s' ∧ s'.failed = s.failed ∧
      Holds L (if s.pgref (pa / PGSIZE) = 1 then g.give pa else g) s') s := by
  have haddr := (h.page_addr (holds_data_inside hpa)).1
  have hbound := haddr.bound
  rw [decrementRef, if_neg (by omega)]
  simp only [wp_bind, wp_get, wp_set, wp_ite, wp_pure]
  constructor
  · intro hzero
    rw [if_pos (by omega)]
    exact wp_kfree (s := s.withRef pa _) h hpa
  · intro hne
    rw [if_neg (by omega)]
    exact ⟨.refl _, trivial, h⟩

/-- The same change to the counts and grants of two states. -/
theorem SameBooks.with_ref_grant (h : SameBooks s s') {d : Int} :
    SameBooks ((s.withRef pa (s.pgref (pa / PGSIZE) + d)).withGrant r v G)
      ((s'.withRef pa (s'.pgref (pa / PGSIZE) + d)).withGrant r v G) := by
  refine ⟨?_, h.proc, h.held, ?_⟩
  · simp only [State.withGrant, State.withRef, h.pgref]
  · simp only [State.withGrant, State.withRef, h.granted]

theorem SameBooks.with_grant (h : SameBooks s s') :
    SameBooks (s.withGrant r v G) (s'.withGrant r v G) := by
  refine ⟨h.pgref, h.proc, h.held, ?_⟩
  simp only [State.withGrant, h.granted]

/-! ## Changing one entry -/

theorem with_grant_self (s : State) (r v : Nat) : s.withGrant r v (s.granted r v) = s := by
  simp only [State.withGrant, update_eq_self]

/-- The cell that an entry shows. -/
def Leaf.cell (l : Leaf) (grant : Grant) (page : Page) : Cell :=
  ⟨⟨l.w, l.u, l.cow, grant⟩, page⟩

/-- One entry changes, and nothing that another entry shows. -/
theorem stays_entry {o : Option Leaf} (G : Grant) (h : Books L g s) (hr : g.IsRoot r)
    (hv : v < UPAGES) (hbooks : Books L g' s') (hproc : s'.proc = s.proc) (hheld : s'.held = s.held)
    (hfailed : s.failed ≤ s'.failed) (hpt : g'.pt = (g.map r v o).pt)
    (hgranted : s'.granted = (s.withGrant r v G).granted)
    (huse : ∀ pa, (g.use pa).Fixed {r} ∨ (g'.use pa).Fixed {r} → g'.use pa = g.use pa)
    (hdata : ∀ r' v' l', v' < UPAGES → (r', v') ≠ (r, v) → g.pt r' v' = some l' →
      g'.data l'.pa = g.data l'.pa) (hroot : g'.IsRoot r) :
    Stays L {r} g s g' s' ∧
      space g' s' r = update (space g s r) v (o.map fun l => l.cell G (g'.data l.pa)) := by
  have hother : ∀ r' v', (r', v') ≠ (r, v) →
      g'.pt r' v' = g.pt r' v' ∧ s'.granted r' v' = s.granted r' v' := by
    intro r' v' hne
    rw [hpt, hgranted]
    simp only [Ghost.map, State.withGrant, update_apply]
    grind
  refine ⟨⟨hbooks, ⟨hproc, hheld, hfailed, huse, ?_, ?_⟩, ?_, ?_⟩, ?_⟩
  · exact fun r' v' hr' => (hother r' v' fun heq => hr' (congrArg Prod.fst heq)).1
  · intro r' hr'
    have hne : ∀ v', (r', v') ≠ (r, v) := fun v' heq => hr' (congrArg Prod.fst heq)
    exact space_congr (fun v' _ => (hother r' v' (hne v')).1)
      (fun v' l' hv' => hdata r' v' l' hv' (hne v')) fun v' _ => (hother r' v' (hne v')).2
  · intro r'
    by_cases hr' : r' = r
    · subst hr'
      exact ⟨fun _ => hr, fun _ => hroot⟩
    · have hsame := huse r'
      rw [Ghost.IsRoot, Ghost.IsRoot, hbooks.holds.tab, h.holds.tab]
      constructor
      · intro hroot
        rw [hroot] at hsame
        exact (hsame (.inr hr')).symm
      · intro hroot
        rw [hroot] at hsame
        exact hsame (.inl hr')
  · intro r' v' hv'
    refine (hother r' v' fun heq => ?_).1
    cases heq
    omega
  · funext v'
    by_cases hv' : v' = v
    · subst hv'
      simp [space, hv, hpt, Ghost.map, hgranted, State.withGrant, Leaf.cell]
    · obtain ⟨hsame, hgrant⟩ := hother r v' fun heq => hv' (congrArg Prod.snd heq)
      rw [update_of_ne hv']
      simp only [space, hsame, hgrant]
      split
      next hlt =>
        cases hl : g.pt r v' with
        | none => rfl
        | some l =>
          have hsame := hdata r v' l hlt (fun heq => hv' (congrArg Prod.snd heq)) hl
          simp only [Option.map_some, hsame]
      next => rfl

/-! ## `uvmunmap` -/

theorem wp_unmap_entry (h : Books L g s) {q k : Nat} (hr : g.IsRoot r) (hv : v < UPAGES)
    (hl : g.pt r v = some l) (he : g.entry r v = some (q, k)) :
    wp (do
      decrementRef L l.pa
      writeWord q k 0) E (fun _ s' => ∃ g', Stays L {r} g s g' s' ∧ s'.failed = s.failed ∧
        s'.granted = s.granted ∧
        space g' s' r = update (space g s r) v none) s := by
  obtain ⟨haddr, hdata, huser⟩ := h.leaf hv hl
  simp only [wp_bind]
  refine wp_mono (wp_decrement_ref h.holds hdata) ?_
  intro _ s1 hdec
  obtain ⟨hbooks, hfailed, hholds⟩ := hdec
  obtain ⟨g1, hg1⟩ : ∃ g1, g1 = if s.pgref (l.pa / PGSIZE) = 1 then g.give l.pa else g := ⟨_, rfl⟩
  rw [← hg1] at hholds
  -- freeing the page or not, the entries and the contents are those of `g`
  have hsame : g1.tab = g.tab ∧ g1.pt = g.pt ∧ g1.data = g.data := by
    rw [hg1]
    split <;> exact ⟨rfl, rfl, rfl⟩
  have huse : ∀ pa, g1.use pa =
      if pa = l.pa ∧ s.pgref (l.pa / PGSIZE) = 1 then .free else g.use pa := by
    intro pa
    rw [hg1]
    by_cases hlast : s.pgref (l.pa / PGSIZE) = 1
    · simp [hlast, Ghost.give, update_apply]
    · simp [hlast]
  have he' : g1.entry r v = some (q, k) := by rw [Ghost.entry, hsame.1]; exact he
  refine wp_mono (wp_write_entry hholds he' (o := none) (by simp)) ?_
  intro _ s2 hwrite
  obtain ⟨hbooks', hfailed', hmap⟩ := hwrite
  have hgranted : s2.granted = s.granted := hbooks'.granted.trans hbooks.granted
  have hpt : (g1.map r v none).pt = (g.map r v none).pt := by rw [Ghost.map, hsame.2.1]; rfl
  have hbooks2 : Books L (g1.map r v none) s2 := by
    refine ⟨hmap, ?_⟩
    rw [hbooks'.pgref, hbooks.pgref]
    refine h.counted.remove hv haddr.aligned hl hpt ?_
    intro pa
    show g1.use pa = .user ↔ _
    rw [huse]
    grind
  have hentry := stays_entry (s.granted r v) h hr hv hbooks2
    (hbooks'.proc.trans hbooks.proc) (hbooks'.held.trans hbooks.held) (by rw [hfailed', hfailed])
    hpt (by rw [with_grant_self, hgranted]) (fun pa hfixed => ?_) (fun r' v' l' _ _ _ => ?_) ?_
  · exact ⟨_, hentry.1, hfailed'.trans hfailed, hgranted, hentry.2⟩
  · have hpa := huse pa
    simp only [Ghost.map] at hfixed ⊢
    grind [Use.Fixed]
  · show g1.data l'.pa = g.data l'.pa
    rw [hsame.2.2]
  · show g1.tab r 2 0 = some r
    rw [hsame.1]
    exact hr

theorem wp_unmap_loop (h : Books L g s) (hr : g.IsRoot r) (hbound : v + n ≤ UPAGES)
    (hmapped : ∀ v', v ≤ v' → v' < v + n → ∃ l, g.pt r v' = some l) :
    wp (unmapLoop L r true n (v * PGSIZE)) E (fun _ s' => ∃ g', Stays L {r} g s g' s' ∧
      s'.failed = s.failed ∧ s'.granted = s.granted ∧
      space g' s' r = (space g s r).without v (v + n)) s := by
  induction n generalizing g s v with
  | zero =>
    simp only [unmapLoop, wp_pure]
    exact ⟨g, .refl h, trivial, trivial, (without_empty _ _).symm⟩
  | succ n ih =>
    obtain ⟨l, hl⟩ := hmapped v le_rfl (by omega)
    have hv : v < UPAGES := by omega
    have hnumber : v * PGSIZE / PGSIZE = v := Nat.mul_div_cancel _ (by decide)
    have hva : v * PGSIZE < MAXVA := by
      unfold UPAGES at hv
      have hmax : TRAPFRAME / PGSIZE * PGSIZE ≤ MAXVA := by decide
      have := Nat.mul_lt_mul_of_pos_right hv (show 0 < PGSIZE by decide)
      omega
    obtain ⟨haddr, -, -⟩ := h.leaf hv hl
    simp only [unmapLoop, wp_bind]
    refine wp_mono (wp_walk_some h.holds hr hva (l := l) (by rwa [hnumber])) ?_
    intro res s1 hwalk
    obtain ⟨rfl, q, k, rfl, he, hword⟩ := hwalk
    rw [hnumber] at he
    simp only [wp_bind, wp_readWord, hword, encode_has_v haddr, Bool.not_true,
      Bool.false_eq_true, if_false, if_neg (encode_is_leaf haddr), if_true, encode_pa haddr]
    have hturn := wp_unmap_entry (E := E) h hr hv hl he
    rw [wp_bind] at hturn
    refine wp_mono hturn ?_
    intro _ s2 hdec
    refine wp_mono hdec ?_
    intro _ s3 hpost
    obtain ⟨g1, hstays, hfailed, hgranted, hspace⟩ := hpost
    rw [show v * PGSIZE + PGSIZE = (v + 1) * PGSIZE by ring]
    have hpt : ∀ v', v + 1 ≤ v' → v' < v + 1 + n → ∃ l, g1.pt r v' = some l := by
      intro v' hlo hhi
      have hold := hmapped v' (by omega) (by omega)
      have hsome : (space g1 s3 r v').isSome := by
        rw [hspace, update_of_ne (by omega), space_isSome]
        exact ⟨by omega, hold⟩
      exact (space_isSome.mp hsome).2
    refine wp_mono (ih hstays.books ((hstays.root r).mpr hr) (by omega) hpt) ?_
    intro _ s4 hrest
    obtain ⟨g2, hstays', hfailed', hgranted', hspace'⟩ := hrest
    refine ⟨g2, hstays.trans hstays', hfailed'.trans hfailed, hgranted'.trans hgranted, ?_⟩
    rw [hspace', hspace, without_succ]

/-! ## `uvmdealloc` -/

/-- The number of pages of an image of `sz` bytes. -/
def npages (sz : Nat) : Nat := PGROUNDUP sz / PGSIZE

theorem pgroundup_eq (sz : Nat) : PGROUNDUP sz = npages sz * PGSIZE := by
  rw [npages, PGROUNDUP, Nat.mul_div_cancel _ (by decide)]

theorem npages_mul (v : Nat) : npages (v * PGSIZE) = v := by
  unfold npages PGROUNDUP PGSIZE
  omega

theorem npages_mono (h : a ≤ b) : npages a ≤ npages b := by
  unfold npages PGROUNDUP PGSIZE
  omega

theorem without_ge (h : b ≤ a) : sp.without a b = sp := by
  funext v
  simp only [Space.without]
  rw [if_neg (by omega)]

theorem wp_uvmdealloc (h : Books L g s) {oldsz : Nat} (hr : g.IsRoot r)
    (hsized : Sized (space g s r) (npages oldsz)) :
    wp (uvmdealloc L r oldsz newsz) E (fun ret s' => ∃ g', Stays L {r} g s g' s' ∧
      s'.failed = s.failed ∧ s'.granted = s.granted ∧
      ret = (if oldsz ≤ newsz then oldsz else newsz) ∧
      space g' s' r = (space g s r).without (npages newsz) (npages oldsz)) s := by
  simp only [uvmdealloc, wp_ite, wp_pure, wp_bind]
  refine ⟨fun hle => ?_, fun hlt => ⟨fun hround => ?_, fun hround => ?_⟩⟩
  · exact ⟨g, .refl h, trivial, trivial, by rw [if_pos hle], (without_ge (npages_mono hle)).symm⟩
  · rw [pgroundup_eq, pgroundup_eq, ← Nat.sub_mul, Nat.mul_div_cancel _ (by decide : 0 < PGSIZE),
      uvmunmap, if_neg (by simp)]
    have hpages : npages newsz ≤ npages oldsz := npages_mono (by omega)
    have hsum : npages newsz + (npages oldsz - npages newsz) = npages oldsz := by omega
    obtain ⟨hbound, hmapped⟩ := hsized.mapped
    refine wp_mono (wp_unmap_loop h hr (by omega) ?_) ?_
    · intro v' _ hv'
      exact (hmapped v' (by omega)).mpr (by omega)
    · intro _ s' hpost
      obtain ⟨g', hstays, hfailed, hgranted, hspace⟩ := hpost
      rw [hsum] at hspace
      exact ⟨g', hstays, hfailed, hgranted, by rw [if_neg hlt], hspace⟩
  · have hpages : npages oldsz ≤ npages newsz := by
      rw [pgroundup_eq, pgroundup_eq] at hround
      exact Nat.le_of_mul_le_mul_right (not_lt.mp hround) (by decide)
    exact ⟨g, .refl h, trivial, trivial, by rw [if_neg hlt], (without_ge hpages).symm⟩

/-! ## `uvmalloc` -/

theorem Grows.frame (hgrows : Grows r g g') (h : Books L g s) (hbooks : SameBooks s s')
    (hfailed : s.failed ≤ s'.failed) :
    Counted g' s'.pgref ∧ Frame {r} g s g' s' ∧ space g' s' r = space g s r := by
  have huse : ∀ pa, g'.use pa = g.use pa ∨
      g.use pa = .free ∧ ∃ l x, g'.use pa = .table r l x := by
    intro pa
    have := hgrows.use pa
    have := hgrows.taken pa
    grind
  have hdata : ∀ r' v l, v < UPAGES → g.pt r' v = some l → g'.data l.pa = g.data l.pa :=
    fun r' v l hv hl => hgrows.data l.pa (h.leaf hv hl).2.1
  have hspace : ∀ r', space g' s' r' = space g s r' := by
    intro r'
    refine space_congr ?_ ?_ ?_
    · intro v _
      rw [hgrows.pt]
    · exact fun v l hv hl => hdata r' v l hv hl
    · intro v _
      rw [hbooks.granted]
  have hcounted : Counted g' s'.pgref := by
    rw [hbooks.pgref]
    refine h.counted.same hgrows.pt fun pa => ?_
    have := huse pa
    grind
  refine ⟨hcounted, ⟨hbooks.proc, hbooks.held, hfailed, ?_, ?_, fun r' _ => hspace r'⟩, hspace r⟩
  · intro pa hfixed
    have := huse pa
    grind [Use.Fixed]
  · intro r' v _
    rw [hgrows.pt]

theorem Grows.stays (hgrows : Grows r g g') (h : Books L g s) (hr : g.IsRoot r)
    (hholds : Holds L g' s') (hbooks : SameBooks s s') (hfailed : s.failed ≤ s'.failed) :
    Stays L {r} g s g' s' ∧ space g' s' r = space g s r := by
  obtain ⟨hcounted, hframe, hspace⟩ := hgrows.frame h hbooks hfailed
  refine ⟨⟨⟨hholds, hcounted⟩, hframe, ?_, fun r' v _ => by rw [hgrows.pt]⟩, hspace⟩
  intro r'
  constructor
  · intro hroot
    rw [Ghost.IsRoot, hholds.tab] at hroot
    by_cases hr' : r' = r
    · rw [hr']
      exact hr
    · rw [Ghost.IsRoot, h.holds.tab, ← hframe.use r' (.inr (by rw [hroot]; exact hr')), hroot]
  · exact hgrows.root h.holds hholds

/-- The page in hand keeps its contents while the table grows. -/
theorem Grows.in_hand (hgrows : Grows r ((g.take pa).fill pa page) g1) :
    g1.use pa = .hand ∧ g1.data pa = page := by
  rw [hgrows.use pa (by simp [Ghost.fill, Ghost.take]),
    hgrows.data pa (by simp [Ghost.fill, Ghost.take, Use.holdsData])]
  simp [Ghost.fill, Ghost.take]

/-- A page that was taken and given back, after the table may have grown. -/
theorem stays_given_back (h : Books L g s) (hr : g.IsRoot r) (hfree : g.use pa = .free)
    (hgrows : Grows r ((g.take pa).fill pa page) g1) (hholds : Holds L (g1.give pa) s')
    (hbooks : SameBooks s s') (hfailed : s.failed ≤ s'.failed) :
    Stays L {r} g s (g1.give pa) s' ∧ space (g1.give pa) s' r = space g s r := by
  refine Grows.stays ⟨?_, ?_, ?_, ?_⟩ h hr hholds hbooks hfailed
  · exact hgrows.pt
  · intro q hq
    have huse := hgrows.use q
    have hpa := hgrows.in_hand.1
    simp only [Ghost.give, Ghost.fill, Ghost.take, update_apply] at huse ⊢
    grind
  · intro q hq
    have htaken := hgrows.taken q
    simp only [Ghost.give, Ghost.fill, Ghost.take, update_apply] at htaken ⊢
    grind
  · intro q hq
    have hdata := hgrows.data q
    have hne : q ≠ pa := by
      rintro rfl
      simp [hfree, Use.holdsData] at hq
    simp only [Ghost.fill, Ghost.take, update_of_ne hne] at hdata
    exact hdata hq

theorem fill_self (g : Ghost) (pa : Nat) : g.fill pa (g.data pa) = g := by
  simp [Ghost.fill]

/-- A page that was taken, filled and mapped becomes user memory with a count of one. -/
theorem stays_new_page {page' : Page} (h : Books L g s) (hr : g.IsRoot r) (hv : v < UPAGES)
    (hnone : g.pt r v = none) (hown : l.w = true → l.cow = false) (hfree : g.use l.pa = .free)
    (hgrows : Grows r ((g.take l.pa).fill l.pa page) g1)
    (hholds : Holds L (((g1.map r v (some l)).own l.pa .user).fill l.pa page') s')
    (hbooks : SameBooks ((s.withRef l.pa (s.pgref (l.pa / PGSIZE) + 1)).withGrant r v G) s')
    (hfailed : s.failed ≤ s'.failed) :
    ∃ g', Stays L {r} g s g' s' ∧
      space g' s' r = update (space g s r) v (some (l.cell G page')) := by
  have huse : ∀ q, q = l.pa ∧ g1.use q = .hand ∨ q ≠ l.pa ∧ g1.use q = g.use q ∨
      q ≠ l.pa ∧ g.use q = .free ∧ ∃ y x, g1.use q = .table r y x := by
    intro q
    have hkept := hgrows.use q
    have htaken := hgrows.taken q
    simp only [Ghost.fill, Ghost.take, update_apply] at hkept htaken
    grind
  have hpt : g1.pt = g.pt := hgrows.pt
  -- nobody maps the page yet
  have hnew : ∀ r' v' l', v' < UPAGES → g.pt r' v' = some l' → l'.pa ≠ l.pa :=
    fun r' v' l' => h.counted.unmapped (by rw [hfree]; simp)
  have haddr := (h.holds.page_addr (show g.use l.pa ≠ .outside by rw [hfree]; simp)).1
  obtain ⟨g', hg'⟩ : ∃ g', g' = ((g1.map r v (some l)).own l.pa .user).fill l.pa page' := ⟨_, rfl⟩
  rw [← hg'] at hholds
  have huse' : ∀ q, g'.use q = if q = l.pa then .user else g1.use q := by
    intro q
    rw [hg']
    simp only [Ghost.fill, Ghost.own, Ghost.map, update_apply]
  have hpt' : g'.pt = (g.map r v (some l)).pt := by
    rw [hg']
    simp only [Ghost.fill, Ghost.own, Ghost.map, hpt]
  have hdata' : ∀ q, g'.data q = if q = l.pa then page' else g1.data q := by
    intro q
    rw [hg']
    simp only [Ghost.fill, Ghost.own, Ghost.map, update_apply]
  have hcounted : Counted g' s'.pgref := by
    rw [hbooks.pgref]
    refine h.counted.add hv haddr.aligned hnone (hnew r) ?_ hown hpt' ?_
    · exact fun r' v' l' hv' hl' heq => absurd heq (hnew r' v' l' hv' hl')
    · intro q
      rw [huse']
      have := huse q
      grind
  refine ⟨g', ?_⟩
  have hpage : g'.data l.pa = page' := by rw [hdata', if_pos rfl]
  rw [← hpage]
  refine stays_entry G h hr hv ⟨hholds, hcounted⟩ hbooks.proc hbooks.held hfailed hpt'
    hbooks.granted ?_ ?_ ?_
  · intro q hfixed
    rw [huse'] at hfixed ⊢
    have := huse q
    grind [Use.Fixed]
  · intro r' v' l' hv' _ hl'
    have hold := hgrows.data l'.pa
    have hne := hnew r' v' l' hv' hl'
    rw [hdata', if_neg hne]
    simp only [Ghost.fill, Ghost.take, update_of_ne hne] at hold
    exact hold (h.leaf hv' hl').2.1
  · have hroot := (h.holds.tab r 2 0 r).mp hr
    refine (hholds.tab r 2 0 r).mpr ?_
    rw [huse']
    have := huse r
    grind

/-- With the same new cell from page `a` up to `b`. -/
def Space.extend (sp : Space) (a b : Nat) (cell : Cell) : Space :=
  fun v => if a ≤ v ∧ v < b then some cell else sp v

theorem extend_empty (sp : Space) (a : Nat) (cell : Cell) : sp.extend a a cell = sp := by
  funext v
  simp only [Space.extend]
  rw [if_neg (by omega)]

theorem extend_succ (sp : Space) (a n : Nat) (cell : Cell) :
    Space.extend (update sp a (some cell)) (a + 1) (a + 1 + n) cell =
      sp.extend a (a + (n + 1)) cell := by
  funext v
  simp only [Space.extend, update_apply]
  grind

theorem Sized.update (h : Sized sp n) (cell : Cell) :
    Sized (update sp n (some cell)) (n + 1) := by
  intro v
  have := h v
  simp only [update_apply]
  grind

theorem Sized.extend (h : Sized sp a) (hab : a ≤ b) (cell : Cell) :
    Sized (sp.extend a b cell) b := by
  intro v
  have := h v
  simp only [Space.extend]
  grind

theorem without_update {cell : Cell} (hle : a ≤ n) :
    Space.without (update sp n (some cell)) a (n + 1) = sp.without a (n + 1) := by
  funext v
  simp only [Space.without, update_apply]
  grind

theorem without_unmapped (h : Sized sp n) :
    sp.without a (n + 1) = sp.without a n := by
  funext v
  by_cases hv : v = n
  · have hnone : sp v = none := by
      rw [← Option.not_isSome_iff_eq_none, h v]
      omega
    simp only [Space.without, hnone, ite_self]
  · simp only [Space.without]
    grind

/-- Physical memory has fewer pages than there are user page numbers. -/
theorem room_lt_upages (h : n ≤ (PHYSTOP - KERNBASE) / PGSIZE) : n < UPAGES :=
  lt_of_le_of_lt h (by decide)

theorem page_va_lt (h : v < UPAGES) : v * PGSIZE < MAXVA := by
  have hmax : UPAGES * PGSIZE ≤ MAXVA := by decide
  exact lt_of_lt_of_le (Nat.mul_lt_mul_of_pos_right h (by decide)) hmax

/-- An address space that maps its first `n` pages has room for one more. -/
theorem Books.next_page (h : Books L g s) (hsized : Sized (space g s r) n) :
    n < UPAGES ∧ g.pt r n = none := by
  obtain ⟨hbound, hmapped⟩ := hsized.mapped
  have hlt := room_lt_upages (h.room hbound fun v hv => (hmapped v (by omega)).mpr hv)
  refine ⟨hlt, ?_⟩
  cases hl : g.pt r n with
  | none => rfl
  | some l => exact absurd ((hmapped n hlt).mp ⟨l, hl⟩) (lt_irrefl n)

/-- The cell of a page that `uvmalloc` adds. -/
def zeroCell (w : Bool) : Cell := ⟨⟨w, true, false, ⟨w, true⟩⟩, fun _ => 0⟩

/-- The result of `uvmalloc` from page `b` on, having got to page `v`. -/
def Allocated (L : Layout) (r b v n newsz : Nat) (w : Bool) (g : Ghost) (s : State) (ret : Nat)
    (s' : State) (g' : Ghost) : Prop :=
  Stays L {r} g s g' s' ∧
    (ret = 0 ∧ s.failed < s'.failed ∧ space g' s' r = (space g s r).without b v ∨
      ret = newsz ∧ s'.failed = s.failed ∧
        space g' s' r = (space g s r).extend v (v + n) (zeroCell w))

theorem wp_alloc_loop (h : Books L g s) {xperm : Pte} {w x : Bool} (hr : g.IsRoot r) (hbv : b ≤ v)
    (hsized : Sized (space g s r) v)
    (hperm : PTE_R ||| PTE_U ||| xperm ||| PTE_V = leafFlags w x true false)
    (hw : hasFlag xperm PTE_W = w) :
    wp (allocLoop L r (b * PGSIZE) newsz xperm n (v * PGSIZE)) E
      (fun ret s' => ∃ g', Allocated L r b v n newsz w g s ret s' g') s := by
  induction n generalizing g s v with
  | zero =>
    simp only [allocLoop, wp_pure]
    exact ⟨g, .refl h, .inr ⟨rfl, rfl, (extend_empty _ _ _).symm⟩⟩
  | succ n ih =>
    obtain ⟨hv, hnone⟩ := h.next_page hsized
    have hnumber : v * PGSIZE / PGSIZE = v := Nat.mul_div_cancel _ (by decide)
    -- what happens when memory runs out, once the page in hand is back
    have hundo : ∀ {g1 : Ghost} {s1 : State}, Stays L {r} g s g1 s1 →
        space g1 s1 r = space g s r → s.failed < s1.failed →
        wp (do
          discard <| uvmdealloc L r (v * PGSIZE) (b * PGSIZE)
          pure 0) E (fun ret s' => ∃ g', Allocated L r b v (n + 1) newsz w g s ret s' g') s1 := by
      intro g1 s1 hstays hspace hfailed
      simp only [wp_bind, wp_pure]
      show wp ((fun _ => ()) <$> uvmdealloc L r (v * PGSIZE) (b * PGSIZE)) E _ s1
      rw [wp_map]
      refine wp_mono (wp_uvmdealloc hstays.books ((hstays.root r).mpr hr) ?_) ?_
      · rw [hspace, npages_mul]
        exact hsized
      · intro _ s2 hpost
        obtain ⟨g2, hstays2, hfailed2, -, -, hspace2⟩ := hpost
        rw [npages_mul, npages_mul, hspace] at hspace2
        exact ⟨g2, hstays.trans hstays2, .inl ⟨rfl, by rw [hfailed2]; exact hfailed, hspace2⟩⟩
    simp only [allocLoop, wp_bind]
    refine wp_mono (wp_kalloc h.holds) ?_
    intro mem s1 hmem
    obtain ⟨hbooks1, ⟨rfl, -, hholds1, hfailed1⟩ | ⟨hne, hfree, hholds1, hfailed1⟩⟩ := hmem
    · simp only [if_true]
      obtain ⟨hstays, hspace⟩ := (Grows.refl r g).stays h hr hholds1 hbooks1 (by omega)
      exact hundo hstays hspace (by omega)
    · simp only [if_neg hne, wp_bind]
      have hhand : ((g.take mem).use mem).holdsData = true := by simp [Ghost.take, Use.holdsData]
      refine wp_mono (wp_set_page hholds1 hhand _) ?_
      intro _ s2 hset
      obtain ⟨hbooks2, hfailed2, hholds2⟩ := hset
      have haddr := (h.holds.page_addr (show g.use mem ≠ .outside by rw [hfree]; simp)).1
      have hmap := wp_mappages (E := E) hholds2 (r := r) (l := ⟨mem, w, x, true, false⟩) hr
        (Nat.mul_mod_left v PGSIZE) (page_va_lt hv) (by rw [hnumber]; exact hnone) haddr hperm
      refine wp_mono hmap ?_
      intro mapped s3 hpost
      obtain ⟨g3, hpost⟩ := hpost
      have hbooks3 := (hbooks1.trans hbooks2).trans hpost.books
      rw [hnumber] at hpost
      obtain ⟨rfl, hfailed3, hgrows, -⟩ | ⟨rfl, hfailed3, g4, hgrows, rfl⟩ := hpost.result
      · -- the table could not grow: the page goes back
        rw [if_pos (by decide)]
        refine wp_seq (wp_kfree hpost.holds (by rw [hgrows.in_hand.1]; rfl)) ?_
        intro _ s4 hfreed
        obtain ⟨hbooks4, hfailed4, hholds4⟩ := hfreed
        obtain ⟨hstays, hspace⟩ := stays_given_back h hr hfree hgrows hholds4
          (hbooks3.trans hbooks4) (by omega)
        exact hundo hstays hspace (by omega)
      · rw [if_neg (by decide), wp_bind]
        refine wp_increment_ref haddr ?_
        rw [wp_bind, wp_grant, hnumber, hw,
          show v * PGSIZE + PGSIZE = (v + 1) * PGSIZE by ring]
        obtain ⟨s4, hs4⟩ : ∃ s4, s4 = (s3.withRef mem (s3.pgref (mem / PGSIZE) + 1)).withGrant
          r v ⟨w, true⟩ := ⟨_, rfl⟩
        -- the page becomes user memory
        have hkept : (g4.use mem).holdsData = true := by
          rw [hgrows.in_hand.1]
          rfl
        have hholds4 : Holds L (((g4.map r v (some ⟨mem, w, x, true, false⟩)).own mem .user).fill
            mem fun _ => 0) s4 := by
          have hown := hpost.holds.own (u := .user) hkept rfl
          rw [show (fun _ => 0 : Page) = ((g4.map r v (some ⟨mem, w, x, true, false⟩)).own mem
            .user).data mem from hgrows.in_hand.2.symm, fill_self, hs4]
          exact hown
        have hnew := stays_new_page (l := ⟨mem, w, x, true, false⟩) h hr hv hnone (fun _ => rfl)
          hfree hgrows hholds4 (G := ⟨w, true⟩) ?_ ?_
        · obtain ⟨g5, hstays, hspace⟩ := hnew
          have hstep := ih hstays.books (v := v + 1) ((hstays.root r).mpr hr) (by omega)
            (by rw [hspace]; exact hsized.update _)
          rw [hs4] at hstep
          refine wp_mono hstep ?_
          intro ret s6 hpost6
          obtain ⟨g6, hstays6, hresult⟩ := hpost6
          rw [← hs4] at hstays6 hresult
          rw [hspace] at hresult
          refine ⟨g6, hstays.trans hstays6, ?_⟩
          have hsame : s4.failed = s.failed := by rw [hs4]; show s3.failed = _; omega
          obtain ⟨hret, hfailed, hspace6⟩ | ⟨hret, hfailed, hspace6⟩ := hresult
          · refine .inl ⟨hret, by omega, ?_⟩
            rw [hspace6, without_update hbv, without_unmapped hsized]
          · refine .inr ⟨hret, hfailed.trans hsame, ?_⟩
            rw [hspace6]
            exact extend_succ _ _ _ _
        · rw [hs4]
          exact hbooks3.with_ref_grant
        · rw [hs4]
          show s.failed ≤ s3.failed
          omega

theorem npages_max (a b : Nat) : npages (max a b) = max (npages a) (npages b) := by
  rcases le_total a b with hab | hab
  · rw [max_eq_right hab, max_eq_right (npages_mono hab)]
  · rw [max_eq_left hab, max_eq_left (npages_mono hab)]

theorem extend_ge (h : b ≤ a) (cell : Cell) : sp.extend a b cell = sp := by
  funext v
  simp only [Space.extend]
  rw [if_neg (by omega)]

/-- `uvmalloc` adds zeroed pages up to the new size, or changes nothing. -/
theorem wp_uvmalloc (h : Books L g s) {oldsz : Nat} {xperm : Pte} {w x : Bool} (hr : g.IsRoot r)
    (hsized : Sized (space g s r) (npages oldsz))
    (hperm : PTE_R ||| PTE_U ||| xperm ||| PTE_V = leafFlags w x true false)
    (hw : hasFlag xperm PTE_W = w) :
    wp (uvmalloc L r oldsz newsz xperm) E (fun ret s' => ∃ g', Stays L {r} g s g' s' ∧
      (ret = 0 ∧ s.failed < s'.failed ∧ space g' s' r = space g s r ∨
        ret = max oldsz newsz ∧ s'.failed = s.failed ∧
          space g' s' r =
            (space g s r).extend (npages oldsz) (npages newsz) (zeroCell w))) s := by
  simp only [uvmalloc, wp_ite, wp_pure]
  refine ⟨fun hlt => ?_, fun hle => ?_⟩
  · refine ⟨g, .refl h, .inr ⟨(max_eq_left hlt.le).symm, trivial, ?_⟩⟩
    exact (extend_ge (npages_mono hlt.le) _).symm
  · have hpages : npages oldsz ≤ npages newsz := npages_mono (by omega)
    rw [pgroundup_eq, pgroundup_eq, ← Nat.sub_mul, Nat.mul_div_cancel _ (by decide : 0 < PGSIZE)]
    refine wp_mono (wp_alloc_loop h hr le_rfl hsized hperm hw) ?_
    intro ret s' hpost
    obtain ⟨g', hstays, ⟨hret, hfailed, hspace⟩ | ⟨hret, hfailed, hspace⟩⟩ := hpost
    · rw [without_empty] at hspace
      exact ⟨g', hstays, .inl ⟨hret, hfailed, hspace⟩⟩
    · rw [show npages oldsz + (npages newsz - npages oldsz) = npages newsz by omega] at hspace
      refine ⟨g', hstays, .inr ⟨?_, hfailed, hspace⟩⟩
      rw [hret, max_eq_right (by omega)]

/-! ## Changing the flags of an entry -/

theorem space_some (hv : v < UPAGES) (hl : g.pt r v = some l) :
    space g s r v = some (l.cell (s.granted r v) (g.data l.pa)) := by
  simp [space, hv, hl, Leaf.cell]

theorem space_of_some {c : Cell} (h : space g s r v = some c) :
    v < UPAGES ∧ ∃ l, g.pt r v = some l ∧ c = l.cell (s.granted r v) (g.data l.pa) := by
  obtain ⟨hv, l, hl⟩ := space_isSome.mp (by rw [h]; rfl)
  rw [space_some hv hl] at h
  exact ⟨hv, l, hl, (Option.some.inj h).symm⟩

theorem stays_retag {m : Leaf} (h : Books L g s) (hr : g.IsRoot r) (hv : v < UPAGES)
    (hl : g.pt r v = some l) (hpa : m.pa = l.pa)
    (halone : m.cow = false → l.cow = false ∨ s.pgref (l.pa / PGSIZE) ≤ 1)
    (hown : m.w = true → m.cow = false) (hholds : Holds L (g.map r v (some m)) s')
    (hbooks : SameBooks (s.withGrant r v G) s') (hfailed : s'.failed = s.failed) :
    Stays L {r} g s (g.map r v (some m)) s' ∧
      space (g.map r v (some m)) s' r =
        update (space g s r) v (some (m.cell G (g.data l.pa))) := by
  have haddr := (h.leaf hv hl).1
  have hcounted : Counted (g.map r v (some m)) s'.pgref := by
    rw [hbooks.pgref]
    exact h.counted.retag hv hl hpa halone hown haddr.aligned rfl fun _ => Iff.rfl
  rw [← hpa]
  exact stays_entry G h hr hv ⟨hholds, hcounted⟩ hbooks.proc hbooks.held hfailed.ge rfl
    hbooks.granted (fun _ _ => rfl) (fun _ _ _ _ _ _ => rfl) hr

/-- What `uvmclear` does to a cell. -/
def Cell.clear (c : Cell) : Cell :=
  { c with perm := { c.perm with u := false, grant := { c.perm.grant with u := false } } }

theorem wp_uvmclear (h : Books L g s) {c : Cell} (hr : g.IsRoot r) (hc : space g s r v = some c) :
    wp (uvmclear r (v * PGSIZE)) E (fun _ s' => ∃ g', Stays L {r} g s g' s' ∧
      s'.failed = s.failed ∧
      space g' s' r = update (space g s r) v (some c.clear)) s := by
  obtain ⟨hv, l, hl, rfl⟩ := space_of_some hc
  have haddr := (h.leaf hv hl).1
  have hnumber : v * PGSIZE / PGSIZE = v := Nat.mul_div_cancel _ (by decide)
  simp only [uvmclear, wp_bind]
  refine wp_mono (wp_walk_some h.holds hr (page_va_lt hv) (l := l) (by rwa [hnumber])) ?_
  intro res s1 hwalk
  obtain ⟨rfl, q, k, rfl, he, hword⟩ := hwalk
  rw [hnumber] at he
  simp only [wp_bind, wp_readWord, hword, encode_clear_u haddr]
  refine wp_mono (wp_write_entry h.holds he (o := some { l with u := false })
    (by rintro _ ⟨⟩; exact haddr)) ?_
  intro _ s2 hwrite
  obtain ⟨hbooks, hfailed, hholds⟩ := hwrite
  simp only [wp_get, wp_grant, hnumber]
  have hsame : s2.granted = s1.granted := hbooks.granted
  rw [hsame]
  have hholds' : Holds L (g.map r v (some { l with u := false }))
    (s2.withGrant r v { s1.granted r v with u := false }) := hholds
  obtain ⟨hstays, hspace⟩ := stays_retag (m := { l with u := false }) h hr hv hl rfl .inl
    (h.counted.owned r v l hv hl) hholds' hbooks.with_grant hfailed
  exact ⟨_, hstays, hfailed, hspace⟩

end Xv6.Vm
