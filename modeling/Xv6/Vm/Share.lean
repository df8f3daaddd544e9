import Xv6.Vm.Space

/-!
# Sharing pages and breaking the sharing

`page_change` gives an entry a page of its own, `uvmcopy` shares the pages of one table with
another, and user stores and `copyout` write through `page_change`. In the address spaces the
sharing does not show: `uvmcopy` copies the cells of the parent, and a write changes one cell of
one table.
-/

namespace Xv6.Vm

open Function

variable {L : Layout} {g g' : Ghost} {s s' : State} {E : Fault → Prop} {r v va n : Nat} {l : Leaf}
  {sp : Space} {c : Cell} {b : Byte}

/-! ## `page_change` -/

/-- What `page_change` does to a cell. -/
def Cell.own (c : Cell) : Cell := { c with perm := { c.perm with w := true, cow := false } }

/-- The entry `page_change` leaves. -/
def Leaf.own (l : Leaf) (pa : Nat) : Leaf := { l with pa := pa, w := true, cow := false }

/-- A page of its own for a shared entry: the old page loses one entry, and the new page, filled
with the contents of the old one, has this one only. -/
theorem stays_moved {pa : Nat} (h : Books L g s) (hr : g.IsRoot r) (hv : v < UPAGES)
    (hl : g.pt r v = some l) (hshared : 1 < s.pgref (l.pa / PGSIZE)) (hfree : g.use pa = .free)
    (hholds : Holds L ((((g.take pa).fill pa (g.data l.pa)).own pa .user).map r v
      (some (l.own pa))) s')
    (hbooks : SameBooks ((s.withRef l.pa (s.pgref (l.pa / PGSIZE) - 1)).withRef pa
      (s.pgref (pa / PGSIZE) + 1)) s') (hfailed : s'.failed = s.failed) :
    ∃ g', Stays L {r} g s g' s' ∧ g'.pt r v = some (l.own pa) ∧
      space g' s' r =
        update (space g s r) v (some (l.cell (s.granted r v) (g.data l.pa)).own) := by
  obtain ⟨haddr, -, huser⟩ := h.leaf hv hl
  have hpa := (h.holds.page_addr (show g.use pa ≠ .outside by rw [hfree]; simp)).1
  have hne : pa ≠ l.pa := by
    rintro rfl
    rw [huser] at hfree
    exact absurd hfree (by simp)
  have hindex : pa / PGSIZE ≠ l.pa / PGSIZE := by
    intro heq
    rw [← page_number_mul hpa.aligned, heq, page_number_mul haddr.aligned] at hne
    exact hne rfl
  obtain ⟨g', hg'⟩ : ∃ g', g' = (((g.take pa).fill pa (g.data l.pa)).own pa .user).map r v
    (some (l.own pa)) := ⟨_, rfl⟩
  rw [← hg'] at hholds
  have huse : ∀ q, g'.use q = if q = pa then .user else g.use q := by
    intro q
    rw [hg']
    simp only [Ghost.map, Ghost.own, Ghost.fill, Ghost.take, update_apply]
    grind
  have hdata : ∀ q, g'.data q = if q = pa then g.data l.pa else g.data q := by
    intro q
    rw [hg']
    simp only [Ghost.map, Ghost.own, Ghost.fill, Ghost.take, update_apply]
    grind
  have hpt : g'.pt = ((g.map r v none).map r v (some (l.own pa))).pt := by
    rw [hg']
    simp [Ghost.map, Ghost.own, Ghost.fill, Ghost.take]
  have hnew : ∀ r' v' l', v' < UPAGES → g.pt r' v' = some l' → l'.pa ≠ pa :=
    fun r' v' l' => h.counted.unmapped (by rw [hfree]; simp)
  -- the accounting sees the old entry go and the new one come
  have hremoved : Counted (g.map r v none)
      (s.withRef l.pa (s.pgref (l.pa / PGSIZE) - 1)).pgref := by
    refine h.counted.remove hv haddr.aligned hl rfl fun q => ?_
    show g.use q = .user ↔ _
    grind
  have hcounted : Counted g' s'.pgref := by
    have hnone : (g.map r v none).pt r v = none := by simp [Ghost.map]
    have hold : ∀ r' v' l', v' < UPAGES → (g.map r v none).pt r' v' = some l' → l'.pa ≠ pa := by
      intro r' v' l' hv' hl'
      refine hnew r' v' l' hv' ?_
      simp only [Ghost.map, update_apply] at hl'
      grind
    have hadd := hremoved.add (l := l.own pa) hv hpa.aligned hnone (hold r)
      (fun r' v' l' hv' hl' heq => absurd heq (hold r' v' l' hv' hl')) (fun _ => rfl) hpt
      (by intro q; rw [huse]; show _ ↔ q = pa ∨ g.use q = .user; grind)
    rw [hbooks.pgref]
    have hsame : (s.withRef l.pa (s.pgref (l.pa / PGSIZE) - 1)).pgref (pa / PGSIZE) =
      s.pgref (pa / PGSIZE) := update_of_ne hindex _ _
    rw [show (l.own pa).pa = pa from rfl, hsame] at hadd
    exact hadd
  have hone : g'.pt = (g.map r v (some (l.own pa))).pt := by
    rw [hpt]
    simp [Ghost.map]
  have hpage : (l.cell (s.granted r v) (g.data l.pa)).own =
      (l.own pa).cell (s.granted r v) (g'.data pa) := by
    rw [hdata, if_pos rfl]
    rfl
  have hentry := stays_entry (s.granted r v) h hr hv ⟨hholds, hcounted⟩ hbooks.proc
    hbooks.held hfailed.ge hone (by rw [with_grant_self]; exact hbooks.granted) (fun q hfixed => ?_)
    (fun r' v' l' hv' _ hl' => ?_) (by rw [hg']; exact hr)
  · refine ⟨g', hentry.1, ?_, hpage ▸ hentry.2⟩
    rw [hone]
    simp [Ghost.map]
  · rw [huse] at hfixed ⊢
    grind [Use.Fixed]
  · rw [hdata, if_neg (hnew r' v' l' hv' hl')]

theorem wp_get_ref {pa : Nat} (hpa : PageAddr pa) {Q : Int → State → Prop} :
    wp (getRef pa) E Q s ↔ Q (s.pgref (pa / PGSIZE)) s := by
  have hbound := hpa.bound
  rw [getRef, if_neg (by omega)]
  rfl

theorem wp_page_change (h : Books L g s) {q k : Nat} (hr : g.IsRoot r) (hv : v < UPAGES)
    (hl : g.pt r v = some l) (he : g.entry r v = some (q, k)) :
    wp (pageChange L q k) E (fun ret s' => ∃ g', Stays L {r} g s g' s' ∧
      (ret = 0 ∧ s.failed < s'.failed ∧ space g' s' r = space g s r ∨
        ret ≠ 0 ∧ s'.failed = s.failed ∧ g'.pt r v = some (l.own ret) ∧
          space g' s' r = update (space g s r) v
            (some (l.cell (s.granted r v) (g.data l.pa)).own))) s := by
  obtain ⟨haddr, hdata, huser⟩ := h.leaf hv hl
  have hbound := haddr.bound
  have hword := h.holds.entry_word he
  rw [hl] at hword
  simp only [leafOf] at hword
  simp only [pageChange, wp_bind, wp_readWord, hword, encode_pa haddr,
    wp_get_ref haddr]
  by_cases hshared : 1 < s.pgref (l.pa / PGSIZE)
  · rw [if_pos hshared]
    refine wp_seq (wp_kalloc h.holds) ?_
    intro pa s1 hpa
    obtain ⟨hbooks1, ⟨rfl, -, hholds1, hfailed1⟩ | ⟨hne, hfree, hholds1, hfailed1⟩⟩ := hpa
    · obtain ⟨hstays, hspace⟩ := (Grows.refl r g).stays h hr hholds1 hbooks1 (by omega)
      rw [if_pos rfl]
      exact ⟨g, hstays, .inl ⟨rfl, by omega, hspace⟩⟩
    · have hpa := (h.holds.page_addr (show g.use pa ≠ .outside by rw [hfree]; simp)).1
      have hother : l.pa ≠ pa := h.counted.unmapped (by rw [hfree]; simp) hv hl
      have hkept : ((g.take pa).use l.pa).holdsData = true := by
        simp only [Ghost.take, update_of_ne hother]
        exact hdata
      have hcontents : s1.mem l.pa = g.data l.pa := by
        rw [hholds1.data l.pa hkept]
        simp only [Ghost.take, update_of_ne hother]
      simp only [if_neg hne, wp_bind, wp_get, hcontents]
      refine wp_mono (wp_set_page hholds1 (show ((g.take pa).use pa).holdsData = true by
        simp [Ghost.take, Use.holdsData]) _) ?_
      intro _ s2 hset
      obtain ⟨hbooks2, hfailed2, hholds2⟩ := hset
      refine wp_mono (wp_decrement_ref hholds2 hkept) ?_
      intro _ s3 hdec
      obtain ⟨hbooks3, hfailed3, hholds3⟩ := hdec
      have hpgref : s2.pgref = s.pgref := hbooks2.pgref.trans hbooks1.pgref
      rw [hpgref, if_neg (by omega)] at hholds3
      refine wp_increment_ref hpa ?_
      obtain ⟨s4, hs4⟩ : ∃ s4, s4 = s3.withRef pa (s3.pgref (pa / PGSIZE) + 1) := ⟨_, rfl⟩
      rw [← hs4]
      have hholds4 : Holds L (((g.take pa).fill pa (g.data l.pa)).own pa .user) s4 := by
        rw [hs4]
        exact hholds3.own (u := .user) (by simp [Ghost.fill, Ghost.take, Use.holdsData]) rfl
      have he4 : (((g.take pa).fill pa (g.data l.pa)).own pa .user).entry r v = some (q, k) := he
      have hword4 := hholds4.entry_word he4
      rw [show (((g.take pa).fill pa (g.data l.pa)).own pa .user).pt r v = some l from hl] at hword4
      simp only [leafOf] at hword4
      simp only [wp_readWord, hword4, encode_own haddr, wp_pure]
      refine wp_mono (wp_write_entry hholds4 he4 (o := some (l.own pa))
        (by rintro _ ⟨⟩; exact hpa)) ?_
      intro _ s5 hwrite
      obtain ⟨hbooks5, hfailed5, hholds5⟩ := hwrite
      have hfailed : s5.failed = s.failed := by
        rw [hfailed5, hs4]
        show s3.failed = s.failed
        omega
      have hindex : pa / PGSIZE ≠ l.pa / PGSIZE := by
        intro heq
        apply hother
        rw [← page_number_mul haddr.aligned, ← heq, page_number_mul hpa.aligned]
      have hbooks : SameBooks ((s.withRef l.pa (s.pgref (l.pa / PGSIZE) - 1)).withRef pa
          (s.pgref (pa / PGSIZE) + 1)) s5 := by
        refine ⟨?_, ?_, ?_, ?_⟩
        · rw [hbooks5.pgref, hs4]
          simp only [State.withRef, hbooks3.pgref, hpgref, update_of_ne hindex]
        · rw [hbooks5.proc, hs4]
          exact hbooks3.proc.trans (hbooks2.proc.trans hbooks1.proc)
        · rw [hbooks5.held, hs4]
          exact hbooks3.held.trans (hbooks2.held.trans hbooks1.held)
        · rw [hbooks5.granted, hs4]
          exact hbooks3.granted.trans (hbooks2.granted.trans hbooks1.granted)
      obtain ⟨g', hstays, hentry, hspace⟩ :=
        stays_moved h hr hv hl hshared hfree hholds5 hbooks hfailed
      exact ⟨g', hstays, .inr ⟨hne, hfailed, hentry, hspace⟩⟩
  · rw [if_neg hshared]
    simp only [wp_bind, wp_readWord, hword, encode_own haddr, wp_pure]
    refine wp_mono (wp_write_entry h.holds he (o := some (l.own l.pa))
      (by rintro _ ⟨⟩; exact haddr)) ?_
    intro _ s1 hwrite
    obtain ⟨hbooks, hfailed, hholds⟩ := hwrite
    have hsame : SameBooks (s.withGrant r v (s.granted r v)) s1 := by
      rw [with_grant_self]
      exact hbooks
    obtain ⟨hstays, hspace⟩ := stays_retag (m := l.own l.pa) h hr hv hl rfl
      (fun _ => .inr (by omega)) (fun _ => rfl) hholds hsame hfailed
    refine ⟨_, hstays, .inr ⟨?_, hfailed, ?_, hspace⟩⟩
    · exact (h.holds.page_addr (show g.use l.pa ≠ .outside by rw [huser]; simp)).2.2
    · simp [Ghost.map]

/-! ## Writing to a page -/

/-- The cell after bytes were written from offset `o` on. -/
def Cell.write (c : Cell) (o : Nat) (bytes : List Byte) : Cell :=
  { c with page := withPageBytes c.page o bytes }

/-- A page that is not copy-on-write is in one address space only. -/
theorem wp_write_page (h : Books L g s) {o : Nat} (hr : g.IsRoot r) (hv : v < UPAGES)
    (hl : g.pt r v = some l) (hcow : l.cow = false) (bytes : List Byte) :
    wp (memmove l.pa o bytes) E (fun _ s' => ∃ g', Stays L {r} g s g' s' ∧ s'.failed = s.failed ∧
      g'.pt = g.pt ∧
      space g' s' r = update (space g s r) v
        (some ((l.cell (s.granted r v) (g.data l.pa)).write o bytes))) s := by
  obtain ⟨haddr, hdata, huser⟩ := h.leaf hv hl
  refine wp_mono (wp_memmove h.holds hdata bytes) ?_
  intro _ s' hpost
  obtain ⟨hbooks, hfailed, hholds⟩ := hpost
  obtain ⟨g', hg'⟩ : ∃ g', g' = g.fill l.pa (withPageBytes (g.data l.pa) o bytes) := ⟨_, rfl⟩
  rw [← hg'] at hholds
  have hpt : g'.pt = g.pt := by rw [hg']; rfl
  have huse : g'.use = g.use := by rw [hg']; rfl
  have hcounted : Counted g' s'.pgref := by
    rw [hbooks.pgref]
    exact h.counted.same hpt fun pa => by rw [huse]
  have hsame : g'.pt = (g.map r v (some l)).pt := by
    rw [hpt, Ghost.map]
    simp only [← hl, update_eq_self]
  have hentry := stays_entry (s.granted r v) h hr hv ⟨hholds, hcounted⟩ hbooks.proc
    hbooks.held hfailed.ge hsame (by rw [with_grant_self]; exact hbooks.granted)
    (fun pa _ => by rw [huse]) (fun r' v' l' hv' hne hl' => ?_) (by rw [hg']; exact hr)
  · refine ⟨g', hentry.1, hfailed, hpt, hentry.2.trans ?_⟩
    rw [hg']
    simp [Ghost.fill, Leaf.cell, Cell.write]
  · have hother : l'.pa ≠ l.pa := by
      intro heq
      obtain ⟨rfl, rfl⟩ := h.counted.excl r v l r' v' l' hv hv' hl hl' heq hcow
      exact hne rfl
    rw [hg']
    simp only [Ghost.fill, update_of_ne hother]

/-- What writes may do to an address space: a page that is writable or copy-on-write becomes
writable and may change, and nothing else happens. -/
def Touched (sp sp' : Space) : Prop :=
  ∀ v, sp' v = sp v ∨ ∃ c page, sp v = some c ∧ (c.perm.w = true ∨ c.perm.cow = true) ∧
    sp' v = some ⟨c.own.perm, page⟩

theorem Touched.refl (sp : Space) : Touched sp sp := fun _ => .inl rfl

theorem Touched.trans {sp1 sp2 sp3 : Space} (h : Touched sp1 sp2) (h' : Touched sp2 sp3) :
    Touched sp1 sp3 := by
  intro v
  obtain hsame | ⟨c, page, hc, hw, hnew⟩ := h v
  · have hlast := h' v
    rwa [hsame] at hlast
  · obtain hsame' | ⟨c', page', hc', -, hnew'⟩ := h' v
    · exact .inr ⟨c, page, hc, hw, hsame'.trans hnew⟩
    · rw [hnew] at hc'
      obtain rfl := Option.some.inj hc'
      exact .inr ⟨c, page', hc, hw, hnew'⟩

theorem touched_update {page : Page} (hc : sp v = some c)
    (hw : c.perm.w = true ∨ c.perm.cow = true) :
    Touched sp (update sp v (some ⟨c.own.perm, page⟩)) := by
  intro v'
  by_cases hv : v' = v
  · rw [hv, update_self]
    exact .inr ⟨c, page, hc, hw, rfl⟩
  · rw [update_of_ne hv]
    exact .inl rfl

/-- The entries above user memory are neither for the user nor copy-on-write. -/
def TopSafe (g : Ghost) (r : Nat) : Prop :=
  ∀ v l, UPAGES ≤ v → g.pt r v = some l → l.u = false ∧ l.cow = false

theorem Stays.top_safe {T : Set Nat} (h : Stays L T g s g' s') (htop : TopSafe g r) :
    TopSafe g' r := by
  intro v l hv hl
  rw [h.top r v hv] at hl
  exact htop v l hv hl

/-- The word that `walk` finds for an address, by the cell there. -/
theorem wp_walk_cell (h : Books L g s) (hr : g.IsRoot r) (hva : va < MAXVA)
    {Q : Option (Nat × Nat) → State → Prop} (hnone : space g s r (va / PGSIZE) = none → Q none s)
    (hempty : ∀ q k, space g s r (va / PGSIZE) = none → s.mem q k = 0 → Q (some (q, k)) s)
    (htop : ∀ q k l, space g s r (va / PGSIZE) = none → UPAGES ≤ va / PGSIZE →
      g.pt r (va / PGSIZE) = some l → PageAddr l.pa → s.mem q k = l.encode → Q (some (q, k)) s)
    (hsome : ∀ q k l, va / PGSIZE < UPAGES → g.pt r (va / PGSIZE) = some l → PageAddr l.pa →
      g.entry r (va / PGSIZE) = some (q, k) → s.mem q k = l.encode → Q (some (q, k)) s) :
    wp (walk r va false) E Q s := by
  refine wp_mono (wp_walk h.holds hr hva) ?_
  intro res s' hres
  obtain ⟨rfl, rfl⟩ := hres
  cases he : g.entry r (va / PGSIZE) with
  | none =>
    refine hnone ?_
    cases hl : g.pt r (va / PGSIZE) with
    | none => simp [space, hl]
    | some l =>
      obtain ⟨q, k, he'⟩ := h.holds.entry_of_pt hl
      rw [he] at he'
      exact absurd he' (by simp)
  | some qk =>
    obtain ⟨q, k⟩ := qk
    have hword := h.holds.entry_word he
    cases hl : g.pt r (va / PGSIZE) with
    | none =>
      rw [hl] at hword
      exact hempty q k (by simp [space, hl]) hword
    | some l =>
      rw [hl] at hword
      have haddr := h.holds.addr r _ l hl
      by_cases hv : va / PGSIZE < UPAGES
      · exact hsome q k l hv hl haddr he hword
      · exact htop q k l (by simp [space, hv]) (by omega) hl haddr hword

/-! ## The page fault handler and user stores -/

/-- A page fault on a copy-on-write cell makes it writable; any other fault is refused, and so is
one for which there is no memory. -/
def FaultPost (L : Layout) (r v : Nat) (g : Ghost) (s : State) (ret : Int) (s' : State)
    (g' : Ghost) : Prop :=
  Stays L {r} g s g' s' ∧
    (ret = -1 ∧ space g' s' r = space g s r ∧
        (s'.failed = s.failed → ∀ c, space g s r v = some c → c.perm.cow = false) ∨
      ret = 0 ∧ s'.failed = s.failed ∧ ∃ c, space g s r v = some c ∧ c.perm.cow = true ∧
        space g' s' r = update (space g s r) v (some c.own))

theorem wp_pagefault_handler (h : Books L g s) (hr : g.IsRoot r) (hva : va < MAXVA)
    (htop : TopSafe g r) :
    wp (pagefaultHandler L r va) E
      (fun ret s' => ∃ g', FaultPost L r (va / PGSIZE) g s ret s' g') s := by
  have hround := round_down_page va
  have hlow := round_down_lt hva
  have hrefuse : (∀ c, space g s r (va / PGSIZE) = some c → c.perm.cow = false) →
      ∃ g', FaultPost L r (va / PGSIZE) g s (-1) s g' :=
    fun hcow => ⟨g, .refl h, .inl ⟨rfl, rfl, fun _ => hcow⟩⟩
  simp only [pagefaultHandler, wp_bind]
  refine wp_walk_cell h hr hlow ?_ ?_ ?_ ?_
  · intro hnone
    rw [hround] at hnone
    exact hrefuse (by simp [hnone])
  · intro q k hnone hword
    rw [hround] at hnone
    simp only [wp_bind, wp_readWord, hword, has_flag_zero, Bool.not_false, if_true]
    exact hrefuse (by simp [hnone])
  · intro q k l hnone hv hl haddr hword
    rw [hround] at hnone hv hl
    have hcow := (htop _ l hv hl).2
    simp only [wp_bind, wp_readWord, hword, encode_has_v haddr, encode_has_cow haddr,
      hcow, Bool.not_false, Bool.not_true, Bool.false_eq_true, if_false, if_true]
    exact hrefuse (by simp [hnone])
  · intro q k l hv hl haddr he hword
    rw [hround] at hv hl he
    simp only [wp_bind, wp_readWord, hword, encode_has_v haddr, encode_has_cow haddr,
      Bool.not_true, Bool.false_eq_true, if_false]
    cases hcow : l.cow with
    | false =>
      simp only [Bool.not_false, if_true, wp_pure]
      refine hrefuse ?_
      rw [space_some hv hl]
      rintro _ ⟨⟩
      exact hcow
    | true =>
      simp only [Bool.not_true, Bool.false_eq_true, if_false, wp_bind]
      refine wp_mono (wp_page_change h hr hv hl he) ?_
      intro pa s1 hpost
      obtain ⟨g1, hstays, ⟨rfl, hfailed, hspace⟩ | ⟨hne, hfailed, -, hspace⟩⟩ := hpost
      · simp only [if_true, wp_pure]
        refine ⟨g1, hstays, .inl ⟨rfl, hspace, fun hsame => ?_⟩⟩
        omega
      · simp only [if_neg hne, wp_pure]
        exact ⟨g1, hstays, .inr ⟨rfl, hfailed, _, space_some hv hl, hcow, hspace⟩⟩

theorem Books.own_cell (h : Books L g s) (hc : space g s r v = some c) (hw : c.perm.w = true) :
    c.own = c := by
  obtain ⟨hv, l, hl, rfl⟩ := space_of_some hc
  have hcow := h.counted.owned r v l hv hl hw
  have hlw : l.w = true := hw
  simp [Cell.own, Leaf.cell, hcow, hlw]

/-- The result of one attempt to store a byte. -/
def StorePost (L : Layout) (r va : Nat) (b : Byte) (g : Ghost) (s : State) (stored : Bool)
    (s' : State) : Prop :=
  stored = false ∧ s' = s ∧
      (∀ c, space g s r (va / PGSIZE) = some c → ¬ (c.perm.u = true ∧ c.perm.w = true)) ∨
    stored = true ∧ ∃ g' c, Stays L {r} g s g' s' ∧ s'.failed = s.failed ∧
      space g s r (va / PGSIZE) = some c ∧ c.perm.u = true ∧ c.perm.w = true ∧
      space g' s' r =
        update (space g s r) (va / PGSIZE) (some (c.write (va % PGSIZE) [b]))

theorem wp_store_once (h : Books L g s) (hr : g.IsRoot r) (hva : va < MAXVA) (htop : TopSafe g r) :
    wp (storeOnce r va b) E (fun stored s' => StorePost L r va b g s stored s') s := by
  have hround := round_down_page va
  have hlow := round_down_lt hva
  rw [storeOnce, if_neg (by omega), wp_bind]
  refine wp_walk_cell h hr hlow ?_ ?_ ?_ ?_
  · intro hnone
    rw [hround] at hnone
    exact .inl ⟨rfl, rfl, by simp [hnone]⟩
  · intro q k hnone hword
    rw [hround] at hnone
    simp only [wp_bind, wp_readWord, hword, has_flag_zero, Bool.false_and,
      Bool.false_eq_true, if_false]
    exact .inl ⟨rfl, rfl, by simp [hnone]⟩
  · intro q k l hnone hv hl haddr hword
    rw [hround] at hnone hv hl
    have hu := (htop _ l hv hl).1
    simp only [wp_bind, wp_readWord, hword, encode_has_u haddr, hu, Bool.and_false,
      Bool.false_and, Bool.false_eq_true, if_false]
    exact .inl ⟨rfl, rfl, by simp [hnone]⟩
  · intro q k l hv hl haddr he hword
    rw [hround] at hv hl he
    have hcell := space_some (s := s) hv hl
    simp only [wp_bind, wp_readWord, hword, encode_has_v haddr, encode_has_u haddr,
      encode_has_w haddr, Bool.true_and]
    by_cases hok : l.u = true ∧ l.w = true
    · simp only [hok.1, hok.2, Bool.and_self, if_true, wp_bind, wp_pure, encode_pa haddr]
      refine wp_mono (wp_write_page h hr hv hl (h.counted.owned r _ l hv hl hok.2) [b]) ?_
      intro _ s' hpost
      obtain ⟨g', hstays, hfailed, -, hspace⟩ := hpost
      exact .inr ⟨rfl, g', _, hstays, hfailed, hcell, hok.1, hok.2, hspace⟩
    · have hno : (l.u && l.w) = false := by
        rw [Bool.eq_false_iff]
        simpa using hok
      simp only [hno, Bool.false_eq_true, if_false, wp_pure]
      refine .inl ⟨rfl, rfl, ?_⟩
      rw [hcell]
      rintro _ ⟨⟩
      exact hok

/-- A user store to an address space: what becomes of it, and the result. -/
def Space.store (sp : Space) (va : Nat) (b : Byte) : Space × Int :=
  match sp (va / PGSIZE) with
  | none => (sp, -1)
  | some c =>
    if c.perm.u && (c.perm.w || c.perm.cow) then
      (update sp (va / PGSIZE) (some (c.own.write (va % PGSIZE) [b])), 0)
    else if c.perm.cow then (update sp (va / PGSIZE) (some c.own), -1)
    else (sp, -1)

/-- The result of a user store: unless memory ran out, the address space is as `Space.store`
says. -/
def Stored (L : Layout) (r va : Nat) (b : Byte) (g : Ghost) (s : State) (ret : Int)
    (s' : State) (g' : Ghost) : Prop :=
  Stays L {r} g s g' s' ∧ Touched (space g s r) (space g' s' r) ∧
    (s'.failed = s.failed → (space g' s' r, ret) = (space g s r).store va b)

theorem stored_of_post (h : Books L g s) (hpost : StorePost L r va b g s true s') :
    ∃ g', Stored L r va b g s 0 s' g' := by
  obtain ⟨hno, -⟩ | ⟨-, g', c, hstays, hfailed, hc, hu, hw, hspace⟩ := hpost
  · exact absurd hno (by simp)
  · have hown := h.own_cell hc hw
    refine ⟨g', hstays, ?_, fun _ => ?_⟩
    · rw [hspace, ← hown]
      exact touched_update hc (.inl hw)
    · rw [hspace, Space.store, hc]
      simp [hu, hw, hown]

theorem wp_store (h : Books L g s) (hr : g.IsRoot r) (hva : va < MAXVA) (htop : TopSafe g r) :
    wp (store L r va b 3) E (fun ret s' => ∃ g', Stored L r va b g s ret s' g') s := by
  rw [store]
  refine wp_seq (wp_store_once h hr hva htop) ?_
  intro stored s1 hpost
  cases stored with
  | true =>
    rw [if_pos rfl, wp_pure]
    exact stored_of_post h hpost
  | false =>
    obtain ⟨-, rfl, hrefused⟩ | ⟨hno, -⟩ := hpost
    swap
    · exact absurd hno (by simp)
    rw [if_neg (by simp)]
    refine wp_seq (wp_pagefault_handler h hr hva htop) ?_
    intro ret s2 hfault
    obtain ⟨g2, hstays, ⟨rfl, hspace, hcow⟩ | ⟨rfl, hfailed, c, hc, hcow, hspace⟩⟩ := hfault
    · rw [if_pos (by decide), wp_pure]
      refine ⟨g2, hstays, by rw [hspace]; exact .refl _, fun hsame => ?_⟩
      rw [hspace, Space.store]
      cases hcell : space g s1 r (va / PGSIZE) with
      | none => rfl
      | some c =>
        have hno := hrefused c hcell
        have hcow := hcow hsame c hcell
        simp only [hcow, Bool.or_false]
        rw [if_neg (by simpa using hno), if_neg (by simp)]
    · rw [if_neg (by decide)]
      -- the second attempt meets a writable page
      have htop2 := hstays.top_safe htop
      have hr2 := (hstays.root r).mpr hr
      have hcell2 : space g2 s2 r (va / PGSIZE) = some c.own := by
        rw [hspace, update_self]
      rw [store]
      refine wp_seq (wp_store_once hstays.books hr2 hva htop2) ?_
      intro stored s3 hpost
      obtain ⟨rfl, rfl, hrefused2⟩ | ⟨rfl, g3, c', hstays3, hfailed3, hc', hu, hw, hspace3⟩ := hpost
      · have hu : c.perm.u = false := by
          have hno := hrefused2 c.own hcell2
          simpa [Cell.own] using hno
        rw [if_neg (by simp)]
        refine wp_seq (wp_pagefault_handler hstays.books hr2 hva htop2) ?_
        intro ret s4 hfault
        obtain ⟨g4, hstays4, ⟨rfl, hspace4, -⟩ | ⟨-, -, c', hc', hcow', -⟩⟩ := hfault
        · rw [if_pos (by decide), wp_pure]
          refine ⟨g4, hstays.trans hstays4, ?_, fun _ => ?_⟩
          · rw [hspace4, hspace]
            exact touched_update hc (.inr hcow)
          · rw [hspace4, hspace, Space.store, hc]
            simp [hu, hcow]
        · rw [hcell2] at hc'
          obtain rfl := Option.some.inj hc'
          exact absurd hcow' (by simp [Cell.own])
      · rw [if_pos rfl, wp_pure]
        rw [hcell2] at hc'
        obtain rfl := Option.some.inj hc'
        have hu' : c.perm.u = true := hu
        refine ⟨g3, hstays.trans hstays3, ?_, fun _ => ?_⟩
        · rw [hspace3, hspace, update_idem]
          exact touched_update hc (.inr hcow)
        · rw [hspace3, hspace, update_idem, Space.store, hc]
          simp [hu', hcow]

/-! ## Copies between kernel and user -/

theorem space_above (hv : UPAGES ≤ v) : space g s r v = none := by
  simp only [space]
  rw [if_neg (by omega)]

theorem upages_le_of_maxva (h : MAXVA ≤ va) : UPAGES ≤ va / PGSIZE := by
  have hmax : UPAGES * PGSIZE ≤ MAXVA := by decide
  exact (Nat.le_div_iff_mul_le (by decide)).mpr (le_trans hmax h)

/-- `copyout` to an address space: what becomes of it, and the result. -/
def Space.copyout : Nat → Space → Nat → List Byte → Space × Int
  | 0, sp, _, _ => (sp, 0)
  | fuel + 1, sp, dstva, src =>
    if src = [] then (sp, 0)
    else
      match sp (dstva / PGSIZE) with
      | none => (sp, -1)
      | some c =>
        if c.perm.u && (c.perm.w || c.perm.cow) then
          let n := min (PGSIZE - dstva % PGSIZE) src.length
          Space.copyout fuel (update sp (dstva / PGSIZE)
            (some (c.own.write (dstva % PGSIZE) (src.take n))))
            (PGROUNDDOWN dstva + PGSIZE) (src.drop n)
        else (sp, -1)

/-- The result of `copyout`: unless memory ran out, the address space is as `Space.copyout`
says. -/
def CopiedOut (L : Layout) (r fuel dstva : Nat) (src : List Byte) (g : Ghost) (s : State)
    (ret : Int) (s' : State) (g' : Ghost) : Prop :=
  Stays L {r} g s g' s' ∧ Touched (space g s r) (space g' s' r) ∧
    (s'.failed = s.failed → (space g' s' r, ret) = Space.copyout fuel (space g s r) dstva src)

theorem wp_re_page (h : Books L g s) {q k : Nat} (hr : g.IsRoot r) (hv : v < UPAGES)
    (hl : g.pt r v = some l) (he : g.entry r v = some (q, k)) :
    wp (rePage L q k) E (fun ret s' => ∃ g', Stays L {r} g s g' s' ∧
      (ret = 0 ∧ s.failed < s'.failed ∧ space g' s' r = space g s r ∨
        ret ≠ 0 ∧ s'.failed = s.failed ∧
          (∃ l', g'.pt r v = some l' ∧ l'.pa = ret ∧ l'.cow = false) ∧
          space g' s' r = update (space g s r) v
            (some (l.cell (s.granted r v) (g.data l.pa)).own))) s := by
  obtain ⟨haddr, hdata, huser⟩ := h.leaf hv hl
  have hword := h.holds.entry_word he
  rw [hl] at hword
  simp only [leafOf] at hword
  simp only [rePage, wp_bind, wp_readWord, hword, encode_has_w haddr,
    encode_pa haddr]
  cases hw : l.w with
  | true =>
    have hcell := space_some (s := s) hv hl
    have hown := h.own_cell hcell hw
    refine ⟨g, .refl h, .inr ⟨?_, rfl, ⟨l, hl, rfl, h.counted.owned r v l hv hl hw⟩, ?_⟩⟩
    · exact (h.holds.page_addr (show g.use l.pa ≠ .outside by rw [huser]; simp)).2.2
    · rw [hown, ← hcell, update_eq_self]
  | false =>
    refine wp_mono (wp_page_change h hr hv hl he) ?_
    intro ret s' hpost
    obtain ⟨g', hstays, hfail | ⟨hne, hfailed, hentry, hspace⟩⟩ := hpost
    · exact ⟨g', hstays, .inl hfail⟩
    · exact ⟨g', hstays, .inr ⟨hne, hfailed, ⟨_, hentry, rfl, rfl⟩, hspace⟩⟩

theorem wp_copyout_loop (h : Books L g s) {fuel dstva : Nat} {src : List Byte} (hr : g.IsRoot r)
    (htop : TopSafe g r) :
    wp (copyoutLoop L r fuel dstva src) E
      (fun ret s' => ∃ g', CopiedOut L r fuel dstva src g s ret s' g') s := by
  induction fuel generalizing g s dstva src with
  | zero => exact ⟨g, .refl h, .refl _, fun _ => rfl⟩
  | succ fuel ih =>
    rw [copyoutLoop]
    by_cases hsrc : src = []
    · rw [if_pos hsrc, wp_pure]
      exact ⟨g, .refl h, .refl _, fun _ => by rw [Space.copyout, if_pos hsrc]⟩
    rw [if_neg hsrc]
    have hround := round_down_page dstva
    have hoffset := sub_round_down dstva
    -- a refusal changes nothing
    have hrefuse : (∀ c, space g s r (dstva / PGSIZE) = some c →
        (c.perm.u && (c.perm.w || c.perm.cow)) = false) →
        ∃ g', CopiedOut L r (fuel + 1) dstva src g s (-1) s g' := by
      intro hno
      refine ⟨g, .refl h, .refl _, fun _ => ?_⟩
      rw [Space.copyout, if_neg hsrc]
      cases hcell : space g s r (dstva / PGSIZE) with
      | none => rfl
      | some c => simp only [hno c hcell, Bool.false_eq_true, if_false]
    by_cases hva : MAXVA ≤ PGROUNDDOWN dstva
    · have hnone := space_above (g := g) (s := s) (r := r) (upages_le_of_maxva hva)
      rw [hround] at hnone
      rw [if_pos hva, wp_pure]
      exact hrefuse (by simp [hnone])
    rw [if_neg hva, wp_bind]
    refine wp_walk_cell h hr (by omega) ?_ ?_ ?_ ?_
    · intro hnone
      rw [hround] at hnone
      exact hrefuse (by simp [hnone])
    · intro q k hnone hword
      rw [hround] at hnone
      simp only [wp_bind, wp_readWord, hword, has_flag_zero, Bool.not_false,
        Bool.true_or, if_true]
      exact hrefuse (by simp [hnone])
    · intro q k l hnone hv hl haddr hword
      rw [hround] at hnone hv hl
      have hu := (htop _ l hv hl).1
      simp only [wp_bind, wp_readWord, hword, encode_has_u haddr, hu, Bool.not_false,
        Bool.or_true, Bool.true_or, if_true]
      exact hrefuse (by simp [hnone])
    · intro q k l hv hl haddr he hword
      rw [hround] at hv hl he
      have hcell := space_some (s := s) hv hl
      simp only [wp_bind, wp_readWord, hword, encode_has_v haddr,
        encode_has_u haddr, encode_has_w haddr, encode_has_cow haddr, Bool.not_true,
        Bool.false_or]
      by_cases hok : (l.u && (l.w || l.cow)) = true
      swap
      · rw [if_pos (by revert hok; cases l.u <;> cases l.w <;> cases l.cow <;> decide), wp_pure]
        refine hrefuse ?_
        rw [hcell]
        rintro _ ⟨⟩
        simpa [Leaf.cell] using hok
      rw [if_neg (by revert hok; cases l.u <;> cases l.w <;> cases l.cow <;> decide), wp_bind]
      have hwrite : l.w = true ∨ l.cow = true := by
        revert hok
        cases l.u <;> cases l.w <;> cases l.cow <;> decide
      refine wp_mono (wp_re_page h hr hv hl he) ?_
      intro pa s1 hpost
      obtain ⟨g1, hstays, ⟨rfl, hfailed, hspace⟩ | ⟨hne, hfailed, ⟨l1, hl1, rfl, hcow1⟩, hspace⟩⟩ :=
        hpost
      · rw [if_pos rfl, wp_pure]
        exact ⟨g1, hstays, by rw [hspace]; exact .refl _, fun hsame => by omega⟩
      rw [if_neg hne, wp_bind, hoffset]
      refine wp_mono (wp_write_page hstays.books ((hstays.root r).mpr hr) hv hl1 hcow1 _) ?_
      intro _ s2 hmove
      obtain ⟨g2, hstays2, hfailed2, -, hspace2⟩ := hmove
      have hcell1 := space_some (s := s1) hv hl1
      rw [hspace, update_self] at hcell1
      rw [← Option.some.inj hcell1, hspace, update_idem] at hspace2
      have hboth := hstays.trans hstays2
      refine wp_mono (ih hboth.books ((hboth.root r).mpr hr) (hboth.top_safe htop)) ?_
      intro ret s3 hrest
      obtain ⟨g3, hstays3, htouched, hresult⟩ := hrest
      refine ⟨g3, hboth.trans hstays3, ?_, fun hsame => ?_⟩
      · refine Touched.trans ?_ htouched
        rw [hspace2]
        exact touched_update hcell hwrite
      · have hmono := hstays3.frame.failed
        rw [hresult (by omega), hspace2, Space.copyout, if_neg hsrc, hcell]
        have hperm : ((l.cell (s.granted r (dstva / PGSIZE)) (g.data l.pa)).perm.u &&
          ((l.cell (s.granted r (dstva / PGSIZE)) (g.data l.pa)).perm.w ||
            (l.cell (s.granted r (dstva / PGSIZE)) (g.data l.pa)).perm.cow)) = true := hok
        simp only [hperm, if_true]

/-- `walkaddr` finds the page of a cell that is for the user. -/
theorem wp_walkaddr (h : Books L g s) (hr : g.IsRoot r) (htop : TopSafe g r)
    {Q : Nat → State → Prop}
    (hno : (∀ c, space g s r (va / PGSIZE) = some c → c.perm.u = false) → Q 0 s)
    (hyes : ∀ l, va / PGSIZE < UPAGES → g.pt r (va / PGSIZE) = some l → l.u = true → Q l.pa s) :
    wp (walkaddr r va) E Q s := by
  rw [walkaddr]
  by_cases hva : MAXVA ≤ va
  · have hnone := space_above (g := g) (s := s) (r := r) (upages_le_of_maxva hva)
    rw [if_pos hva, wp_pure]
    exact hno (by simp [hnone])
  rw [if_neg hva, wp_bind]
  refine wp_walk_cell h hr (by omega) ?_ ?_ ?_ ?_
  · intro hnone
    exact hno (by simp [hnone])
  · intro q k hnone hword
    simp only [wp_bind, wp_readWord, hword, has_flag_zero, Bool.not_false, if_true]
    exact hno (by simp [hnone])
  · intro q k l hnone hv hl haddr hword
    have hu := (htop _ l hv hl).1
    simp only [wp_bind, wp_readWord, hword, encode_has_v haddr, encode_has_u haddr, hu,
      Bool.not_false, Bool.not_true, Bool.false_eq_true, if_false, if_true]
    exact hno (by simp [hnone])
  · intro q k l hv hl haddr he hword
    have hcell := space_some (s := s) hv hl
    simp only [wp_bind, wp_readWord, hword, encode_has_v haddr, encode_has_u haddr,
      Bool.not_true, Bool.false_eq_true, if_false, encode_pa haddr]
    cases hu : l.u with
    | true => exact hyes l hv hl hu
    | false =>
      refine hno ?_
      rw [hcell]
      rintro _ ⟨⟩
      exact hu

/-- `copyin` from an address space. -/
def Space.copyin (sp : Space) : Nat → Nat → Nat → Option (List Byte)
  | 0, _, _ => some []
  | fuel + 1, srcva, len =>
    if len = 0 then some []
    else
      match sp (srcva / PGSIZE) with
      | none => none
      | some c =>
        if c.perm.u then
          let n := min (PGSIZE - srcva % PGSIZE) len
          (Space.copyin sp fuel (PGROUNDDOWN srcva + PGSIZE) (len - n)).map
            (pageBytes c.page (srcva % PGSIZE) n ++ ·)
        else none

/-- `copyin` reads the address space and changes nothing. -/
theorem wp_copyin_loop (h : Books L g s) {fuel srcva len : Nat} (hr : g.IsRoot r)
    (htop : TopSafe g r) :
    wp (copyinLoop r fuel srcva len) E
      (fun ret s' => s' = s ∧ ret = (space g s r).copyin fuel srcva len) s := by
  induction fuel generalizing srcva len with
  | zero => exact ⟨rfl, rfl⟩
  | succ fuel ih =>
    rw [copyinLoop, Space.copyin]
    by_cases hlen : len = 0
    · rw [if_pos hlen, if_pos hlen]
      exact ⟨rfl, rfl⟩
    rw [if_neg hlen, if_neg hlen, wp_bind]
    have hround := round_down_page srcva
    have hoffset := sub_round_down srcva
    refine wp_walkaddr h hr htop ?_ ?_
    · intro hno
      rw [hround] at hno
      rw [if_pos rfl, wp_pure]
      refine ⟨rfl, ?_⟩
      cases hcell : space g s r (srcva / PGSIZE) with
      | none => rfl
      | some c => simp [hno c hcell]
    · intro l hv hl hu
      rw [hround] at hv hl
      obtain ⟨haddr, hdata, huser⟩ := h.leaf hv hl
      have hne := (h.holds.page_addr (show g.use l.pa ≠ .outside by rw [huser]; simp)).2.2
      rw [if_neg hne, wp_bind, wp_get, wp_bind, hoffset]
      refine wp_mono ih ?_
      intro rest s' hrest
      obtain ⟨rfl, rfl⟩ := hrest
      rw [wp_pure, space_some hv hl, h.holds.data l.pa hdata]
      refine ⟨rfl, ?_⟩
      simp [Leaf.cell, hu]

/-! ## `uvmcopy` -/

/-- What `uvmcopy` does to an entry of the parent, and what it gives the child. -/
def Leaf.share (l : Leaf) : Leaf := { l with w := false, cow := true }

/-- What `uvmcopy` does to a cell. -/
def Cell.share (c : Cell) : Cell := { c with perm := { c.perm with w := false, cow := true } }

theorem encode_shared (h : PageAddr l.pa) :
    (l.encode &&& ~~~ PTE_W) ||| PTE_COW = l.share.encode := encode_share h

theorem Leaf.cell_share (l : Leaf) (G : Grant) (page : Page) :
    l.share.cell G page = (l.cell G page).share := rfl

/-- The address space with its first `n` pages shared. -/
def Space.share (sp : Space) (n : Nat) : Space :=
  fun v => if v < n then (sp v).map Cell.share else sp v

theorem share_zero (sp : Space) : sp.share 0 = sp := by
  funext v
  simp [Space.share]

theorem share_succ (hc : sp n = some c) :
    update (sp.share n) n (some c.share) = sp.share (n + 1) := by
  funext v
  simp only [Space.share, update_apply]
  by_cases hv : v = n
  · subst hv
    simp [hc]
  · rw [if_neg hv]
    by_cases hlt : v < n
    · rw [if_pos hlt, if_pos (by omega)]
    · rw [if_neg hlt, if_neg (by omega)]

theorem Sized.share {m : Nat} (h : Sized sp n) : Sized (sp.share m) n := by
  intro v
  rw [← h v]
  simp only [Space.share]
  split <;> simp

/-- The first `n` pages of an address space. -/
def Space.take (sp : Space) (n : Nat) : Space := fun v => if v < n then sp v else none

theorem take_share_succ (hc : sp n = some c) :
    update ((sp.share n).take n) n (some c.share) = (sp.share (n + 1)).take (n + 1) := by
  funext v
  simp only [Space.take, Space.share, update_apply]
  by_cases hv : v = n
  · subst hv
    simp [hc]
  · rw [if_neg hv]
    by_cases hlt : v < n
    · simp only [hlt, if_true, show v < n + 1 by omega]
    · rw [if_neg hlt, if_neg (by omega)]

theorem pinned_map {T : Set Nat} {l' : Leaf} (hl : g.pt r v = some l) (hpa : l'.pa = l.pa) :
    Pinned T g (g.map r v (some l')) := by
  refine ⟨fun _ _ _ _ => rfl, fun r' v' _ => ?_⟩
  simp only [Ghost.map, update_apply]
  by_cases hr : r' = r
  · subst hr
    by_cases hv : v' = v
    · subst hv
      simp [hl, hpa]
    · simp [hv]
  · simp [hr]

/-- A second table maps a shared page: its count goes up by one. -/
theorem stays_share {G : Grant} {g1 : Ghost} (h : Books L g s) (hr : g.IsRoot r) (hv : v < UPAGES)
    (hnone : g.pt r v = none) (huser : g.use l.pa = .user) (hcow : l.cow = true) (hw : l.w = false)
    (honce : ∀ v' l', v' < UPAGES → g.pt r v' = some l' → l'.pa ≠ l.pa)
    (hshare : ∀ r' v' l', v' < UPAGES → g.pt r' v' = some l' → l'.pa = l.pa → l'.cow = true)
    (hgrows : Grows r g g1) (hholds : Holds L (g1.map r v (some l)) s')
    (hbooks : SameBooks ((s.withRef l.pa (s.pgref (l.pa / PGSIZE) + 1)).withGrant r v G) s')
    (hfailed : s'.failed = s.failed) :
    Stays L {r} g s (g1.map r v (some l)) s' ∧
      space (g1.map r v (some l)) s' r =
        update (space g s r) v (some (l.cell G (g.data l.pa))) := by
  have haddr := (h.holds.page_addr (show g.use l.pa ≠ .outside by rw [huser]; simp)).1
  have hpt : (g1.map r v (some l)).pt = (g.map r v (some l)).pt := by
    rw [Ghost.map, hgrows.pt]
    rfl
  have huse : ∀ pa, g1.use pa = g.use pa ∨ g.use pa = .free ∧ ∃ y x, g1.use pa = .table r y x := by
    intro pa
    have := hgrows.use pa
    have := hgrows.taken pa
    grind
  have hcounted : Counted (g1.map r v (some l)) s'.pgref := by
    rw [hbooks.pgref]
    refine h.counted.add hv haddr.aligned hnone honce ?_ (by simp [hw]) hpt ?_
    · exact fun r' v' l' hv' hl' heq => ⟨hshare r' v' l' hv' hl' heq, hcow⟩
    · intro pa
      show g1.use pa = .user ↔ _
      have := huse pa
      grind
  have hdata : (g1.map r v (some l)).data l.pa = g.data l.pa :=
    hgrows.data l.pa (by rw [huser]; rfl)
  rw [← hdata]
  refine stays_entry G h hr hv ⟨hholds, hcounted⟩ hbooks.proc hbooks.held hfailed.ge hpt
    hbooks.granted ?_ ?_ ?_
  · intro pa hfixed
    have := huse pa
    simp only [Ghost.map] at hfixed ⊢
    grind [Use.Fixed]
  · exact fun r' v' l' hv' _ hl' => hgrows.data l'.pa (h.leaf hv' hl').2.1
  · have hroot := (h.holds.tab r 2 0 r).mp hr
    refine (hholds.tab r 2 0 r).mpr ?_
    show g1.use r = _
    rw [hgrows.use r (by rw [hroot]; simp), hroot]

theorem flags_or_v (l : Leaf) : l.flags ||| PTE_V = l.flags := by
  have hflags : ∀ w x u cow, leafFlags w x u cow ||| PTE_V = leafFlags w x u cow := by decide
  exact hflags ..

/-- The result of `uvmcopy`: on success both tables have the shared cells; on failure the parent
shares some of its pages with nobody, and the child is empty. -/
def Copied (L : Layout) (old new n : Nat) (g : Ghost) (s : State) (sp : Space) (ret : Int)
    (s' : State) (g' : Ghost) : Prop :=
  Stays L {old, new} g s g' s' ∧
    (ret = -1 ∧ s.failed < s'.failed ∧ (∃ m, space g' s' old = sp.share m) ∧
        (∀ v, space g' s' new v = none) ∨
      ret = 0 ∧ s'.failed = s.failed ∧ space g' s' old = sp.share n ∧
        space g' s' new = (sp.share n).take n)

theorem wp_copy_loop (h : Books L g s) {old new : Nat} (hold : g.IsRoot old) (hnew : g.IsRoot new)
    (hne : old ≠ new) (hsp : Sized sp (v + n)) (hparent : space g s old = sp.share v)
    (hchild : space g s new = (sp.share v).take v)
    (hsame : ∀ v' l', v' < UPAGES → g.pt new v' = some l' →
      ∃ l, g.pt old v' = some l ∧ l.pa = l'.pa) :
    wp (copyLoop L old new n (v * PGSIZE)) E
      (fun ret s' => ∃ g', Copied L old new (v + n) g s sp ret s' g' ∧ Pinned {new} g g') s := by
  induction n generalizing g s v with
  | zero => exact ⟨g, ⟨.refl h, .inr ⟨rfl, rfl, hparent, hchild⟩⟩, .refl {new} g⟩
  | succ n ih =>
    have hnumber : v * PGSIZE / PGSIZE = v := Nat.mul_div_cancel _ (by decide)
    obtain ⟨c, hc⟩ := Option.isSome_iff_exists.mp ((hsp v).mpr (by omega))
    have hcell : space g s old v = some c := by
      rw [hparent, Space.share, if_neg (lt_irrefl v), hc]
    obtain ⟨hv, l, hl, rfl⟩ := space_of_some hcell
    obtain ⟨haddr, hdata, huser⟩ := h.leaf hv hl
    -- the parent's entry is shared
    simp only [copyLoop, wp_bind]
    refine wp_mono (wp_walk_some h.holds hold (page_va_lt hv) (l := l) (by rwa [hnumber])) ?_
    intro res s1 hwalk
    obtain ⟨rfl, q, k, rfl, he, hword⟩ := hwalk
    rw [hnumber] at he
    simp only [wp_bind, wp_readWord, hword, encode_has_v haddr, Bool.not_true,
      Bool.false_eq_true, if_false, encode_shared haddr]
    refine wp_mono (wp_write_entry h.holds he (o := some l.share)
      (by rintro _ ⟨⟩; exact haddr)) ?_
    intro _ s2 hwrite
    obtain ⟨hbooks2, hfailed2, hholds2⟩ := hwrite
    have hgrant2 : SameBooks (s1.withGrant old v (s1.granted old v)) s2 := by
      rw [with_grant_self]
      exact hbooks2
    obtain ⟨hstays2, hspace2⟩ := stays_retag (m := l.share) h hold hv hl rfl (by simp [Leaf.share])
      (by simp [Leaf.share]) hholds2 hgrant2 hfailed2
    rw [hparent, Leaf.cell_share, share_succ hc] at hspace2
    have hnew2 : (g.map old v (some l.share)).IsRoot new := (hstays2.root new).mpr hnew
    have hchild2 : space (g.map old v (some l.share)) s2 new = (sp.share v).take v := by
      rw [hstays2.frame.space new (by simpa using hne.symm), hchild]
    have hnone : (g.map old v (some l.share)).pt new v = none := by
      cases hl' : (g.map old v (some l.share)).pt new v with
      | none => rfl
      | some l' =>
        have hsome := space_some (s := s2) hv hl'
        rw [hchild2, Space.take, if_neg (lt_irrefl v)] at hsome
        exact absurd hsome (by simp)
    have hstays2' : Stays L {old, new} g s1 (g.map old v (some l.share)) s2 :=
      hstays2.mono (by simp)
    have hpinned2 : Pinned {new} g (g.map old v (some l.share)) := pinned_map hl rfl
    -- the child's entry
    rw [show PTE2PA (l.share).encode = l.share.pa from encode_pa haddr,
      encode_flags (l := l.share) haddr]
    have hmap := wp_mappages (E := E) hholds2 (l := l.share) hnew2 (Nat.mul_mod_left v PGSIZE)
      (page_va_lt hv) (by rw [hnumber]; exact hnone) haddr (flags_or_v _)
    refine wp_mono hmap ?_
    intro mapped s3 hpost
    obtain ⟨g3, hpost⟩ := hpost
    rw [hnumber] at hpost
    obtain ⟨rfl, hfailed3, hgrows, -⟩ | ⟨rfl, hfailed3, g4, hgrows, rfl⟩ := hpost.result
    · rw [if_pos (by decide), hnumber, uvmunmap, if_neg (by simp), wp_bind]
      obtain ⟨hstays3, hspace3⟩ :=
        hgrows.stays hstays2.books hnew2 hpost.holds hpost.books hfailed3.le
      have hboth := hstays2'.trans (hstays3.mono (by simp))
      rw [hchild2] at hspace3
      have hunmap := wp_unmap_loop (E := E) hstays3.books (r := new) (n := v) (v := 0)
        ((hboth.root new).mpr hnew) (by omega) ?_
      · rw [zero_mul] at hunmap
        refine wp_mono hunmap ?_
        intro _ s4 hlast
        obtain ⟨g4, hstays4, hfailed4, -, hspace4⟩ := hlast
        rw [wp_pure]
        have hpinned4 := (hstays3.trans hstays4).frame.pinned hholds2 hstays4.books.holds
        refine ⟨g4, ⟨hboth.trans (hstays4.mono (by simp)), .inl ⟨rfl, by omega, ?_, ?_⟩⟩,
          hpinned2.trans hpinned4⟩
        · refine ⟨v + 1, ?_⟩
          rw [hstays4.frame.space old (by simpa using hne),
            hstays3.frame.space old (by simpa using hne), hspace2]
        · intro v'
          rw [hspace4, hspace3]
          simp only [Space.without, Space.take]
          split
          next => rfl
          next hno => rw [if_neg (by omega)]
      · intro v' _ hv'
        have hsome : (space g3 s3 new v').isSome := by
          rw [hspace3, Space.take, if_pos (by omega)]
          exact (hsp.share v').mpr (by omega)
        exact (space_isSome.mp hsome).2
    · rw [if_neg (by decide), wp_bind]
      refine wp_increment_ref haddr ?_
      rw [wp_bind, wp_get, wp_bind, wp_grant, hnumber,
        show v * PGSIZE + PGSIZE = (v + 1) * PGSIZE by ring]
      obtain ⟨s4, hs4⟩ : ∃ s4, s4 = (s3.withRef l.share.pa
          (s3.pgref (l.share.pa / PGSIZE) + 1)).withGrant new v (s3.granted old v) := ⟨_, rfl⟩
      have hgranted : s3.granted = s1.granted := hpost.books.granted.trans hbooks2.granted
      have hbooks4 : SameBooks ((s2.withRef l.share.pa
          (s2.pgref (l.share.pa / PGSIZE) + 1)).withGrant new v (s1.granted old v)) s4 := by
        rw [hs4, hgranted]
        exact hpost.books.with_ref_grant
      have hfailed4 : s4.failed = s2.failed := by
        rw [hs4]
        exact hfailed3
      have hholds4 : Holds L (g4.map new v (some l.share)) s4 := by
        rw [hs4]
        exact hpost.holds
      -- the child maps no other page of the parent at this address
      have honce : ∀ v' l', v' < UPAGES → (g.map old v (some l.share)).pt new v' = some l' →
          l'.pa ≠ l.share.pa := by
        intro v' l' hv' hl' heq
        have hne' : v' ≠ v := by
          rintro rfl
          rw [hnone] at hl'
          exact absurd hl' (by simp)
        simp only [Ghost.map, update_of_ne hne.symm] at hl'
        obtain ⟨l0, hl0, hpa0⟩ := hsame v' l' hv' hl'
        exact hne' (h.counted.once old v v' l l0 hv hv' hl hl0 (hpa0.trans heq))
      have hshared : ∀ r' v' l', v' < UPAGES →
          (g.map old v (some l.share)).pt r' v' = some l' → l'.pa = l.share.pa →
          l'.cow = true := by
        intro r' v' l' hv' hl' heq
        have hexcl := h.counted.excl r' v' l' old v l hv' hv
        have hself : l.share.cow = true := rfl
        have hpa : l.share.pa = l.pa := rfl
        simp only [Ghost.map, update_apply] at hl'
        grind
      obtain ⟨hstays4, hspace4⟩ := stays_share (l := l.share) hstays2.books hnew2 hv hnone huser
        rfl rfl honce hshared hgrows hholds4 hbooks4 hfailed4
      have hboth := hstays2'.trans (hstays4.mono (by simp))
      have hpt : (g4.map new v (some l.share)).pt =
          ((g.map old v (some l.share)).map new v (some l.share)).pt := by
        rw [Ghost.map, hgrows.pt]
        rfl
      have hstep := ih hstays4.books (v := v + 1) ((hboth.root old).mpr hold)
        ((hboth.root new).mpr hnew) (by rwa [show v + 1 + n = v + (n + 1) by omega]) ?_ ?_ ?_
      · rw [hs4] at hstep
        refine wp_mono hstep ?_
        intro ret s5 hlast
        obtain ⟨g5, ⟨hstays5, hresult⟩, hpinned5⟩ := hlast
        rw [← hs4] at hstays5 hresult
        have hpinned4 := hstays4.frame.pinned hholds2 hstays4.books.holds
        refine ⟨g5, ⟨hboth.trans hstays5, ?_⟩, hpinned2.trans (hpinned4.trans hpinned5)⟩
        rw [show v + (n + 1) = v + 1 + n by omega]
        obtain ⟨hret, hfailed5, hrest⟩ | ⟨hret, hfailed5, hrest⟩ := hresult
        · exact .inl ⟨hret, by omega, hrest⟩
        · exact .inr ⟨hret, by omega, hrest⟩
      · rw [hstays4.frame.space old (by simpa using hne), hspace2]
      · rw [hspace4, hchild2, Leaf.cell_share]
        exact take_share_succ hc
      · intro v' l' hv' hl'
        have hold' := hsame v' l' hv'
        have hpa : l.share.pa = l.pa := rfl
        rw [hpt] at hl' ⊢
        simp only [Ghost.map, update_apply] at hl' ⊢
        grind

theorem wp_uvmcopy (h : Books L g s) {old new sz : Nat} (hold : g.IsRoot old) (hnew : g.IsRoot new)
    (hne : old ≠ new) (hsized : Sized (space g s old) (npages sz))
    (hempty : ∀ v, space g s new v = none) :
    wp (uvmcopy L old new sz) E
      (fun ret s' => ∃ g', Copied L old new (npages sz) g s (space g s old) ret s' g' ∧
        Pinned {new} g g') s := by
  have hloop := wp_copy_loop (E := E) h (n := npages sz) (v := 0) hold hnew
    hne (by rwa [zero_add]) (share_zero _).symm ?_ ?_
  · rw [zero_mul, zero_add] at hloop
    exact hloop
  · funext v
    rw [hempty]
    rfl
  · intro v l hv hl
    have hsome := space_some (s := s) hv hl
    rw [hempty] at hsome
    exact absurd hsome (by simp)

end Xv6.Vm
