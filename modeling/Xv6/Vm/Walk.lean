import Xv6.Vm.Table

/-!
# Walking and changing page tables

`walk` without allocation finds the entry the ghost has for an address and changes nothing; with
allocation it may add table pages (`Grows`) and fails only when memory runs out. `mappages` and
`uvmunmap` then change one entry at a time, and `freewalk` gives the pages of an empty table
back.
-/

namespace Xv6.Vm

variable {L : Layout} {g : Ghost} {s : State} {E : Fault → Prop}

/-! ## `walk` -/

/-- The index that `walk` uses at a level is the one of the table page below. -/
theorem px_eq (level va : Nat) : PX level va = va / PGSIZE / 512 ^ level % 512 := by
  have hpow : 2 ^ (PGSHIFT + 9 * level) = PGSIZE * 512 ^ level := by
    rw [pow_add, pow_mul]
    rfl
  rw [PX, hpow, Nat.div_div_eq_div_mul]

theorem index_step (v level : Nat) :
    v / 512 ^ (level + 1) * 512 + v / 512 ^ level % 512 = v / 512 ^ level := by
  rw [pow_succ, ← Nat.div_div_eq_div_mul]
  omega

/-- The entry for page number `v`: its table page, and the index there. -/
def Ghost.entry (g : Ghost) (r v : Nat) : Option (Nat × Nat) :=
  (g.tab r 0 (v / 512)).map (·, v % 512)

section Levels

variable {r va level q : Nat}
  (hq : g.tab r (level + 1) (va / PGSIZE / 512 ^ (level + 1 + 1)) = some q)

include hq

theorem inner_word (h : Holds L g s) : s.mem q (PX (level + 1) va) =
    linkOf (g.tab r level (va / PGSIZE / 512 ^ (level + 1))) := by
  have hword := h.inner r level _ q hq (va / PGSIZE / 512 ^ (level + 1) % 512)
    (Nat.mod_lt _ (by decide))
  rw [index_step] at hword
  rw [px_eq, hword]

/-- `walk` goes down where there is a table page. -/
theorem wp_walk_down (h : Holds L g s) {alloc : Bool} {kid : Nat}
    {Q : Option (Nat × Nat) → State → Prop}
    (hkid : g.tab r level (va / PGSIZE / 512 ^ (level + 1)) = some kid) :
    wp (walkFrom va alloc (level + 1) q) E Q s ↔ wp (walkFrom va alloc level kid) E Q s := by
  have haddr := h.tab_addr hkid
  simp only [walkFrom, wp_bind, wp_readWord, inner_word hq h, hkid, linkOf, link_has_v haddr,
    if_true, link_pa haddr]

theorem entry_none (h : Holds L g s)
    (hkid : g.tab r level (va / PGSIZE / 512 ^ (level + 1)) = none) :
    g.entry r (va / PGSIZE) = none := by
  have hlevel := (h.top _ _ _ _ hq).1
  cases level with
  | zero => simpa [Ghost.entry] using hkid
  | succ level =>
    obtain rfl : level = 0 := by omega
    have hlow := h.orphan r 0 (va / PGSIZE / 512) (by omega)
      (by rw [Nat.div_div_eq_div_mul]; exact hkid)
    simp [Ghost.entry, hlow]

end Levels

/-- `walk` finds the entry and changes nothing, if it is not to allocate or there is an entry. -/
theorem wp_walk_from (h : Holds L g s) {alloc : Bool} {r va level q : Nat}
    (hq : g.tab r level (va / PGSIZE / 512 ^ (level + 1)) = some q)
    (hpresent : alloc = true → g.entry r (va / PGSIZE) ≠ none) :
    wp (walkFrom va alloc level q) E
      (fun res s' => s' = s ∧ res = g.entry r (va / PGSIZE)) s := by
  induction level generalizing q with
  | zero =>
    simp only [walkFrom, wp_pure, Ghost.entry, px_eq, pow_zero, Nat.div_one]
    rw [zero_add, pow_one] at hq
    rw [hq]
    exact ⟨trivial, rfl⟩
  | succ level ih =>
    cases hkid : g.tab r level (va / PGSIZE / 512 ^ (level + 1)) with
    | none =>
      have hentry := entry_none hq h hkid
      cases alloc with
      | true => exact absurd hentry (hpresent rfl)
      | false =>
        simp only [walkFrom, wp_bind, wp_readWord, inner_word hq h, hkid, linkOf, has_flag_zero,
          Bool.false_eq_true, if_false, Bool.not_false, if_true, wp_pure]
        exact ⟨trivial, hentry.symm⟩
    | some kid =>
      rw [wp_walk_down hq h hkid]
      exact ih hkid

/-- What `walk` may do to the ghost: free pages become pages of table `r`. -/
structure Grows (r : Nat) (g g' : Ghost) : Prop where
  pt : g'.pt = g.pt
  use : ∀ pa, g.use pa ≠ .free → g'.use pa = g.use pa
  taken : ∀ pa, g.use pa = .free → g'.use pa = .free ∨ ∃ l x, g'.use pa = .table r l x
  data : ∀ pa, (g.use pa).holdsData = true → g'.data pa = g.data pa

theorem Grows.refl (r : Nat) (g : Ghost) : Grows r g g :=
  ⟨rfl, fun _ _ => rfl, fun _ h => .inl h, fun _ _ => rfl⟩

theorem Grows.trans {r : Nat} {g1 g2 g3 : Ghost} (h : Grows r g1 g2) (h' : Grows r g2 g3) :
    Grows r g1 g3 := by
  refine ⟨h'.pt.trans h.pt, ?_, ?_, ?_⟩
  · intro pa hpa
    have hsame := h.use pa hpa
    rw [h'.use pa (hsame ▸ hpa), hsame]
  · intro pa hpa
    obtain hfree | ⟨l, x, htab⟩ := h.taken pa hpa
    · exact h'.taken pa hfree
    · refine .inr ⟨l, x, ?_⟩
      rw [h'.use pa (by rw [htab]; simp), htab]
  · intro pa hpa
    have hne : g1.use pa ≠ .free := by
      intro hfree
      simp [hfree, Use.holdsData] at hpa
    have hsame := h.use pa hne
    rw [h'.data pa (hsame ▸ hpa), h.data pa hpa]

theorem Grows.tab {r : Nat} {g g' : Ghost} {s s' : State} (h : Grows r g g') (hg : Holds L g s)
    (hg' : Holds L g' s') {r' l x q : Nat} (hq : g.tab r' l x = some q) :
    g'.tab r' l x = some q := by
  have huse := (hg.tab _ _ _ _).mp hq
  refine (hg'.tab _ _ _ _).mpr ?_
  rw [h.use q (by rw [huse]; simp), huse]

/-- The ghost after `walk` has taken `page` for the table at level `l` and index `x`. -/
def Ghost.extend (g : Ghost) (r l x page : Nat) : Ghost :=
  ((g.take page).fill page fun _ => 0).attach r l x page

theorem grows_extend {r l x page : Nat} (hfree : g.use page = .free) :
    Grows r g (g.extend r l x page) := by
  refine ⟨rfl, ?_, ?_, ?_⟩
  · intro pa hpa
    simp only [Ghost.extend, Ghost.attach, Ghost.fill, Ghost.take, Function.update_apply]
    grind
  · intro pa hpa
    simp only [Ghost.extend, Ghost.attach, Ghost.fill, Ghost.take, Function.update_apply]
    grind
  · intro pa hpa
    simp only [Ghost.extend, Ghost.attach, Ghost.fill, Ghost.take, Function.update_apply]
    grind [Use.holdsData]

theorem nfree_extend (h : Holds L g s) {r l x page : Nat} (hfree : g.use page = .free) :
    (g.extend r l x page).nfree + 1 = g.nfree := by
  have hupdate := h.nfree_update hfree (u := .table r l x) (by simp)
  rw [← hupdate, Ghost.nfree]
  simp only [Ghost.extend, Ghost.attach, Ghost.fill, Ghost.take, Function.update_idem]

/-- The result of `walk` with allocation: it fails only when fewer than `level` pages are free. -/
structure WalkPost (L : Layout) (g : Ghost) (r v level : Nat) (s : State)
    (res : Option (Nat × Nat)) (s' : State) (g' : Ghost) : Prop where
  books : SameBooks s s'
  holds : Holds L g' s'
  grows : Grows r g g'
  nfree : g.nfree ≤ g'.nfree + level
  result : res = none ∧ s.failed < s'.failed ∧ g.nfree < level ∨
    s'.failed = s.failed ∧ ∃ q, res = some (q, v % 512) ∧ g'.tab r 0 (v / 512) = some q

theorem wp_walk_alloc_from (h : Holds L g s) {r va level q : Nat}
    (hq : g.tab r level (va / PGSIZE / 512 ^ (level + 1)) = some q) :
    wp (walkFrom va true level q) E
      (fun res s' => ∃ g', WalkPost L g r (va / PGSIZE) level s res s' g') s := by
  induction level generalizing q g s with
  | zero =>
    simp only [walkFrom, wp_pure, px_eq, pow_zero, Nat.div_one]
    rw [zero_add, pow_one] at hq
    exact ⟨g, .refl s, h, .refl r g, le_rfl, .inr ⟨rfl, q, rfl, hq⟩⟩
  | succ level ih =>
    have hlevel := (h.top _ _ _ _ hq).1
    cases hkid : g.tab r level (va / PGSIZE / 512 ^ (level + 1)) with
    | some kid =>
      rw [wp_walk_down hq h hkid]
      refine wp_mono (ih h hkid) ?_
      intro res s' hpost
      obtain ⟨g', hpost⟩ := hpost
      refine ⟨g', hpost.books, hpost.holds, hpost.grows, by have := hpost.nfree; omega, ?_⟩
      obtain ⟨hnone, hfailed, hfew⟩ | hsome := hpost.result
      · exact .inl ⟨hnone, hfailed, by omega⟩
      · exact .inr hsome
    | none =>
      simp only [walkFrom, wp_bind, wp_readWord, inner_word hq h, hkid, linkOf, has_flag_zero,
        Bool.false_eq_true, if_false, Bool.not_true]
      refine wp_mono (wp_kalloc h) ?_
      intro page s1 hpage
      obtain ⟨hbooks, ⟨rfl, hnfree, hsame, hfailed⟩ | ⟨hne, hfree, htake, hfailed⟩⟩ := hpage
      · simp only [if_true, wp_pure]
        exact ⟨g, hbooks, hsame, .refl r g, by omega, .inl ⟨rfl, by omega, by omega⟩⟩
      · have hhand : (g.take page).use page = .hand := by simp [Ghost.take]
        simp only [if_neg hne, wp_bind, setPage, writeWord, wp_modify]
        have hzero := htake.fill (show ((g.take page).use page).holdsData = true by
          simp [hhand, Use.holdsData]) fun _ => 0
        have hqtake : g.tab r (level + 1) (va / PGSIZE / 512 ^ (level + 1) / 512) = some q := by
          rwa [Nat.div_div_eq_div_mul, ← pow_succ]
        have hattach := hzero.attach (r := r) (l := level)
          (x := va / PGSIZE / 512 ^ (level + 1)) (by omega) hqtake hkid hhand (by simp [Ghost.fill])
        have hextend := grows_extend (r := r) (l := level)
          (x := va / PGSIZE / 512 ^ (level + 1)) hfree
        have hcount := nfree_extend h (r := r) (l := level)
          (x := va / PGSIZE / 512 ^ (level + 1)) hfree
        refine wp_mono (ih (g := g.extend r level (va / PGSIZE / 512 ^ (level + 1)) page)
          (q := page) ?_ ?_) ?_
        · rw [px_eq]
          exact hattach
        · simp [Ghost.extend, Ghost.attach]
        · intro res s' hpost
          obtain ⟨g', hpost⟩ := hpost
          have hmore := hpost.nfree
          refine ⟨g', ⟨hpost.books.pgref.trans hbooks.pgref, hpost.books.proc.trans hbooks.proc,
            hpost.books.held.trans hbooks.held, hpost.books.granted.trans hbooks.granted⟩,
            hpost.holds, hextend.trans hpost.grows, by omega, ?_⟩
          obtain ⟨hnone, hlater, hfew⟩ | ⟨hlater, hsome⟩ := hpost.result
          · exact .inl ⟨hnone, by rw [← hfailed]; exact hlater, by omega⟩
          · exact .inr ⟨hlater.trans hfailed, hsome⟩

/-- `r` is the root of a page table. -/
def Ghost.IsRoot (g : Ghost) (r : Nat) : Prop := g.tab r 2 0 = some r

theorem Grows.root {r r' : Nat} {g g' : Ghost} {s s' : State} (h : Grows r g g') (hg : Holds L g s)
    (hg' : Holds L g' s') (hr : g.IsRoot r') : g'.IsRoot r' :=
  h.tab hg hg' hr

theorem page_number_lt {va : Nat} (h : va < MAXVA) : va / PGSIZE / 512 ^ (2 + 1) = 0 := by
  have hpow : MAXVA = PGSIZE * (512 ^ (2 + 1) / 2) := by decide
  rw [Nat.div_div_eq_div_mul, Nat.div_eq_zero_iff_lt (by decide)]
  refine lt_of_lt_of_le h ?_
  rw [hpow]
  exact Nat.mul_le_mul_left _ (by decide)

theorem wp_walk (h : Holds L g s) {r va : Nat} (hr : g.IsRoot r) (hva : va < MAXVA) :
    wp (walk r va false) E (fun res s' => s' = s ∧ res = g.entry r (va / PGSIZE)) s := by
  rw [walk, if_neg (by omega)]
  refine wp_walk_from h ?_ fun hno => by cases hno
  rw [page_number_lt hva]
  exact hr

theorem wp_walk_alloc (h : Holds L g s) {r va : Nat} (hr : g.IsRoot r) (hva : va < MAXVA) :
    wp (walk r va true) E (fun res s' => ∃ g', WalkPost L g r (va / PGSIZE) 2 s res s' g') s := by
  rw [walk, if_neg (by omega)]
  refine wp_walk_alloc_from h ?_
  rw [page_number_lt hva]
  exact hr

/-! ## Entries -/

theorem Rep.entry_word (h : Holds L g s) {r v q k : Nat} (he : g.entry r v = some (q, k)) :
    s.mem q k = leafOf (g.pt r v) := by
  simp only [Ghost.entry, Option.map_eq_some_iff, Prod.mk.injEq] at he
  obtain ⟨q', hq', rfl, rfl⟩ := he
  rw [h.leaf r _ _ hq' _ (Nat.mod_lt _ (by decide)), show v / 512 * 512 + v % 512 = v by omega]

theorem Rep.entry_of_pt (h : Holds L g s) {r v : Nat} {l : Leaf} (hl : g.pt r v = some l) :
    ∃ q k, g.entry r v = some (q, k) := by
  cases hq : g.tab r 0 (v / 512) with
  | none =>
    rw [h.absent r v hq] at hl
    exact absurd hl (by simp)
  | some q => exact ⟨q, v % 512, by simp [Ghost.entry, hq]⟩

/-- Writing the word of an entry changes the ghost's entry. -/
theorem wp_write_entry (h : Holds L g s) {r v q k : Nat} (he : g.entry r v = some (q, k))
    {o : Option Leaf} (ho : ∀ l, o = some l → PageAddr l.pa) :
    wp (writeWord q k (leafOf o)) E (fun _ s' => SameBooks s s' ∧ s'.failed = s.failed ∧
      Holds L (g.map r v o) s') s := by
  simp only [Ghost.entry, Option.map_eq_some_iff, Prod.mk.injEq] at he
  obtain ⟨q', hq', rfl, rfl⟩ := he
  simp only [writeWord, wp_modify]
  refine ⟨⟨rfl, rfl, rfl, rfl⟩, trivial, ?_⟩
  have hmap := h.map hq' (Nat.mod_lt v (by decide : 0 < 512)) ho
  rwa [show v / 512 * 512 + v % 512 = v by omega] at hmap

theorem wp_walk_some (h : Holds L g s) {r va : Nat} (hr : g.IsRoot r) (hva : va < MAXVA) {l : Leaf}
    (hl : g.pt r (va / PGSIZE) = some l) :
    wp (walk r va false) E (fun res s' => s' = s ∧ ∃ q k, res = some (q, k) ∧
      g.entry r (va / PGSIZE) = some (q, k) ∧ s.mem q k = l.encode) s := by
  refine wp_mono (wp_walk h hr hva) ?_
  intro res s' hres
  obtain ⟨q, k, he⟩ := h.entry_of_pt hl
  refine ⟨hres.1, q, k, hres.2.trans he, he, ?_⟩
  rw [h.entry_word he, hl]
  rfl

/-- The result of mapping one page: failure leaves at most new table pages behind. -/
structure MapPost (L : Layout) (g : Ghost) (r v : Nat) (l : Leaf) (s : State)
    (ret : Int) (s' : State) (g' : Ghost) : Prop where
  books : SameBooks s s'
  holds : Holds L g' s'
  nfree : g.nfree ≤ g'.nfree + 2
  result : ret = -1 ∧ s.failed < s'.failed ∧ Grows r g g' ∧ g.nfree < 2 ∨
    ret = 0 ∧ s'.failed = s.failed ∧ ∃ g1, Grows r g g1 ∧ g' = g1.map r v (some l)

theorem nfree_map (g : Ghost) (r v : Nat) (o : Option Leaf) : (g.map r v o).nfree = g.nfree := rfl

theorem wp_mappages (h : Holds L g s) {r a : Nat} {l : Leaf} {perm : Pte} (hr : g.IsRoot r)
    (halign : a % PGSIZE = 0) (hva : a < MAXVA) (hnone : g.pt r (a / PGSIZE) = none)
    (haddr : PageAddr l.pa) (hperm : perm ||| PTE_V = l.flags) :
    wp (mappages r a PGSIZE l.pa perm) E
      (fun ret s' => ∃ g', MapPost L g r (a / PGSIZE) l s ret s' g') s := by
  simp only [mappages, halign, ne_eq, not_true_eq_false, if_false]
  rw [if_neg (by decide), if_neg (by decide), show PGSIZE / PGSIZE - 1 = 0 by decide, mapLoop,
    wp_bind]
  refine wp_mono (wp_walk_alloc h hr hva) ?_
  intro res s1 hwalk
  obtain ⟨g1, hwalk⟩ := hwalk
  have hmore := hwalk.nfree
  obtain ⟨rfl, hfailed, hfew⟩ | ⟨hfailed, q, rfl, hq⟩ := hwalk.result
  · exact ⟨g1, hwalk.books, hwalk.holds, hwalk.nfree, .inl ⟨rfl, hfailed, hwalk.grows, hfew⟩⟩
  · have he : g1.entry r (a / PGSIZE) = some (q, a / PGSIZE % 512) := by simp [Ghost.entry, hq]
    have hword := hwalk.holds.entry_word he
    rw [hwalk.grows.pt, hnone, leafOf] at hword
    simp only [wp_bind, wp_readWord, hword, has_flag_zero, Bool.false_eq_true,
      if_false]
    rw [encode_map hperm]
    refine wp_mono (wp_write_entry hwalk.holds he (o := some l) (by rintro _ ⟨⟩; exact haddr)) ?_
    intro _ s2 hwrite
    obtain ⟨hbooks, hsame, hmap⟩ := hwrite
    show ∃ g', MapPost L g r (a / PGSIZE) l s 0 s2 g'
    exact ⟨_, hwalk.books.trans hbooks, hmap, hmore, .inr ⟨rfl, hsame.trans hfailed, g1,
      hwalk.grows, rfl⟩⟩

/-- `mappages` of one page takes no memory when the page of its entry exists. -/
theorem wp_mappages_present (h : Holds L g s) {r a q : Nat} {l : Leaf} {perm : Pte}
    (hr : g.IsRoot r) (halign : a % PGSIZE = 0) (hva : a < MAXVA)
    (hnone : g.pt r (a / PGSIZE) = none) (haddr : PageAddr l.pa)
    (hperm : perm ||| PTE_V = l.flags) (hq : g.tab r 0 (a / PGSIZE / 512) = some q) :
    wp (mappages r a PGSIZE l.pa perm) E (fun ret s' => ret = 0 ∧ SameBooks s s' ∧
      s'.failed = s.failed ∧ Holds L (g.map r (a / PGSIZE) (some l)) s') s := by
  have hroot : g.tab r 2 (a / PGSIZE / 512 ^ (2 + 1)) = some r := by
    rw [page_number_lt hva]
    exact hr
  have he : g.entry r (a / PGSIZE) = some (q, a / PGSIZE % 512) := by simp [Ghost.entry, hq]
  have hword := h.entry_word he
  rw [hnone, leafOf] at hword
  simp only [mappages, halign, ne_eq, not_true_eq_false, if_false]
  rw [if_neg (by decide), if_neg (by decide), show PGSIZE / PGSIZE - 1 = 0 by decide, mapLoop,
    wp_bind, walk, if_neg (by omega)]
  refine wp_mono (wp_walk_from h hroot fun _ => by simp [he]) ?_
  intro res s1 hwalk
  obtain ⟨rfl, rfl⟩ := hwalk
  rw [he]
  simp only [wp_bind, wp_readWord, hword, has_flag_zero, Bool.false_eq_true,
    if_false]
  rw [encode_map hperm]
  refine wp_mono (wp_write_entry h he (o := some l) (by rintro _ ⟨⟩; exact haddr)) ?_
  intro _ s2 hwrite
  exact ⟨rfl, hwrite⟩

end Xv6.Vm
