import Xv6.Vm.Freewalk

/-!
# Reference counts and address spaces

Two readings of a ghost. `Books` is the accounting: the count of a page is the number of user
entries that map it, a page is user memory exactly when some entry maps it, no table maps a page
twice, and a page with more than one entry is copy-on-write in all of them. `space` is the address
space a page table gives its process: for each page number the permissions, the contents and the
permissions the page was allocated with, without the physical address. `Stays` says that an
operation keeps the accounting and touches only the tables in a set; the operations on user memory
are specified by it and by what they do to `space`.
-/

namespace Xv6.Vm

open Function

variable {L : Layout} {g g' : Ghost} {s s' : State} {E : Fault → Prop} {r v pa n : Nat}
  {T T' : Set Nat} {l : Leaf} {pgref : Nat → Int} {g1 g2 g3 : Ghost}

/-- The number of pages below the trapframe. -/
def UPAGES : Nat := TRAPFRAME / PGSIZE

/-! ## The accounting -/

/-- The user entries that map a page. -/
def Ghost.maps (g : Ghost) (pa : Nat) : Set (Nat × Nat) :=
  {e | e.2 < UPAGES ∧ ∃ l, g.pt e.1 e.2 = some l ∧ l.pa = pa}

theorem mem_maps :
    (r, v) ∈ g.maps pa ↔ v < UPAGES ∧ ∃ l, g.pt r v = some l ∧ l.pa = pa := Iff.rfl

/-- The counts agree with the entries. -/
structure Counted (g : Ghost) (pgref : Nat → Int) : Prop where
  finite : ∀ pa, (g.maps pa).Finite
  refs : ∀ n, pgref n = (g.maps (n * PGSIZE)).ncard
  user : ∀ pa, g.use pa = .user ↔ (g.maps pa).Nonempty
  once : ∀ r v v' l l', v < UPAGES → v' < UPAGES → g.pt r v = some l → g.pt r v' = some l' →
    l'.pa = l.pa → v' = v
  excl : ∀ r v l r' v' l', v < UPAGES → v' < UPAGES → g.pt r v = some l → g.pt r' v' = some l' →
    l'.pa = l.pa → l.cow = false → r' = r ∧ v' = v
  owned : ∀ r v l, v < UPAGES → g.pt r v = some l → l.w = true → l.cow = false

/-- The ghost describes the state, and the counts agree with it. -/
structure Books (L : Layout) (g : Ghost) (s : State) : Prop where
  holds : Holds L g s
  counted : Counted g s.pgref

/-- Only the entries and the user pages matter to the accounting. -/
theorem Counted.same (h : Counted g pgref) (hpt : g'.pt = g.pt)
    (huse : ∀ pa, g'.use pa = .user ↔ g.use pa = .user) : Counted g' pgref := by
  have hmaps : g'.maps = g.maps := by
    funext pa
    simp only [Ghost.maps, hpt]
  refine ⟨?_, ?_, ?_, ?_, ?_, ?_⟩
  · rw [hmaps]
    exact h.finite
  · rw [hmaps]
    exact h.refs
  · intro pa
    rw [hmaps, huse]
    exact h.user pa
  · rw [hpt]
    exact h.once
  · rw [hpt]
    exact h.excl
  · rw [hpt]
    exact h.owned

theorem Counted.unmapped (h : Counted g pgref) (hpa : g.use pa ≠ .user) (hv : v < UPAGES)
    (hl : g.pt r v = some l) :
    l.pa ≠ pa := by
  intro heq
  exact hpa ((h.user pa).mpr ⟨(r, v), hv, l, hl, heq⟩)

theorem Counted.is_user (h : Counted g pgref) (hv : v < UPAGES) (hl : g.pt r v = some l) :
    g.use l.pa = .user :=
  (h.user l.pa).mpr ⟨(r, v), hv, l, hl, rfl⟩

theorem maps_map_ne {o : Option Leaf} (hold : ∀ l, g.pt r v = some l → l.pa ≠ pa)
    (hnew : ∀ l, o = some l → l.pa ≠ pa) :
    (g.map r v o).maps pa = g.maps pa := by
  ext ⟨r', v'⟩
  simp only [mem_maps, Ghost.map, update_apply]
  grind

theorem maps_map_add (hv : v < UPAGES) :
    (g.map r v (some l)).maps l.pa = insert (r, v) (g.maps l.pa) := by
  ext ⟨r', v'⟩
  simp only [mem_maps, Ghost.map, update_apply, Set.mem_insert_iff, Prod.mk.injEq]
  grind

theorem maps_map_remove :
    (g.map r v none).maps pa = g.maps pa \ {(r, v)} := by
  ext ⟨r', v'⟩
  simp only [mem_maps, Ghost.map, update_apply, Set.mem_sdiff, Set.mem_singleton_iff,
    mem_maps, Prod.mk.injEq]
  grind

theorem page_number_mul (h : pa % PGSIZE = 0) : pa / PGSIZE * PGSIZE = pa :=
  Nat.div_mul_cancel (Nat.dvd_of_mod_eq_zero h)

theorem page_number_ne (hn : n ≠ pa / PGSIZE) : n * PGSIZE ≠ pa := by
  intro heq
  apply hn
  rw [← heq, Nat.mul_div_cancel _ (by decide)]

/-- A new entry for a page that its table does not map yet, and that is copy-on-write where it is
mapped already. -/
theorem Counted.add (h : Counted g pgref) (hv : v < UPAGES) (halign : l.pa % PGSIZE = 0)
    (hnone : g.pt r v = none) (honce : ∀ v' l', v' < UPAGES → g.pt r v' = some l' → l'.pa ≠ l.pa)
    (hshare : ∀ r' v' l', v' < UPAGES → g.pt r' v' = some l' → l'.pa = l.pa →
      l'.cow = true ∧ l.cow = true) (hown : l.w = true → l.cow = false)
    (hpt : g'.pt = (g.map r v (some l)).pt)
    (huse : ∀ pa, g'.use pa = .user ↔ pa = l.pa ∨ g.use pa = .user) :
    Counted g' (update pgref (l.pa / PGSIZE) (pgref (l.pa / PGSIZE) + 1)) := by
  have hmaps : g'.maps = (g.map r v (some l)).maps := by
    funext pa
    simp only [Ghost.maps, hpt]
  have hother : ∀ pa, pa ≠ l.pa → g'.maps pa = g.maps pa := by
    intro pa hne
    rw [hmaps]
    refine maps_map_ne ?_ ?_
    · rw [hnone]
      simp
    · rintro _ ⟨⟩
      exact hne.symm
  have hself : g'.maps l.pa = insert (r, v) (g.maps l.pa) := by
    rw [hmaps]
    exact maps_map_add hv
  have hfresh : (r, v) ∉ g.maps l.pa := by
    rintro ⟨-, l', hl', -⟩
    rw [hnone] at hl'
    exact absurd hl' (by simp)
  refine ⟨?_, ?_, ?_, ?_, ?_, ?_⟩
  · intro pa
    by_cases hpa : pa = l.pa
    · rw [hpa, hself]
      exact (h.finite _).insert _
    · rw [hother pa hpa]
      exact h.finite pa
  · intro n
    by_cases hn : n = l.pa / PGSIZE
    · rw [hn, update_self, h.refs, page_number_mul halign, hself,
        Set.ncard_insert_of_notMem hfresh (h.finite _)]
      push_cast
      rfl
    · rw [update_of_ne hn, hother _ (page_number_ne hn)]
      exact h.refs n
  · intro pa
    rw [huse]
    by_cases hpa : pa = l.pa
    · rw [hpa, hself]
      simp
    · rw [hother pa hpa, h.user]
      simp [hpa]
  · intro r' v1 v2 l1 l2 hv1 hv2 hl1 hl2 hpa
    have hold := h.once r' v1 v2 l1 l2 hv1 hv2
    simp only [hpt, Ghost.map, update_apply] at hl1 hl2
    grind
  · intro r1 v1 l1 r2 v2 l2 hv1 hv2 hl1 hl2 hpa hw
    have hold := h.excl r1 v1 l1 r2 v2 l2 hv1 hv2
    simp only [hpt, Ghost.map, update_apply] at hl1 hl2
    grind
  · intro r1 v1 l1 hv1 hl1 hw
    have hold := h.owned r1 v1 l1 hv1
    simp only [hpt, Ghost.map, update_apply] at hl1
    grind

/-- An entry goes; its page stays user memory exactly when its count was above one. -/
theorem Counted.remove (h : Counted g pgref) (hv : v < UPAGES) (halign : l.pa % PGSIZE = 0)
    (hl : g.pt r v = some l) (hpt : g'.pt = (g.map r v none).pt)
    (huse : ∀ pa, g'.use pa = .user ↔ g.use pa = .user ∧ (pa = l.pa → pgref (l.pa / PGSIZE) ≠ 1)) :
    Counted g' (update pgref (l.pa / PGSIZE) (pgref (l.pa / PGSIZE) - 1)) := by
  have hmaps : ∀ pa, g'.maps pa = g.maps pa \ {(r, v)} := by
    intro pa
    rw [← maps_map_remove]
    simp only [Ghost.maps, hpt]
  have hin : (r, v) ∈ g.maps l.pa := ⟨hv, l, hl, rfl⟩
  have hother : ∀ pa, pa ≠ l.pa → g'.maps pa = g.maps pa := by
    intro pa hne
    rw [hmaps, Set.sdiff_singleton_eq_self]
    rintro ⟨-, l', hl', hpa⟩
    rw [hl] at hl'
    obtain rfl := Option.some.inj hl'
    exact hne hpa.symm
  have hcount := Set.ncard_sdiff_singleton_add_one hin (h.finite l.pa)
  have href := h.refs (l.pa / PGSIZE)
  rw [page_number_mul halign] at href
  refine ⟨?_, ?_, ?_, ?_, ?_, ?_⟩
  · intro pa
    rw [hmaps]
    exact (h.finite pa).sdiff
  · intro n
    by_cases hn : n = l.pa / PGSIZE
    · rw [hn, update_self, page_number_mul halign, hmaps, href]
      omega
    · rw [update_of_ne hn, hother _ (page_number_ne hn)]
      exact h.refs n
  · intro pa
    rw [huse]
    by_cases hpa : pa = l.pa
    · subst hpa
      have hsub : ((g.maps l.pa) \ {(r, v)}).Finite := (h.finite l.pa).sdiff
      rw [hmaps, ← Set.ncard_pos hsub, h.user]
      constructor
      · rintro ⟨-, hne⟩
        have := hne rfl
        omega
      · intro hpos
        exact ⟨⟨_, hin⟩, fun _ => by omega⟩
    · rw [hother pa hpa, h.user]
      simp [hpa]
  · intro r' v1 v2 l1 l2 hv1 hv2 hl1 hl2 hpa
    have hold := h.once r' v1 v2 l1 l2 hv1 hv2
    simp only [hpt, Ghost.map, update_apply] at hl1 hl2
    grind
  · intro r1 v1 l1 r2 v2 l2 hv1 hv2 hl1 hl2 hpa hw
    have hold := h.excl r1 v1 l1 r2 v2 l2 hv1 hv2
    simp only [hpt, Ghost.map, update_apply] at hl1 hl2
    grind
  · intro r1 v1 l1 hv1 hl1 hw
    have hold := h.owned r1 v1 l1 hv1
    simp only [hpt, Ghost.map, update_apply] at hl1
    grind

/-- The flags of an entry change. The copy-on-write bit may only go where the entry is alone. -/
theorem Counted.retag (h : Counted g pgref) {l' : Leaf} (hv : v < UPAGES) (hl : g.pt r v = some l)
    (hpa : l'.pa = l.pa) (halone : l'.cow = false → l.cow = false ∨ pgref (l.pa / PGSIZE) ≤ 1)
    (hown : l'.w = true → l'.cow = false) (halign : l.pa % PGSIZE = 0)
    (hpt : g'.pt = (g.map r v (some l')).pt) (huse : ∀ pa, g'.use pa = .user ↔ g.use pa = .user) :
    Counted g' pgref := by
  have hmaps : g'.maps = g.maps := by
    funext pa
    ext ⟨r', v'⟩
    simp only [mem_maps, hpt, Ghost.map, update_apply]
    grind
  -- an entry that is not copy-on-write is the only one of its page
  have honly : l'.cow = false → ∀ r2 v2 l2, v2 < UPAGES → g.pt r2 v2 = some l2 → l2.pa = l.pa →
      r2 = r ∧ v2 = v := by
    intro hcow' r2 v2 l2 hv2 hl2 hpa2
    obtain hcow | hcount := halone hcow'
    · exact h.excl r v l r2 v2 l2 hv hv2 hl hl2 hpa2 hcow
    · rw [h.refs, page_number_mul halign] at hcount
      have hfinite : Finite (g.maps l.pa) := h.finite l.pa
      have hsub : (g.maps l.pa).Subsingleton :=
        Set.ncard_le_one_iff_subsingleton.mp (by exact_mod_cast hcount)
      have heq := hsub (show (r2, v2) ∈ g.maps l.pa from ⟨hv2, l2, hl2, hpa2⟩)
        (show (r, v) ∈ g.maps l.pa from ⟨hv, l, hl, rfl⟩)
      simpa using heq
  refine ⟨?_, ?_, ?_, ?_, ?_, ?_⟩
  · rw [hmaps]
    exact h.finite
  · rw [hmaps]
    exact h.refs
  · intro pa
    rw [hmaps, huse]
    exact h.user pa
  · intro r' v1 v2 l1 l2 hv1 hv2 hl1 hl2 heq
    have hold := h.once r' v1 v2
    simp only [hpt, Ghost.map, update_apply] at hl1 hl2
    grind
  · intro r1 v1 l1 r2 v2 l2 hv1 hv2 hl1 hl2 heq hw1
    have hold := h.excl r1 v1 l1 r2 v2
    simp only [hpt, Ghost.map, update_apply] at hl1 hl2
    grind
  · intro r1 v1 l1 hv1 hl1 hw
    have hold := h.owned r1 v1 l1 hv1
    simp only [hpt, Ghost.map, update_apply] at hl1
    grind

theorem pigeonhole {m : Nat} (f : Nat → Nat) (hlt : ∀ v < n, f v < m)
    (hinj : ∀ v v', v < n → v' < n → f v = f v' → v = v') : n ≤ m := by
  have hcard := Finset.card_le_card_of_injOn (s := Finset.range n) (t := Finset.range m) f
    (by simpa [Set.MapsTo] using hlt)
    (by simpa [Set.InjOn] using fun v hv v' hv' => hinj v v' hv hv')
  simpa using hcard

/-- A table that maps its first `n` user pages maps `n` different pages of memory. -/
theorem Books.room (h : Books L g s) (hn : n ≤ UPAGES) (hmapped : ∀ v < n, ∃ l, g.pt r v = some l) :
    n ≤ (PHYSTOP - KERNBASE) / PGSIZE := by
  have hleaf : Nonempty Leaf := ⟨⟨0, false, false, false, false⟩⟩
  choose! f hf using hmapped
  have hrange : ∀ v < n, KERNBASE ≤ (f v).pa ∧ (f v).pa % PGSIZE = 0 ∧ (f v).pa < PHYSTOP := by
    intro v hv
    have huse := h.counted.is_user (lt_of_lt_of_le hv hn) (hf v hv)
    have haddr := h.holds.page_addr (show g.use (f v).pa ≠ .outside by rw [huse]; simp)
    exact ⟨le_trans L.kend_low haddr.2.1, haddr.1.aligned, haddr.1.bound⟩
  refine pigeonhole (fun v => (f v).pa / PGSIZE - KERNBASE / PGSIZE) ?_ ?_
  · intro v hv
    obtain ⟨hlow, halign, hhigh⟩ := hrange v hv
    unfold PGSIZE PHYSTOP KERNBASE at *
    omega
  · intro v v' hv hv' heq
    have h1 := hrange v hv
    have h2 := hrange v' hv'
    refine h.counted.once r v' v _ _ (by omega) (by omega) (hf v' hv') (hf v hv) ?_
    unfold PGSIZE KERNBASE at *
    omega

/-! ## Address spaces -/

/-- The permissions of a page of an address space, and those it was allocated with. -/
structure Perm where
  w : Bool
  u : Bool
  cow : Bool
  grant : Grant
  deriving DecidableEq, Repr

/-- One page of an address space. -/
structure Cell where
  perm : Perm
  page : Page

/-- An address space. -/
abbrev Space := Nat → Option Cell

/-- The address space of a page table. -/
def space (g : Ghost) (s : State) (r : Nat) : Space := fun v =>
  if v < UPAGES then
    (g.pt r v).map fun l => ⟨⟨l.w, l.u, l.cow, s.granted r v⟩, g.data l.pa⟩
  else none

theorem space_isSome :
    (space g s r v).isSome ↔ v < UPAGES ∧ ∃ l, g.pt r v = some l := by
  simp only [space]
  split
  next hv => simp [hv, Option.isSome_iff_exists]
  next hv => simp [hv]

/-- Table `r` has the same address space in two states when its user entries, their pages and
the grants are the same. -/
theorem space_congr (hpt : ∀ v < UPAGES, g'.pt r v = g.pt r v)
    (hdata : ∀ v l, v < UPAGES → g.pt r v = some l → g'.data l.pa = g.data l.pa)
    (hgrant : ∀ v < UPAGES, s'.granted r v = s.granted r v) : space g' s' r = space g s r := by
  funext v
  simp only [space]
  split
  next hv =>
    rw [hpt v hv, hgrant v hv]
    cases hl : g.pt r v with
    | none => rfl
    | some l => simp only [Option.map_some, hdata v l hv hl]
  next => rfl

/-- The owners of pages that an operation on the tables in `T` leaves alone. -/
def Use.Fixed (T : Set Nat) : Use → Prop
  | .free | .user => False
  | .table r _ _ => r ∉ T
  | _ => True

/-- Nothing but the tables in `T`, user memory and the free list has changed. -/
structure Frame (T : Set Nat) (g : Ghost) (s : State) (g' : Ghost) (s' : State) : Prop where
  proc : s'.proc = s.proc
  held : s'.held = s.held
  failed : s.failed ≤ s'.failed
  use : ∀ pa, (g.use pa).Fixed T ∨ (g'.use pa).Fixed T → g'.use pa = g.use pa
  pt : ∀ r v, r ∉ T → g'.pt r v = g.pt r v
  space : ∀ r, r ∉ T → space g' s' r = space g s r

theorem Frame.refl (T : Set Nat) (g : Ghost) (s : State) : Frame T g s g s :=
  ⟨rfl, rfl, le_rfl, fun _ _ => rfl, fun _ _ _ => rfl, fun _ _ => rfl⟩

theorem Frame.trans {s1 s2 s3 : State} (h : Frame T g1 s1 g2 s2) (h' : Frame T g2 s2 g3 s3) :
    Frame T g1 s1 g3 s3 := by
  refine ⟨h'.proc.trans h.proc, h'.held.trans h.held, h.failed.trans h'.failed, ?_, ?_, ?_⟩
  · intro pa hpa
    have := h.use pa
    have := h'.use pa
    grind
  · intro r v hr
    rw [h'.pt r v hr, h.pt r v hr]
  · intro r hr
    rw [h'.space r hr, h.space r hr]

theorem Use.Fixed.mono (hsub : T ⊆ T') {u : Use} (h : u.Fixed T') : u.Fixed T := by
  cases u with
  | table r l x => exact fun hr => h (hsub hr)
  | free | user => exact h
  | outside | hand | trapframe p | kernel => trivial

theorem Frame.mono (hsub : T ⊆ T') (h : Frame T g s g' s') :
    Frame T' g s g' s' := by
  refine ⟨h.proc, h.held, h.failed, ?_, ?_, ?_⟩
  · intro pa hpa
    exact h.use pa (hpa.imp (.mono hsub) (.mono hsub))
  · exact fun r v hr => h.pt r v fun hr' => hr (hsub hr')
  · exact fun r hr => h.space r fun hr' => hr (hsub hr')

/-- Outside the tables in `T`, the table pages are as before and every entry still maps the same
page; its flags may be others. -/
structure Pinned (T : Set Nat) (g g' : Ghost) : Prop where
  tab : ∀ r l x, r ∉ T → g'.tab r l x = g.tab r l x
  pa : ∀ r v, r ∉ T → (g'.pt r v).map Leaf.pa = (g.pt r v).map Leaf.pa

theorem Pinned.refl (T : Set Nat) (g : Ghost) : Pinned T g g :=
  ⟨fun _ _ _ _ => rfl, fun _ _ _ => rfl⟩

theorem Pinned.trans (h : Pinned T g1 g2) (h' : Pinned T g2 g3) :
    Pinned T g1 g3 :=
  ⟨fun r l x hr => (h'.tab r l x hr).trans (h.tab r l x hr),
    fun r v hr => (h'.pa r v hr).trans (h.pa r v hr)⟩

theorem tab_eq_of_use (hg : Holds L g s) (hg' : Holds L g' s')
    (huse : ∀ pa l x, g'.use pa = .table r l x ↔ g.use pa = .table r l x) (l x : Nat) :
    g'.tab r l x = g.tab r l x := by
  refine Option.ext fun pa => ?_
  rw [hg'.tab, hg.tab, huse]

theorem Frame.pinned (h : Frame T g s g' s') (hg : Holds L g s) (hg' : Holds L g' s') :
    Pinned T g g' := by
  refine ⟨fun r l x hr => tab_eq_of_use hg hg' (fun pa l x => ?_) l x,
    fun r v hr => by rw [h.pt r v hr]⟩
  constructor
  · intro htab
    rw [← h.use pa (.inr (by rw [htab]; exact hr)), htab]
  · intro htab
    rw [h.use pa (.inl (by rw [htab]; exact hr)), htab]

/-- An operation on the user memory of the tables in `T`. -/
structure Stays (L : Layout) (T : Set Nat) (g : Ghost) (s : State) (g' : Ghost) (s' : State) :
    Prop where
  books : Books L g' s'
  frame : Frame T g s g' s'
  root : ∀ r, g'.IsRoot r ↔ g.IsRoot r
  top : ∀ r v, UPAGES ≤ v → g'.pt r v = g.pt r v

theorem Stays.refl (h : Books L g s) : Stays L T g s g s :=
  ⟨h, .refl T g s, fun _ => Iff.rfl, fun _ _ _ => rfl⟩

theorem Stays.trans {s1 s2 s3 : State} (h : Stays L T g1 s1 g2 s2) (h' : Stays L T g2 s2 g3 s3) :
    Stays L T g1 s1 g3 s3 :=
  ⟨h'.books, h.frame.trans h'.frame, fun r => (h'.root r).trans (h.root r),
    fun r v hv => (h'.top r v hv).trans (h.top r v hv)⟩

theorem Stays.mono (hsub : T ⊆ T') (h : Stays L T g s g' s') :
    Stays L T' g s g' s' :=
  ⟨h.books, h.frame.mono hsub, h.root, h.top⟩

end Xv6.Vm
