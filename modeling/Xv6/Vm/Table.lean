import Xv6.Vm.Process

/-!
# Who owns each page

A `Ghost` gives every page of allocatable memory one owner: the free list, a page table, user
memory, a trapframe, another part of the kernel, or the code that has just taken it (`hand`). It
also holds the decoded page tables and the contents of the pages that carry data. `Rep` ties it
to memory: the free list runs through exactly the free pages, and the words of every table page
are the entries the ghost says. Since one page has one owner, a write to one part of the memory
leaves every other part alone. The lemmas below say what each primitive of the kernel does to the
ghost; everything above them is stated in its terms.

Table pages are named by a root, a level and an index: the root is at level 2, the page at level
`l` and index `x` is entry `x % 512` of the page at level `l + 1` and index `x / 512`, and entry
`k` of the page at level 0 and index `x` maps the page with number `x * 512 + k`.
-/

namespace Xv6.Vm

open Function

variable {pa r x l q : Nat}

/-- The owner of a page. -/
inductive Use where
  | outside
  | free
  | hand
  | user
  | trapframe (p : Slot)
  | kernel
  | table (root level index : Nat)
  deriving DecidableEq, Repr

/-- The owners that keep data of their own in a page. -/
def Use.holdsData : Use → Bool
  | .hand | .user | .trapframe _ | .kernel => true
  | _ => false

/-- The owners of all pages, the table pages and the entries of every page table, and the
contents of the data pages. -/
structure Ghost where
  use : Nat → Use
  tab : Nat → Nat → Nat → Option Nat
  pt : Nat → Nat → Option Leaf
  data : Nat → Page

/-- The word of an inner entry. -/
def linkOf : Option Nat → BitVec 64
  | none => 0
  | some pa => link pa

/-- The word of a leaf entry. -/
def leafOf : Option Leaf → BitVec 64
  | none => 0
  | some l => l.encode

/-- The list of pages that starts at `head` and runs through the first word of each. -/
def Chain (mem : Nat → Page) : Nat → List Nat → Prop
  | head, [] => head = 0
  | head, pa :: rest => head = pa ∧ Chain mem (mem pa 0).toNat rest

variable {L : Layout}

/-- The ghost describes the memory and the free list. -/
structure Rep (L : Layout) (g : Ghost) (mem : Nat → Page) (freelist : Nat) : Prop where
  pages : ∀ pa, g.use pa ≠ .outside ↔
    pa % PGSIZE = 0 ∧ PGROUNDUP L.kend ≤ pa ∧ pa < PHYSTOP
  free : ∃ l : List Nat, Chain mem freelist l ∧ l.Nodup ∧ ∀ pa, pa ∈ l ↔ g.use pa = .free
  tab : ∀ r l x pa, g.tab r l x = some pa ↔ g.use pa = .table r l x
  top : ∀ r l x pa, g.tab r l x = some pa → l ≤ 2 ∧ (l = 2 → x = 0 ∧ pa = r)
  orphan : ∀ r l x, l < 2 → g.tab r (l + 1) (x / 512) = none → g.tab r l x = none
  inner : ∀ r l x q, g.tab r (l + 1) x = some q → ∀ j < 512,
    mem q j = linkOf (g.tab r l (x * 512 + j))
  leaf : ∀ r x q, g.tab r 0 x = some q → ∀ k < 512, mem q k = leafOf (g.pt r (x * 512 + k))
  absent : ∀ r v, g.tab r 0 (v / 512) = none → g.pt r v = none
  addr : ∀ r v l, g.pt r v = some l → PageAddr l.pa
  data : ∀ pa, (g.use pa).holdsData = true → mem pa = g.data pa

/-! ## Facts about the representation -/

theorem Chain.congr {mem mem' : Nat → Page} {head : Nat} {l : List Nat} (h : Chain mem head l)
    (hsame : ∀ pa ∈ l, mem' pa 0 = mem pa 0) : Chain mem' head l := by
  induction l generalizing head with
  | nil => exact h
  | cons pa rest ih =>
    obtain ⟨hhead, hrest⟩ := h
    refine ⟨hhead, ?_⟩
    rw [hsame pa List.mem_cons_self]
    exact ih hrest fun q hq => hsame q (List.mem_cons_of_mem _ hq)

theorem Chain.head_cases {mem : Nat → Page} {head : Nat} {l : List Nat} (h : Chain mem head l) :
    head = 0 ∨ head ∈ l := by
  cases l with
  | nil => exact .inl h
  | cons pa rest => exact .inr (h.1 ▸ List.mem_cons_self)

section Rep

variable {g : Ghost} {mem : Nat → Page} {freelist : Nat}

section

variable (h : Rep L g mem freelist)

include h

/-- Every page with an owner has an address that fits an entry, and is not null. -/
theorem Rep.page_addr (hpa : g.use pa ≠ .outside) :
    PageAddr pa ∧ L.kend ≤ pa ∧ pa ≠ 0 := by
  obtain ⟨halign, hlow, hhigh⟩ := (h.pages pa).mp hpa
  have hkend := L.kend_low
  refine ⟨⟨halign, hhigh⟩, ?_, ?_⟩
  · refine le_trans ?_ hlow
    simp only [PGROUNDUP, PGSIZE]
    omega
  · simp only [PGROUNDUP, PGSIZE, KERNBASE] at hlow hkend
    omega

theorem Rep.tab_addr (hpa : g.tab r l x = some pa) :
    PageAddr pa := by
  have huse := (h.tab r l x pa).mp hpa
  exact (h.page_addr (by rw [huse]; simp)).1

theorem Rep.tab_inj {r' l' x' : Nat} (h1 : g.tab r l x = some pa)
    (h2 : g.tab r' l' x' = some pa) : r = r' ∧ l = l' ∧ x = x' := by
  have huse := ((h.tab r l x pa).mp h1).symm.trans ((h.tab r' l' x' pa).mp h2)
  simpa using huse

theorem Rep.no_root (hr : g.tab r 2 0 = none) (l x : Nat) :
    g.tab r l x = none := by
  have htwo (x : Nat) : g.tab r 2 x = none := by
    cases hx : g.tab r 2 x with
    | none => rfl
    | some pa =>
      obtain ⟨rfl, -⟩ := (h.top r 2 x pa hx).2 rfl
      rw [hr] at hx
      exact absurd hx (by simp)
  have hone (x : Nat) : g.tab r 1 x = none := h.orphan r 1 x (by omega) (htwo _)
  cases hx : g.tab r l x with
  | none => rfl
  | some pa =>
    have hl := (h.top r l x pa hx).1
    interval_cases l
    · rw [h.orphan r 0 x (by omega) (hone _)] at hx
      exact absurd hx (by simp)
    · rw [hone] at hx
      exact absurd hx (by simp)
    · rw [htwo] at hx
      exact absurd hx (by simp)

theorem Rep.no_root_pt (hr : g.tab r 2 0 = none) (v : Nat) :
    g.pt r v = none :=
  h.absent r v (h.no_root hr _ _)

end

end Rep

/-! ## What the primitives do to the ghost -/

/-- The page is taken from the free list; `kalloc` fills it with junk. -/
def Ghost.take (g : Ghost) (pa : Nat) : Ghost :=
  { g with
    use := update g.use pa .hand
    data := update g.data pa fun _ => 0x0505050505050505 }

/-- The page goes back to the free list. -/
def Ghost.give (g : Ghost) (pa : Nat) : Ghost :=
  { g with use := update g.use pa .free }

/-- The page is filled. -/
def Ghost.fill (g : Ghost) (pa : Nat) (page : Page) : Ghost :=
  { g with data := update g.data pa page }

/-- The page changes hands. -/
def Ghost.own (g : Ghost) (pa : Nat) (u : Use) : Ghost :=
  { g with use := update g.use pa u }

/-- The entry for page number `v` changes. -/
def Ghost.map (g : Ghost) (r v : Nat) (o : Option Leaf) : Ghost :=
  { g with pt := update g.pt r (update (g.pt r) v o) }

/-- The page becomes a page of a table. -/
def Ghost.attach (g : Ghost) (r l x pa : Nat) : Ghost :=
  { g with
    use := update g.use pa (.table r l x)
    tab := fun r' l' x' => if r' = r ∧ l' = l ∧ x' = x then some pa else g.tab r' l' x' }

section Primitives

variable {g : Ghost} {mem : Nat → Page} {freelist : Nat}

theorem Rep.tab_ne (h : Rep L g mem freelist) (hpa : ∀ r l x, g.use pa ≠ .table r l x)
    (hq : g.tab r l x = some q) : q ≠ pa := by
  intro heq
  subst heq
  exact hpa r l x ((h.tab r l x q).mp hq)

theorem holds_data_not_table {u : Use} (h : u.holdsData = true) (r l x : Nat) :
    u ≠ .table r l x := by
  intro hu
  simp [hu, Use.holdsData] at h

theorem holds_data_inside {u : Use} (h : u.holdsData = true) : u ≠ .outside := by
  intro hu
  simp [hu, Use.holdsData] at h

section

variable (h : Rep L g mem freelist)

include h

theorem Rep.free_list (hne : freelist ≠ 0) :
    g.use freelist = .free := by
  obtain ⟨l, hchain, -, hmem⟩ := h.free
  obtain hzero | hin := hchain.head_cases
  · exact absurd hzero hne
  · exact (hmem _).mp hin

theorem Rep.kalloc (hne : freelist ≠ 0) :
    Rep L (g.take freelist)
      (update mem freelist fun _ => 0x0505050505050505) (mem freelist 0).toNat := by
  have huse := h.free_list hne
  have htab : ∀ {r l x q}, g.tab r l x = some q → q ≠ freelist := h.tab_ne (by simp [huse])
  refine ⟨?_, ?_, ?_, h.top, h.orphan, ?_, ?_, h.absent, h.addr, ?_⟩
  · intro pa
    rw [← h.pages pa]
    simp only [Ghost.take, update_apply]
    grind
  · obtain ⟨l, hchain, hnodup, hmem⟩ := h.free
    cases l with
    | nil => exact absurd hchain hne
    | cons pa rest =>
      obtain ⟨rfl, hrest⟩ := hchain
      have hout := List.nodup_cons.mp hnodup
      refine ⟨rest, hrest.congr ?_, hout.2, ?_⟩
      · intro q hq
        rw [update_of_ne (by grind)]
      · intro q
        have := hmem q
        simp only [Ghost.take, update_apply]
        grind
  · intro r l x pa
    have := h.tab r l x pa
    simp only [Ghost.take, update_apply]
    grind
  · intro r l x q hq j hj
    rw [update_of_ne (htab hq)]
    exact h.inner r l x q hq j hj
  · intro r x q hq k hk
    rw [update_of_ne (htab hq)]
    exact h.leaf r x q hq k hk
  · intro pa hpa
    have := h.data pa
    simp only [Ghost.take, update_apply] at hpa ⊢
    grind

theorem Rep.kfree (hpa : (g.use pa).holdsData = true) :
    Rep L (g.give pa) (update mem pa fun i =>
      if i = 0 then BitVec.ofNat 64 freelist else 0x0101010101010101) pa := by
  have hout := holds_data_inside hpa
  have hnotfree : g.use pa ≠ .free := by
    intro hu
    simp [hu, Use.holdsData] at hpa
  have htab : ∀ {r l x q}, g.tab r l x = some q → q ≠ pa := h.tab_ne (holds_data_not_table hpa)
  refine ⟨?_, ?_, ?_, h.top, h.orphan, ?_, ?_, h.absent, h.addr, ?_⟩
  · intro q
    rw [← h.pages q]
    simp only [Ghost.give, update_apply]
    grind
  · obtain ⟨l, hchain, hnodup, hmem⟩ := h.free
    have hhead : (BitVec.ofNat 64 freelist).toNat = freelist := by
      rw [BitVec.toNat_ofNat]
      apply Nat.mod_eq_of_lt
      obtain hzero | hin := hchain.head_cases
      · rw [hzero]; decide
      · have hbound :=
          (h.page_addr (show g.use freelist ≠ .outside by rw [(hmem _).mp hin]; simp)).1.bound
        exact lt_trans hbound (by decide)
    have hnew : pa ∉ l := fun hin => hnotfree ((hmem pa).mp hin)
    refine ⟨pa :: l, ⟨rfl, ?_⟩, List.nodup_cons.mpr ⟨hnew, hnodup⟩, ?_⟩
    · simp only [update_self, if_true, hhead]
      refine hchain.congr fun q hq => ?_
      rw [update_of_ne (by rintro rfl; exact hnew hq)]
    · intro q
      have := hmem q
      simp only [Ghost.give, update_apply, List.mem_cons]
      grind
  · intro r l x q
    have := h.tab r l x q
    have := holds_data_not_table hpa r l x
    simp only [Ghost.give, update_apply]
    grind
  · intro r l x q hq j hj
    rw [update_of_ne (htab hq)]
    exact h.inner r l x q hq j hj
  · intro r x q hq k hk
    rw [update_of_ne (htab hq)]
    exact h.leaf r x q hq k hk
  · intro q hq
    have := h.data q
    simp only [Ghost.give, update_apply] at hq ⊢
    grind [Use.holdsData]

theorem Rep.fill (hpa : (g.use pa).holdsData = true) (page : Page) :
    Rep L (g.fill pa page) (update mem pa page) freelist := by
  have hnotfree : g.use pa ≠ .free := by
    intro hu
    simp [hu, Use.holdsData] at hpa
  have htab : ∀ {r l x q}, g.tab r l x = some q → q ≠ pa := h.tab_ne (holds_data_not_table hpa)
  refine ⟨h.pages, ?_, h.tab, h.top, h.orphan, ?_, ?_, h.absent, h.addr, ?_⟩
  · obtain ⟨l, hchain, hnodup, hmem⟩ := h.free
    refine ⟨l, hchain.congr fun q hq => ?_, hnodup, hmem⟩
    rw [update_of_ne]
    rintro rfl
    exact hnotfree ((hmem _).mp hq)
  · intro r l x q hq j hj
    rw [update_of_ne (htab hq)]
    exact h.inner r l x q hq j hj
  · intro r x q hq k hk
    rw [update_of_ne (htab hq)]
    exact h.leaf r x q hq k hk
  · intro q hq
    have := h.data q hq
    simp only [Ghost.fill, update_apply]
    grind

theorem Rep.own {u : Use} (hpa : (g.use pa).holdsData = true)
    (hu : u.holdsData = true) :
    Rep L (g.own pa u) mem freelist := by
  refine ⟨?_, ?_, ?_, h.top, h.orphan, h.inner, h.leaf, h.absent, h.addr, ?_⟩
  · intro q
    rw [← h.pages q]
    simp only [Ghost.own, update_apply]
    grind [Use.holdsData]
  · obtain ⟨l, hchain, hnodup, hmem⟩ := h.free
    refine ⟨l, hchain, hnodup, ?_⟩
    intro q
    have := hmem q
    simp only [Ghost.own, update_apply]
    grind [Use.holdsData]
  · intro r l x q
    have := h.tab r l x q
    have := holds_data_not_table hpa r l x
    have := holds_data_not_table hu r l x
    simp only [Ghost.own, update_apply]
    grind
  · intro q hq
    have := h.data q
    simp only [Ghost.own, update_apply] at hq ⊢
    grind

theorem Rep.map {k : Nat} (hq : g.tab r 0 x = some q) (hk : k < 512)
    {o : Option Leaf} (ho : ∀ l, o = some l → PageAddr l.pa) :
    Rep L (g.map r (x * 512 + k) o)
      (update mem q (update (mem q) k (leafOf o))) freelist := by
  have huse := (h.tab r 0 x q).mp hq
  refine ⟨h.pages, ?_, h.tab, h.top, h.orphan, ?_, ?_, ?_, ?_, ?_⟩
  · obtain ⟨l, hchain, hnodup, hmem⟩ := h.free
    refine ⟨l, hchain.congr fun q' hq' => ?_, hnodup, hmem⟩
    rw [update_of_ne]
    rintro rfl
    simp [(hmem _).mp hq'] at huse
  · intro r' l x' q' hq' j hj
    have hne : q' ≠ q := by
      rintro rfl
      have hsame := h.tab_inj hq hq'
      omega
    rw [update_of_ne hne]
    exact h.inner r' l x' q' hq' j hj
  · intro r' x' q' hq' j hj
    by_cases hqq : q' = q
    · subst hqq
      obtain ⟨rfl, -, rfl⟩ := h.tab_inj hq hq'
      have hleaf := h.leaf r x q' hq j hj
      simp only [Ghost.map, update_self]
      by_cases hjk : j = k
      · subst hjk
        simp
      · have hne : x * 512 + j ≠ x * 512 + k := by omega
        rw [update_of_ne hjk, update_of_ne hne, hleaf]
    · have hleaf := h.leaf r' x' q' hq' j hj
      rw [update_of_ne hqq, hleaf]
      congr 1
      simp only [Ghost.map]
      by_cases hrr : r' = r
      · subst hrr
        have hne : x' * 512 + j ≠ x * 512 + k := by
          intro heq
          obtain rfl : x' = x := by omega
          have hold : g.tab r' 0 x' = some q' := hq'
          rw [hq] at hold
          exact hqq (Option.some.inj hold).symm
        rw [update_self, update_of_ne hne]
      · rw [update_of_ne hrr]
  · intro r' v hv
    have hold := h.absent r' v hv
    simp only [Ghost.map] at hv ⊢
    by_cases hrr : r' = r
    · subst hrr
      have hne : v ≠ x * 512 + k := by
        rintro rfl
        rw [show (x * 512 + k) / 512 = x by omega, hq] at hv
        exact absurd hv (by simp)
      rw [update_self, update_of_ne hne, hold]
    · rw [update_of_ne hrr, hold]
  · intro r' v l hl
    have hold := h.addr r' v l
    simp only [Ghost.map, update_apply] at hl
    grind
  · intro pa hpa
    have hne : pa ≠ q := by
      rintro rfl
      simp only [Ghost.map, huse, Use.holdsData] at hpa
      exact absurd hpa (by simp)
    rw [update_of_ne hne]
    exact h.data pa hpa

/-- An empty page becomes the next table below entry `x % 512` of an inner page. -/
theorem Rep.attach (hl : l < 2) (hq : g.tab r (l + 1) (x / 512) = some q)
    (hnone : g.tab r l x = none) (hpa : g.use pa = .hand) (hzero : g.data pa = fun _ => 0) :
    Rep L (g.attach r l x pa)
      (update mem q (update (mem q) (x % 512) (link pa))) freelist := by
  have huse := (h.tab _ _ _ _).mp hq
  have hqpa : q ≠ pa := by
    rintro rfl
    simp [hpa] at huse
  have hmem : mem pa = fun _ => 0 := by rw [h.data pa (by simp [hpa, Use.holdsData]), hzero]
  -- a new page has no pages below it
  have hbelow : ∀ j, l = 1 → j < 512 → g.tab r 0 (x * 512 + j) = none := by
    intro j hl1 hj
    subst hl1
    exact h.orphan r 0 _ (by omega) (by rwa [show (x * 512 + j) / 512 = x by omega])
  refine ⟨?_, ?_, ?_, ?_, ?_, ?_, ?_, ?_, h.addr, ?_⟩
  · intro p
    rw [← h.pages p]
    simp only [Ghost.attach, update_apply]
    grind
  · obtain ⟨fl, hchain, hnodup, hfree⟩ := h.free
    refine ⟨fl, hchain.congr fun p hp => ?_, hnodup, ?_⟩
    · rw [update_of_ne]
      rintro rfl
      simp [(hfree _).mp hp] at huse
    · intro p
      have := hfree p
      simp only [Ghost.attach, update_apply]
      grind
  · intro r' l' x' p
    have := h.tab r' l' x' p
    simp only [Ghost.attach, update_apply]
    grind
  · intro r' l' x' p hp
    have := h.top r' l' x' p
    simp only [Ghost.attach] at hp
    grind
  · intro r' l' x' hl' hp
    have := h.orphan r' l' x' hl'
    simp only [Ghost.attach] at hp ⊢
    grind
  · intro r' l' x' p hp j hj
    simp only [Ghost.attach] at hp ⊢
    by_cases hp' : p = pa
    · subst hp'
      have hnew : ¬ g.tab r' (l' + 1) x' = some p := by
        intro hold
        rw [(h.tab _ _ _ _).mp hold] at hpa
        exact absurd hpa (by simp)
      have hplace : r' = r ∧ l' + 1 = l ∧ x' = x := by
        by_contra hno
        rw [if_neg hno] at hp
        exact hnew hp
      obtain ⟨rfl, hll, rfl⟩ := hplace
      obtain rfl : l' = 0 := by omega
      rw [update_of_ne hqpa.symm, hmem, if_neg (by omega), hbelow j (by omega) hj]
      rfl
    · have hold : g.tab r' (l' + 1) x' = some p := by
        by_cases hplace : r' = r ∧ l' + 1 = l ∧ x' = x
        · rw [if_pos hplace] at hp
          exact absurd (Option.some.inj hp).symm hp'
        · rwa [if_neg hplace] at hp
      have hinner := h.inner r' l' x' p hold j hj
      by_cases hpq : p = q
      · subst hpq
        obtain ⟨rfl, hll, rfl⟩ := h.tab_inj hold hq
        obtain rfl : l' = l := by omega
        rw [update_self]
        by_cases hjx : j = x % 512
        · rw [if_pos ⟨rfl, rfl, by omega⟩, hjx, update_self]
          rfl
        · rw [if_neg (by omega), update_of_ne hjx, hinner]
      · rw [update_of_ne hpq, hinner]
        by_cases hplace : r' = r ∧ l' = l ∧ x' * 512 + j = x
        · obtain ⟨rfl, rfl, rfl⟩ := hplace
          rw [show (x' * 512 + j) / 512 = x' by omega, hold] at hq
          exact absurd (Option.some.inj hq) hpq
        · rw [if_neg hplace]
  · intro r' x' p hp k hk
    simp only [Ghost.attach] at hp ⊢
    by_cases hp' : p = pa
    · subst hp'
      have hplace : r' = r ∧ 0 = l ∧ x' = x := by
        by_contra hno
        rw [if_neg hno] at hp
        rw [(h.tab _ _ _ _).mp hp] at hpa
        exact absurd hpa (by simp)
      obtain ⟨rfl, rfl, rfl⟩ := hplace
      rw [update_of_ne hqpa.symm, hmem,
        h.absent r' (x' * 512 + k) (by rwa [show (x' * 512 + k) / 512 = x' by omega])]
      rfl
    · have hold : g.tab r' 0 x' = some p := by
        by_cases hplace : r' = r ∧ 0 = l ∧ x' = x
        · rw [if_pos hplace] at hp
          exact absurd (Option.some.inj hp).symm hp'
        · rwa [if_neg hplace] at hp
      have hpq : p ≠ q := by
        rintro rfl
        have hsame := h.tab_inj hold hq
        omega
      rw [update_of_ne hpq]
      exact h.leaf r' x' p hold k hk
  · intro r' v hv
    refine h.absent r' v ?_
    simp only [Ghost.attach] at hv
    grind
  · intro p hp
    have hppa : p ≠ pa := by
      rintro rfl
      simp [Ghost.attach, Use.holdsData] at hp
    simp only [Ghost.attach, update_of_ne hppa] at hp
    have hpq : p ≠ q := by
      rintro rfl
      simp [huse, Use.holdsData] at hp
    rw [update_of_ne hpq]
    exact h.data p hp

theorem Rep.new_root (hpa : g.use pa = .hand)
    (hzero : g.data pa = fun _ => 0) : Rep L (g.attach pa 2 0 pa) mem freelist := by
  have hmem : mem pa = fun _ => 0 := by rw [h.data pa (by simp [hpa, Use.holdsData]), hzero]
  have hroot : g.tab pa 2 0 = none := by
    cases hx : g.tab pa 2 0 with
    | none => rfl
    | some q =>
      obtain ⟨-, rfl⟩ := (h.top pa 2 0 q hx).2 rfl
      rw [(h.tab _ _ _ _).mp hx] at hpa
      exact absurd hpa (by simp)
  have hnone := h.no_root hroot
  have hold : ∀ {r l x q}, g.tab r l x = some q → q ≠ pa ∧ r ≠ pa := by
    intro r l x q hq
    refine ⟨h.tab_ne (by simp [hpa]) hq, ?_⟩
    rintro rfl
    rw [hnone] at hq
    exact absurd hq (by simp)
  refine ⟨?_, ?_, ?_, ?_, ?_, ?_, ?_, ?_, h.addr, ?_⟩
  · intro p
    rw [← h.pages p]
    simp only [Ghost.attach, update_apply]
    grind
  · obtain ⟨fl, hchain, hnodup, hfree⟩ := h.free
    refine ⟨fl, hchain, hnodup, ?_⟩
    intro p
    have := hfree p
    simp only [Ghost.attach, update_apply]
    grind
  · intro r l x p
    have := h.tab r l x p
    have := hnone l x
    simp only [Ghost.attach, update_apply]
    grind
  · intro r l x p hp
    have := h.top r l x p
    simp only [Ghost.attach] at hp
    grind
  · intro r l x hl hp
    have := h.orphan r l x hl
    simp only [Ghost.attach] at hp ⊢
    grind
  · intro r l x p hp j hj
    simp only [Ghost.attach] at hp ⊢
    by_cases hplace : r = pa ∧ l + 1 = 2 ∧ x = 0
    · obtain ⟨rfl, hl, rfl⟩ := hplace
      obtain rfl : l = 1 := by omega
      rw [if_pos ⟨rfl, rfl, rfl⟩] at hp
      obtain rfl := Option.some.inj hp
      rw [if_neg (by omega), hmem, hnone]
      rfl
    · rw [if_neg hplace] at hp
      rw [h.inner r l x p hp j hj, if_neg (by have := (hold hp).2; grind)]
  · intro r x p hp k hk
    simp only [Ghost.attach] at hp ⊢
    rw [if_neg (by omega)] at hp
    exact h.leaf r x p hp k hk
  · intro r v hv
    refine h.absent r v ?_
    simp only [Ghost.attach] at hv
    grind
  · intro p hp
    have hppa : p ≠ pa := by
      rintro rfl
      simp [Ghost.attach, Use.holdsData] at hp
    simp only [Ghost.attach, update_of_ne hppa] at hp
    exact h.data p hp

end

end Primitives

/-- The number of free pages. -/
noncomputable def Ghost.nfree (g : Ghost) : Nat := Set.ncard {pa | g.use pa = .free}

theorem nfree_eq_length {g : Ghost} {l : List Nat} (hmem : ∀ pa, pa ∈ l ↔ g.use pa = .free)
    (hnodup : l.Nodup) : g.nfree = l.length := by
  have hset : {pa | g.use pa = .free} = (l.toFinset : Set Nat) := by
    ext pa
    simp [hmem pa]
  rw [Ghost.nfree, hset, Set.ncard_coe_finset, List.toFinset_card_of_nodup hnodup]

theorem Rep.nfree_zero {g : Ghost} {mem : Nat → Page} (h : Rep L g mem 0) : g.nfree = 0 := by
  obtain ⟨l, hchain, hnodup, hmem⟩ := h.free
  rw [nfree_eq_length hmem hnodup]
  cases l with
  | nil => rfl
  | cons pa rest =>
    have huse := (hmem pa).mp List.mem_cons_self
    exact absurd hchain.1.symm (h.page_addr (by rw [huse]; simp)).2.2

theorem Rep.nfree_update {g : Ghost} {mem : Nat → Page} {freelist : Nat} (h : Rep L g mem freelist)
    (hpa : g.use pa = .free) {u : Use} (hu : u ≠ .free) :
    Set.ncard {q | update g.use pa u q = .free} + 1 = g.nfree := by
  obtain ⟨l, -, -, hmem⟩ := h.free
  have hfinite : {q | g.use q = .free}.Finite := by
    refine (l.toFinset.finite_toSet).subset ?_
    intro q hq
    simpa using (hmem q).mpr hq
  have hset : {q | update g.use pa u q = .free} = {q | g.use q = .free} \ {pa} := by
    ext q
    simp only [Set.mem_ofPred_eq, Set.mem_sdiff, Set.mem_singleton_iff, update_apply]
    grind
  rw [hset, Ghost.nfree]
  exact Set.ncard_sdiff_singleton_add_one (by simpa using hpa) hfinite

/-! ## Specifications of the primitives -/

/-- The ghost describes a state. -/
abbrev Holds (L : Layout) (g : Ghost) (s : State) : Prop := Rep L g s.mem s.freelist

/-- Everything outside physical memory and the allocator is as before. -/
structure SameBooks (s s' : State) : Prop where
  pgref : s'.pgref = s.pgref
  proc : s'.proc = s.proc
  held : s'.held = s.held
  granted : s'.granted = s.granted

theorem SameBooks.refl (s : State) : SameBooks s s := ⟨rfl, rfl, rfl, rfl⟩

theorem SameBooks.trans {s1 s2 s3 : State} (h : SameBooks s1 s2) (h' : SameBooks s2 s3) :
    SameBooks s1 s3 :=
  ⟨h'.pgref.trans h.pgref, h'.proc.trans h.proc, h'.held.trans h.held, h'.granted.trans h.granted⟩

section Specs

variable {g : Ghost} {s : State} {E : Fault → Prop}

/-- `kalloc` either fails and is counted, or hands over a free page. -/
theorem wp_kalloc (h : Holds L g s) :
    wp kalloc E (fun pa s' => SameBooks s s' ∧
      (pa = 0 ∧ g.nfree = 0 ∧ Holds L g s' ∧ s'.failed = s.failed + 1 ∨
        pa ≠ 0 ∧ g.use pa = .free ∧ Holds L (g.take pa) s' ∧ s'.failed = s.failed)) s := by
  simp only [kalloc, setPage, wp_bind, wp_get, wp_ite, wp_set, wp_modify, wp_pure]
  refine ⟨fun hzero => ?_, fun hne => ?_⟩
  · have hempty : Rep L g s.mem 0 := by rw [← hzero]; exact h
    have hnone := hempty.nfree_zero
    exact ⟨⟨rfl, rfl, rfl, rfl⟩, .inl ⟨trivial, hnone, h, trivial⟩⟩
  · exact ⟨⟨rfl, rfl, rfl, rfl⟩, .inr ⟨hne, h.free_list hne, h.kalloc hne, trivial⟩⟩

section

variable (h : Holds L g s) (hpa : (g.use pa).holdsData = true)

include h hpa

theorem wp_kfree :
    wp (kfree L pa) E (fun _ s' => SameBooks s s' ∧ s'.failed = s.failed ∧
      Holds L (g.give pa) s') s := by
  have haddr := h.page_addr (holds_data_inside hpa)
  have hok : ¬ (pa % PGSIZE ≠ 0 ∨ pa < L.kend ∨ PHYSTOP ≤ pa) := by
    have := haddr.1.aligned
    have := haddr.1.bound
    have := haddr.2.1
    omega
  simp only [kfree, if_neg hok, setPage, wp_bind, wp_get, wp_modify]
  exact ⟨⟨rfl, rfl, rfl, rfl⟩, trivial, h.kfree hpa⟩

theorem wp_set_page (page : Page) :
    wp (setPage pa page) E (fun _ s' => SameBooks s s' ∧ s'.failed = s.failed ∧
      Holds L (g.fill pa page) s') s := by
  simp only [setPage, wp_modify]
  exact ⟨⟨rfl, rfl, rfl, rfl⟩, trivial, h.fill hpa page⟩

theorem wp_memmove {o : Nat}
    (bytes : List Byte) :
    wp (memmove pa o bytes) E (fun _ s' => SameBooks s s' ∧ s'.failed = s.failed ∧
      Holds L (g.fill pa (withPageBytes (g.data pa) o bytes)) s') s := by
  simp only [memmove, wp_modify]
  refine ⟨⟨rfl, rfl, rfl, rfl⟩, trivial, ?_⟩
  rw [h.data pa hpa]
  exact h.fill hpa _

end

end Specs

end Xv6.Vm
