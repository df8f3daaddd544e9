import Xv6.Vm.Copyinstr
import Xv6.Vm.ForkFailure

/-!
# Where every page is

The invariant `Sys` speaks about a ghost. Here it is read back from the words in memory: which
entries the page tables of the processes hold, which pages those tables consist of, what the
reference counts say and who has each page above the kernel.
-/

namespace Xv6.Vm

variable {L : Layout} {g : Ghost} {s : State}

/-! ## The entries in memory -/

/-- The valid entry for page number `v` that `walk` finds in table `r`. -/
def entryAt (s : State) (r v : Nat) : Option Pte :=
  (lookupFrom s.mem (v * PGSIZE) 2 r).filter (hasFlag · PTE_V)

theorem entry_at_eq (h : Holds L g s) {r v : Nat} (hr : g.IsRoot r) (hv : v * PGSIZE < MAXVA) :
    entryAt s r v = (g.pt r v).map Leaf.encode := by
  have hlookup := lookup_of_holds h hr hv
  rw [Nat.mul_div_cancel v (show 0 < PGSIZE by decide)] at hlookup
  rcases hlookup with ⟨hnone, hpt⟩ | hsome
  · rw [entryAt, hnone, hpt]
    rfl
  · rw [entryAt, hsome]
    cases hl : g.pt r v with
    | none => exact Option.filter_some_neg (by rw [leafOf, has_flag_zero])
    | some l => exact Option.filter_some_pos (encode_has_v (h.addr r v l hl))

/-- Slot `p` is in use and maps the page `pa` at page number `v` of user memory. -/
def MapsPage (s : State) (pa : Nat) (p : Slot) (v : Nat) : Prop :=
  (s.proc p).state ≠ .unused ∧ v < UPAGES ∧
    ∃ pte, entryAt s (s.proc p).pagetable v = some pte ∧ PTE2PA pte = pa

theorem maps_page_iff (h : Sys L g s) {pa v : Nat} {p : Slot} :
    MapsPage s pa p v ↔
      (s.proc p).state ≠ .unused ∧ ((s.proc p).pagetable, v) ∈ g.maps pa := by
  refine and_congr_right fun hp => ?_
  rw [mem_maps]
  refine and_congr_right fun hv => ?_
  have hholds := h.books.holds
  rw [entry_at_eq hholds (h.slot p hp).root (page_va_lt hv)]
  simp only [Option.map_eq_some_iff]
  constructor
  · rintro ⟨_, ⟨l, hl, rfl⟩, hpa⟩
    exact ⟨l, hl, (encode_pa (hholds.addr _ _ l hl)).symm.trans hpa⟩
  · rintro ⟨l, hl, rfl⟩
    exact ⟨_, ⟨l, hl, rfl⟩, encode_pa (hholds.addr _ _ l hl)⟩

theorem Rep.root_of_pt (h : Holds L g s) {r v : Nat} {l : Leaf} (hl : g.pt r v = some l) :
    g.IsRoot r := by
  have htable : g.tab r 0 (v / 512) ≠ none := fun hno => by
    rw [h.absent r v hno] at hl
    cases hl
  cases hroot : g.tab r 2 0 with
  | none => exact absurd (h.no_root hroot 0 (v / 512)) htable
  | some pa =>
    obtain ⟨-, rfl⟩ := (h.top r 2 0 pa hroot).2 rfl
    exact hroot

/-- Every entry that maps a page belongs to a slot in use. -/
theorem Sys.maps_eq_image (h : Sys L g s) (pa : Nat) :
    g.maps pa = (fun e : Slot × Nat => ((s.proc e.1).pagetable, e.2)) ''
      {e | MapsPage s pa e.1 e.2} := by
  ext ⟨r, v⟩
  simp only [Set.mem_image, Set.mem_ofPred_eq, Prod.exists, Prod.mk.injEq, maps_page_iff h]
  constructor
  · intro hmaps
    obtain ⟨-, l, hl, -⟩ := mem_maps.mp hmaps
    obtain ⟨p, hp, rfl⟩ := h.roots r (h.books.holds.root_of_pt hl)
    exact ⟨p, v, ⟨hp, hmaps⟩, rfl, rfl⟩
  · rintro ⟨p, _, ⟨-, hmaps⟩, rfl, rfl⟩
    exact hmaps

theorem Sys.pgref_eq (h : Sys L g s) {pa : Nat} (hpa : pa % PGSIZE = 0) :
    s.pgref (pa / PGSIZE) = ({e | MapsPage s pa e.1 e.2} : Set (Slot × Nat)).ncard := by
  rw [h.books.counted.refs, page_number_mul hpa, h.maps_eq_image, Set.InjOn.ncard_image]
  rintro ⟨p, v⟩ hp ⟨q, w⟩ hq heq
  obtain ⟨htable, rfl⟩ := Prod.mk.inj heq
  rw [h.distinct p q hp.1 hq.1 htable]

/-! ## The table pages -/

/-- The pages that the table `r` consists of, with their levels. -/
inductive TablePage (mem : Nat → Page) (r : Nat) : Nat → Nat → Prop where
  | root : TablePage mem r 2 r
  | child {level q j : Nat} (h : TablePage mem r (level + 1) q) (hj : j < 512)
      (hvalid : hasFlag (mem q j) PTE_V = true) : TablePage mem r level (PTE2PA (mem q j))

theorem TablePage.use (h : Holds L g s) {r level pa : Nat} (hr : g.IsRoot r)
    (hpage : TablePage s.mem r level pa) : ∃ x, g.tab r level x = some pa := by
  induction hpage with
  | root => exact ⟨0, hr⟩
  | @child level q j _ hj hvalid ih =>
    obtain ⟨x, hx⟩ := ih
    have hword := h.inner r level x q hx j hj
    cases hkid : g.tab r level (x * 512 + j) with
    | none =>
      rw [hword, hkid, linkOf, has_flag_zero] at hvalid
      cases hvalid
    | some kid =>
      rw [hword, hkid, linkOf, link_pa (h.tab_addr hkid)]
      exact ⟨_, hkid⟩

theorem TablePage.of_tab (h : Holds L g s) {r level x pa : Nat} (htab : g.tab r level x = some pa) :
    TablePage s.mem r level pa := by
  have hbound := (h.top r level x pa htab).1
  -- from the root down: every page below it is the target of a link
  have hlink : ∀ {level x pa : Nat}, level < 2 → g.tab r level x = some pa →
      (∀ {x q}, g.tab r (level + 1) x = some q → TablePage s.mem r (level + 1) q) →
      TablePage s.mem r level pa := by
    intro level x pa hlevel htab ih
    cases hparent : g.tab r (level + 1) (x / 512) with
    | none =>
      rw [h.orphan r level x hlevel hparent] at htab
      cases htab
    | some q =>
      have hj : x % 512 < 512 := Nat.mod_lt x (by decide)
      have hword := h.inner r level (x / 512) q hparent (x % 512) hj
      rw [Nat.div_add_mod', htab, linkOf] at hword
      have haddr := h.tab_addr htab
      have hbelow := (ih hparent).child hj (by rw [hword]; exact link_has_v haddr)
      rwa [hword, link_pa haddr] at hbelow
  have htop : ∀ {x q}, g.tab r 2 x = some q → TablePage s.mem r 2 q := by
    intro x q hq
    obtain ⟨-, rfl⟩ := (h.top r 2 x q hq).2 rfl
    exact .root
  have hmiddle : ∀ {x q}, g.tab r 1 x = some q → TablePage s.mem r 1 q :=
    fun hq => hlink (by decide) hq htop
  interval_cases level
  · exact hlink (by decide) htab hmiddle
  · exact hmiddle htab
  · exact htop htab

/-! ## The owners -/

/-- Who can have a page. -/
inductive Owner where
  | freeList
  | user
  | trapframe (p : Slot)
  | pagetable (p : Slot)
  | kernel
  deriving DecidableEq, Repr

/-- What it means to have a page, in terms of the machine's own state. -/
def Owns (s : State) (pa : Nat) : Owner → Prop
  | .freeList => OnFreeList s pa
  | .user => ∃ p v, MapsPage s pa p v
  | .trapframe p => (s.proc p).state ≠ .unused ∧ (s.proc p).trapframe = pa
  | .pagetable p => (s.proc p).state ≠ .unused ∧
      ∃ level, TablePage s.mem (s.proc p).pagetable level pa
  | .kernel => pa ∈ s.held

/-- The owner that the ghost knows, for a system between events. -/
def Owner.Is (s : State) (u : Use) : Owner → Prop
  | .freeList => u = .free
  | .user => u = .user
  | .trapframe p => u = .trapframe p
  | .pagetable p => (s.proc p).state ≠ .unused ∧ ∃ l x, u = .table (s.proc p).pagetable l x
  | .kernel => u = .kernel

theorem Sys.owns_iff (h : Sys L g s) (pa : Nat) (o : Owner) : Owns s pa o ↔ o.Is s (g.use pa) := by
  have hholds := h.books.holds
  cases o with
  | freeList => exact on_free_list_iff hholds
  | user =>
    show (∃ p v, MapsPage s pa p v) ↔ _
    rw [Owner.Is, h.books.counted.user pa, h.maps_eq_image, Set.image_nonempty]
    constructor
    · rintro ⟨p, v, hmaps⟩
      exact ⟨(p, v), hmaps⟩
    · rintro ⟨e, hmaps⟩
      exact ⟨e.1, e.2, hmaps⟩
  | trapframe p =>
    refine ⟨?_, h.frames pa p⟩
    rintro ⟨hp, rfl⟩
    exact (h.slot p hp).frame
  | pagetable p =>
    refine and_congr_right fun hp => exists_congr fun level => ?_
    constructor
    · intro hpage
      obtain ⟨x, hx⟩ := hpage.use hholds (h.slot p hp).root
      exact ⟨x, (hholds.tab _ _ x pa).mp hx⟩
    · rintro ⟨x, hx⟩
      exact .of_tab hholds ((hholds.tab _ _ x pa).mpr hx)
  | kernel => exact (h.held pa).symm

/-- Between events the ghost's owner of a page above the kernel is one of these, and only one. -/
theorem Sys.owner_unique (h : Sys L g s) {pa : Nat} (hpa : g.use pa ≠ .outside) :
    ∃! o : Owner, o.Is s (g.use pa) := by
  cases huse : g.use pa with
  | outside => exact absurd huse hpa
  | hand => exact absurd huse (h.hand pa)
  | free => exact ⟨.freeList, rfl, fun o ho => by cases o <;> simp_all [Owner.Is]⟩
  | user => exact ⟨.user, rfl, fun o ho => by cases o <;> simp_all [Owner.Is]⟩
  | kernel => exact ⟨.kernel, rfl, fun o ho => by cases o <;> simp_all [Owner.Is]⟩
  | trapframe p => exact ⟨.trapframe p, rfl, fun o ho => by cases o <;> simp_all [Owner.Is]⟩
  | table r l x =>
    have htab := (h.books.holds.tab r l x pa).mpr huse
    have hroot : g.IsRoot r := by
      cases hno : g.tab r 2 0 with
      | none =>
        rw [h.books.holds.no_root hno l x] at htab
        cases htab
      | some q =>
        obtain ⟨-, rfl⟩ := (h.books.holds.top r 2 0 q hno).2 rfl
        exact hno
    obtain ⟨p, hp, rfl⟩ := h.roots r hroot
    refine ⟨.pagetable p, ⟨hp, l, x, rfl⟩, fun o ho => ?_⟩
    cases o with
    | pagetable q =>
      obtain ⟨hq, l', x', heq⟩ := ho
      rw [h.distinct p q hp hq (Use.table.inj heq).1]
    | _ => simp [Owner.Is] at ho

/-- Page accounting over whole runs. In every state that the system reaches, every page between
the kernel and `PHYSTOP` has exactly one owner and no other page has one; the free list runs
through its pages once; and the reference count of a page is the number of user entries of slots
in use that map it. -/
theorem pages_accounted (hrun : Reachable (Booted L) Admits (step L) s) :
    (∀ pa, pa % PGSIZE = 0 → PGROUNDUP L.kend ≤ pa → pa < PHYSTOP → ∃! o, Owns s pa o) ∧
      (∀ pa o, Owns s pa o → pa % PGSIZE = 0 ∧ PGROUNDUP L.kend ≤ pa ∧ pa < PHYSTOP) ∧
      (∃ l, Chain s.mem s.freelist l ∧ l.Nodup) ∧
      ∀ pa, pa % PGSIZE = 0 →
        s.pgref (pa / PGSIZE) = ({e | MapsPage s pa e.1 e.2} : Set (Slot × Nat)).ncard := by
  obtain ⟨g, h⟩ := sys_of_reachable hrun
  have hholds := h.books.holds
  refine ⟨fun pa halign hlow hhigh => ?_, fun pa o ho => ?_, ?_, fun pa hpa => h.pgref_eq hpa⟩
  · simp only [h.owns_iff]
    exact h.owner_unique ((hholds.pages pa).mpr ⟨halign, hlow, hhigh⟩)
  · refine (hholds.pages pa).mp fun hout => ?_
    have his := (h.owns_iff pa o).mp ho
    rw [hout] at his
    cases o <;> simp [Owner.Is] at his
  · obtain ⟨l, hchain, hnodup, -⟩ := hholds.free
    exact ⟨l, hchain, hnodup⟩

/-- After a fork two processes map the page of the program. -/
theorem pages_accounted_forked : (∃! o, Owns forked (PHYSTOP - 5 * PGSIZE) o) ∧
    forked.pgref ((PHYSTOP - 5 * PGSIZE) / PGSIZE) = 2 ∧
    ({e | MapsPage forked (PHYSTOP - 5 * PGSIZE) e.1 e.2} : Set (Slot × Nat)).ncard = 2 := by
  obtain ⟨howner, -, -, hcount⟩ := pages_accounted forked_reachable
  have htwo : forked.pgref ((PHYSTOP - 5 * PGSIZE) / PGSIZE) = 2 := by decide +kernel
  have hmaps := hcount (PHYSTOP - 5 * PGSIZE) (by decide)
  rw [htwo] at hmaps
  exact ⟨howner _ (by decide) (by decide) (by decide), htwo, by exact_mod_cast hmaps.symm⟩

/-! ## The shape of an address space -/

/-- The entries above user memory: the trapframe of the slot, for the kernel to read and write,
and the trampoline, for the kernel to execute. -/
structure TopMapped (L : Layout) (s : State) (p : Slot) : Prop where
  trapframe : entryAt s (s.proc p).pagetable (TRAPFRAME / PGSIZE) =
    some (Leaf.encode ⟨(s.proc p).trapframe, true, false, false, false⟩)
  trampoline : entryAt s (s.proc p).pagetable (TRAMPOLINE / PGSIZE) =
    some (Leaf.encode ⟨L.trampoline, false, true, false, false⟩)

/-- In every state that the system reaches, the user entries of a slot in use are those of the
pages below its size, with the trapframe and the trampoline above; and the next event stops the
kernel only if it is a user store beyond `MAXVA`. -/
theorem address_space_shape (hrun : Reachable (Booted L) Admits (step L) s) :
    (∀ p, (s.proc p).state ≠ .unused → TopMapped L s p ∧
      ∀ v < UPAGES, (entryAt s (s.proc p).pagetable v).isSome ↔ v < npages (s.proc p).sz) ∧
      ∀ e f, Admits s e → step L e s = .error f →
        f = .panic "walk" ∧ ∃ p va b, e = .store p va b ∧ MAXVA ≤ va := by
  obtain ⟨g, h⟩ := sys_of_reachable hrun
  have hholds := h.books.holds
  refine ⟨fun p hp => ?_, fun e f hadmits hfault => ?_⟩
  · have hslot := h.slot p hp
    refine ⟨⟨?_, ?_⟩, fun v hv => ?_⟩
    · rw [entry_at_eq hholds hslot.root (by decide), hslot.top _ (by decide)]
      rfl
    · rw [entry_at_eq hholds hslot.root (by decide), hslot.top _ (by decide)]
      rfl
    · rw [entry_at_eq hholds hslot.root (page_va_lt hv), Option.isSome_map, ← hslot.sized v,
        space_isSome, Option.isSome_iff_exists]
      exact ⟨fun hl => ⟨hv, hl⟩, fun hl => hl.2⟩
  · have hstep := wp_step h hadmits
    unfold wp at hstep
    rw [hfault] at hstep
    exact hstep

theorem address_space_shape_forked : (forked.proc 1).state = .live ∧
    TopMapped tightKernel forked 1 ∧
    ∀ v < UPAGES, (entryAt forked (forked.proc 1).pagetable v).isSome ↔ v < 1 := by
  have hshape := (address_space_shape forked_reachable).1 1 (by simp [forked_live])
  have hsz : npages (forked.proc 1).sz = 1 := by decide +kernel
  rw [hsz] at hshape
  exact ⟨forked_live.2.1, hshape⟩

end Xv6.Vm
