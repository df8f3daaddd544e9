import Xv6.Vm.Events

/-!
# Runs of the memory system

`kinit` frees every page above the kernel, which establishes the invariant `Sys` with every slot
UNUSED; the events keep it. `Moves` says what an event does to the views of the slots, and
`wp_step` that every event of a run is one of these moves. The only event that can fail is a
store to an address beyond `MAXVA`, for which the page fault handler panics, and the only one
that needs a word about memory is `userinit`, whose `uvmfirst` checks none of its allocations.
-/

namespace Xv6.Vm

open Function

variable {L : Layout} {g g' : Ghost} {s s' : State} {E : Fault → Prop} {n pa : Nat}
  {mem : Nat → Page} {p : Slot}

/-! ## `kinit` -/

/-- Before `kinit` every page above the kernel is in the hands of the boot code. -/
def resetGhost (L : Layout) (junk : Nat → Page) : Ghost where
  use := fun pa =>
    if pa % PGSIZE = 0 ∧ PGROUNDUP L.kend ≤ pa ∧ pa < PHYSTOP then .hand else .outside
  tab := fun _ _ _ => none
  pt := fun _ _ => none
  data := junk

theorem reset_holds (junk : Nat → Page) : Holds L (resetGhost L junk) (reset junk) := by
  have huse : ∀ pa, (resetGhost L junk).use pa = .hand ∨ (resetGhost L junk).use pa = .outside := by
    intro pa
    unfold resetGhost
    dsimp only
    split
    next => exact .inl rfl
    next => exact .inr rfl
  refine ⟨fun pa => ?_, ⟨[], rfl, .nil, fun pa => ?_⟩, fun r l x pa => ?_,
    fun _ _ _ _ h => (by cases h), fun _ _ _ _ _ => rfl, fun _ _ _ _ h => (by cases h),
    fun _ _ _ h => (by cases h), fun _ _ _ => rfl, fun _ _ _ h => (by cases h), fun _ _ => rfl⟩
  · unfold resetGhost
    dsimp only
    split
    next h => exact ⟨fun _ => h, fun _ => by simp⟩
    next h => exact ⟨fun hno => absurd rfl hno, fun hin => absurd hin h⟩
  · have := huse pa
    grind
  · have := huse pa
    refine ⟨fun h => (by cases h), fun h => ?_⟩
    rw [h] at this
    simp at this

theorem wp_freerange (h : Holds L g s) (hhand : ∀ i < n, g.use (pa + i * PGSIZE) = .hand) :
    wp (freerange L n pa) E (fun _ s' => ∃ g', Holds L g' s' ∧ SameBooks s s' ∧
      s'.failed = s.failed ∧ g'.tab = g.tab ∧ g'.pt = g.pt ∧
      ∀ q, g'.use q = if ∃ i < n, q = pa + i * PGSIZE then .free else g.use q) s := by
  induction n generalizing g s pa with
  | zero => exact ⟨g, h, .refl s, rfl, rfl, rfl, fun q => by simp⟩
  | succ n ih =>
    have hfirst : g.use pa = .hand := by simpa using hhand 0 (by omega)
    rw [freerange]
    refine wp_seq (wp_kfree h (show (g.use pa).holdsData = true by rw [hfirst]; rfl)) ?_
    intro _ s1 hfree
    obtain ⟨hbooks1, hfailed1, hholds1⟩ := hfree
    have hnext : ∀ i < n, (g.give pa).use (pa + PGSIZE + i * PGSIZE) = .hand := by
      intro i hi
      have hlater := hhand (i + 1) (by omega)
      have hne : pa + (i + 1) * PGSIZE ≠ pa := by
        simp [PGSIZE]
      rw [show pa + PGSIZE + i * PGSIZE = pa + (i + 1) * PGSIZE by ring]
      show update g.use pa .free (pa + (i + 1) * PGSIZE) = .hand
      rw [update_of_ne hne]
      exact hlater
    refine wp_mono (ih hholds1 hnext) ?_
    intro _ s2 hrest
    obtain ⟨g2, hholds2, hbooks2, hfailed2, htab, hpt, huse⟩ := hrest
    refine ⟨g2, hholds2, hbooks1.trans hbooks2, hfailed2.trans hfailed1, htab, hpt, fun q => ?_⟩
    have hsplit : (∃ i < n + 1, q = pa + i * PGSIZE) ↔
        q = pa ∨ ∃ i < n, q = pa + PGSIZE + i * PGSIZE := by
      constructor
      · rintro ⟨i, hi, rfl⟩
        cases i with
        | zero => exact .inl (by ring)
        | succ i => exact .inr ⟨i, by omega, by ring⟩
      · rintro (rfl | ⟨i, hi, rfl⟩)
        · exact ⟨0, by omega, by ring⟩
        · exact ⟨i + 1, by omega, by ring⟩
    rw [huse q]
    simp only [hsplit, Ghost.give, update_apply]
    by_cases hq : q = pa
    · simp [hq]
    · simp [hq]

/-- The number of pages above the kernel. -/
def Layout.pages (L : Layout) : Nat := (PHYSTOP - PGROUNDUP L.kend) / PGSIZE

theorem page_above_iff : (∃ i < L.pages, pa = PGROUNDUP L.kend + i * PGSIZE) ↔
    pa % PGSIZE = 0 ∧ PGROUNDUP L.kend ≤ pa ∧ pa < PHYSTOP := by
  have hround : PGROUNDUP L.kend % PGSIZE = 0 := by
    unfold PGROUNDUP
    exact Nat.mul_mod_left _ _
  have hdvd : PGSIZE ∣ PHYSTOP - PGROUNDUP L.kend :=
    Nat.dvd_sub (by decide) (Nat.dvd_of_mod_eq_zero hround)
  have hlt : ∀ i, i < L.pages ↔ PGSIZE * i < PHYSTOP - PGROUNDUP L.kend :=
    fun i => Nat.lt_div_iff_mul_lt' hdvd i
  constructor
  · rintro ⟨i, hi, rfl⟩
    have hbound := (hlt i).mp hi
    rw [Nat.mul_comm] at hbound
    refine ⟨?_, by omega, by omega⟩
    rw [Nat.add_mul_mod_self_right, hround]
  · rintro ⟨halign, hlow, hhigh⟩
    obtain ⟨i, hi⟩ : PGSIZE ∣ pa - PGROUNDUP L.kend :=
      Nat.dvd_sub (Nat.dvd_of_mod_eq_zero halign) (Nat.dvd_of_mod_eq_zero hround)
    refine ⟨i, ?_, by rw [Nat.mul_comm, ← hi]; omega⟩
    rw [hlt, ← hi]
    omega

/-- `kinit` returns with every page above the kernel on the free list and nothing else done. -/
theorem wp_kinit (junk : Nat → Page) :
    wp (kinit L) E (fun _ s' => ∃ g', Holds L g' s' ∧ SameBooks (reset junk) s' ∧ s'.failed = 0 ∧
      (∀ r l x, g'.tab r l x = none) ∧ (∀ r v, g'.pt r v = none) ∧
      ∀ pa, g'.use pa = if ∃ i < L.pages, pa = PGROUNDUP L.kend + i * PGSIZE then .free
        else .outside) (reset junk) := by
  have hhand : ∀ i < L.pages, (resetGhost L junk).use (PGROUNDUP L.kend + i * PGSIZE) = .hand :=
    fun i hi => if_pos (page_above_iff.mp ⟨i, hi, rfl⟩)
  refine wp_mono (wp_freerange (reset_holds junk) hhand) ?_
  rintro _ s' ⟨g', hholds, hbooks, hfailed, htab, hpt, huse⟩
  refine ⟨g', hholds, hbooks, hfailed, fun r l x => by rw [htab]; rfl, fun r v => by rw [hpt]; rfl,
    fun pa => ?_⟩
  have hpa := huse pa
  rw [← Layout.pages] at hpa
  rw [hpa]
  by_cases hin : ∃ i < L.pages, pa = PGROUNDUP L.kend + i * PGSIZE
  · rw [if_pos hin, if_pos hin]
  · rw [if_neg hin, if_neg hin]
    exact if_neg fun habove => hin (page_above_iff.mpr habove)

/-- `kinit` establishes the invariant, with every slot UNUSED and every page free. -/
theorem booted_sys (h : Booted L s) : s.failed = 0 ∧ ∃ g, Sys L g s ∧
    (∀ p, view g s p = .unused) ∧ g.nfree = L.pages := by
  obtain ⟨junk, hrun⟩ := h
  obtain ⟨g, hholds, hbooks, hfailed, htab, hpt, huse⟩ :=
    wp_ok (wp_kinit (E := Fault.any) junk) hrun
  have hproc : ∀ p, s.proc p = {} := fun p => congrFun hbooks.proc p
  have hfree : ∀ pa, g.use pa = .free ∨ g.use pa = .outside := by
    intro pa
    rw [huse pa]
    split
    next => exact .inl rfl
    next => exact .inr rfl
  have hpgref : s.pgref = fun _ => 0 := hbooks.pgref
  have hheld : s.held = [] := hbooks.held
  have hmaps : ∀ pa, g.maps pa = ∅ := by
    intro pa
    ext ⟨r, v⟩
    simp [mem_maps, hpt]
  have hcounted : Counted g s.pgref := by
    refine ⟨fun pa => ?_, fun n => ?_, fun pa => ?_, ?_, ?_, ?_⟩
    · rw [hmaps]
      exact Set.finite_empty
    · rw [hmaps, hpgref]
      simp
    · rw [hmaps]
      refine ⟨fun huser => ?_, fun hno => absurd hno Set.not_nonempty_empty⟩
      have := hfree pa
      rw [huser] at this
      simp at this
    all_goals
      intros
      simp_all
  have hnone : ∀ p, (s.proc p).state = .unused := fun p => by rw [hproc p]
  have hsys : Sys L g s := by
    refine ⟨⟨hholds, hcounted⟩, fun p _ => hproc p, fun p hp => absurd (hnone p) hp,
      fun p q hp => absurd (hnone p) hp, fun r hr => ?_, fun pa p hpa => ?_, fun pa => ?_, ?_,
      fun pa => ?_⟩
    · cases (htab r 2 0).symm.trans hr
    · have := hfree pa
      grind
    · have := hfree pa
      rw [hheld]
      grind
    · rw [hheld]
      exact .nil
    · have := hfree pa
      grind
  refine ⟨hfailed, g, hsys, fun p => hsys.view_unused (hnone p), ?_⟩
  have hset : {pa | g.use pa = .free} =
      ((Finset.range L.pages).image fun i => PGROUNDUP L.kend + i * PGSIZE : Finset Nat) := by
    ext pa
    rw [Finset.coe_image, Set.mem_image]
    show g.use pa = .free ↔ _
    rw [huse pa]
    constructor
    · intro hif
      split at hif
      next hin =>
        obtain ⟨i, hi, rfl⟩ := hin
        exact ⟨i, Finset.mem_coe.mpr (Finset.mem_range.mpr hi), rfl⟩
      next => cases hif
    · rintro ⟨i, hi, rfl⟩
      exact if_pos ⟨i, Finset.mem_range.mp (Finset.mem_coe.mp hi), rfl⟩
  rw [Ghost.nfree, hset, Set.ncard_coe_finset, Finset.card_image_of_injective, Finset.card_range]
  intro i i' heq
  have hpos : 0 < PGSIZE := by decide
  exact Nat.eq_of_mul_eq_mul_right hpos (Nat.add_left_cancel heq)

/-! ## Pages of the rest of the kernel -/

/-- A page goes from the free list to the rest of the kernel, or back. -/
theorem Sys.pass (h : Sys L g s) (hold : g.use pa = .free ∨ g.use pa = .kernel)
    (hnew : g'.use pa = .free ∨ g'.use pa = .kernel) (huse : ∀ q, q ≠ pa → g'.use q = g.use q)
    (htab : g'.tab = g.tab) (hpt : g'.pt = g.pt)
    (hdata : ∀ q, g.use q = .user → g'.data q = g.data q) (hholds : Holds L g' s')
    (hpgref : s'.pgref = s.pgref) (hproc : s'.proc = s.proc) (hgranted : s'.granted = s.granted)
    (hheld : ∀ q, g'.use q = .kernel ↔ q ∈ s'.held) (hnodup : s'.held.Nodup) :
    Sys L g' s' ∧ view g' s' = view g s := by
  have hsame : ∀ q u, u ≠ .free → u ≠ .kernel → (g'.use q = u ↔ g.use q = u) := by
    intro q u hfree hkernel
    by_cases hq : q = pa
    · subst hq
      grind
    · rw [huse q hq]
  have hspace : ∀ r, space g' s' r = space g s r := by
    intro r
    refine space_congr (fun v _ => by rw [hpt]) (fun v l hv hl => ?_) fun v _ => by rw [hgranted]
    exact hdata _ (h.books.counted.is_user hv hl)
  have hcounted : Counted g' s'.pgref := by
    rw [hpgref]
    exact h.books.counted.same hpt fun q => hsame q .user (by simp) (by simp)
  have hview : view g' s' = view g s := by
    funext p
    simp only [view, hproc, hspace]
  refine ⟨⟨⟨hholds, hcounted⟩, ?_, fun p hp => ?_, ?_, fun r hr => ?_, fun q p hq => ?_, hheld,
    hnodup, fun q hq => ?_⟩, hview⟩
  · rw [hproc]
    exact h.unused
  · rw [hproc] at hp
    have hslot := h.slot p hp
    refine ⟨?_, ?_, ?_, ?_, ?_⟩
    · rw [hproc, Ghost.IsRoot, htab]
      exact hslot.root
    · intro v hv
      rw [hproc, hpt]
      exact hslot.top v hv
    · rw [hproc, hspace]
      exact hslot.sized
    · rw [hproc, hsame _ _ (by simp) (by simp)]
      exact hslot.frame
    · rw [hproc, hspace]
      exact hslot.kept
  · rw [hproc]
    exact h.distinct
  · rw [hproc]
    rw [Ghost.IsRoot, htab] at hr
    exact h.roots r hr
  · rw [hproc]
    exact h.frames q p ((hsame q _ (by simp) (by simp)).mp hq)
  · exact h.hand q ((hsame q _ (by simp) (by simp)).mp hq)

/-- Another part of the kernel takes a page, or finds that there is none. -/
theorem wp_kernel_alloc (h : Sys L g s) :
    wp (step L .kernelAlloc) E (fun _ s' => s.failed ≤ s'.failed ∧ ∃ g', Sys L g' s' ∧
      view g' s' = view g s) s := by
  rw [step]
  refine wp_seq (wp_kalloc h.books.holds) ?_
  intro pa s1 hkalloc
  obtain ⟨hbooks, ⟨rfl, hnone, hholds, hfailed⟩ | ⟨hne, hfree, hholds, hfailed⟩⟩ := hkalloc
  · rw [if_pos rfl, wp_pure]
    have hframe : Frame ∅ g s g s1 := hbooks.frame (by omega) ∅ g
    have hcounted : Counted g s1.pgref := by
      rw [hbooks.pgref]
      exact h.books.counted
    exact ⟨by omega, g, h.frame_empty hframe ⟨hholds, hcounted⟩⟩
  · rw [if_neg hne, wp_modify]
    have hown : Holds L ((g.take pa).own pa .kernel) { s1 with held := pa :: s1.held } :=
      hholds.own
        (show ((g.take pa).use pa).holdsData = true by simp [Ghost.take, Use.holdsData]) rfl
    refine ⟨hfailed.ge, (g.take pa).own pa .kernel, h.pass (.inl hfree) (.inr ?_)
      (fun q hq => ?_) rfl rfl (fun q hq => ?_) hown hbooks.pgref hbooks.proc hbooks.granted
      (fun q => ?_) ?_⟩
    · simp [Ghost.own]
    · simp [Ghost.own, Ghost.take, update_of_ne hq]
    · have hother : q ≠ pa := by
        rintro rfl
        rw [hfree] at hq
        cases hq
      simp [Ghost.own, Ghost.take, update_of_ne hother]
    · have hheld := h.held q
      show _ ↔ q ∈ pa :: s1.held
      rw [hbooks.held, List.mem_cons, ← hheld]
      simp only [Ghost.own, Ghost.take, update_apply]
      grind
    · show (pa :: s1.held).Nodup
      rw [hbooks.held, List.nodup_cons, ← h.held pa, hfree]
      exact ⟨by simp, h.nodup⟩

theorem wp_kernel_free (h : Sys L g s) (pa : Nat) :
    wp (step L (.kernelFree pa)) E (fun _ s' => s.failed ≤ s'.failed ∧ ∃ g', Sys L g' s' ∧
      view g' s' = view g s) s := by
  simp only [step, wp_bind, wp_get, wp_ite, wp_pure]
  refine ⟨fun hin => ?_, fun _ => ⟨le_rfl, g, h, rfl⟩⟩
  rw [wp_set]
  have hkernel : g.use pa = .kernel := (h.held pa).mpr hin
  have hholds : Holds L g { s with held := s.held.erase pa } := h.books.holds
  refine wp_mono (wp_kfree hholds (show (g.use pa).holdsData = true by rw [hkernel]; rfl)) ?_
  intro _ s1 hkfree
  obtain ⟨hbooks, hfailed, hholds1⟩ := hkfree
  refine ⟨hfailed.ge, g.give pa, h.pass (.inr hkernel) (.inl ?_) (fun q hq => ?_) rfl rfl
    (fun q _ => rfl) hholds1 hbooks.pgref hbooks.proc hbooks.granted (fun q => ?_) ?_⟩
  · simp [Ghost.give]
  · simp [Ghost.give, update_of_ne hq]
  · have hheld := h.held q
    rw [hbooks.held, h.nodup.mem_erase_iff, ← hheld]
    simp only [Ghost.give, update_apply]
    grind
  · rw [hbooks.held]
    exact h.nodup.erase pa

/-! ## The free list -/

/-- The free list that starts at `head` has at least so many pages. -/
def Room (mem : Nat → Page) : Nat → Nat → Prop
  | 0, _ => True
  | n + 1, head => head ≠ 0 ∧ Room mem n (mem head 0).toNat

instance Room.decidable (mem : Nat → Page) : ∀ n head, Decidable (Room mem n head)
  | 0, _ => .isTrue trivial
  | n + 1, head =>
    have := Room.decidable mem n (mem head 0).toNat
    inferInstanceAs (Decidable (_ ∧ _))

theorem Chain.room {l : List Nat} {head : Nat} (h : Chain mem head l) (hzero : 0 ∉ l) :
    Room mem n head ↔ n ≤ l.length := by
  induction l generalizing n head with
  | nil =>
    obtain rfl : head = 0 := h
    cases n with
    | zero => simp [Room]
    | succ n => simp [Room]
  | cons pa rest ih =>
    obtain ⟨rfl, hrest⟩ := h
    cases n with
    | zero => simp [Room]
    | succ n =>
      have hne : head ≠ 0 := fun hno => hzero (hno ▸ List.mem_cons_self)
      rw [Room, ih hrest fun hin => hzero (List.mem_cons_of_mem _ hin)]
      simp [hne]

theorem Rep.room {freelist : Nat} (h : Rep L g mem freelist) :
    Room mem n freelist ↔ n ≤ g.nfree := by
  obtain ⟨l, hchain, hnodup, hmem⟩ := h.free
  rw [nfree_eq_length hmem hnodup]
  refine hchain.room fun hzero => ?_
  have huse := (hmem 0).mp hzero
  exact (h.page_addr (by rw [huse]; simp)).2.2 rfl

/-! ## One event -/

/-- `userinit` runs while memory is plentiful, with a program of less than a page. -/
def Admits (s : State) : Event → Prop
  | .userinit _ initcode => Room s.mem 7 s.freelist ∧ initcode.length < PGSIZE
  | _ => True

/-- What an event does to the views of the slots. -/
def Moves (s : State) (V : Slot → View) (s' : State) (V' : Slot → View) : Event → Prop
  | .kernelAlloc | .kernelFree _ | .copyin _ _ _ => V' = V
  | .userinit p initcode =>
    if (V p).state = .unused then V' = update V p (initView initcode) else V' = V
  | .fork p np =>
    if (V np).state = .unused ∧ (V p).state = .live then Forked p np s V s' V' else V' = V
  | .exec p _ _ => if (V p).state = .live then Executed p V V' else V' = V
  | .growproc p n =>
    if (V p).state = .live then
      s'.failed = s.failed ∧ V' = update V p ((V p).grow n) ∨
        s.failed < s'.failed ∧ V' = V
    else V' = V
  | .store p va b =>
    if (V p).state = .live then ∃ sp, V' = update V p { V p with sp := sp } ∧
      Touched (V p).sp sp ∧ (s'.failed = s.failed → sp = ((V p).sp.store va b).1)
    else V' = V
  | .copyout p dstva src =>
    if (V p).state = .live then ∃ sp, V' = update V p { V p with sp := sp } ∧
      Touched (V p).sp sp ∧
      (s'.failed = s.failed → sp = (Space.copyout src.length (V p).sp dstva src).1)
    else V' = V
  | .exit p =>
    if (V p).state = .live then V' = update V p { V p with state := .zombie }
    else V' = V
  | .freeproc p =>
    if (V p).state = .zombie then V' = update V p .unused else V' = V

/-- The one fault of an event: the page fault handler walks a page table for an address that no
page table has. -/
def Faults (e : Event) (f : Fault) : Prop :=
  f = .panic "walk" ∧ ∃ p va b, e = .store p va b ∧ MAXVA ≤ va

theorem wp_by_proc {code : Nat → Code Unit} {Q : Unit → State → Prop}
    (hlive : (s.proc p).state = .live → wp (code (s.proc p).pagetable) E Q s)
    (hother : (s.proc p).state ≠ .live → Q () s) : wp (byProc p code) E Q s := by
  simp only [byProc, wp_bind, wp_get, wp_ite, wp_pure]
  exact ⟨hlive, hother⟩

theorem wp_discard {α : Type} {code : Code α} {Q : Unit → State → Prop}
    (h : wp code E (fun _ s' => Q () s') s) : wp (discard code) E Q s := by
  change wp ((fun _ => ()) <$> code) E Q s
  rw [wp_map]
  exact h

theorem Sys.touched (h : Sys L g s) (hp : (s.proc p).state ≠ .unused)
    (hstays : Stays L {(s.proc p).pagetable} g s g' s')
    (htouched : Touched (space g s (s.proc p).pagetable) (space g' s' (s.proc p).pagetable)) :
    Sys L g' s' ∧ view g' s' = update (view g s) p
      { view g s p with sp := space g' s' (s.proc p).pagetable } := by
  have hslot := h.slot p hp
  refine h.stays_one hp hstays ?_ ?_
  · intro v
    rw [← hslot.sized v]
    obtain hsame | ⟨c, page, hc, -, hnew⟩ := htouched v
    · rw [hsame]
    · rw [hc, hnew]
      rfl
  · intro v c hc
    obtain hsame | ⟨c0, page, hc0, hperm, hnew⟩ := htouched v
    · exact hslot.kept v c (hsame ▸ hc)
    · rw [hnew] at hc
      cases hc
      obtain ⟨hu, -⟩ := hslot.kept v c0 hc0
      exact ⟨hu, fun _ => .inl rfl⟩

theorem maxva_le_round {va : Nat} (hva : MAXVA ≤ va) : MAXVA ≤ PGROUNDDOWN va := by
  have hmax : MAXVA = MAXVA / PGSIZE * PGSIZE := by decide
  rw [hmax]
  exact Nat.mul_le_mul_right _ (Nat.div_le_div_right hva)

/-- The handler refuses no address beyond `MAXVA`: it panics. -/
theorem wp_store_beyond {r va : Nat} {b : Byte} (hva : MAXVA ≤ va) (hE : E (.panic "walk"))
    {Q : Int → State → Prop} : wp (store L r va b (n + 1)) E Q s := by
  simp only [store, storeOnce, if_pos hva, wp_bind, wp_pure, Bool.false_eq_true, if_false,
    pagefaultHandler, walk, if_pos (maxva_le_round hva), wp_kpanic, hE]

theorem Sys.exits (h : Sys L g s) (hp : (s.proc p).state = .live) :
    Sys L g (s.withProc p { s.proc p with state := .zombie }) ∧
      view g (s.withProc p { s.proc p with state := .zombie }) =
        update (view g s) p { view g s p with state := .zombie } := by
  have hused : (s.proc p).state ≠ .unused := by simp [hp]
  obtain ⟨s', hs'⟩ : ∃ s', s' = s.withProc p { s.proc p with state := .zombie } := ⟨_, rfl⟩
  have hself : s'.proc p = { s.proc p with state := .zombie } := by
    rw [hs']
    exact update_self ..
  have hslot := h.slot p hused
  rw [← hs']
  have hrebuilt := h.rebuild (T := ∅) (hs' ▸ around_with_proc p ∅ g s _)
    (hs' ▸ h.books.with_proc p _) (by simp) (by simp [hself]) ?_ ?_ ?_
  · obtain ⟨hsys, hviews⟩ := hrebuilt
    refine ⟨hsys, ?_⟩
    rw [view_update hviews]
    simp only [view, hself]
    rw [hs']
    rfl
  · intro _
    refine ⟨⟨?_, ?_, ?_, ?_, ?_⟩, fun q hq hqused heq => ?_⟩
    · rw [hself]
      exact hslot.root
    · rw [hself]
      exact hslot.top
    · rw [hself, hs']
      exact hslot.sized
    · rw [hself]
      exact hslot.frame
    · rw [hself, hs']
      exact hslot.kept
    · rw [hself] at heq
      exact hq (h.distinct q p hqused hused heq)
  · intro r _ hin
    obtain hin | rfl := hin
    · exact absurd hin (by simp)
    · simp [hself]
  · intro pa hpa
    simp [hself, (h.frames pa p hpa).2]

/-- Every event of the system keeps the invariant, and its only fault is the panic of the page
fault handler. -/
theorem wp_step (h : Sys L g s) {e : Event} (hadmits : Admits s e) :
    wp (step L e) (Faults e) (fun _ s' => s.failed ≤ s'.failed ∧ ∃ g', Sys L g' s' ∧
      Moves s (view g s) s' (view g' s') e) s := by
  cases e with
  | kernelAlloc => exact wp_kernel_alloc h
  | kernelFree pa => exact wp_kernel_free h pa
  | userinit p initcode =>
    simp only [step, wp_bind, wp_get, wp_ite, wp_pure]
    refine ⟨fun hp => ?_, fun hp => ⟨le_rfl, g, h, ?_⟩⟩
    · obtain ⟨hroom, hlen⟩ := hadmits
      refine wp_mono (wp_userinit h hp (h.books.holds.room.mp hroom) hlen) ?_
      rintro _ s' ⟨g', hsys, hfailed, hview⟩
      refine ⟨hfailed.ge, g', hsys, ?_⟩
      exact (if_pos hp).mpr hview
    · exact (if_neg hp).mpr rfl
  | fork p np =>
    simp only [step, wp_bind, wp_get, wp_ite, wp_pure]
    refine ⟨fun hnp => wp_by_proc (fun hp => wp_discard ?_) fun hp => ⟨le_rfl, g, h, ?_⟩,
      fun hnp => ⟨le_rfl, g, h, ?_⟩⟩
    · refine wp_mono (wp_fork h (by simp [hp]) hnp) ?_
      rintro _ s' ⟨g', hsys, hforked⟩
      refine ⟨?_, g', hsys, ?_⟩
      · obtain ⟨hfailed, -⟩ | ⟨hfailed, -⟩ := hforked
        · omega
        · omega
      · exact (if_pos ⟨hnp, hp⟩).mpr hforked
    · exact (if_neg fun hno => hp hno.2).mpr rfl
    · exact (if_neg fun hno => hnp hno.1).mpr rfl
  | exec p file argv =>
    rw [step]
    refine wp_by_proc (fun hp => wp_discard ?_) fun hp => ⟨le_rfl, g, h, ?_⟩
    · refine wp_mono (wp_exec h (by simp [hp]) file argv) ?_
      rintro _ s' ⟨hfailed, g', hsys, hexec⟩
      exact ⟨hfailed, g', hsys, (if_pos hp).mpr hexec⟩
    · exact (if_neg hp).mpr rfl
  | growproc p n =>
    rw [step]
    refine wp_by_proc (fun hp => wp_discard ?_) fun hp => ⟨le_rfl, g, h, ?_⟩
    · refine wp_mono (wp_growproc h (by simp [hp]) n) ?_
      rintro _ s' ⟨g', hsys, hgrown⟩
      refine ⟨?_, g', hsys, ?_⟩
      · obtain ⟨hfailed, -⟩ | ⟨hfailed, -⟩ := hgrown
        · omega
        · omega
      · exact (if_pos hp).mpr hgrown
    · exact (if_neg hp).mpr rfl
  | store p va b =>
    rw [step]
    refine wp_by_proc (fun hp => wp_discard ?_) fun hp => ⟨le_rfl, g, h, ?_⟩
    · by_cases hva : va < MAXVA
      · have hslot := h.slot p (by simp [hp])
        refine wp_mono (wp_store h.books hslot.root hva hslot.top.safe) ?_
        rintro ret s' ⟨g', hstays, htouched, hexact⟩
        obtain ⟨hsys, hview⟩ := h.touched (by simp [hp]) hstays htouched
        refine ⟨hstays.frame.failed, g', hsys, ?_⟩
        exact (if_pos hp).mpr
          ⟨_, hview, htouched, fun hsame => congrArg Prod.fst (hexact hsame)⟩
      · exact wp_store_beyond (by omega) ⟨rfl, p, va, b, rfl, by omega⟩
    · exact (if_neg hp).mpr rfl
  | copyout p dstva src =>
    rw [step]
    refine wp_by_proc (fun hp => wp_discard ?_) fun hp => ⟨le_rfl, g, h, ?_⟩
    · have hslot := h.slot p (by simp [hp])
      refine wp_mono (wp_copyout_loop h.books hslot.root hslot.top.safe) ?_
      rintro ret s' ⟨g', hstays, htouched, hexact⟩
      obtain ⟨hsys, hview⟩ := h.touched (by simp [hp]) hstays htouched
      refine ⟨hstays.frame.failed, g', hsys, ?_⟩
      exact (if_pos hp).mpr
        ⟨_, hview, htouched, fun hsame => congrArg Prod.fst (hexact hsame)⟩
    · exact (if_neg hp).mpr rfl
  | copyin p srcva len =>
    rw [step]
    refine wp_by_proc (fun hp => wp_discard ?_) fun hp => ⟨le_rfl, g, h, rfl⟩
    have hslot := h.slot p (by simp [hp])
    refine wp_mono (wp_copyin_loop h.books hslot.root hslot.top.safe) ?_
    rintro _ s' ⟨rfl, -⟩
    exact ⟨le_rfl, g, h, rfl⟩
  | exit p =>
    rw [step]
    refine wp_by_proc (fun hp => ?_) fun hp => ⟨le_rfl, g, h, ?_⟩
    · rw [wp_set_proc]
      obtain ⟨hsys, hview⟩ := h.exits hp
      exact ⟨le_rfl, g, hsys, (if_pos hp).mpr hview⟩
    · exact (if_neg hp).mpr rfl
  | freeproc p =>
    simp only [step, wp_bind, wp_get, wp_ite, wp_pure]
    refine ⟨fun hp => ?_, fun hp => ⟨le_rfl, g, h, ?_⟩⟩
    · refine wp_mono (wp_freeproc h (by simp [hp])) ?_
      rintro _ s' ⟨g', hsys, hfailed, hview, -⟩
      refine ⟨hfailed.ge, g', hsys, ?_⟩
      exact (if_pos hp).mpr hview
    · exact (if_neg hp).mpr rfl

/-! ## Runs -/

theorem sys_of_reachable (h : Reachable (Booted L) Admits (step L) s) : ∃ g, Sys L g s := by
  refine Reachable.induct (E := Fault.any) (fun s => ∃ g, Sys L g s) ?_ ?_ h
  · intro s hboot
    obtain ⟨-, g, hsys, -⟩ := booted_sys hboot
    exact ⟨g, hsys⟩
  · rintro s e ⟨g, hsys⟩ hadmits
    refine wp_mono (wp_mono_fault (wp_step hsys hadmits) fun _ _ => trivial) ?_
    rintro _ s' ⟨-, g', hsys', -⟩
    exact ⟨g', hsys'⟩

/-! ## A run with a fork -/

/-- A kernel that leaves 24 pages. -/
def tightKernel : Layout where
  kend := PHYSTOP - 24 * PGSIZE
  trampoline := KERNBASE + 0x7000
  kend_low := by decide
  kend_high := by decide
  trampoline_page := ⟨by decide, by decide⟩
  trampoline_low := by decide
  trampoline_high := by decide

/-- Its memory after `kinit`. -/
def started : State :=
  lastState unguarded (fun _ : Unit => kinit tightKernel) [()] (reset fun _ _ => 0)

theorem started_booted : Booted tightKernel started :=
  ⟨_, @step_of_value_of _ Unit _ _ (fun _ => kinit tightKernel) () () (by decide +kernel)⟩

/-- The state after one event. -/
def after (e : Event) (s : State) : State := lastState unguarded (step tightKernel) [e] s

theorem step_after {e : Event} (h : valueOf (step tightKernel e) s = some ()) :
    step tightKernel e s = .ok ((), after e s) :=
  step_of_value_of h

/-- The first process, whose program is three bytes long. -/
def firstProcess : State := after (.userinit 0 [1, 2, 3]) started

theorem started_admits : Admits started (.userinit 0 [1, 2, 3]) := ⟨by decide +kernel, by decide⟩

theorem userinit_first :
    step tightKernel (.userinit 0 [1, 2, 3]) started = .ok ((), firstProcess) :=
  step_after (by decide +kernel)

/-- The first process has forked: slots 0 and 1 share its page. -/
def forked : State := after (.fork 0 1) firstProcess

theorem fork_first : step tightKernel (.fork 0 1) firstProcess = .ok ((), forked) :=
  step_after (by decide +kernel)

theorem firstProcess_reachable :
    Reachable (Booted tightKernel) Admits (step tightKernel) firstProcess :=
  .next (.start started_booted) started_admits userinit_first

theorem forked_reachable : Reachable (Booted tightKernel) Admits (step tightKernel) forked :=
  firstProcess_reachable.next (show Admits _ (.fork 0 1) from trivial) fork_first

theorem forked_live : (forked.proc 0).state = .live ∧ (forked.proc 1).state = .live ∧
    forked.failed = 0 := by
  decide +kernel

-- only the kernel computes this state
attribute [irreducible] forked

end Xv6.Vm
