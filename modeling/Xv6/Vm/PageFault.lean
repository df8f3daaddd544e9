import Xv6.Vm.Run

/-!
# Store faults

The hardware reports a store that the page table refuses with its address, which can be any word.
`pagefault_handler` either gives the page to its process alone, or refuses and leaves everything
as it was; but it hands the address to `walk` unchecked.
-/

namespace Xv6.Vm

variable {L : Layout} {g g' : Ghost} {s s' : State} {E : Fault → Prop} {r va : Nat} {l : Leaf}

/-! ## The contract -/

/-- The entry of an address, if its table page is there. -/
def pteAt (pagetable va : Nat) : Code (Option Pte) := do
  match ← walk pagetable va false with
  | none => pure none
  | some (page, i) => some <$> readWord page i

/-- The entry of `va` is valid and writable, and its page is mapped nowhere else. -/
def OwnsPage (r va : Nat) (s : State) : Prop :=
  ∃ pte, pteAt r (PGROUNDDOWN va) s = .ok (some pte, s) ∧ hasFlag pte PTE_V = true ∧
    hasFlag pte PTE_W = true ∧ hasFlag pte PTE_COW = false ∧ s.pgref (PTE2PA pte / PGSIZE) = 1

/-- The page tables, the counts, the free list and the processes are the same. -/
structure Unchanged (s s' : State) : Prop where
  mem : s'.mem = s.mem
  pgref : s'.pgref = s.pgref
  freelist : s'.freelist = s.freelist
  proc : s'.proc = s.proc

theorem Unchanged.refl (s : State) : Unchanged s s := ⟨rfl, rfl, rfl, rfl⟩

/-- The contract of `pagefault_handler`. -/
def Handles (r va : Nat) (s : State) (ret : Int) (s' : State) : Prop :=
  ret = 0 ∧ OwnsPage r va s' ∨ ret = -1 ∧ Unchanged s s'

/-! ## The handler -/

/-- `page_change` returns 0 only if there is no memory, and then it has done nothing. -/
theorem wp_page_change_fails {q k : Nat} (hpa : PTE2PA (s.mem q k) ≠ 0) :
    wp (pageChange L q k) Fault.any (fun ret s' => ret = 0 → Unchanged s s') s := by
  simp only [pageChange, readWord, getRef, wp_bind, wp_get, wp_ite, wp_kpanic, wp_pure, writeWord,
    wp_modify]
  refine ⟨fun _ => trivial, fun _ => ⟨fun _ => ?_, fun _ hzero => absurd hzero hpa⟩⟩
  simp only [kalloc, setPage, wp_bind, wp_get, wp_ite, wp_set, wp_modify, wp_pure]
  refine ⟨fun _ => ⟨fun _ _ => ⟨rfl, rfl, rfl, rfl⟩, fun hno => absurd trivial hno⟩, fun hne =>
    ⟨fun hzero => absurd hzero hne, fun _ => ?_⟩⟩
  refine wp_mono (wp_any _) fun _ _ _ => wp_mono (wp_any _) fun _ _ _ hzero => absurd hzero hne

section

variable (h : Books L g s) (hr : g.IsRoot r) (hva : va < MAXVA) (hv : va / PGSIZE < UPAGES)
  (hl : g.pt r (va / PGSIZE) = some l)

include h hr hva hv hl

theorem pte_at_leaf :
    pteAt r (PGROUNDDOWN va) s = .ok (some l.encode, s) := by
  have hround := round_down_page va
  have hlow := round_down_lt hva
  have hread : wp (pteAt r (PGROUNDDOWN va)) Fault.never
      (fun o s' => o = some l.encode ∧ s' = s) s := by
    rw [pteAt, wp_bind]
    have hcell := space_some (s := s) hv hl
    refine wp_walk_cell h hr hlow ?_ ?_ ?_ ?_
    · intro hnone
      rw [hround, hcell] at hnone
      cases hnone
    · intro q k hnone
      rw [hround, hcell] at hnone
      cases hnone
    · intro q k l' hnone
      rw [hround, hcell] at hnone
      cases hnone
    · intro q k l' _ hl' _ _ hword
      rw [hround, hl] at hl'
      cases hl'
      simp only [readWord, wp_map, wp_bind, wp_get, wp_pure, hword, and_self]
  obtain ⟨_, _, hrun, rfl, rfl⟩ := wp_returns hread
  exact hrun

/-- The entry of a page that its process may write and shares with nobody. -/
theorem owns_page_of_leaf (hw : l.w = true) :
    OwnsPage r va s := by
  have haddr := h.holds.addr r _ l hl
  have hcow := h.counted.owned r _ l hv hl hw
  have hrun := pte_at_leaf h hr hva hv hl
  refine ⟨l.encode, hrun, encode_has_v haddr, (encode_has_w haddr).trans hw,
    (encode_has_cow haddr).trans hcow, ?_⟩
  rw [encode_pa haddr, h.counted.refs, page_number_mul haddr.aligned]
  -- an entry that is not copy-on-write is the only one of its page
  have hmaps : g.maps l.pa = {(r, va / PGSIZE)} := by
    ext ⟨r', v'⟩
    constructor
    · rintro ⟨hv', l', hl', hpa⟩
      obtain ⟨rfl, rfl⟩ := h.counted.excl r _ l r' v' l' hv hv' hl hl' hpa hcow
      rfl
    · rintro ⟨⟩
      exact ⟨hv, l, hl, rfl⟩
  rw [hmaps, Set.ncard_singleton]
  rfl

theorem wp_page_change_handles {q k : Nat}
    (he : g.entry r (va / PGSIZE) = some (q, k)) :
    wp (pageChange L q k) E (fun ret s' => ret = 0 ∧ Unchanged s s' ∨ ret ≠ 0 ∧ OwnsPage r va s')
      s := by
  have hchange := wp_page_change (E := Fault.never) h hr hv hl he
  obtain ⟨ret, s', hrun, g', hstays, hresult⟩ := wp_returns hchange
  refine wp_of_ok hrun ?_
  obtain ⟨hzero, -, -⟩ | ⟨hne, -, hl', -⟩ := hresult
  · obtain ⟨haddr, -, huser⟩ := h.leaf hv hl
    have hpa : PTE2PA (s.mem q k) ≠ 0 := by
      have hword := h.holds.entry_word he
      rw [hl] at hword
      rw [hword, leafOf, encode_pa haddr]
      exact (h.holds.page_addr (show g.use l.pa ≠ .outside by rw [huser]; simp)).2.2
    exact .inl ⟨hzero, wp_ok (wp_page_change_fails hpa) hrun hzero⟩
  · exact .inr ⟨hne, owns_page_of_leaf hstays.books ((hstays.root r).mpr hr) hva hv hl' rfl⟩

end

/-- The handler keeps its contract for an address below `MAXVA`. -/
theorem wp_pagefault_handles (h : Books L g s) (hr : g.IsRoot r) (htop : TopSafe g r)
    (hva : va < MAXVA) : wp (pagefaultHandler L r va) E (Handles r va s) s := by
  have hround := round_down_page va
  have hlow := round_down_lt hva
  have hrefuse : Handles r va s (-1) s := .inr ⟨rfl, .refl s⟩
  simp only [pagefaultHandler, wp_bind]
  refine wp_walk_cell h hr hlow (fun _ => hrefuse) ?_ ?_ ?_
  · intro q k _ hword
    simp only [wp_bind, wp_readWord, hword, has_flag_zero, Bool.not_false, if_true]
    exact hrefuse
  · intro q k l _ hv hl haddr hword
    simp only [wp_bind, wp_readWord, hword, encode_has_v haddr, encode_has_cow haddr,
      (htop _ l hv hl).2, Bool.not_false, Bool.not_true, Bool.false_eq_true, if_false, if_true]
    exact hrefuse
  · intro q k l hv hl haddr he hword
    rw [hround] at hv hl he
    simp only [wp_bind, wp_readWord, hword, encode_has_v haddr, encode_has_cow haddr,
      Bool.not_true, Bool.false_eq_true, if_false]
    cases hcow : l.cow with
    | false =>
      rw [Bool.not_false, if_pos rfl]
      exact hrefuse
    | true =>
      rw [Bool.not_true, if_neg (by simp)]
      refine wp_seq (wp_page_change_handles h hr hva hv hl he) ?_
      rintro pa s' (⟨rfl, hsame⟩ | ⟨hne, howns⟩)
      · rw [if_pos rfl, wp_pure]
        exact .inr ⟨rfl, hsame⟩
      · rw [if_neg hne, wp_pure]
        exact .inl ⟨rfl, howns⟩

theorem pagefault_handler_panics (hva : MAXVA ≤ va) :
    pagefaultHandler L r va s = .error (.panic "walk") := by
  refine wp_stops ?_
  simp only [pagefaultHandler, walk, wp_bind, if_pos (maxva_le_round hva), wp_kpanic]

/-- A store fault keeps its contract, whatever the page tables, the free memory and the address,
exactly if the address is below `MAXVA`. -/
theorem store_fault_contract_iff (h : Books L g s) {r : Nat} (hr : g.IsRoot r)
    (htop : TopSafe g r) (va : BitVec 64) :
    wp (pagefaultHandler L r va.toNat) Fault.never (Handles r va.toNat s) s ↔ va.toNat < MAXVA := by
  refine ⟨fun hcontract => ?_, wp_pagefault_handles h hr htop⟩
  by_contra hva
  obtain ⟨_, _, hrun, -⟩ := wp_returns hcontract
  rw [pagefault_handler_panics (by omega)] at hrun
  cases hrun

/-- The child of a fork stores to the page that it shares with its parent. -/
theorem store_fault_contract_low : ∃ (s : State) (p : Slot),
    Reachable (Booted tightKernel) Admits (step tightKernel) s ∧ (s.proc p).state = .live ∧
    wp (pagefaultHandler tightKernel (s.proc p).pagetable (0 : BitVec 64).toNat) Fault.never
      (Handles (s.proc p).pagetable (0 : BitVec 64).toNat s) s := by
  have hlive := forked_live.2.1
  obtain ⟨g, hsys⟩ := sys_of_reachable forked_reachable
  have hslot := hsys.slot 1 (by simp [hlive])
  exact ⟨forked, 1, forked_reachable, hlive,
    (store_fault_contract_iff hsys.books hslot.root hslot.top.safe 0).mpr (by decide)⟩

/-- The first process stores to the first address that no page table has. -/
theorem store_fault_panics : ∃ (s : State) (p : Slot),
    Reachable (Booted tightKernel) Admits (step tightKernel) s ∧ (s.proc p).state = .live ∧
    pagefaultHandler tightKernel (s.proc p).pagetable (0x4000000000 : BitVec 64).toNat s =
      .error (.panic "walk") :=
  ⟨firstProcess, 0, firstProcess_reachable, by decide +kernel, pagefault_handler_panics (by decide)⟩

end Xv6.Vm
