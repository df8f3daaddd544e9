import Xv6.Vm.PageFault

/-!
# The two ways to write to a user page

A byte gets to a user page from a store of the process, which the hardware checks and
`pagefault_handler` makes good, or from the kernel through `copyout`, which does both itself. The
two check the bits of an entry in different places and in a different order.
`copyout_is_stores` says that they agree: a byte is copied exactly if it could be stored, with the
same state after it, and a longer copy is the stores of its bytes one after the other.
-/

namespace Xv6.Vm

open Function

variable {L : Layout} {g g' : Ghost} {s s' : State} {E : Fault → Prop} {s1 : State}
  {bytes src : List Byte} {pa fuel : Nat}

/-! ## Stores -/

/-- A user store with at most one page fault: whether the byte is stored. -/
def storeByte (L : Layout) (pagetable va : Nat) (b : Byte) : Code Bool := do
  let stored ← storeOnce pagetable va b
  if stored then pure true
  else
    let handled ← pagefaultHandler L pagetable va
    if handled < 0 then pure false else storeOnce pagetable va b

/-- Stores to consecutive addresses, up to the first that fails. -/
def storeBytes (L : Layout) (pagetable : Nat) : Nat → List Byte → Code Bool
  | _, [] => pure true
  | va, b :: rest => do
    let stored ← storeByte L pagetable va b
    if stored then storeBytes L pagetable (va + 1) rest else pure false

/-- The state after `memmove` into the page at `pa`. -/
def State.moved (s : State) (pa o : Nat) (bytes : List Byte) : State :=
  { s with mem := update s.mem pa (withPageBytes (s.mem pa) o bytes) }

theorem wp_memmove_moved {o : Nat} {Q : Unit → State → Prop} :
    wp (memmove pa o bytes) E Q s ↔ Q () (s.moved pa o bytes) := Iff.rfl

theorem moved_cons (s : State) (pa o : Nat) (b : Byte) (rest : List Byte) :
    (s.moved pa o [b]).moved pa (o + 1) rest = s.moved pa o (b :: rest) := by
  simp [State.moved, withPageBytes]

section Page

variable {r va q k : Nat} {l : Leaf} {b : Byte}

section

variable (h : Books L g s) (hr : g.IsRoot r) (hva : va < MAXVA)

include h hr hva

theorem wp_walk_page
    (he : g.entry r (va / PGSIZE) = some (q, k)) {Q : Option (Nat × Nat) → State → Prop}
    (hQ : Q (some (q, k)) s) : wp (walk r (PGROUNDDOWN va) false) E Q s := by
  refine wp_mono (wp_walk h.holds hr (round_down_lt hva)) ?_
  rintro res s' ⟨rfl, rfl⟩
  rw [round_down_page, he]
  exact hQ

/-- The hardware stores to a page that is writable for the user. -/
theorem wp_store_once_hit
    (hl : g.pt r (va / PGSIZE) = some l) (hu : l.u = true) (hw : l.w = true) :
    wp (storeOnce r va b) E (fun stored s' => stored = true ∧ s' = s.moved l.pa (va % PGSIZE) [b])
      s := by
  have haddr := h.holds.addr r _ l hl
  obtain ⟨q, k, he⟩ := h.holds.entry_of_pt hl
  have hword : s.mem q k = l.encode := by rw [h.holds.entry_word he, hl]; rfl
  rw [storeOnce, if_neg (by omega), wp_bind]
  refine wp_walk_page h hr hva he ?_
  simp only [wp_bind, wp_readWord, wp_pure, hword, encode_has_v haddr, encode_has_u haddr,
    encode_has_w haddr, hu, hw, Bool.and_self, if_true, wp_memmove_moved, encode_pa haddr,
    and_self]

theorem wp_store_once_miss
    (htop : TopSafe g r)
    (hmiss : ∀ l, va / PGSIZE < UPAGES → g.pt r (va / PGSIZE) = some l →
      ¬ (l.u = true ∧ l.w = true)) :
    wp (storeOnce r va b) E (fun stored s' => stored = false ∧ s' = s) s := by
  refine wp_mono (wp_store_once h hr hva htop) ?_
  rintro stored s' (⟨rfl, rfl, -⟩ | ⟨rfl, g', c, -, -, hc, hu, hw, -⟩)
  · exact ⟨rfl, rfl⟩
  · obtain ⟨hv, l, hl, rfl⟩ := space_of_some hc
    exact absurd ⟨hu, hw⟩ (hmiss l hv hl)

/-- The handler calls `page_change` for a copy-on-write page. -/
theorem wp_pagefault_handler_cow
    (hl : g.pt r (va / PGSIZE) = some l) (he : g.entry r (va / PGSIZE) = some (q, k))
    (hcow : l.cow = true) {Q : Int → State → Prop}
    (hQ : wp (pageChange L q k) E (fun pa s' => Q (if pa = 0 then -1 else 0) s') s) :
    wp (pagefaultHandler L r va) E Q s := by
  have haddr := h.holds.addr r _ l hl
  have hword : s.mem q k = l.encode := by rw [h.holds.entry_word he, hl]; rfl
  rw [pagefaultHandler, wp_bind]
  refine wp_walk_page h hr hva he ?_
  simp only [wp_bind, wp_readWord, hword, encode_has_v haddr, encode_has_cow haddr,
    hcow, Bool.not_true, Bool.false_eq_true, if_false]
  refine wp_mono hQ fun pa s' hpa => ?_
  by_cases hzero : pa = 0
  · rw [if_pos hzero] at hpa ⊢
    exact hpa
  · rw [if_neg hzero] at hpa ⊢
    exact hpa

end

/-- Page `v` of table `r` has been made ready for writing at `pa`. -/
structure Opened (L : Layout) (r v pa : Nat) (g : Ghost) (s : State) (g1 : Ghost) (s1 : State) :
    Prop where
  stays : Stays L {r} g s g1 s1
  leaf : ∃ l, g1.pt r v = some l ∧ l.pa = pa ∧ l.u = true ∧ l.w = true
  space : ∃ c, space g s r v = some c ∧
    space g1 s1 r = update (space g s r) v (some c.own)

/-- `re_page` on a page for the user returns 0 or makes the page ready. -/
theorem wp_re_page_opened (h : Books L g s) (hr : g.IsRoot r) (hv : va / PGSIZE < UPAGES)
    (hl : g.pt r (va / PGSIZE) = some l) (he : g.entry r (va / PGSIZE) = some (q, k))
    (hu : l.u = true) :
    wp (rePage L q k) E (fun pa s1 => pa = 0 ∨ pa ≠ 0 ∧ ∃ g1, Opened L r (va / PGSIZE) pa g s g1 s1)
      s := by
  refine wp_mono (wp_re_page h hr hv hl he) ?_
  rintro pa s1 ⟨g1, hstays, ⟨hzero, -⟩ | ⟨hne, -, ⟨l1, hl1, rfl, -⟩, hspace⟩⟩
  · exact .inl hzero
  · have hcell := space_some (s := s1) hv hl1
    rw [hspace, update_self] at hcell
    have hperm := congrArg Cell.perm (Option.some.inj hcell)
    refine .inr ⟨hne, g1, hstays, ⟨l1, hl1, rfl, ?_, ?_⟩, _, space_some hv hl, hspace⟩
    · exact (congrArg Perm.u hperm).symm.trans hu
    · exact (congrArg Perm.w hperm).symm

/-- A store to a page that may be written to does what `re_page` and `memmove` do. -/
theorem store_byte_opened (h : Books L g s) (hr : g.IsRoot r) (hva : va < MAXVA)
    (htop : TopSafe g r) (hv : va / PGSIZE < UPAGES) (hl : g.pt r (va / PGSIZE) = some l)
    (he : g.entry r (va / PGSIZE) = some (q, k)) (hu : l.u = true) (hok : l.w = true ∨ l.cow = true)
    (hrun : rePage L q k s = .ok (pa, s1)) :
    storeByte L r va b s =
      .ok (if pa = 0 then (false, s1) else (true, s1.moved pa (va % PGSIZE) [b])) := by
  have haddr := h.holds.addr r _ l hl
  have hword : s.mem q k = l.encode := by rw [h.holds.entry_word he, hl]; rfl
  have hopened := wp_ok (wp_re_page_opened (E := Fault.any) h hr hv hl he hu) hrun
  have hpa : wp (rePage L q k) Fault.never (fun pa' s' => pa' = pa ∧ s' = s1) s :=
    wp_of_ok hrun ⟨rfl, rfl⟩
  simp only [rePage, wp_bind, wp_readWord, hword, encode_has_w haddr,
    encode_pa haddr] at hpa
  have hstore : wp (storeByte L r va b) Fault.never (fun stored s' =>
      (stored, s') = if pa = 0 then (false, s1) else (true, s1.moved pa (va % PGSIZE) [b])) s := by
    rw [storeByte, wp_bind]
    cases hw : l.w with
    | true =>
      rw [hw, if_pos rfl, wp_pure] at hpa
      obtain ⟨rfl, rfl⟩ := hpa
      have hne : l.pa ≠ 0 := by
        have huser := (h.leaf hv hl).2.2
        exact (h.holds.page_addr (show g.use l.pa ≠ .outside by rw [huser]; simp)).2.2
      refine wp_mono (wp_store_once_hit h hr hva hl hu hw) ?_
      rintro _ _ ⟨rfl, rfl⟩
      rw [if_neg hne]
      rfl
    | false =>
      rw [hw, if_neg (by simp)] at hpa
      have hcow : l.cow = true := by simpa [hw] using hok
      refine wp_mono (wp_store_once_miss h hr hva htop ?_) ?_
      · intro l' _ hl'
        rw [hl] at hl'
        cases hl'
        simp [hw]
      · rintro _ _ ⟨rfl, rfl⟩
        rw [if_neg (by simp), wp_bind]
        refine wp_pagefault_handler_cow h hr hva hl he hcow (wp_mono hpa ?_)
        rintro _ _ ⟨rfl, rfl⟩
        rcases hopened with rfl | ⟨hne, g1, hopen⟩
        · rfl
        · obtain ⟨l1, hl1, rfl, hu1, hw1⟩ := hopen.leaf
          rw [if_neg hne, if_neg (by decide), if_neg hne]
          refine wp_mono (wp_store_once_hit hopen.stays.books ((hopen.stays.root r).mpr hr) hva
            hl1 hu1 hw1) ?_
          rintro _ _ ⟨rfl, rfl⟩
          rfl
  obtain ⟨stored, s', hrun', heq⟩ := wp_returns hstore
  rw [hrun', heq]

/-- Neither a store nor a copy gets to a page that is not for the user or may not be written to. -/
def Refused (g : Ghost) (r v : Nat) : Prop :=
  ∀ l, v < UPAGES → g.pt r v = some l → ¬ (l.u = true ∧ (l.w = true ∨ l.cow = true))

theorem wp_store_byte_refused (h : Books L g s) (hr : g.IsRoot r) (hva : va < MAXVA)
    (htop : TopSafe g r) (hrefused : Refused g r (va / PGSIZE)) :
    wp (storeByte L r va b) E (fun stored _ => stored = false) s := by
  rw [storeByte]
  refine wp_seq (wp_store_once_miss h hr hva htop ?_) ?_
  · exact fun l hv hl hlw => hrefused l hv hl ⟨hlw.1, .inl hlw.2⟩
  · rintro _ _ ⟨rfl, rfl⟩
    rw [if_neg (by simp)]
    refine wp_seq (wp_pagefault_handler h hr hva htop) ?_
    rintro ret s1 ⟨g1, hstays, ⟨rfl, -⟩ | ⟨rfl, -, c, hc, hcow, hspace⟩⟩
    · exact (wp_ite ..).mpr ⟨fun _ => rfl, fun hno => absurd (by decide) hno⟩
    · rw [if_neg (by decide)]
      -- the handler has made a page writable that is not for the user
      refine wp_mono (wp_store_once_miss hstays.books ((hstays.root r).mpr hr) hva
        (hstays.top_safe htop) ?_) fun _ _ hmiss => hmiss.1
      intro l1 hv hl1 hlw
      obtain ⟨-, l, hl, rfl⟩ := space_of_some hc
      have hcell := space_some (s := s1) hv hl1
      rw [hspace, update_self] at hcell
      have huser := congrArg (fun c => c.perm.u) (Option.some.inj hcell)
      exact hrefused l hv hl ⟨huser.trans hlw.1, .inr hcow⟩

/-! ## Copies -/

theorem wp_copyout_refused (h : Books L g s) (hr : g.IsRoot r) (htop : TopSafe g r)
    (hsrc : src ≠ []) (hrefused : va < MAXVA → Refused g r (va / PGSIZE)) :
    wp (copyoutLoop L r (fuel + 1) va src) E (fun ret s' => ret = -1 ∧ s' = s) s := by
  rw [copyoutLoop, if_neg hsrc]
  by_cases hlow : MAXVA ≤ PGROUNDDOWN va
  · rw [if_pos hlow, wp_pure]
    exact ⟨rfl, rfl⟩
  have hva : va < MAXVA := by
    by_contra hhigh
    exact hlow (maxva_le_round (by omega))
  rw [if_neg hlow, wp_bind]
  refine wp_walk_cell h hr (by omega) (fun _ => ⟨rfl, rfl⟩) ?_ ?_ ?_
  · intro q k _ hword
    simp only [wp_bind, wp_readWord, wp_pure, hword, has_flag_zero, Bool.not_false,
      Bool.true_or, if_true, and_self]
  · intro q k l _ hv hl haddr hword
    simp only [wp_bind, wp_readWord, wp_pure, hword, encode_has_u haddr,
      (htop _ l hv hl).1, Bool.not_false, Bool.or_true, Bool.true_or, if_true, and_self]
  · intro q k l hv hl haddr _ hword
    rw [round_down_page] at hv hl
    have hno := hrefused hva l hv hl
    simp only [wp_bind, wp_readWord, hword, encode_has_v haddr, encode_has_u haddr,
      encode_has_w haddr, encode_has_cow haddr, Bool.not_true, Bool.false_or]
    rw [if_pos (by revert hno; cases l.u <;> cases l.w <;> cases l.cow <;> decide), wp_pure]
    exact ⟨rfl, rfl⟩

/-- One turn of the loop on a page that may be written to. -/
theorem wp_copyout_page {Q : Int → State → Prop} (h : Books L g s) (hr : g.IsRoot r)
    (hva : va < MAXVA) (hl : g.pt r (va / PGSIZE) = some l)
    (he : g.entry r (va / PGSIZE) = some (q, k)) (hu : l.u = true) (hok : l.w = true ∨ l.cow = true)
    (hrun : rePage L q k s = .ok (pa, s1)) (hsrc : src ≠ []) :
    wp (copyoutLoop L r (fuel + 1) va src) E Q s ↔
      if pa = 0 then Q (-1) s1
      else wp (copyoutLoop L r fuel (PGROUNDDOWN va + PGSIZE)
          (src.drop (min (PGSIZE - va % PGSIZE) src.length))) E Q
        (s1.moved pa (va % PGSIZE) (src.take (min (PGSIZE - va % PGSIZE) src.length))) := by
  have haddr := h.holds.addr r _ l hl
  have hword : s.mem q k = l.encode := by rw [h.holds.entry_word he, hl]; rfl
  have hwalk : walk r (PGROUNDDOWN va) false s = .ok (some (q, k), s) :=
    run_of_wp (wp_walk_page h hr hva he ⟨rfl, rfl⟩)
  have hcheck : (!l.u || (!l.w && !l.cow)) = false := by
    revert hu hok
    cases l.u <;> cases l.w <;> cases l.cow <;> decide
  have hlow := round_down_lt hva
  rw [copyoutLoop, if_neg hsrc, if_neg (by omega), wp_bind, wp_iff_of_run hwalk]
  simp only [wp_bind, wp_readWord, hword, encode_has_v haddr, encode_has_u haddr,
    encode_has_w haddr, encode_has_cow haddr, Bool.not_true, Bool.false_or, hcheck,
    Bool.false_eq_true, if_false]
  rw [wp_iff_of_run hrun]
  by_cases hzero : pa = 0
  · rw [if_pos hzero, if_pos hzero, wp_pure]
  · rw [if_neg hzero, if_neg hzero, wp_bind, wp_memmove_moved, sub_round_down]

/-- Bytes within one page that is ready for writing are stored one after the other. -/
theorem store_bytes_page {o : Nat} (h : Books L g s) (hr : g.IsRoot r)
    (hva : va + bytes.length ≤ MAXVA) (hv : va / PGSIZE < UPAGES)
    (hl : g.pt r (va / PGSIZE) = some l) (hu : l.u = true) (hw : l.w = true) (ho : va % PGSIZE = o)
    (hfits : o + bytes.length ≤ PGSIZE) :
    storeBytes L r va bytes s = .ok (true, s.moved l.pa o bytes) := by
  induction bytes generalizing g s va o with
  | nil =>
    have hsame : s.moved l.pa o [] = s := by simp [State.moved, withPageBytes]
    rw [hsame]
    rfl
  | cons b rest ih =>
    rw [List.length_cons] at hva hfits
    refine run_of_wp ?_
    rw [storeBytes, wp_bind, storeByte]
    refine wp_seq (wp_store_once_hit h hr (by omega) hl hu hw) ?_
    rintro _ _ ⟨rfl, rfl⟩
    rw [if_pos rfl, wp_pure, if_pos rfl, ho]
    cases rest with
    | nil => exact ⟨rfl, rfl⟩
    | cons b' rest' =>
      have hcow := h.counted.owned r _ l hv hl hw
      have hmoved := wp_write_page (E := Fault.never) (o := o) h hr hv hl hcow [b]
      obtain ⟨g1, hstays, -, hpt, -⟩ := wp_memmove_moved.mp hmoved
      rw [List.length_cons] at hfits
      have hpage : (va + 1) / PGSIZE = va / PGSIZE := by
        simp only [PGSIZE] at *
        omega
      have hoffset : (va + 1) % PGSIZE = o + 1 := by
        simp only [PGSIZE] at *
        omega
      have hrest : storeBytes L r (va + 1) (b' :: rest') (s.moved l.pa o [b]) =
          .ok (true, (s.moved l.pa o [b]).moved l.pa (o + 1) (b' :: rest')) :=
        ih hstays.books ((hstays.root r).mpr hr)
          (by simp only [List.length_cons] at *; omega) (by rw [hpage]; exact hv)
          (by rw [hpage, hpt]; exact hl) hoffset (by rw [List.length_cons]; omega)
      refine wp_of_ok hrest ⟨rfl, ?_⟩
      exact moved_cons s l.pa o b (b' :: rest')

end Page

section Copy

variable {r : Nat}

theorem store_bytes_cons {b : Byte} {rest : List Byte} {va : Nat}
    (h : storeByte L r va b s = .ok (true, s1)) :
    storeBytes L r va (b :: rest) s = storeBytes L r (va + 1) rest s1 := by
  simp only [storeBytes, bind, StateT.bind, h, Except.bind, if_true]

theorem store_bytes_cons_inv {b : Byte} {rest : List Byte} {va : Nat}
    (h : storeBytes L r va (b :: rest) s = .ok (true, s')) :
    ∃ s1, storeByte L r va b s = .ok (true, s1) ∧
      storeBytes L r (va + 1) rest s1 = .ok (true, s') := by
  cases hbyte : storeByte L r va b s with
  | error f => simp [storeBytes, bind, StateT.bind, hbyte, Except.bind] at h
  | ok res =>
    obtain ⟨stored, s1⟩ := res
    cases stored with
    | false =>
      simp [storeBytes, bind, StateT.bind, hbyte, Except.bind, pure, StateT.pure,
        Except.pure] at h
    | true => exact ⟨s1, rfl, by rw [← store_bytes_cons hbyte]; exact h⟩

theorem store_bytes_append {xs ys : List Byte} {va : Nat}
    (h : storeBytes L r va xs s = .ok (true, s1)) :
    storeBytes L r va (xs ++ ys) s = storeBytes L r (va + xs.length) ys s1 := by
  induction xs generalizing va s with
  | nil =>
    cases h
    rfl
  | cons b rest ih =>
    obtain ⟨s2, hbyte, hrest⟩ := store_bytes_cons_inv h
    rw [List.cons_append, store_bytes_cons hbyte, ih hrest, List.length_cons]
    congr 1
    omega

theorem exists_leaf_of_not_refused {v : Nat} (h : ¬ Refused g r v) :
    ∃ l, v < UPAGES ∧ g.pt r v = some l ∧ l.u = true ∧ (l.w = true ∨ l.cow = true) := by
  unfold Refused at h
  push Not at h
  obtain ⟨l, hv, hl, hu, hok⟩ := h
  exact ⟨l, hv, hl, hu, hok⟩

theorem stores_of_opened {va q k : Nat} {l : Leaf} {g1 : Ghost} (h : Books L g s) (hr : g.IsRoot r)
    (htop : TopSafe g r) (hva : va < MAXVA) (hv : va / PGSIZE < UPAGES)
    (hl : g.pt r (va / PGSIZE) = some l) (he : g.entry r (va / PGSIZE) = some (q, k))
    (hu : l.u = true) (hok : l.w = true ∨ l.cow = true) (hrun : rePage L q k s = .ok (pa, s1))
    (hne : pa ≠ 0) (hopen : Opened L r (va / PGSIZE) pa g s g1 s1) (hbytes : bytes ≠ [])
    (hfits : va % PGSIZE + bytes.length ≤ PGSIZE) :
    storeBytes L r va bytes s = .ok (true, s1.moved pa (va % PGSIZE) bytes) := by
  obtain ⟨l1, hl1, rfl, hu1, hw1⟩ := hopen.leaf
  have hr1 := (hopen.stays.root r).mpr hr
  cases bytes with
  | nil => exact absurd rfl hbytes
  | cons b rest =>
    have hfirst : storeByte L r va b s = .ok (true, s1.moved l1.pa (va % PGSIZE) [b]) := by
      rw [store_byte_opened h hr hva htop hv hl he hu hok hrun, if_neg hne]
    have hagain : storeByte L r va b s1 = .ok (true, s1.moved l1.pa (va % PGSIZE) [b]) := by
      refine run_of_wp ?_
      rw [storeByte]
      refine wp_seq (wp_store_once_hit hopen.stays.books hr1 hva hl1 hu1 hw1) ?_
      rintro _ _ ⟨rfl, rfl⟩
      rw [if_pos rfl]
      exact ⟨rfl, rfl⟩
    rw [store_bytes_cons hfirst, ← store_bytes_cons hagain]
    refine store_bytes_page hopen.stays.books hr1 ?_ hv hl1 hu1 hw1 rfl hfits
    -- the page ends below `MAXVA`
    have hpages : UPAGES * PGSIZE ≤ MAXVA := by decide
    have hlast := Nat.mul_le_mul_right PGSIZE (Nat.succ_le_of_lt hv)
    have hsplit := Nat.div_add_mod va PGSIZE
    rw [Nat.mul_comm] at hsplit
    rw [Nat.succ_mul] at hlast
    omega

theorem stores_of_copyout_loop {dstva : Nat} (h : Books L g s) (hr : g.IsRoot r)
    (htop : TopSafe g r) (hfuel : src.length ≤ fuel)
    (hrun : copyoutLoop L r fuel dstva src s = .ok (0, s')) :
    storeBytes L r dstva src s = .ok (true, s') := by
  induction fuel generalizing g s dstva src with
  | zero =>
    obtain rfl : src = [] := List.eq_nil_of_length_eq_zero (by omega)
    cases hrun
    rfl
  | succ fuel ih =>
    by_cases hsrc : src = []
    · subst hsrc
      cases hrun
      rfl
    by_cases hrefused : dstva < MAXVA → Refused g r (dstva / PGSIZE)
    · have hno := wp_ok (wp_copyout_refused (E := Fault.any) h hr htop hsrc hrefused) hrun
      exact absurd hno.1 (by decide)
    obtain ⟨hva, hpage⟩ : dstva < MAXVA ∧ ¬ Refused g r (dstva / PGSIZE) := by
      simpa using hrefused
    obtain ⟨l, hv, hl, hu, hok⟩ := exists_leaf_of_not_refused hpage
    obtain ⟨q, k, he⟩ := h.holds.entry_of_pt hl
    obtain ⟨pa, s1, hre, hopened⟩ := wp_returns (wp_re_page_opened h hr hv hl he hu)
    have hturn := (wp_copyout_page (E := Fault.never)
      (Q := fun ret s'' => ret = 0 ∧ s'' = s') h hr hva hl he hu hok hre hsrc).mp
      (wp_of_ok hrun ⟨rfl, rfl⟩)
    rcases hopened with rfl | ⟨hne, g1, hopen⟩
    · exact absurd hturn.1 (by decide)
    rw [if_neg hne] at hturn
    obtain ⟨n, hn⟩ : ∃ n, n = min (PGSIZE - dstva % PGSIZE) src.length := ⟨_, rfl⟩
    rw [← hn] at hturn
    have hoffset : dstva % PGSIZE < PGSIZE := Nat.mod_lt _ (by decide)
    have hlength : 0 < src.length := List.length_pos_iff.mpr hsrc
    have htake : (src.take n).length = n := by
      rw [List.length_take]
      omega
    have hsome : src.take n ≠ [] := by
      rw [ne_eq, ← List.length_eq_zero_iff]
      omega
    have hfirst := stores_of_opened h hr htop hva hv hl he hu hok hre hne hopen hsome (by omega)
    -- the rest of the copy, from the state with this page written
    obtain ⟨l1, hl1, rfl, hu1, hw1⟩ := hopen.leaf
    have hcow1 := hopen.stays.books.counted.owned r _ l1 hv hl1 hw1
    have hmoved := wp_write_page (E := Fault.never) (o := dstva % PGSIZE) hopen.stays.books
      ((hopen.stays.root r).mpr hr) hv hl1 hcow1 (src.take n)
    obtain ⟨g2, hstays2, -, -, -⟩ := wp_memmove_moved.mp hmoved
    have hboth := hopen.stays.trans hstays2
    have hrest := ih hboth.books ((hboth.root r).mpr hr) (hboth.top_safe htop)
      (by rw [List.length_drop]; omega) (run_of_wp hturn)
    rw [← List.take_append_drop n src, store_bytes_append hfirst, htake]
    by_cases hend : src.length ≤ n
    · rw [List.drop_of_length_le hend] at hrest ⊢
      exact hrest
    · have hnext : dstva + n = PGROUNDDOWN dstva + PGSIZE := by
        have hsub := sub_round_down dstva
        have hle : PGROUNDDOWN dstva ≤ dstva := Nat.div_mul_le_self dstva PGSIZE
        omega
      rw [hnext]
      exact hrest

end Copy

/-! ## What a store changes -/

/-- The byte of an address space at an address. -/
def Space.byte (sp : Space) (va : Nat) : Option Byte :=
  (sp (va / PGSIZE)).map fun c => pageByte c.page (va % PGSIZE)

theorem page_byte_with (page : Page) (o o' : Nat) (b : Byte) :
    pageByte (withPageByte page o b) o' = if o' = o then b else pageByte page o' := by
  unfold pageByte withPageByte
  by_cases heq : o' = o
  · subst heq
    rw [if_pos rfl, update_self, byte_of_with_byte_same _ _ (Nat.mod_lt _ (by decide))]
  · rw [if_neg heq]
    by_cases hword : o' / 8 = o / 8
    · have hbyte : o' % 8 ≠ o % 8 := by omega
      rw [hword, update_self, byte_of_with_byte_ne _ _ hbyte]
    · rw [update_of_ne hword]

section Effect

variable {r va : Nat} {b : Byte}

/-- Only the `n` bytes from `va` on of the address space of `r` have been written to. -/
structure WroteOnly (L : Layout) (r va n : Nat) (g : Ghost) (s : State) (g' : Ghost) (s' : State) :
    Prop where
  stays : Stays L {r} g s g' s'
  touched : Touched (space g s r) (space g' s' r)
  others : ∀ va', va' < va ∨ va + n ≤ va' → (space g' s' r).byte va' = (space g s r).byte va'

theorem store_byte_beyond (hva : MAXVA ≤ va) :
    wp (storeByte L r va b) (· = .panic "walk") (fun _ _ => False) s := by
  simp only [storeByte, storeOnce, if_pos hva, wp_bind, wp_pure, Bool.false_eq_true, if_false,
    pagefaultHandler, walk, if_pos (maxva_le_round hva), wp_kpanic]

theorem WroteOnly.of_store_byte (h : Books L g s) (hr : g.IsRoot r) (htop : TopSafe g r)
    (hrun : storeByte L r va b s = .ok (true, s')) : ∃ g', WroteOnly L r va 1 g s g' s' := by
  have hva : va < MAXVA := by
    by_contra hno
    exact wp_ok (store_byte_beyond (by omega)) hrun
  by_cases hrefused : Refused g r (va / PGSIZE)
  · have hno := wp_ok (wp_store_byte_refused (E := Fault.any) h hr hva htop hrefused) hrun
    exact absurd hno (by simp)
  obtain ⟨l, hv, hl, hu, hok⟩ := exists_leaf_of_not_refused hrefused
  obtain ⟨q, k, he⟩ := h.holds.entry_of_pt hl
  obtain ⟨pa, s1, hre, hopened⟩ := wp_returns (wp_re_page_opened h hr hv hl he hu)
  rw [store_byte_opened h hr hva htop hv hl he hu hok hre] at hrun
  rcases hopened with rfl | ⟨hne, g1, hopen⟩
  · exact absurd hrun (by simp)
  rw [if_neg hne] at hrun
  cases hrun
  obtain ⟨l1, hl1, rfl, hu1, hw1⟩ := hopen.leaf
  have hcow1 := hopen.stays.books.counted.owned r _ l1 hv hl1 hw1
  have hmoved := wp_write_page (E := Fault.never) (o := va % PGSIZE) hopen.stays.books
    ((hopen.stays.root r).mpr hr) hv hl1 hcow1 [b]
  obtain ⟨g2, hstays2, -, -, hspace2⟩ := wp_memmove_moved.mp hmoved
  obtain ⟨c, hc, hspace1⟩ := hopen.space
  have hcell1 := space_some (s := s1) hv hl1
  rw [hspace1, update_self] at hcell1
  rw [← Option.some.inj hcell1, hspace1, update_idem] at hspace2
  have hwrite : c.perm.w = true ∨ c.perm.cow = true := by
    rw [space_some hv hl] at hc
    cases hc
    exact hok
  refine ⟨g2, hopen.stays.trans hstays2, ?_, fun va' hne' => ?_⟩
  · rw [hspace2]
    exact touched_update hc hwrite
  · unfold Space.byte
    rw [hspace2]
    by_cases hpage : va' / PGSIZE = va / PGSIZE
    · have hoffset : va' % PGSIZE ≠ va % PGSIZE := by
        have hone := Nat.div_add_mod va' PGSIZE
        have htwo := Nat.div_add_mod va PGSIZE
        rw [hpage] at hone
        omega
      rw [hpage, update_self, hc]
      simp only [Option.map_some, Cell.write, Cell.own, withPageBytes, page_byte_with,
        if_neg hoffset]
    · rw [update_of_ne hpage]

theorem WroteOnly.of_store_bytes (h : Books L g s) (hr : g.IsRoot r) (htop : TopSafe g r)
    (hrun : storeBytes L r va bytes s = .ok (true, s')) :
    ∃ g', WroteOnly L r va bytes.length g s g' s' := by
  induction bytes generalizing g s va with
  | nil =>
    cases hrun
    exact ⟨g, .refl h, .refl _, fun _ _ => rfl⟩
  | cons b rest ih =>
    obtain ⟨s1, hbyte, hrest⟩ := store_bytes_cons_inv hrun
    obtain ⟨g1, hone⟩ := WroteOnly.of_store_byte h hr htop hbyte
    obtain ⟨g2, hmore⟩ := ih hone.stays.books ((hone.stays.root r).mpr hr)
      (hone.stays.top_safe htop) hrest
    refine ⟨g2, hone.stays.trans hmore.stays, hone.touched.trans hmore.touched, ?_⟩
    intro va' hout
    rw [List.length_cons] at hout
    rw [hmore.others va' (by omega), hone.others va' (by omega)]

end Effect

/-! ## Agreement -/

theorem copyout_byte_iff {r va : Nat} {b : Byte} (h : Books L g s) (hr : g.IsRoot r)
    (htop : TopSafe g r) (hva : va < MAXVA) :
    ∃ ret s1 stored s2, copyout L r va [b] s = .ok (ret, s1) ∧
      storeByte L r va b s = .ok (stored, s2) ∧ (ret = 0 ↔ stored = true) ∧
      (ret = 0 → s2 = s1) := by
  by_cases hrefused : Refused g r (va / PGSIZE)
  · have hno : wp (copyout L r va [b]) Fault.never (fun ret s' => ret = -1 ∧ s' = s) s :=
      wp_copyout_refused h hr htop (by simp) fun _ => hrefused
    obtain ⟨ret, s1, hcopy, rfl, -⟩ := wp_returns hno
    obtain ⟨stored, s2, hstore, rfl⟩ := wp_returns (wp_store_byte_refused h hr hva htop hrefused)
    exact ⟨-1, s1, false, s2, hcopy, hstore, by simp, by simp⟩
  obtain ⟨l, hv, hl, hu, hok⟩ := exists_leaf_of_not_refused hrefused
  obtain ⟨q, k, he⟩ := h.holds.entry_of_pt hl
  obtain ⟨pa, s1, hre, -⟩ := wp_returns (wp_re_page_opened h hr hv hl he hu)
  have hstore := store_byte_opened (b := b) h hr hva htop hv hl he hu hok hre
  by_cases hzero : pa = 0
  · have hcopy : copyout L r va [b] s = .ok (-1, s1) := by
      refine run_of_wp ((wp_copyout_page h hr hva hl he hu hok hre (by simp)).mpr ?_)
      rw [if_pos hzero]
      exact ⟨rfl, rfl⟩
    rw [if_pos hzero] at hstore
    exact ⟨-1, s1, false, s1, hcopy, hstore, by simp, by simp⟩
  · have hoffset : va % PGSIZE < PGSIZE := Nat.mod_lt _ (by decide)
    have hone : min (PGSIZE - va % PGSIZE) [b].length = 1 := by
      rw [List.length_singleton]
      omega
    have hcopy : copyout L r va [b] s = .ok (0, s1.moved pa (va % PGSIZE) [b]) := by
      refine run_of_wp ((wp_copyout_page h hr hva hl he hu hok hre (by simp)).mpr ?_)
      rw [if_neg hzero, hone]
      exact ⟨rfl, rfl⟩
    rw [if_neg hzero] at hstore
    exact ⟨0, _, true, _, hcopy, hstore, by simp, fun _ => rfl⟩

/-- `copyout` agrees with the stores of the process: one byte is copied exactly if it could be
stored, with the same state after it; and a copy that succeeds is the stores of its bytes and
changes no other byte of any process. -/
theorem copyout_is_stores (h : Sys L g s) {p : Slot} (hp : (s.proc p).state = .live) :
    (∀ va b, va < MAXVA → ∃ ret s1 stored s2,
      copyout L (s.proc p).pagetable va [b] s = .ok (ret, s1) ∧
      storeByte L (s.proc p).pagetable va b s = .ok (stored, s2) ∧
      (ret = 0 ↔ stored = true) ∧ (ret = 0 → s2 = s1)) ∧
    ∀ dstva src s', copyout L (s.proc p).pagetable dstva src s = .ok (0, s') →
      storeBytes L (s.proc p).pagetable dstva src s = .ok (true, s') ∧
      ∃ g', Sys L g' s' ∧ ∀ q va, q ≠ p ∨ va < dstva ∨ dstva + src.length ≤ va →
        (view g' s' q).sp.byte va = (view g s q).sp.byte va := by
  have hslot := h.slot p (by simp [hp])
  refine ⟨fun va b hva => copyout_byte_iff h.books hslot.root hslot.top.safe hva, ?_⟩
  intro dstva src s' hrun
  have hstores := stores_of_copyout_loop h.books hslot.root hslot.top.safe le_rfl hrun
  obtain ⟨g', hwrote⟩ := WroteOnly.of_store_bytes h.books hslot.root hslot.top.safe hstores
  obtain ⟨hsys, hview⟩ := h.touched (by simp [hp]) hwrote.stays hwrote.touched
  refine ⟨hstores, g', hsys, fun q va hother => ?_⟩
  rw [hview]
  by_cases hq : q = p
  · subst hq
    rw [update_self]
    exact hwrote.others va (by simpa using hother)
  · rw [update_of_ne hq]

/-- The child of a fork is copied to: the page is still shared with its parent. -/
theorem copyout_is_stores_forked : ∃ s1, (forked.proc 1).state = .live ∧
    copyout tightKernel (forked.proc 1).pagetable 16 [7] forked = .ok (0, s1) ∧
    storeBytes tightKernel (forked.proc 1).pagetable 16 [7] forked = .ok (true, s1) := by
  obtain ⟨g, hsys⟩ := sys_of_reachable forked_reachable
  obtain ⟨s1, hcopy⟩ : ∃ s1, copyout tightKernel (forked.proc 1).pagetable 16 [7] forked =
      .ok (0, s1) := ok_of_value (by decide +kernel)
  have hstores := (copyout_is_stores hsys forked_live.2.1).2 16 [7] s1 hcopy
  exact ⟨s1, forked_live.2.1, hcopy, hstores.1⟩

end Xv6.Vm
