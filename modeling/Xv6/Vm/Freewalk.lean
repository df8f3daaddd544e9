import Xv6.Vm.Walk

/-!
# Freeing a page table

`freewalk` frees the pages of a table bottom-up while the entries above still point to them. The
proof first takes the table out of the ghost (`Ghost.detach`): its pages are in the hands of the
running code, and what `freewalk` reads from them is what the table held before. `wp_freewalk`
then frees the pages below one table page, by induction on the level.
-/

namespace Xv6.Vm

open Function

variable {L : Layout} {g : Ghost} {s : State} {E : Fault → Prop} {x l q freelist pa : Nat}
  {mem : Nat → Page}

/-- Take table `r` out of the ghost; its pages are in hand. -/
def Ghost.detach (g : Ghost) (mem : Nat → Page) (r : Nat) : Ghost where
  use := fun pa =>
    match g.use pa with
    | .table r' l x => if r' = r then .hand else .table r' l x
    | u => u
  tab := fun r' l x => if r' = r then none else g.tab r' l x
  pt := fun r' v => if r' = r then none else g.pt r' v
  data := fun pa =>
    match g.use pa with
    | .table r' _ _ => if r' = r then mem pa else g.data pa
    | _ => g.data pa

theorem detach_use {r : Nat} (h : ∀ l x, g.use pa ≠ .table r l x) :
    (g.detach mem r).use pa = g.use pa ∧ (g.detach mem r).data pa = g.data pa := by
  simp only [Ghost.detach]
  cases hu : g.use pa with
  | table r' l x =>
    have hne : r' ≠ r := by
      rintro rfl
      exact h l x hu
    simp [hne]
  | _ => simp

theorem detach_table {r : Nat} (h : g.use pa = .table r l x) :
    (g.detach mem r).use pa = .hand ∧ (g.detach mem r).data pa = mem pa := by
  simp [Ghost.detach, h]

theorem Rep.detach (h : Rep L g mem freelist) (r : Nat) :
    Rep L (g.detach mem r) mem freelist := by
  have hcases (pa : Nat) : (∃ l x, g.use pa = .table r l x ∧ (g.detach mem r).use pa = .hand ∧
      (g.detach mem r).data pa = mem pa) ∨ (∀ l x, g.use pa ≠ .table r l x) ∧
      (g.detach mem r).use pa = g.use pa ∧ (g.detach mem r).data pa = g.data pa := by
    by_cases hpa : ∃ l x, g.use pa = .table r l x
    · obtain ⟨l, x, hpa⟩ := hpa
      exact .inl ⟨l, x, hpa, detach_table hpa⟩
    · exact .inr ⟨by simpa using hpa, detach_use (by simpa using hpa)⟩
  refine ⟨?_, ?_, ?_, ?_, ?_, ?_, ?_, ?_, ?_, ?_⟩
  · intro pa
    have := hcases pa
    rw [← h.pages pa]
    grind
  · obtain ⟨l, hchain, hnodup, hmem⟩ := h.free
    refine ⟨l, hchain, hnodup, ?_⟩
    intro pa
    have := hcases pa
    have := hmem pa
    grind
  · intro r' l x pa
    have := hcases pa
    have := h.tab r' l x pa
    simp only [Ghost.detach] at *
    grind
  · intro r' l x pa hpa
    have := h.top r' l x pa
    simp only [Ghost.detach] at hpa
    grind
  · intro r' l x hl hpa
    have := h.orphan r' l x hl
    simp only [Ghost.detach] at hpa ⊢
    grind
  · intro r' l x q hq j hj
    have := h.inner r' l x q
    simp only [Ghost.detach] at hq ⊢
    grind
  · intro r' x q hq k hk
    have := h.leaf r' x q
    simp only [Ghost.detach] at hq ⊢
    grind
  · intro r' v hv
    have := h.absent r' v
    simp only [Ghost.detach] at hv ⊢
    grind
  · intro r' v l hl
    have := h.addr r' v l
    simp only [Ghost.detach] at hl
    grind
  · intro pa hpa
    have := hcases pa
    have := h.data pa
    grind

/-! ## The pages below a table page -/

/-- `pa` is the page at level `l` and index `x` of table `r`, or below it. -/
def Ghost.Below (g : Ghost) (r l x pa : Nat) : Prop :=
  ∃ l' x', l' ≤ l ∧ g.tab r l' x' = some pa ∧ x' / 512 ^ (l - l') = x

theorem Rep.ancestor (h : Rep L g mem freelist) {r d : Nat} (hpa : g.tab r l x = some pa)
    (hd : l + d ≤ 2) :
    ∃ q, g.tab r (l + d) (x / 512 ^ d) = some q := by
  induction d with
  | zero => exact ⟨pa, by simpa using hpa⟩
  | succ d ih =>
    obtain ⟨q, hq⟩ := ih (by omega)
    cases hup : g.tab r (l + d + 1) (x / 512 ^ d / 512) with
    | none =>
      rw [h.orphan r (l + d) _ (by omega) hup] at hq
      exact absurd hq (by simp)
    | some q' =>
      refine ⟨q', ?_⟩
      rw [pow_succ, ← Nat.div_div_eq_div_mul]
      exact hup

theorem Rep.not_below (h : Rep L g mem freelist) {r : Nat} (hl : l ≤ 2) (hnone : g.tab r l x = none)
    (pa : Nat) : ¬ g.Below r l x pa := by
  rintro ⟨l', x', hle, hpa, rfl⟩
  obtain ⟨q, hq⟩ := h.ancestor hpa (d := l - l') (by omega)
  rw [show l' + (l - l') = l by omega, hnone] at hq
  exact absurd hq (by simp)

/-- The pages below an inner page are the page itself and those below its entries. -/
theorem below_succ {r : Nat} (hq : g.tab r (l + 1) x = some q) (pa : Nat) :
    g.Below r (l + 1) x pa ↔ pa = q ∨ ∃ j < 512, g.Below r l (x * 512 + j) pa := by
  constructor
  · rintro ⟨l', x', hle, hpa, hx⟩
    by_cases htop : l' = l + 1
    · subst htop
      left
      rw [Nat.sub_self, pow_zero, Nat.div_one] at hx
      rw [hx, hq] at hpa
      exact (Option.some.inj hpa).symm
    · right
      refine ⟨x' / 512 ^ (l - l') % 512, Nat.mod_lt _ (by decide), l', x', by omega, hpa, ?_⟩
      rw [show l + 1 - l' = (l - l') + 1 by omega, pow_succ, ← Nat.div_div_eq_div_mul] at hx
      omega
  · rintro (rfl | ⟨j, hj, l', x', hle, hpa, hx⟩)
    · exact ⟨l + 1, x, le_rfl, hq, by simp⟩
    · refine ⟨l', x', by omega, hpa, ?_⟩
      rw [show l + 1 - l' = (l - l') + 1 by omega, pow_succ, ← Nat.div_div_eq_div_mul, hx]
      omega

theorem below_zero {r : Nat} (hq : g.tab r 0 x = some q) (pa : Nat) :
    g.Below r 0 x pa ↔ pa = q := by
  constructor
  · rintro ⟨l', x', hle, hpa, hx⟩
    obtain rfl : l' = 0 := by omega
    rw [Nat.sub_self, pow_zero, Nat.div_one] at hx
    rw [hx, hq] at hpa
    exact (Option.some.inj hpa).symm
  · rintro rfl
    exact ⟨0, x, le_rfl, hq, by simp⟩

/-- A page is below one entry of an inner page only, and not the inner page itself. -/
theorem Rep.below_unique (h : Rep L g mem freelist) {r j j' : Nat}
    (hpa : g.Below r l (x * 512 + j) pa) (hpa' : g.Below r l (x * 512 + j') pa) : j = j' := by
  obtain ⟨l1, x1, hle1, htab1, hx1⟩ := hpa
  obtain ⟨l2, x2, hle2, htab2, hx2⟩ := hpa'
  obtain ⟨-, rfl, rfl⟩ := h.tab_inj htab1 htab2
  omega

theorem Rep.below_ne (h : Rep L g mem freelist) {r y : Nat} (hq : g.tab r (l + 1) x = some q)
    (hpa : g.Below r l y pa) : pa ≠ q := by
  rintro rfl
  obtain ⟨l', x', hle, htab, -⟩ := hpa
  have hsame := h.tab_inj htab hq
  omega

/-! ## `freewalk` -/

/-- The pages in `S` went back to the free list; nothing else changed. -/
structure Freed (S : Nat → Prop) (g g' : Ghost) : Prop where
  free : ∀ pa, S pa → g'.use pa = .free
  use : ∀ pa, ¬ S pa → g'.use pa = g.use pa
  tab : g'.tab = g.tab
  pt : g'.pt = g.pt
  data : ∀ pa, ¬ S pa → g'.data pa = g.data pa

/-- The loop of `freewalk` over the entries of page `q`, before entry `k`: the pages below the
first `k` entries are free, and the other entries are as they were. -/
structure LoopInv (L : Layout) (below : Nat → Nat → Prop) (page : Page) (q : Nat) (g : Ghost)
    (s : State) (k : Nat) (s' : State) (g' : Ghost) : Prop where
  books : SameBooks s s'
  failed : s'.failed = s.failed
  holds : Holds L g' s'
  free : ∀ pa, (∃ j < k, below j pa) → g'.use pa = .free
  use : ∀ pa, (¬ ∃ j < k, below j pa) → g'.use pa = g.use pa
  tab : g'.tab = g.tab
  pt : g'.pt = g.pt
  data : ∀ pa, (¬ ∃ j < k, below j pa) → pa ≠ q → g'.data pa = g.data pa
  later : ∀ j, k ≤ j → g'.data q j = page j

section Freewalk

variable {g0 : Ghost} {mem0 : Nat → Page} {freelist0 r : Nat}

theorem wp_kfree_last {k : Nat} {below : Nat → Nat → Prop} {s' : State} {g' : Ghost}
    (hinv : LoopInv L below (mem0 q) q g s k s' g') (hhand : g.use q = .hand)
    (hself : ¬ ∃ j < k, below j q) :
    wp (kfree L q) E (fun _ s'' => SameBooks s s'' ∧ s''.failed = s.failed ∧
      ∃ g'', Holds L g'' s'' ∧ Freed (fun pa => pa = q ∨ ∃ j < k, below j pa) g g'') s' := by
  have hdata : (g'.use q).holdsData = true := by
    rw [hinv.use q hself, hhand]
    rfl
  refine wp_mono (wp_kfree hinv.holds hdata) ?_
  · intro _ s'' hfree
    obtain ⟨hbooks, hfailed, hholds⟩ := hfree
    refine ⟨hinv.books.trans hbooks, hfailed.trans hinv.failed, g'.give q, hholds, ?_⟩
    refine ⟨?_, ?_, hinv.tab, hinv.pt, ?_⟩
    · intro pa hpa
      have hbelow := hinv.free pa
      simp only [Ghost.give, update_apply]
      grind
    · intro pa hpa
      have hrest := hinv.use pa
      simp only [Ghost.give, update_apply]
      grind
    · intro pa hpa
      have hrest := hinv.data pa
      simp only [Ghost.give]
      grind

/-- `freewalk` of a table page whose entries are all zero. -/
theorem wp_freewalk_low (h0 : Rep L g0 mem0 freelist0) (hempty : ∀ v, g0.pt r v = none)
    (hq : g0.tab r 0 x = some q) (h : Holds L g s)
    (hbelow : ∀ pa, g0.Below r 0 x pa → g.use pa = .hand ∧ g.data pa = mem0 pa) :
    wp (freewalk L 1 q) E (fun _ s' => SameBooks s s' ∧ s'.failed = s.failed ∧
      ∃ g', Holds L g' s' ∧ Freed (g0.Below r 0 x) g g') s := by
  have hself := hbelow q ((below_zero hq q).mpr rfl)
  have hword : ∀ k < 512, s.mem q k = 0 := by
    intro k hk
    rw [h.data q (by rw [hself.1]; rfl), hself.2, h0.leaf r x q hq k hk, hempty]
    rfl
  simp only [freewalk, wp_bind]
  refine wp_mono (wp_for_each (fun _ s' => s' = s) ?_ rfl) ?_
  · intro k s' hs'
    subst hs'
    simp only [wp_bind, wp_readWord, wp_pure, hword k k.isLt, has_flag_zero,
      Bool.false_eq_true, false_and, if_false]
  · intro _ s' hs'
    subst hs'
    have hinv : LoopInv L (fun _ _ => False) (mem0 q) q g s' 0 s' g :=
      ⟨.refl s', rfl, h, by simp, by simp, rfl, rfl, by simp, fun j _ => by rw [hself.2]⟩
    refine wp_mono (wp_kfree_last hinv hself.1 (by simp)) ?_
    intro _ s'' hlast
    obtain ⟨hbooks, hfailed, g'', hholds, hfreed⟩ := hlast
    refine ⟨hbooks, hfailed, g'', hholds, ?_⟩
    have hset : (fun pa => pa = q ∨ ∃ j < 0, False) = g0.Below r 0 x := by
      funext pa
      simp [below_zero hq pa]
    rwa [hset] at hfreed

/-- One turn of the loop over an inner page, given `freewalk` one level down. -/
theorem freewalk_turn (h0 : Rep L g0 mem0 freelist0) (hl : l < 2) (hq : g0.tab r (l + 1) x = some q)
    (hself : g.use q = .hand)
    (hbelow : ∀ pa, g0.Below r (l + 1) x pa → g.use pa = .hand ∧ g.data pa = mem0 pa)
    (ih : ∀ {y q' : Nat} {g : Ghost} {s : State}, g0.tab r l y = some q' → Holds L g s →
      (∀ pa, g0.Below r l y pa → g.use pa = .hand ∧ g.data pa = mem0 pa) →
      wp (freewalk L (l + 1) q') E (fun _ s' => SameBooks s s' ∧ s'.failed = s.failed ∧
        ∃ g', Holds L g' s' ∧ Freed (g0.Below r l y) g g') s) {k : Nat} (hk : k < 512) {s' : State}
    {g' : Ghost} (hinv : LoopInv L (fun j => g0.Below r l (x * 512 + j)) (mem0 q) q g s k s' g') :
    wp (do
      let pte ← readWord q k
      if hasFlag pte PTE_V ∧ hasFlag pte (PTE_R ||| PTE_W ||| PTE_X) = false then
        freewalk L (l + 1) (PTE2PA pte)
        writeWord q k 0
      else if hasFlag pte PTE_V then kpanic "freewalk: leaf"
      else pure ()) E (fun _ s'' => ∃ g'',
        LoopInv L (fun j => g0.Below r l (x * 512 + j)) (mem0 q) q g s (k + 1) s'' g'') s' := by
  have hnotself : ¬ ∃ j < k, g0.Below r l (x * 512 + j) q := by
    rintro ⟨j, -, hj⟩
    exact h0.below_ne hq hj rfl
  have hhand : g'.use q = .hand := by rw [hinv.use q hnotself, hself]
  have hword : s'.mem q k = linkOf (g0.tab r l (x * 512 + k)) := by
    rw [hinv.holds.data q (by rw [hhand]; rfl), hinv.later k le_rfl, h0.inner r l x q hq k hk]
  simp only [wp_bind, wp_readWord, hword]
  cases hkid : g0.tab r l (x * 512 + k) with
  | none =>
    have hnone := h0.not_below (by omega) hkid
    simp only [linkOf, has_flag_zero, Bool.false_eq_true, false_and, if_false, wp_pure]
    have hsame : ∀ pa, (∃ j < k + 1, g0.Below r l (x * 512 + j) pa) ↔
        ∃ j < k, g0.Below r l (x * 512 + j) pa := by
      intro pa
      constructor
      · rintro ⟨j, hj, hpa⟩
        refine ⟨j, ?_, hpa⟩
        by_contra hge
        obtain rfl : j = k := by omega
        exact hnone pa hpa
      · rintro ⟨j, hj, hpa⟩
        exact ⟨j, by omega, hpa⟩
    refine ⟨g', hinv.books, hinv.failed, hinv.holds, ?_, ?_, hinv.tab, hinv.pt, ?_, ?_⟩
    · exact fun pa hpa => hinv.free pa ((hsame pa).mp hpa)
    · exact fun pa hpa => hinv.use pa fun hpa' => hpa ((hsame pa).mpr hpa')
    · exact fun pa hpa hne => hinv.data pa (fun hpa' => hpa ((hsame pa).mpr hpa')) hne
    · exact fun j hj => hinv.later j (by omega)
  | some kid =>
    have haddr := h0.tab_addr hkid
    simp only [linkOf, link_has_v haddr, link_not_leaf haddr, true_and, if_true, wp_bind,
      link_pa haddr]
    -- the pages below this entry are untouched so far
    have hfresh : ∀ pa, g0.Below r l (x * 512 + k) pa →
        (¬ ∃ j < k, g0.Below r l (x * 512 + j) pa) ∧ pa ≠ q := by
      intro pa hpa
      refine ⟨?_, h0.below_ne hq hpa⟩
      rintro ⟨j, hj, hpa'⟩
      have := h0.below_unique hpa hpa'
      omega
    refine wp_mono (ih hkid hinv.holds ?_) ?_
    · intro pa hpa
      obtain ⟨hnot, hne⟩ := hfresh pa hpa
      have horig := hbelow pa ((below_succ hq pa).mpr (.inr ⟨k, hk, hpa⟩))
      rw [hinv.use pa hnot, hinv.data pa hnot hne]
      exact horig
    · intro _ s1 hkidfree
      obtain ⟨hbooks, hfailed, g1, hholds, hfreed⟩ := hkidfree
      have hqbelow : ¬ g0.Below r l (x * 512 + k) q := fun hpa => h0.below_ne hq hpa rfl
      have hearlier : ∀ {pa}, (∃ j < k, g0.Below r l (x * 512 + j) pa) →
          ∃ j < k + 1, g0.Below r l (x * 512 + j) pa := by
        rintro pa ⟨j, hj, hpa⟩
        exact ⟨j, by omega, hpa⟩
      have hhand1 : g1.use q = .hand := by rw [hfreed.use q hqbelow, hhand]
      simp only [writeWord, wp_modify]
      have hfill := hholds.fill (show (g1.use q).holdsData = true by rw [hhand1]; rfl)
        (update (s1.mem q) k 0)
      refine ⟨g1.fill q (update (s1.mem q) k 0), ?_, hfailed.trans hinv.failed, hfill,
        ?_, ?_, hfreed.tab.trans hinv.tab, hfreed.pt.trans hinv.pt, ?_, ?_⟩
      · exact ⟨hbooks.pgref.trans hinv.books.pgref, hbooks.proc.trans hinv.books.proc,
          hbooks.held.trans hinv.books.held, hbooks.granted.trans hinv.books.granted⟩
      · rintro pa ⟨j, hj, hpa⟩
        by_cases hjk : j = k
        · subst hjk
          exact hfreed.free pa hpa
        · by_cases hpak : g0.Below r l (x * 512 + k) pa
          · exact hfreed.free pa hpak
          · show g1.use pa = .free
            rw [hfreed.use pa hpak, hinv.free pa ⟨j, by omega, hpa⟩]
      · intro pa hpa
        have hpak : ¬ g0.Below r l (x * 512 + k) pa := fun h' => hpa ⟨k, by omega, h'⟩
        show g1.use pa = g.use pa
        rw [hfreed.use pa hpak, hinv.use pa fun hpa' => hpa (hearlier hpa')]
      · intro pa hpa hne
        have hpak : ¬ g0.Below r l (x * 512 + k) pa := fun h' => hpa ⟨k, by omega, h'⟩
        simp only [Ghost.fill, update_of_ne hne]
        rw [hfreed.data pa hpak, hinv.data pa (fun hpa' => hpa (hearlier hpa')) hne]
      · intro j hj
        simp only [Ghost.fill, update_self, update_of_ne (show j ≠ k by omega)]
        rw [hholds.data q (by rw [hhand1]; rfl), hfreed.data q hqbelow, hinv.later j (by omega)]

/-- `freewalk` gives back the pages at and below one page of an empty table. -/
theorem wp_freewalk_from (h0 : Rep L g0 mem0 freelist0) (hempty : ∀ v, g0.pt r v = none)
    (hl : l ≤ 2) (hq : g0.tab r l x = some q) (h : Holds L g s)
    (hbelow : ∀ pa, g0.Below r l x pa → g.use pa = .hand ∧ g.data pa = mem0 pa) :
    wp (freewalk L (l + 1) q) E (fun _ s' => SameBooks s s' ∧ s'.failed = s.failed ∧
      ∃ g', Holds L g' s' ∧ Freed (g0.Below r l x) g g') s := by
  induction l generalizing x q g s with
  | zero => exact wp_freewalk_low h0 hempty hq h hbelow
  | succ l ih =>
    have hself := hbelow q ((below_succ hq q).mpr (.inl rfl))
    rw [freewalk]
    refine wp_seq (wp_for_each (fun k s' => ∃ g',
      LoopInv L (fun j => g0.Below r l (x * 512 + j)) (mem0 q) q g s k s' g') ?_ ?_) ?_
    · intro k s' hinv
      obtain ⟨g', hinv⟩ := hinv
      exact freewalk_turn h0 (by omega) hq hself.1 hbelow (ih (by omega)) k.isLt hinv
    · exact ⟨g, .refl s, rfl, h, by simp, by simp, rfl, rfl, by simp,
        fun j _ => by rw [hself.2]⟩
    · intro _ s' hinv
      obtain ⟨g', hinv⟩ := hinv
      refine wp_mono (wp_kfree_last hinv hself.1 ?_) ?_
      · rintro ⟨j, -, hj⟩
        exact h0.below_ne hq hj rfl
      · intro _ s'' hlast
        obtain ⟨hbooks, hfailed, g'', hholds, hfreed⟩ := hlast
        refine ⟨hbooks, hfailed, g'', hholds, ?_⟩
        have hset : (fun pa => pa = q ∨ ∃ j < 512, g0.Below r l (x * 512 + j) pa) =
            g0.Below r (l + 1) x := by
          funext pa
          exact propext (below_succ hq pa).symm
        rwa [hset] at hfreed

end Freewalk

/-- Table `r` is gone and its pages are free; every other page is as before. -/
structure TableFreed (r : Nat) (g g' : Ghost) : Prop where
  free : ∀ pa l x, g.use pa = .table r l x → g'.use pa = .free
  use : ∀ pa, (∀ l x, g.use pa ≠ .table r l x) → g'.use pa = g.use pa
  data : ∀ pa, (∀ l x, g.use pa ≠ .table r l x) → g'.data pa = g.data pa
  pt : ∀ r', r' ≠ r → g'.pt r' = g.pt r'
  gone : ∀ v, g'.pt r v = none

theorem wp_freewalk (h : Holds L g s) {r : Nat} (hr : g.IsRoot r) (hempty : ∀ v, g.pt r v = none) :
    wp (freewalk L 3 r) E (fun _ s' => SameBooks s s' ∧ s'.failed = s.failed ∧
      ∃ g', Holds L g' s' ∧ TableFreed r g g') s := by
  have hdetach : Holds L (g.detach s.mem r) s := Rep.detach h r
  have htable : ∀ pa, g.Below r 2 0 pa ↔ ∃ l x, g.use pa = .table r l x := by
    intro pa
    constructor
    · rintro ⟨l, x, -, hpa, -⟩
      exact ⟨l, x, (h.tab _ _ _ _).mp hpa⟩
    · rintro ⟨l, x, hpa⟩
      have htab := (h.tab r l x pa).mpr hpa
      have hl := (h.top r l x pa htab).1
      refine ⟨l, x, hl, htab, ?_⟩
      obtain ⟨q, hq⟩ := h.ancestor htab (d := 2 - l) (by omega)
      rw [show l + (2 - l) = 2 by omega] at hq
      exact ((h.top r 2 _ q hq).2 rfl).1
  refine wp_mono (wp_freewalk_from h hempty (l := 2) le_rfl hr hdetach ?_) ?_
  · intro pa hpa
    obtain ⟨l, x, hpa⟩ := (htable pa).mp hpa
    exact detach_table hpa
  · intro _ s' hpost
    obtain ⟨hbooks, hfailed, g', hholds, hfreed⟩ := hpost
    refine ⟨hbooks, hfailed, g', hholds, ?_, ?_, ?_, ?_, ?_⟩
    · intro pa l x hpa
      exact hfreed.free pa ((htable pa).mpr ⟨l, x, hpa⟩)
    · intro pa hpa
      rw [hfreed.use pa (by rw [htable]; simpa using hpa), (detach_use hpa).1]
    · intro pa hpa
      rw [hfreed.data pa (by rw [htable]; simpa using hpa), (detach_use hpa).2]
    · intro r' hne
      funext v
      simp [hfreed.pt, Ghost.detach, hne]
    · intro v
      simp [hfreed.pt, Ghost.detach]

end Xv6.Vm
