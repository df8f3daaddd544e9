import Xv6.Thread.Exit
import Xv6.Thread.Consistency
import Xv6.Thread.Pages

/-!
# `exec` in a threaded process

`exec` builds a new page table next to the old one and then either gives it up or commits to it.
A table that is given up goes back to the free list page by page, so it leaves no trace in memory
(`wp_build_image_exact`). After a commit the other threads are gone and the caller is alone with
its new table (`Committed`). `wp_exec_exact` puts both together, for a call that returns.
-/

namespace Xv6.Thread.Calls

open Function (update update_of_ne update_self)

variable {s s' : System} {p q r : Slot} {t : TableId} {m m' m'' m0 : Mem} {E : Fault → Prop}
  {frame : Page}

/-! ## The table of a new image -/

/-- Table `t` has got more entries, from the free list, and its old ones still map their pages. -/
structure Extends (t : TableId) (m m' : Mem) : Prop where
  on : On t m m'
  total : m'.total t = m.total t
  page : ∀ v l, m.leaf t v = some l → ∃ l', m'.leaf t v = some l' ∧ l'.page = l.page

theorem Extends.refl (t : TableId) (m : Mem) : Extends t m m :=
  ⟨.refl t m, rfl, fun _ l hl => ⟨l, hl, rfl⟩⟩

theorem Extends.trans (h : Extends t m m') (h' : Extends t m' m'') : Extends t m m'' := by
  refine ⟨h.on.trans h'.on, h'.total.trans h.total, fun v l hl => ?_⟩
  obtain ⟨l', hl', hpage'⟩ := h.page v l hl
  obtain ⟨l'', hl'', hpage''⟩ := h'.page v l' hl'
  exact ⟨l'', hl'', hpage''.trans hpage'⟩

/-- What code does to a table in use. -/
def Grows (t : TableId) (m m' : Mem) : Prop := m.Live t → Extends t m m'

instance (t : TableId) : Std.Refl (Grows t) := ⟨fun m _ => .refl t m⟩

instance (t : TableId) : IsTrans Mem (Grows t) :=
  ⟨fun _ _ _ h h' hlive => (h hlive).trans (h' ((h hlive).on.live.mpr hlive))⟩

theorem grows_of_live {α : Type} {code : MemCode α}
    (h : ∀ m, m.Live t → wp code Fault.any (fun _ => Extends t m) m) :
    Respects (Grows t) Fault.any code := by
  intro m
  by_cases hlive : m.Live t
  · exact wp_mono (h m hlive) fun _ m' hm' _ => hm'
  · exact wp_mono (wp_any code) fun _ m' _ hlive' => absurd hlive' hlive

theorem grows_uvmalloc (t : TableId) (oldsz newsz : Nat) (xperm : Perm) :
    Respects (Grows t) Fault.any (uvmalloc t oldsz newsz xperm) := by
  refine grows_of_live fun m hlive => ?_
  by_cases hle : oldsz ≤ newsz
  · refine wp_mono (wp_uvmalloc hle hlive (fun _ _ _ _ => trivial) fun _ _ _ _ => trivial)
      fun r m' h' => ?_
    rcases h' with ⟨-, -, h'⟩ | ⟨-, -, h'⟩
    · refine ⟨h'.on, h'.total, fun v l hl => ⟨l, ?_, rfl⟩⟩
      rw [h'.old v fun hin => ?_, hl]
      rw [(h'.new v hin.1 hin.2).1] at hl
      cases hl
    · refine ⟨h'.on, h'.total, fun v l hl => ⟨l, ?_, rfl⟩⟩
      rw [h'.leaf, hl]
  · unfold uvmalloc
    rw [if_pos (by omega)]
    exact .refl t m

theorem grows_walkaddr (t : TableId) (va : Nat) :
    Respects (Grows t) Fault.any (walkaddr t va) := by
  refine grows_of_live fun m hlive => ?_
  unfold walkaddr
  split
  next => exact .refl t m
  next hva =>
    rw [wp_bind]
    refine wp_walk_look hlive (by omega) fun found _ => ?_
    split
    next =>
      rw [wp_bind]
      refine wp_read_leaf hlive ?_
      split
      next => exact .refl t m
      next => exact .refl t m
    next => exact .refl t m

theorem grows_copyout (t : TableId) (va : Nat) (src : List Byte) :
    Respects (Grows t) Fault.any (copyout t va src) :=
  grows_of_live fun _ hlive => wp_copyout hlive fun _ _ =>
    ⟨⟨fun _ _ => rfl, rfl, Iff.rfl⟩, rfl, fun _ l hl => ⟨l, hl, rfl⟩⟩

theorem grows_uvmclear (t : TableId) (va : Nat) :
    Respects (Grows t) Fault.any (uvmclear t va) := by
  refine grows_of_live fun m hlive => ?_
  unfold uvmclear
  rw [wp_bind]
  by_cases hva : va < MAXVA
  · refine wp_walk_look hlive hva fun found _ => ?_
    split
    next =>
      rw [wp_bind]
      refine wp_read_leaf hlive ?_
      split
      next => exact .refl t m
      next l hl =>
        simp only [writeLeaf, wp_bind]
        refine wp_table hlive fun pt hpt => ?_
        simp only [setTable, wp_modify]
        have hlookup : pt.leaves.lookup (va / PGSIZE) = some l := by
          rw [← leaf_of_table hpt, hl]
        show Extends t m (m.put t m.free { pt with
          leaves := pt.leaves.insert (va / PGSIZE) { l with perm := { l.perm with u := false } } })
        refine ⟨on_put hpt, ?_, fun v l' hl' => ?_⟩
        · rw [put_total, pages_change_leaf _ hlookup, ← total_of_table hpt]
        · rw [put_leaf]
          by_cases hv : v = va / PGSIZE
          · subst hv
            obtain rfl : l = l' := Option.some.inj (hl.symm.trans hl')
            exact ⟨_, AList.lookup_insert _, rfl⟩
          · rw [AList.lookup_insert_ne hv, ← leaf_of_table hpt]
            exact ⟨l', hl', rfl⟩
    next => exact trivial
  · unfold walk
    rw [if_pos (by omega)]
    exact trivial

/-- Table `t` is new since `m0`. It maps the trampoline and the trapframe `frame` of its owner,
and all other pages in it come from the free list. -/
structure Image (m0 : Mem) (frame : Page) (t : TableId) (m : Mem) : Prop where
  fresh : m0.tables t = none
  apart : ∀ t', t' ≠ t → m.tables t' = m0.tables t'
  live : m.Live t
  trampolinePage : ∃ l, m.leaf t (TRAMPOLINE / PGSIZE) = some l ∧ l.page = trampoline
  trapframePage : ∃ l, m.leaf t (TRAPFRAME / PGSIZE) = some l ∧ l.page = frame
  total : m.total t = frame ::ₘ trampoline ::ₘ (m0.free : Multiset Page)

theorem Image.extends (h : Image m0 frame t m) (h' : Grows t m m') : Image m0 frame t m' := by
  have hgrown := h' h.live
  obtain ⟨l, hl, hpage⟩ := h.trampolinePage
  obtain ⟨k, hk, hframe⟩ := h.trapframePage
  obtain ⟨l', hl', hpage'⟩ := hgrown.page _ l hl
  obtain ⟨k', hk', hframe'⟩ := hgrown.page _ k hk
  exact ⟨h.fresh, fun t' ht' => (hgrown.on.apart t' ht').trans (h.apart t' ht'),
    hgrown.on.live.mpr h.live, ⟨l', hl', hpage'.trans hpage⟩, ⟨k', hk', hframe'.trans hframe⟩,
    hgrown.total.trans h.total⟩

/-- The same tables, and the same free pages. -/
structure Recovered (m0 m : Mem) : Prop where
  tables : m.tables = m0.tables
  free : m.free.Perm m0.free

theorem Recovered.refl (m : Mem) : Recovered m m := ⟨rfl, .refl _⟩

/-- A new table that holds no pages but its own is freed. -/
theorem recovered_of_freed (hfresh : m0.tables t = none)
    (hapart : ∀ t', t' ≠ t → m.tables t' = m0.tables t')
    (htotal : m.total t = (m0.free : Multiset Page)) (h : Freed t m m') : Recovered m0 m' := by
  refine ⟨funext fun t' => ?_, Multiset.coe_eq_coe.mp (h.free.trans htotal)⟩
  by_cases ht : t' = t
  · rw [ht, h.gone, hfresh]
  · rw [h.apart t' ht, hapart t' ht]

theorem total_of_unmap {v : Nat} {l : Leaf} {rest : Multiset Page} (hl : m.leaf t v = some l)
    (h : m.total t = l.page ::ₘ rest) : (m.unmap t v).total t = rest :=
  (Multiset.cons_inj_right l.page).mp ((total_unmap hl).symm.trans h)

/-- `proc_freepagetable` of a new table gives back exactly what it took. -/
theorem wp_free_image {sz : Nat} (h : Image m0 frame t s.mem) :
    wp (procFreepagetable none t sz) Fault.any
      (fun _ s' => s'.proc = s.proc ∧ Recovered m0 s'.mem) s := by
  obtain ⟨l, hl, hpage⟩ := h.trampolinePage
  obtain ⟨k, hk, hframe⟩ := h.trapframePage
  simp only [procFreepagetable, wp_bind, wp_get]
  split
  next =>
    simp only [wp_bind, wp_on_mem]
    refine wp_mono wp_uvmunmap_any ?_
    rintro _ m1 ⟨-, rfl⟩
    refine wp_mono wp_uvmunmap_any ?_
    rintro _ m2 ⟨-, rfl⟩
    refine wp_mono (wp_uvmfree_total sz) fun _ m3 h3 => ⟨trivial, ?_⟩
    refine recovered_of_freed h.fresh (fun t' ht' => ?_) ?_ h3
    · rw [(on_unmap _ _ _).apart t' ht', (on_unmap _ _ _).apart t' ht', h.apart t' ht']
    · have htop : (s.mem.unmap t (TRAMPOLINE / PGSIZE)).total t =
          frame ::ₘ (m0.free : Multiset Page) := by
        refine total_of_unmap hl ?_
        rw [h.total, hpage, Multiset.cons_swap]
      have hk' : (s.mem.unmap t (TRAMPOLINE / PGSIZE)).leaf t (TRAPFRAME / PGSIZE) = some k := by
        rw [leaf_unmap, if_neg fun hsame => absurd hsame.2 (by decide), hk]
      refine total_of_unmap hk' ?_
      rw [htop, hframe]
  next => exact trivial

/-- The slots once `p->trapframe_va` is set to `TRAPFRAME`. -/
def topped (s : System) (p : Slot) : Slot → Task :=
  update s.proc p { s.proc p with trapframeVa := TRAPFRAME }

/-- `proc_pagetable` returns a new table, or leaves memory as it was. -/
theorem wp_proc_pagetable_exact (hnew : s.mem.tables s.mem.nextTable = none) :
    wp (procPagetable p) Fault.any (fun made s' =>
      (made = none → (s'.proc = s.proc ∨ s'.proc = topped s p) ∧ Recovered s.mem s'.mem) ∧
      ∀ t, made = some t → s'.proc = topped s p ∧
        Image s.mem ((s.proc p).trapframe.getD 0) t s'.mem) s := by
  simp only [procPagetable, wp_bind, wp_on_mem]
  refine wp_mono wp_uvmcreate_total fun made m1 h1 => ?_
  cases made with
  | none =>
    rw [h1.1 rfl]
    exact ⟨fun _ => ⟨.inl rfl, .refl _⟩, fun t ht => by cases ht⟩
  | some t =>
    have hcreated := h1.2 t rfl
    have hfresh : s.mem.tables t = none := hcreated.number ▸ hnew
    simp only [wp_bind, wp_on_mem]
    refine wp_mono (wp_mappages_one hcreated.live (by decide) (fun _ => trivial)
      fun _ => trivial) fun done m2 h2 => ?_
    cases done with
    | false =>
      simp only [Bool.false_eq_true, if_false, wp_bind, wp_on_mem]
      refine wp_mono (wp_uvmfree_total 0) fun _ m3 h3 => ?_
      refine ⟨fun _ => ⟨.inl rfl, ?_⟩, fun t ht => by cases ht⟩
      refine recovered_of_freed hfresh (fun t' ht' => ?_) (h2.total.trans hcreated.total) h3
      rw [h2.on.apart t' ht', hcreated.apart t' ht']
    | true =>
      have htotal2 : m2.total t = trampoline ::ₘ (s.mem.free : Multiset Page) := by
        rw [← hcreated.total]
        exact h2.total
      have hlive2 := h2.on.live.mpr hcreated.live
      have hleaf2 : m2.leaf t (TRAMPOLINE / PGSIZE) = some ⟨trampoline, { x := true }⟩ := by
        rw [h2.wrote rfl, if_pos rfl]
      simp only [if_true, wp_bind, wp_set_proc, wp_get, wp_on_mem, update_self]
      refine wp_mono (wp_mappages_one hlive2 (by decide) (fun _ => trivial)
        fun _ => trivial) fun done m3 h3 => ?_
      have hapart3 : ∀ t', t' ≠ t → m3.tables t' = s.mem.tables t' := by
        intro t' ht'
        rw [h3.on.apart t' ht', h2.on.apart t' ht', hcreated.apart t' ht']
      cases done with
      | false =>
        simp only [Bool.false_eq_true, if_false, wp_bind, wp_on_mem]
        refine wp_mono wp_uvmunmap_any ?_
        rintro _ m4 ⟨-, rfl⟩
        refine wp_mono (wp_uvmfree_total 0) fun _ m5 h5 => ?_
        refine ⟨fun _ => ⟨.inr rfl, ?_⟩, fun t ht => by cases ht⟩
        refine recovered_of_freed hfresh (fun t' ht' => ?_) ?_ h5
        · rw [(on_unmap _ _ _).apart t' ht', hapart3 t' ht']
        · have hleaf3 : m3.leaf t (TRAMPOLINE / PGSIZE) =
              some ⟨trampoline, { x := true }⟩ := (h3.failed rfl _).trans hleaf2
          exact total_of_unmap hleaf3 (h3.total.trans htotal2)
      | true =>
        refine ⟨fun h => (by cases h), fun t' ht' => ⟨rfl, ?_⟩⟩
        obtain rfl : t = t' := Option.some.inj ht'
        refine ⟨hfresh, hapart3, h3.on.live.mpr hlive2,
          ⟨⟨trampoline, { x := true }⟩, ?_, rfl⟩,
          ⟨⟨(s.proc p).trapframe.getD 0, { w := true }⟩, ?_, rfl⟩, ?_⟩
        · show m3.leaf t (TRAMPOLINE / PGSIZE) = _
          rw [h3.wrote rfl, if_neg (by decide), hleaf2]
        · show m3.leaf t (TRAPFRAME / PGSIZE) = _
          rw [h3.wrote rfl, if_pos rfl]
        · rw [← htotal2]
          exact h3.total

/-- `exec` up to the commit returns a new table, or leaves memory as it was. -/
theorem wp_build_image_exact {file : ElfFile} {argv : List (List Byte)}
    (hnew : s.mem.tables s.mem.nextTable = none) :
    wp (buildImage p file argv) Fault.any (fun made s' =>
      (made = none → (s'.proc = s.proc ∨ s'.proc = topped s p) ∧ Recovered s.mem s'.mem) ∧
      ∀ t sz argc, made = some (t, sz, argc) → s'.proc = topped s p ∧
        Image s.mem ((s.proc p).trapframe.getD 0) t s'.mem) s := by
  refine wp_build_image_of
    (fun t s1 => s1.proc = topped s p ∧ Image s.mem ((s.proc p).trapframe.getD 0) t s1.mem)
    ⟨fun _ => ⟨.inl rfl, .refl _⟩, fun t sz argc h => by cases h⟩ ?_
    (fun t => respects_load_segments (grows_walkaddr t) (fun _ => trivial) (grows_uvmalloc t))
    (fun t => respects_build_stack (grows_uvmalloc t) (grows_uvmclear t) (grows_copyout t))
    (fun t s1 m h hgrows => ⟨h.1, h.2.extends hgrows⟩) ?_ ?_
  · refine wp_mono (wp_proc_pagetable_exact hnew) fun made s1 h1 => ⟨fun hr => ?_, h1.2⟩
    exact ⟨fun _ => h1.1 hr, fun t sz argc h => by cases h⟩
  · rintro t sz s1 ⟨hproc, himage⟩
    refine wp_mono (wp_free_image himage) fun _ s2 h2 => ?_
    exact ⟨fun _ => ⟨.inr (h2.1.trans hproc), h2.2⟩, fun t sz argc h => by cases h⟩
  · rintro t sz argc s1 himage
    refine ⟨fun h => (by cases h), fun t' sz' argc' heq => ?_⟩
    cases heq
    exact himage

/-! ## The commit -/

/-- Once `proc_freepagetable` has returned, the table is gone and nothing else. -/
theorem wp_free_old {owner : Ptr} {old : TableId} {sz : Nat} :
    wp (procFreepagetable owner old sz) Fault.any (fun _ s' => Freeable s owner old ∧
      s'.proc = s.proc ∧ (∀ t', t' ≠ old → s'.mem.tables t' = s.mem.tables t') ∧
        s'.mem.tables old = none) s := by
  simp only [procFreepagetable, wp_bind, wp_get]
  split
  next hfree =>
    simp only [wp_bind, wp_on_mem]
    refine wp_mono wp_uvmunmap_any ?_
    rintro _ m1 ⟨-, rfl⟩
    refine wp_mono wp_uvmunmap_any ?_
    rintro _ m2 ⟨-, rfl⟩
    refine wp_mono (wp_uvmfree_total sz) fun _ m3 h3 =>
      ⟨hfree, trivial, fun t' ht' => ?_, h3.gone⟩
    rw [h3.apart t' ht', (on_unmap _ _ _).apart t' ht', (on_unmap _ _ _).apart t' ht']
  next => exact trivial

/-- What is left of the process of the main thread `mt` once `p` has committed to table `t`. -/
structure Committed (s : System) (p mt : Slot) (t : TableId) (s' : System) : Prop where
  threads : ∀ q, q ≠ p → InProcess s mt q → (s'.proc q).state = .unused ∧
    ∀ old, (s.proc q).pagetable = some old →
      s'.mem.leaf old ((s.proc q).trapframeVa / PGSIZE) = none
  others : ∀ q, q ≠ p → ¬ InProcess s mt q → (s'.proc q).mainThread = (s.proc q).mainThread ∧
    (s'.proc q).state = (s.proc q).state
  main : (s'.proc p).mainThread = some p ∧ (s'.proc p).mainPid = (s'.proc p).pid ∧
    (s'.proc p).isThread = false ∧ (s'.proc p).cnt = 0
  mapped : (s'.proc p).pagetable = some t ∧ (s'.proc p).trapframeVa = TRAPFRAME ∧
    ∃ l, s'.mem.leaf t (TRAPFRAME / PGSIZE) = some l ∧ l.page = (s.proc p).trapframe.getD 0
  kept : (s'.proc p).trapframe = (s.proc p).trapframe ∧ (s'.proc p).parent = (s.proc p).parent

/-- The slot of the caller of `exec` after the commit to table `t`. -/
def committed (x : Task) (p : Slot) (t : TableId) (sz : Nat) : Task :=
  { x with
    trapframeVa := TRAPFRAME, pagetable := some t, sz := sz, mainPid := x.pid,
    mainThread := some p, isThread := false, cnt := 0 }

theorem committed_of_cleaning {mt : Slot} {sz : Nat} {s3 s4 : System}
    (hproc : s3.proc = update s.proc p (committed (s.proc p) p t sz))
    (hmt : (s3.proc mt).pid = (s.proc mt).pid)
    (hclean : Cleaning s3 mt NPROC s4) (hsame : s4.mem.tables t = s3.mem.tables t)
    (hframe : ∃ l, s3.mem.leaf t (TRAPFRAME / PGSIZE) = some l ∧
      l.page = (s.proc p).trapframe.getD 0) : Committed s p mt t s4 := by
  have hself : s3.proc p = committed (s.proc p) p t sz := by rw [hproc, update_self]
  have hother : ∀ q, q ≠ p → s3.proc q = s.proc q := fun q hq => by
    rw [hproc, update_of_ne hq]
  have hin : ∀ q, q ≠ p → (InProcess s3 mt q ↔ InProcess s mt q) := fun q hq => by
    simp only [InProcess, hother q hq, hmt]
  have hp : s4.proc p = committed (s.proc p) p t sz := by
    rw [hclean.proc, if_neg, hself]
    rintro ⟨-, -, hthread⟩
    rw [hself] at hthread
    cases hthread
  refine ⟨fun q hq hthread => ⟨?_, fun old hold => ?_⟩, fun q hq hthread => ?_, ?_, ?_, ?_⟩
  · rw [hclean.proc, if_pos ⟨q.isLt, (hin q hq).mpr hthread⟩]
    rfl
  · refine (hclean.leaf old _).mpr (.inr ⟨q, q.isLt, (hin q hq).mpr hthread, ?_, ?_⟩)
    · rw [hother q hq, hold]
    · rw [hother q hq]
  · rw [hclean.proc, if_neg fun h => hthread ((hin q hq).mp h.2), hother q hq]
    exact ⟨rfl, rfl⟩
  · rw [hp]
    exact ⟨rfl, rfl, rfl, rfl⟩
  · obtain ⟨l, hl, hpage⟩ := hframe
    rw [hp]
    refine ⟨rfl, rfl, l, ?_, hpage⟩
    rw [← hl]
    simp only [Mem.leaf, hsame]
  · rw [hp]
    exact ⟨rfl, rfl⟩

theorem Committed.after {mt : Slot} {s'' : System} (h : Committed s p mt t s')
    (hproc : ∀ q, s''.proc q = { s'.proc q with killed := (s''.proc q).killed })
    (htable : s''.mem.tables t = s'.mem.tables t)
    (hmem : ∀ old v, s'.mem.leaf old v = none → s''.mem.leaf old v = none) :
    Committed s p mt t s'' := by
  refine ⟨fun q hq hthread => ?_, fun q hq hthread => ?_, ?_, ?_, ?_⟩
  · obtain ⟨hstate, hleaf⟩ := h.threads q hq hthread
    refine ⟨?_, fun old hold => hmem _ _ (hleaf old hold)⟩
    rw [hproc]
    exact hstate
  · rw [hproc]
    exact h.others q hq hthread
  · rw [hproc]
    exact h.main
  · obtain ⟨hpt, hva, l, hl, hpage⟩ := h.mapped
    rw [hproc]
    refine ⟨hpt, hva, l, ?_, hpage⟩
    rw [← hl]
    simp only [Mem.leaf, htable]
  · rw [hproc]
    exact h.kept

theorem new_table_unused (h : m.Numbered) : m.tables m.nextTable = none := by
  by_contra hused
  exact absurd (h _ (Option.isSome_iff_ne_none.mpr hused)) (lt_irrefl _)

/-- What `exec` does once a thread has unmapped its trapframe, with memory `m1` at that point. -/
structure ExecDoes (s : System) (p mt : Slot) (m1 : Mem) (r : Int) (s' : System) : Prop where
  failed : r = -1 → (s'.proc = s.proc ∨ s'.proc = topped s p) ∧ Recovered m1 s'.mem
  succeeded : r ≠ -1 → ∃ t, Committed s p mt t s'

theorem wp_exec_commit_exact {mt : Slot} {sz argc : Nat} {m1 : Mem} {s3 : System}
    (hgroup : Grouped (members s) s.mem) (hmain : MainOf (members s) p mt)
    (hlive : ∀ t', s.mem.Live t' → m1.Live t')
    (himage : Image m1 ((s.proc p).trapframe.getD 0) t s3.mem)
    (hproc : s3.proc = update s.proc p (committed (s.proc p) p t sz)) :
    wp (execEnd p mt (s.proc p) argc) Fault.any (ExecDoes s p mt m1) s3 := by
  have hmt : (s3.proc mt).isThread = false ∧ (s3.proc mt).pid = (s.proc mt).pid := by
    rw [hproc]
    by_cases hself : mt = p
    · rw [hself, update_self]
      exact ⟨rfl, rfl⟩
    · rw [update_of_ne hself]
      exact ⟨hmain.main, rfl⟩
  have hnew : ∀ q, InProcess s3 mt q → (s3.proc q).pagetable ≠ some t := by
    rintro q ⟨-, hthread⟩ hq
    rw [hproc] at hthread hq
    by_cases hself : q = p
    · rw [hself, update_self] at hthread
      cases hthread
    · rw [update_of_ne hself] at hq
      have hold : m1.Live t := hlive t (hgroup.live_of_table (q := q) hq)
      simp [Mem.Live, himage.fresh] at hold
  have hargc : (argc : Int) ≠ -1 := by omega
  unfold execEnd
  refine wp_seq (wp_clean_apart hmt.1 hnew) ?_
  rintro _ _ ⟨⟨s4, hclean, rfl⟩, hsame⟩
  have hcommitted := committed_of_cleaning hproc hmt.2 hclean hsame himage.trapframePage
  split
  next =>
    rw [wp_bind]
    refine wp_deref (fun old _ => ?_) fun _ => trivial
    refine wp_seq wp_free_old ?_
    rintro _ s5 ⟨hfree, hproc5, hapart, hgone⟩
    have hne : t ≠ old := by
      rintro rfl
      exact hfree.2 p (by simp) hcommitted.mapped.1
    refine ⟨fun h => absurd h hargc, fun _ => ⟨t, hcommitted.after (fun q => ?_) (hapart t hne)
      fun old' v hnone => ?_⟩⟩
    · rw [hproc5]
    · by_cases hold : old' = old
      · simp [Mem.leaf, hold, hgone]
      · simp only [Mem.leaf, hapart old' hold]
        exact hnone
  next =>
    rw [wp_bind, wp_set_proc]
    refine ⟨fun h => absurd h hargc, fun _ => ⟨t, hcommitted.after (fun q => ?_) rfl
      fun _ _ hnone => hnone⟩⟩
    by_cases hq : q = mt
    · rw [hq]
      simp
    · simp [update_of_ne hq]

theorem wp_exec_exact {file : Option ElfFile} {argv : List (List Byte)}
    (hgroup : Grouped (members s) s.mem) (hp : MainOf (members s) p r) :
    wp (exec p file argv) Fault.any (fun res s' => ∃ m1, ExecDoes s p r m1 res s' ∧
      ((s.proc p).isThread = false → m1 = s.mem) ∧
      ((s.proc p).isThread = true → ∃ old, (s.proc p).pagetable = some old ∧
        s.mem.leaf old ((s.proc p).trapframeVa / PGSIZE) ≠ none ∧
        m1.leaf old ((s.proc p).trapframeVa / PGSIZE) = none)) s := by
  -- the rest of `exec`, in memory `m1`
  have hrest : ∀ m1 : Mem, m1.tables m1.nextTable = none → (∀ t', s.mem.Live t' → m1.Live t') →
      wp (execRest p (s.proc p) file argv) Fault.any (ExecDoes s p r m1) { s with mem := m1 } := by
    intro m1 hnew hlive
    unfold execRest
    cases file with
    | none => exact ⟨fun _ => ⟨.inl rfl, .refl _⟩, fun h => absurd rfl h⟩
    | some file =>
      refine wp_seq (wp_build_image_exact (s := { s with mem := m1 }) hnew) fun made s2 h2 => ?_
      obtain ⟨hnone, hsome⟩ := h2
      cases made with
      | none => exact ⟨fun _ => hnone rfl, fun h => absurd rfl h⟩
      | some image =>
        obtain ⟨t, sz, argc⟩ := image
        obtain ⟨hproc, himage⟩ := hsome t sz argc rfl
        simp only [wp_bind]
        rw [show (s.proc p).mainThread = some r from hp.pointer, wp_deref_some, wp_set_proc]
        refine wp_exec_commit_exact hgroup hp hlive himage
          (?_ : _ = update s.proc p (committed (s.proc p) p t sz))
        show update s2.proc p _ = _
        rw [hproc]
        simp [topped, committed]
  simp only [exec, wp_bind, wp_get]
  split
  next hthread =>
    rw [wp_bind]
    refine wp_deref (fun old hold => ?_) fun _ => trivial
    rw [wp_bind, wp_on_mem]
    refine wp_mono wp_uvmunmap_any ?_
    rintro _ m1 ⟨hunmap, rfl⟩
    have hsettled : ∀ t', (s.mem.unmap old ((s.proc p).trapframeVa / PGSIZE)).Live t' ↔
        s.mem.Live t' := by
      intro t'
      by_cases ht : t' = old
      · rw [ht]
        exact (on_unmap _ _ _).live
      · simp only [Mem.Live, (on_unmap _ _ _).apart t' ht]
    refine wp_mono (hrest _ ?_ fun t' ht' => (hsettled t').mpr ht') fun res s' hs' =>
      ⟨_, hs', fun h => ?_, fun _ => ⟨old, hold, hunmap.leaf, ?_⟩⟩
    · have hnew : ¬ s.mem.Live s.mem.nextTable := by
        simp [Mem.Live, new_table_unused hgroup.numbered]
      exact Option.not_isSome_iff_eq_none.mp (mt (hsettled _).mp hnew)
    · rw [hthread] at h
      cases h
    · rw [leaf_unmap, if_pos ⟨rfl, rfl⟩]
  next hthread =>
    exact wp_mono (hrest s.mem (new_table_unused hgroup.numbered) fun _ h => h) fun res s' hs' =>
      ⟨s.mem, hs', fun _ => rfl, fun h => absurd h hthread⟩

end Xv6.Thread.Calls
