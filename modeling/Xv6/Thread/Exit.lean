import Xv6.Thread.Locking

/-!
# `exit` of a main thread

`cleanAllThreads` calls `freethread` for each thread with the lock of the thread held, and
`freethread` hands the children of the thread to `init` by a `wakeup` that takes the lock of every
other process. So a main thread can exit only if none of its threads has a child.
`exit_reaches_sched_iff` states this for every process table, together with the other things that
`exit` relies on: the trapframe of each thread can be unmapped, nobody has left `wait_lock` behind,
and the descriptors of the process are counted.
-/

namespace Xv6.Thread.Calls

open Function

variable {s s' : System} {self p q np : Slot} {E : Fault → Prop} {Q : Unit → System → Prop}
  {k : Slot} {status : Int}

/-! ## `freethread` -/

/-- What `freethread` needs to free the memory of slot `x`. -/
structure Clearable (m : Mem) (x : Task) : Prop where
  trapframe : x.trapframe ≠ none
  mapped : x.isThread = true → ∃ t, x.pagetable = some t ∧ Unmappable m t x.trapframeVa

/-- Memory once `freethread` has freed the memory of slot `x`. -/
def Mem.without (m : Mem) (x : Task) : Mem :=
  let m := match x.isThread, x.pagetable with
    | true, some t => m.unmap t (x.trapframeVa / PGSIZE)
    | _, _ => m
  { m with free := x.trapframe.toList ++ m.free }

/-- The kernel once `freethread` has freed slot `p`, which had no child. -/
def freed (s : System) (p : Slot) : System :=
  { s with
    proc := update s.proc p (s.proc p).cleared
    mem := Mem.without s.mem (s.proc p) }

/-- `freethread(p)`, with the lock of `p` held, can do its work. -/
structure Frees (s : System) (p : Slot) : Prop where
  childless : ∀ q, (s.proc q).parent ≠ some p
  clearable : Clearable s.mem (s.proc p)

theorem wp_clear_thread (h : Clearable s.mem (s.proc p)) (hQ : Q () (freed s p)) :
    wp (clearThread p (s.proc p)) E Q s := by
  obtain ⟨page, hpage⟩ := Option.ne_none_iff_exists'.mp h.trapframe
  unfold clearThread freethreadEnd
  cases hthread : (s.proc p).isThread with
  | false =>
    simpa [hpage, kfree, freed, Mem.without, hthread] using hQ
  | true =>
    obtain ⟨t, ht, hunmap⟩ := h.mapped hthread
    simp only [if_true, ht, wp_bind, wp_deref_some, wp_on_mem]
    refine wp_uvmunmap_unmap hunmap ?_
    simpa [hpage, kfree, freed, Mem.without, hthread, ht] using hQ

/-- Once `freethread` has cleared its slot, it must have been able to. -/
theorem wp_clear_thread_any : wp (clearThread p (s.proc p)) Fault.any
    (fun _ s' => Clearable s.mem (s.proc p) ∧ s' = freed s p) s := by
  unfold clearThread freethreadEnd
  cases hpage : (s.proc p).trapframe with
  | none =>
    cases hthread : (s.proc p).isThread with
    | false => exact trivial
    | true =>
      cases ht : (s.proc p).pagetable with
      | none => exact trivial
      | some t =>
        simp only [if_true, wp_bind, wp_deref_some, wp_on_mem]
        exact wp_mono wp_uvmunmap_any fun _ _ _ => trivial
  | some page =>
    cases hthread : (s.proc p).isThread with
    | false =>
      refine ⟨⟨by simp [hpage], by simp [hthread]⟩, ?_⟩
      simp [freed, Mem.without, hthread, hpage]
    | true =>
      cases ht : (s.proc p).pagetable with
      | none => exact trivial
      | some t =>
        simp only [if_true, wp_bind, wp_deref_some, wp_on_mem]
        refine wp_mono wp_uvmunmap_any fun _ m' hm' => ?_
        refine ⟨⟨by simp [hpage], fun _ => ⟨t, ht, hm'.1⟩⟩, ?_⟩
        simp [freed, Mem.without, hthread, hpage, ht, hm'.2]

theorem wp_freethread_frees (h : Frees s p) (hQ : Q () (freed s p)) :
    wp (freethread self p true) E Q s := by
  have hclear : wp (clearThread p (s.proc p)) E Q s := wp_clear_thread h.clearable hQ
  unfold wp at hclear ⊢
  rwa [freethread_childless fun ⟨q, hq⟩ => h.childless q hq]

theorem wp_freethread_any : wp (freethread self p true) Fault.any
    (fun _ s' => Frees s p ∧ s' = freed s p) s := by
  by_cases hchild : ∃ q, (s.proc q).parent = some p
  · unfold wp
    rw [freethread_child_panics hchild]
    trivial
  · have hclear : wp (clearThread p (s.proc p)) Fault.any
        (fun _ s' => Frees s p ∧ s' = freed s p) s :=
      wp_mono wp_clear_thread_any fun _ s' hs' =>
        ⟨⟨fun q hq => hchild ⟨q, hq⟩, hs'.1⟩, hs'.2⟩
    unfold wp at hclear ⊢
    rwa [freethread_childless hchild]

/-! ## `cleanAllThreads` -/

/-- Slot `q` is a thread of the process of the main thread `p`. -/
def InProcess (s : System) (p q : Slot) : Prop :=
  (s.proc q).mainPid = (s.proc p).pid ∧ (s.proc q).isThread = true

instance (s : System) (p q : Slot) : Decidable (InProcess s p q) :=
  inferInstanceAs (Decidable (_ ∧ _))

/-- What `cleanAllThreads(p)` needs of thread `np`: it has no child, but for threads that have been
freed before; its trapframe is mapped, at a place that no thread freed before had. -/
structure Removable (s : System) (p np : Slot) : Prop where
  childless : ∀ q, (s.proc q).parent = some np → InProcess s p q ∧ q < np
  clearable : Clearable s.mem (s.proc np)
  apart : ∀ q, InProcess s p q → q < np → (s.proc q).pagetable = (s.proc np).pagetable →
    (s.proc q).trapframeVa / PGSIZE ≠ (s.proc np).trapframeVa / PGSIZE

/-- The loop of `cleanAllThreads(p)` before it visits slot `k`. -/
structure Cleaning (s : System) (p : Slot) (k : Nat) (s' : System) : Prop where
  proc : ∀ q : Slot, s'.proc q =
    if q.val < k ∧ InProcess s p q then (s.proc q).cleared else s.proc q
  node : ∀ t key, s'.mem.Node t key ↔ s.mem.Node t key
  leaf : ∀ t v, s'.mem.leaf t v = none ↔ s.mem.leaf t v = none ∨ ∃ q : Slot, q.val < k ∧
    InProcess s p q ∧ (s.proc q).pagetable = some t ∧ (s.proc q).trapframeVa / PGSIZE = v
  file : s'.file = s.file
  initproc : s'.initproc = s.initproc

theorem Cleaning.here (h : Cleaning s p k s') : s'.proc k = s.proc k := by
  rw [h.proc, if_neg (by omega)]

/-- `freethread` of slot `k` works exactly if the slot was removable from the start. -/
theorem Cleaning.frees_iff (h : Cleaning s p k s') (hk : InProcess s p k) :
    Frees s' k ↔ Removable s p k := by
  constructor
  · intro hfrees
    have hclear := hfrees.clearable
    rw [h.here] at hclear
    refine ⟨fun q hq => ?_, ⟨hclear.trapframe, fun hthread => ?_⟩, fun q hq hlt htable => ?_⟩
    · by_contra hnot
      refine hfrees.childless q ?_
      rw [h.proc, if_neg fun hcleared => hnot ⟨hcleared.2, hcleared.1⟩]
      exact hq
    · obtain ⟨t, ht, hunmap⟩ := hclear.mapped hthread
      refine ⟨t, ht, hunmap.aligned, hunmap.below, fun key hkey => ?_, fun hnone => ?_⟩
      · exact (h.node t key).mp (hunmap.nodes key hkey)
      · exact hunmap.leaf ((h.leaf t _).mpr (.inl hnone))
    · obtain ⟨t, ht, hunmap⟩ := hclear.mapped hk.2
      intro hva
      exact hunmap.leaf ((h.leaf t _).mpr (.inr ⟨q, hlt, hq, htable.trans ht, hva⟩))
  · intro hrem
    refine ⟨fun q hq => ?_, ?_⟩
    · rw [h.proc] at hq
      by_cases hcleared : q.val < k ∧ InProcess s p q
      · rw [if_pos hcleared] at hq
        cases hq
      · rw [if_neg hcleared] at hq
        obtain ⟨hin, hlt⟩ := hrem.childless q hq
        exact hcleared ⟨hlt, hin⟩
    · rw [h.here]
      refine ⟨hrem.clearable.trapframe, fun hthread => ?_⟩
      obtain ⟨t, ht, hunmap⟩ := hrem.clearable.mapped hthread
      refine ⟨t, ht, hunmap.aligned, hunmap.below, fun key hkey => ?_, fun hnone => ?_⟩
      · exact (h.node t key).mpr (hunmap.nodes key hkey)
      · rcases (h.leaf t _).mp hnone with hnone | ⟨q, hlt, hq, htable, hva⟩
        · exact hunmap.leaf hnone
        · exact hrem.apart q hq hlt (htable.trans ht.symm) hva

/-- A slot that is no thread of the process is passed over. -/
theorem Cleaning.skip (h : Cleaning s p k s') (hk : ¬ InProcess s p k) :
    Cleaning s p (k + 1) s' := by
  have hbelow : ∀ q : Slot, InProcess s p q → (q.val < k + 1 ↔ q.val < k) := by
    intro q hq
    have hne : q.val ≠ k.val := fun heq => hk (Fin.ext heq ▸ hq)
    omega
  refine { h with proc := fun q => ?_, leaf := fun t v => ?_ }
  · rw [h.proc]
    by_cases hq : InProcess s p q
    · simp only [hbelow q hq]
    · simp only [hq, and_false]
  · rw [h.leaf]
    refine or_congr Iff.rfl (exists_congr fun q => ?_)
    by_cases hq : InProcess s p q
    · simp only [hbelow q hq]
    · simp only [hq, false_and, and_false]

theorem Cleaning.free (h : Cleaning s p k s') (hk : InProcess s p k)
    (hclear : Clearable s'.mem (s.proc k)) : Cleaning s p (k + 1) (freed s' k) := by
  obtain ⟨t, ht, hunmap⟩ := hclear.mapped hk.2
  have hmem : (freed s' k).mem = { s'.mem.unmap t ((s.proc k).trapframeVa / PGSIZE) with
      free := (s.proc k).trapframe.toList ++ s'.mem.free } := by
    simp [freed, Mem.without, h.here, hk.2, ht, Mem.unmap]
  refine ⟨fun q => ?_, fun t' key => ?_, fun t' v => ?_, h.file, h.initproc⟩
  · show update s'.proc k (s'.proc k).cleared q = _
    by_cases hq : q = k
    · subst hq
      rw [update_self, if_pos ⟨by omega, hk⟩, h.here]
    · have hne : q.val ≠ k.val := fun heq => hq (Fin.ext heq)
      rw [update_of_ne hq, h.proc]
      have hlt : q.val < k + 1 ↔ q.val < k := by omega
      simp only [hlt]
  · rw [hmem]
    exact (node_unmap _ _ _ _ _).trans (h.node t' key)
  · have hleaf := leaf_unmap s'.mem t ((s.proc k).trapframeVa / PGSIZE) t' v
    rw [hmem]
    show (s'.mem.unmap t ((s.proc k).trapframeVa / PGSIZE)).leaf t' v = none ↔ _
    rw [hleaf]
    constructor
    · intro hnone
      by_cases hhere : t' = t ∧ v = (s.proc k).trapframeVa / PGSIZE
      · exact .inr ⟨k, by omega, hk, by rw [ht, hhere.1], hhere.2.symm⟩
      · rw [if_neg hhere] at hnone
        rcases (h.leaf t' v).mp hnone with hnone | ⟨q, hlt, hq⟩
        · exact .inl hnone
        · exact .inr ⟨q, by omega, hq⟩
    · intro hnone
      by_cases hhere : t' = t ∧ v = (s.proc k).trapframeVa / PGSIZE
      · rw [if_pos hhere]
      · rw [if_neg hhere, h.leaf]
        rcases hnone with hnone | ⟨q, hlt, hq, htable, hva⟩
        · exact .inl hnone
        · refine .inr ⟨q, ?_, hq, htable, hva⟩
          have hne : q ≠ k := by
            rintro rfl
            exact hhere ⟨Option.some.inj (htable.symm.trans ht), hva.symm⟩
          have hval : q.val ≠ k.val := fun heq => hne (Fin.ext heq)
          omega

theorem cleaning_start (lock : Ptr) : Cleaning s p 0 { s with waitLock := lock } where
  proc q := by simp
  node _ _ := Iff.rfl
  leaf t v := by simp [Mem.leaf]
  file := rfl
  initproc := rfl

/-- `cleanAllThreads(p)` can free all threads of the process. -/
structure Sweepable (s : System) (p : Slot) : Prop where
  lock : s.waitLock = none
  threads : ∀ np, InProcess s p np → Removable s p np

section

variable (hmain : (s.proc p).isThread = false)

include hmain

/-- The loop of `cleanAllThreads(p)` by `self`; `J k` is what else is known before slot `k`. -/
theorem wp_clean_loop {J : Nat → System → Prop}
    (hstart : J 0 { s with waitLock := some self })
    (hskip : ∀ (k : Slot) s', ¬ InProcess s p k → J k s' → J (k + 1) s')
    (hfree : ∀ (k : Slot) s', Cleaning s p k s' → InProcess s p k → J k s' →
      wp (freethread self k true) E
        (fun _ s'' => (Frees s' k ∧ s'' = freed s' k) ∧ J (k + 1) s'') s')
    (hQ : ∀ s', Cleaning s p NPROC s' → J NPROC s' → Q () { s' with waitLock := none }) :
    wp (do
      forEach NPROC fun np => do
        let s ← get
        if (s.proc np).mainPid = (s.proc p).pid ∧ (s.proc np).isThread then
          freethread self np true
        else pure ()
      releaseWaitLock) E Q { s with waitLock := some self } := by
  have hout : ¬ InProcess s p p := fun h => absurd h.2 (by simp [hmain])
  refine wp_seq (wp_for_each (fun k s' => Cleaning s p k s' ∧ J k s') (fun k s' hs' => ?_)
    ⟨cleaning_start (some self), hstart⟩) fun _ s' hs' => hQ s' hs'.1 hs'.2
  obtain ⟨hclean, hJ⟩ := hs'
  have hself : s'.proc p = s.proc p := by
    rw [hclean.proc, if_neg fun h => hout h.2]
  rw [wp_bind, wp_get, hself, hclean.here]
  split
  next hk =>
    refine wp_mono (hfree k s' hclean hk hJ) ?_
    rintro _ _ ⟨⟨hfrees, rfl⟩, hJ'⟩
    have hclear := hfrees.clearable
    rw [hclean.here] at hclear
    exact ⟨hclean.free hk hclear, hJ'⟩
  next hk => exact ⟨hclean.skip hk, hskip k s' hk hJ⟩

theorem wp_clean_sweeps (h : Sweepable s p)
    (hQ : ∀ s', Cleaning s p NPROC s' → Q () { s' with waitLock := none }) :
    wp (cleanAllThreads self p) E Q s := by
  unfold cleanAllThreads acquireWaitLock
  simp only [wp_bind, wp_get, h.lock, wp_set]
  rw [← wp_bind]
  refine wp_clean_loop (J := fun _ _ => True) hmain trivial (fun _ _ _ _ => trivial)
    (fun k s' hclean hk _ => ?_) fun s' hclean _ => hQ s' hclean
  have hfrees := (hclean.frees_iff hk).mpr (h.threads k hk)
  exact wp_freethread_frees hfrees ⟨⟨hfrees, rfl⟩, trivial⟩

/-- Once `cleanAllThreads(p)` has returned, all threads could be freed. -/
theorem wp_clean_any :
    wp (cleanAllThreads self p) Fault.any (fun _ s' => Sweepable s p ∧
      ∃ s0, Cleaning s p NPROC s0 ∧ s' = { s0 with waitLock := none }) s := by
  unfold cleanAllThreads
  rw [wp_bind]
  refine wp_acquire (fun hlock => ?_) trivial trivial
  refine wp_clean_loop (J := fun k _ => ∀ np : Slot, np.val < k → InProcess s p np →
    Removable s p np) hmain (by simp) (fun k s' hk hJ np hlt hin => ?_)
    (fun k s' hclean hk hJ => ?_) fun s' hclean hJ =>
      ⟨⟨hlock, fun np hin => hJ np np.isLt hin⟩, s', hclean, rfl⟩
  · have hne : np.val ≠ k.val := fun heq => hk (Fin.ext heq ▸ hin)
    exact hJ np (by omega) hin
  · refine wp_mono wp_freethread_any fun _ s'' hs'' => ⟨hs'', fun np hlt hin => ?_⟩
    by_cases heq : np = k
    · rw [heq]
      exact (hclean.frees_iff hk).mp hs''.1
    · have hne : np.val ≠ k.val := fun h => heq (Fin.ext h)
      exact hJ np (by omega) hin

/-- `cleanAllThreads(p)` leaves a table alone that none of the threads has. -/
theorem wp_clean_apart {t : TableId}
    (ht : ∀ q, InProcess s p q → (s.proc q).pagetable ≠ some t) :
    wp (cleanAllThreads self p) Fault.any (fun _ s' =>
      (∃ s0, Cleaning s p NPROC s0 ∧ s' = { s0 with waitLock := none }) ∧
        s'.mem.tables t = s.mem.tables t) s := by
  unfold cleanAllThreads
  rw [wp_bind]
  refine wp_acquire (fun _ => ?_) trivial trivial
  refine wp_clean_loop (J := fun _ s' => s'.mem.tables t = s.mem.tables t) hmain rfl
    (fun _ _ _ hJ => hJ) (fun k s' hclean hk hJ => ?_) fun s' hclean hJ => ⟨⟨s', hclean, rfl⟩, hJ⟩
  refine wp_mono wp_freethread_any ?_
  rintro _ _ ⟨hfrees, rfl⟩
  refine ⟨⟨hfrees, rfl⟩, Eq.trans ?_ hJ⟩
  show (Mem.without s'.mem (s'.proc k)).tables t = s'.mem.tables t
  obtain ⟨t', ht', -⟩ := hfrees.clearable.mapped (by rw [hclean.here]; exact hk.2)
  have hne : t ≠ t' := by
    rintro rfl
    rw [hclean.here] at ht'
    exact ht k hk ht'
  have hthread : (s'.proc k).isThread = true := by rw [hclean.here]; exact hk.2
  simp [Mem.without, hthread, ht', Mem.unmap, update_of_ne hne]

end

/-! ## Closing the files -/

/-- The number of descriptors of slot `x` below `k` that are open on file `f`. -/
def opened (x : Task) (f : FileId) (k : Nat) : Nat :=
  (Finset.univ.filter fun fd : Fd => fd.val < k ∧ x.ofile fd = some f).card

/-- Every open file of slot `x` counts its descriptors. -/
def Counted (file : FileId → File) (x : Task) : Prop :=
  ∀ f, opened x f NOFILE ≤ (file f).ref

theorem opened_succ (x : Task) (f : FileId) (k : Fd) :
    opened x f (k + 1) = opened x f k + if x.ofile k = some f then 1 else 0 := by
  have hsplit : ∀ fd : Fd, (if fd.val < k.val + 1 ∧ x.ofile fd = some f then 1 else 0) =
      (if fd.val < k.val ∧ x.ofile fd = some f then 1 else 0) +
        if fd = k then (if x.ofile k = some f then 1 else 0) else 0 := by
    intro fd
    by_cases heq : fd = k
    · subst heq
      simp
    · have hne : fd.val ≠ k.val := fun h => heq (Fin.ext h)
      have hlt : fd.val < k.val + 1 ↔ fd.val < k.val := by omega
      simp [heq, hlt]
  unfold opened
  rw [Finset.card_filter, Finset.card_filter, Finset.sum_congr rfl fun fd _ => hsplit fd,
    Finset.sum_add_distrib, Finset.sum_ite_eq' Finset.univ k]
  simp

theorem opened_le (x : Task) (f : FileId) (k : Nat) : opened x f k ≤ opened x f NOFILE := by
  refine Finset.card_le_card fun fd hfd => ?_
  simp only [Finset.mem_filter, Finset.mem_univ, true_and] at hfd ⊢
  exact ⟨fd.isLt, hfd.2⟩

theorem wp_fileclose_ref {f : FileId} (hpanic : (s.file f).ref = 0 → E (.panic "fileclose"))
    (hQ : ∀ file iref, 0 < (s.file f).ref →
      (∀ f', (file f').ref = if f' = f then (s.file f).ref - 1 else (s.file f').ref) →
      Q () { s with file := file, iref := iref }) : wp (fileclose f) E Q s := by
  have hupdate : ∀ x : File, x.ref = (s.file f).ref - 1 → ∀ f',
      (update s.file f x f').ref =
        if f' = f then (s.file f).ref - 1 else (s.file f').ref := by
    intro x hx f'
    by_cases hf : f' = f
    · rw [hf, update_self, if_pos rfl, hx]
    · rw [update_of_ne hf, if_neg hf]
  simp only [fileclose, wp_bind, wp_get]
  by_cases hzero : (s.file f).ref < 1
  · rw [if_pos hzero]
    exact hpanic (by omega)
  rw [if_neg hzero]
  by_cases hmore : 0 < (s.file f).ref - 1
  · rw [if_pos hmore]
    exact hQ _ s.iref (by omega) (hupdate _ rfl)
  · rw [if_neg hmore, wp_bind, wp_set_file]
    have hlast : ({} : File).ref = (s.file f).ref - 1 := by
      show 0 = _
      omega
    cases (s.file f).ip with
    | none => exact hQ _ s.iref (by omega) (hupdate _ hlast)
    | some ip => exact hQ _ _ (by omega) (hupdate _ hlast)

/-- The loop that closes the files of `p`, before descriptor `k`. -/
structure Closing (s : System) (p : Slot) (k : Nat) (s' : System) : Prop where
  ofile : ∀ fd : Fd, k ≤ fd.val → (s'.proc p).ofile fd = (s.proc p).ofile fd
  ref : ∀ f, (s'.file f).ref + opened (s.proc p) f k = (s.file f).ref
  lock : s'.waitLock = s.waitLock
  cwd : (s'.proc p).cwd = (s.proc p).cwd

theorem closing_start : Closing s p 0 s where
  ofile _ _ := rfl
  ref f := by simp [opened]
  lock := rfl
  cwd := rfl

/-- One descriptor is closed; `fileclose` stops only when the file has lost count. -/
theorem Closing.step {k : Fd} (h : Closing s p k s')
    (hpanic : ¬ Counted s.file (s.proc p) → E (.panic "fileclose")) :
    wp (do
      let s ← get
      match (s.proc p).ofile k with
      | none => pure ()
      | some f => do
        fileclose f
        setFd p k none) E (fun _ s'' => Closing s p (k + 1) s'') s' := by
  rw [wp_bind, wp_get, h.ofile k le_rfl]
  cases hk : (s.proc p).ofile k with
  | none =>
    refine { h with ofile := fun fd hfd => h.ofile fd (by omega), ref := fun f => ?_ }
    rw [opened_succ, hk, if_neg (by simp)]
    exact h.ref f
  | some f =>
    rw [wp_bind]
    refine wp_fileclose_ref (fun hzero => hpanic fun hcounted => ?_)
      fun file iref hpos hfile => ?_
    · -- the descriptors closed so far have used all references up
      have hsucc := opened_succ (s.proc p) f k
      rw [hk, if_pos rfl] at hsucc
      have hle := opened_le (s.proc p) f (k + 1)
      have href := h.ref f
      have hall := hcounted f
      omega
    · refine ⟨fun fd hfd => ?_, fun f' => ?_, h.lock, ?_⟩
      · have hne : fd ≠ k := by
          rintro rfl
          omega
        simpa [hne] using h.ofile fd (by omega)
      · have href := h.ref f'
        show (file f').ref + _ = _
        rw [opened_succ, hk, hfile f']
        by_cases hf : f' = f
        · subst hf
          rw [if_pos rfl, if_pos rfl]
          omega
        · have hne : ¬ some f = some f' := fun heq => hf (Option.some.inj heq).symm
          rw [if_neg hf, if_neg hne]
          exact href
      · simpa using h.cwd

/-- `exit` closes the files of `p` unless one of them has lost count of its descriptors. -/
theorem wp_close_files (hpanic : ¬ Counted s.file (s.proc p) → E (.panic "fileclose")) :
    wp (closeFiles p) E (fun _ s' => Closing s p NOFILE s') s :=
  wp_for_each (Closing s p) (fun _ _ hs' => hs'.step hpanic) closing_start

theorem Closing.counted (h : Closing s p NOFILE s') : Counted s.file (s.proc p) := by
  intro f
  have href := h.ref f
  omega

/-! ## `exit` -/

/-- What `exit` of the main thread `p` needs. -/
structure CanExit (s : System) (p : Slot) : Prop where
  notInit : s.initproc ≠ some p
  sweep : Sweepable s p
  files : Counted s.file (s.proc p)
  cwd : (s.proc p).cwd ≠ none

theorem Cleaning.main {k : Nat} (h : Cleaning s p k s') (hmain : (s.proc p).isThread = false) :
    s'.proc p = s.proc p := by
  rw [h.proc, if_neg fun hin => absurd hin.2.2 (by simp [hmain])]

/-- The rest of `exit` returns when the files can be closed and `wait_lock` is free. -/
theorem wp_exit_rest_returns (hfiles : Counted s.file (s.proc p)) (hcwd : (s.proc p).cwd ≠ none)
    (hlock : s.waitLock = none) :
    wp (exitRest p status) Fault.never (fun _ _ => True) s := by
  unfold exitRest
  refine wp_seq (wp_close_files fun h => absurd hfiles h) fun _ s1 h1 => ?_
  obtain ⟨cwd, hcwd'⟩ := Option.ne_none_iff_exists'.mp hcwd
  have hlock1 : s1.waitLock = none := h1.lock.trans hlock
  simp only [wp_bind, wp_get, h1.cwd, hcwd', wp_deref_some, iput, wp_modify, wp_set_proc,
    acquireWaitLock, hlock1, wp_set]
  refine (still_reparent p p).next fun _ s2 _ => ?_
  exact (still_wakeup p _).next fun _ s3 _ => trivial

/-- Once the rest of `exit` has returned, the files could be closed. -/
theorem wp_exit_rest_any :
    wp (exitRest p status) Fault.any
      (fun _ _ => Counted s.file (s.proc p) ∧ (s.proc p).cwd ≠ none) s := by
  unfold exitRest
  refine wp_seq (wp_close_files fun _ => trivial) fun _ s1 h1 => ?_
  rw [wp_bind, wp_get, wp_bind, h1.cwd]
  cases hcwd : (s.proc p).cwd with
  | none => exact trivial
  | some cwd =>
    rw [wp_deref_some]
    exact wp_mono (wp_any _) fun _ _ _ => ⟨h1.counted, by simp⟩

theorem wp_exit_returns (hmain : (s.proc p).isThread = false) (h : CanExit s p) :
    wp (exit p status) Fault.never (fun _ _ => True) s := by
  unfold exit
  rw [wp_bind, wp_get, if_neg h.notInit]
  simp only [hmain, if_true, wp_bind]
  refine wp_clean_sweeps hmain h.sweep fun s1 h1 => ?_
  have hself := h1.main hmain
  refine wp_exit_rest_returns ?_ ?_ rfl
  · show Counted s1.file (s1.proc p)
    rw [h1.file, hself]
    exact h.files
  · show (s1.proc p).cwd ≠ none
    rw [hself]
    exact h.cwd

theorem wp_exit_any (hmain : (s.proc p).isThread = false) :
    wp (exit p status) Fault.any (fun _ _ => CanExit s p) s := by
  unfold exit
  rw [wp_bind, wp_get]
  by_cases hinit : s.initproc = some p
  · rw [if_pos hinit]
    exact trivial
  rw [if_neg hinit]
  simp only [hmain, if_true, wp_bind]
  refine wp_mono (wp_clean_any hmain) ?_
  rintro _ _ ⟨hsweep, s1, h1, rfl⟩
  refine wp_mono wp_exit_rest_any fun _ s2 h2 => ?_
  have hself := h1.main hmain
  obtain ⟨hfiles, hcwd⟩ := h2
  have hfiles : Counted s1.file (s1.proc p) := hfiles
  have hcwd : (s1.proc p).cwd ≠ none := hcwd
  rw [h1.file, hself] at hfiles
  rw [hself] at hcwd
  exact ⟨hinit, hsweep, hfiles, hcwd⟩

/-- For every process table, `exit` by a main thread takes no lock twice, gives none back that it
does not hold and reaches `sched` with no lock but its own, exactly if the process is not `init`,
`wait_lock` is free, each of its threads can be freed with its lock held, and its files count its
descriptors. -/
theorem exit_reaches_sched_iff (s : System) (p : Slot) (status : Int)
    (hmain : (s.proc p).isThread = false) :
    wp (exitLocked p status) Fault.never (fun _ x => x.held = [.proc p]) ⟨[], s⟩ ↔
      CanExit s p := by
  rw [(exit_does status).wp]
  constructor
  · intro hwp
    have hany : wp (exit p status) Fault.any (fun _ _ => CanExit s p) s := wp_exit_any hmain
    obtain ⟨_, s', hrun, -⟩ := wp_returns hwp
    have hcan := wp_ok hany hrun
    exact hcan
  · intro h
    exact wp_mono (wp_exit_returns hmain h) fun _ _ _ => rfl

/-- `init` has forked a process, which has cloned a thread. -/
@[irreducible] def oneThread : System :=
  lastState unguarded step [.userinit, .schedule 0, .call 0 .fork, .schedule 1, .call 1 (.clone 0),
    .schedule 2] (boot (List.range' 1 40))

theorem reachable_one_thread :
    Reachable (· = boot (List.range' 1 40)) unguarded step oneThread := by
  have hboot : Reachable (· = boot (List.range' 1 40)) unguarded step (boot (List.range' 1 40)) :=
    .start rfl
  unfold oneThread
  exact hboot.last_state _

/-- The process exits. -/
theorem exit_reaches_sched_one_thread : (oneThread.proc 2).isThread = true ∧
    CanExit oneThread 1 := by
  refine ⟨by decide +kernel, (exit_reaches_sched_iff oneThread 1 0 (by decide +kernel)).mp ?_⟩
  exact wp_of_value (by decide +kernel)

/-- The thread has forked a child. -/
@[irreducible] def threadWithChild : System :=
  lastState unguarded step [.call 2 .fork] oneThread

/-- The process exits, and takes the lock of its thread twice. -/
theorem exit_panics_with_child :
    Reachable (· = boot (List.range' 1 40)) unguarded step threadWithChild ∧
    (threadWithChild.proc 1).state = .running ∧ (threadWithChild.proc 1).isThread = false ∧
    (threadWithChild.proc 3).parent = some 2 ∧
    faultOf (exitLocked 1 0) ⟨[], threadWithChild⟩ = some (.panic "acquire") := by
  refine ⟨?_, by decide +kernel, by decide +kernel, by decide +kernel, by decide +kernel⟩
  unfold threadWithChild
  exact reachable_one_thread.last_state _

end Xv6.Thread.Calls
