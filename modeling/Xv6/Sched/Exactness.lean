import Xv6.Sched.RunQueue

/-!
# Every operation keeps the run queues exact

One specification for each operation of the scheduler kernel, in terms of the invariant `Inv` of
`Xv6.Sched.RunQueue`, and from them the invariant along every run. `run_queue_exact` reads it
back as counts of queue entries.
-/

namespace Xv6.Sched

open Function

variable {E : Fault → Prop} {m : Machine} {i : QueueId} {p : Slot} {m' : Machine} {l : List Ptr}
  {q : Queue Ptr}

/-! ## Waking and allocating -/

/-- A process that was neither running nor queued is made RUNNABLE and queued. -/
theorem wp_make_runnable {t : Proc} {Q : Unit → Machine → Prop} (h : Inv none m)
    (hold : (m.proc p).state ≠ .runnable ∧ (m.proc p).state ≠ .running) (hnew : t.state = .runnable)
    (hQ : ∀ m', Inv none m' → SameCpu m m' → Q () m') :
    wp (addProcToQueue p) E Q (withProc m p t m.current) := by
  have hmissing := h.set_runnable hold hnew
  refine wp_mono (wp_add_proc_to_queue hmissing (by simpa [withProc] using hnew)) ?_
  rintro _ m' ⟨h', hcpu⟩
  exact hQ m' h' hcpu

theorem wp_wakeup (h : Inv none m) (chan : Chan) :
    wp (wakeup chan) E (fun _ m' => Inv none m' ∧ SameCpu m m') m := by
  refine wp_for_each (fun _ m' => Inv none m' ∧ SameCpu m m') ?_ ⟨h, rfl, rfl, rfl⟩
  rintro p m1 ⟨h1, hcurrent, hmode, hinit⟩
  simp only [wp_bind, wp_get, wp_ite, wp_pure, wp_set_proc]
  refine ⟨fun hwake => ?_, fun _ => ⟨h1, hcurrent, hmode, hinit⟩⟩
  refine wp_make_runnable h1 (by simp [hwake.2.1]) rfl ?_
  rintro m2 h2 ⟨hcurrent2, hmode2, hinit2⟩
  exact ⟨h2, hcurrent2.trans hcurrent, hmode2.trans hmode, hinit2.trans hinit⟩

theorem wp_wakeup_proc (h : Inv none m) (p : Ptr) :
    wp (wakeupProc p) E (fun _ m' => Inv none m' ∧ SameCpu m m') m := by
  cases p with
  | none => exact ⟨h, rfl, rfl, rfl⟩
  | some p => exact wp_wakeup h (.proc p)

theorem find_slot_some {test : Proc → Bool} (h : findSlot m test = some p) :
    test (m.proc p) = true :=
  List.find?_some (p := fun q => test (m.proc q)) h

/-- `freeproc` of a slot that is neither running nor queued. -/
theorem wp_freeproc (h : Inv none m)
    (hold : (m.proc p).state ≠ .runnable ∧ (m.proc p).state ≠ .running) :
    wp (freeproc p) E (fun _ m' => Inv none m' ∧ SameCpu m m') m := by
  simp only [freeproc, wp_set_proc]
  exact ⟨h.set_idle hold ⟨by simp, by simp⟩, rfl, rfl, rfl⟩

/-- `allocproc` returns a slot in state USED or leaves every slot as it was. -/
theorem wp_allocproc (h : Inv none m) (memory : Bool) :
    wp (allocproc memory) E
      (fun r m' => Inv none m' ∧ SameCpu m m' ∧ ∀ p, r = some p → (m'.proc p).state = .used)
      m := by
  unfold allocproc
  simp only [wp_bind, wp_get]
  cases hfind : findSlot m (·.state = .unused) with
  | none => exact ⟨h, ⟨rfl, rfl, rfl⟩, by simp⟩
  | some p =>
    have hunused : (m.proc p).state = .unused := by simpa using find_slot_some hfind
    simp only [allocpid, wp_bind, wp_get, wp_set, wp_pure, wp_set_proc, wp_ite]
    have hpid : Inv none { m with nextpid := wrap (m.nextpid + 1) } :=
      h.congr rfl rfl rfl rfl rfl rfl
    have hused := hpid.set_idle (p := p)
      (t := { m.proc p with pid := m.nextpid, state := .used })
      ⟨by simp [hunused], by simp [hunused]⟩ ⟨by simp, by simp⟩
    refine ⟨fun _ => ⟨hused, ⟨rfl, rfl, rfl⟩, ?_⟩, fun _ => ?_⟩
    · rintro q hq
      obtain rfl := Option.some.inj hq
      simp
    · refine wp_mono (wp_freeproc (p := p) hused ?_) ?_
      · simp
      · rintro _ m' ⟨h', hcpu⟩
        exact ⟨h', hcpu, by simp⟩

theorem wp_userinit (h : Inv none m) (memory : Bool) :
    wp (userinit memory) (· = .wild) (fun _ m' => Inv none m') m := by
  unfold userinit
  simp only [wp_bind]
  refine wp_mono (wp_allocproc h memory) ?_
  rintro r m1 ⟨h1, _, hused⟩
  cases r with
  | none => exact rfl
  | some p =>
    simp only [deref, wp_pure, wp_modify, wp_set_proc]
    have hinit : Inv none { m1 with initproc := some p } := h1.congr rfl rfl rfl rfl rfl rfl
    exact wp_make_runnable hinit (by simp [hused p rfl]) rfl fun _ h' _ => h'

theorem wp_fork (h : Inv none m) (p : Slot) (memory copied : Bool) :
    wp (fork p memory copied) E (fun _ m' => Inv none m') m := by
  unfold fork
  simp only [wp_bind]
  refine wp_mono (wp_allocproc h memory) ?_
  rintro r m1 ⟨h1, _, hused⟩
  cases r with
  | none => exact h1
  | some np =>
    have hidle : (m1.proc np).state ≠ .runnable ∧ (m1.proc np).state ≠ .running := by
      simp [hused np rfl]
    simp only [wp_ite, wp_bind, wp_get, wp_pure, wp_set_proc]
    refine ⟨fun _ => ?_, fun _ => wp_mono (wp_freeproc h1 hidle) fun _ _ hm => hm.1⟩
    exact wp_make_runnable h1 hidle rfl fun _ h' _ => h'

theorem wp_kill (h : Inv none m) (pid : Int) :
    wp (kill pid) E (fun _ m' => Inv none m') m := by
  unfold kill
  simp only [wp_bind, wp_get]
  cases findSlot m (·.pid = pid) with
  | none => exact h
  | some p =>
    have hkilled := h.set_same_state (p := p) (t := { m.proc p with killed := true }) rfl rfl
      (fun hr => ⟨hr.level, hr.priority, hr.quantum⟩)
    simp only [wp_set_proc, wp_bind, wp_ite, wp_pure]
    refine ⟨fun hsleep => ?_, fun _ => hkilled⟩
    exact wp_make_runnable hkilled (by simp [withProc, hsleep]) rfl fun _ h' _ => h'

/-! ## Leaving the CPU -/

section

variable (h : Inv none m)

include h

theorem wp_yield (hp : m.current = some p) :
    wp (yield p) E (fun _ m' => Inv none m') m := by
  have hrunning := (h.running p).mpr hp
  have hoff : Inv (some p) (withProc m p { m.proc p with state := .runnable } none) :=
    h.set_off_cpu hp (by simp) (by simp)
  simp only [yield, wp_set_proc, wp_set_current, wp_bind]
  refine wp_mono (wp_my_queueing (p := p) hoff ?_ ?_) fun _ _ hm => hm.1
  · simp [withProc]
  · intro hmode
    have hrange := h.fields hmode p (Or.inr hrunning) (by simp)
    simp only [withProc, update_self]
    exact ⟨hrange.level, hrange.priority, hrange.quantum⟩

theorem inv_off_cpu {t : Proc} (hp : m.current = some p)
    (ht : t.state = .sleeping ∨ t.state = .zombie) : Inv none (withProc m p t none) := by
  refine h.set_off_cpu hp ?_ ?_
  · rcases ht with ht | ht <;> simp [ht]
  · rcases ht with ht | ht <;> simp [ht]

theorem wp_sleep (hp : m.current = some p) (chan : Chan) :
    wp (sleep p chan) E (fun _ m' => Inv none m') m := by
  simp only [sleep, wp_set_proc, wp_set_current, wp_bind]
  exact inv_off_cpu h hp (Or.inl rfl)

theorem wp_reparent (p : Slot) :
    wp (reparent p) E (fun _ m' => Inv none m' ∧ SameCpu m m') m := by
  refine wp_for_each (fun _ m' => Inv none m' ∧ SameCpu m m') ?_ ⟨h, rfl, rfl, rfl⟩
  rintro pp m1 ⟨h1, hcurrent, hmode, hinit⟩
  simp only [wp_bind, wp_get, wp_ite, wp_pure]
  refine ⟨fun _ => ?_, fun _ => ⟨h1, hcurrent, hmode, hinit⟩⟩
  simp only [wp_set_proc]
  have hparent := h1.set_same_state (p := pp) (t := { m1.proc pp with parent := m1.initproc })
    rfl rfl (fun hr => ⟨hr.level, hr.priority, hr.quantum⟩)
  refine wp_mono (wp_wakeup_proc hparent _) ?_
  rintro _ m2 ⟨h2, hcurrent2, hmode2, hinit2⟩
  exact ⟨h2, hcurrent2.trans hcurrent, hmode2.trans hmode, hinit2.trans hinit⟩

theorem wp_exit (hp : m.current = some p) :
    wp (exit p) (· = .panic "init exiting") (fun _ m' => Inv none m') m := by
  unfold exit
  simp only [wp_bind, wp_get, wp_ite, wp_kpanic, implies_true, true_and]
  intro _
  refine wp_mono (wp_reparent h p) ?_
  rintro _ m1 ⟨h1, hcurrent1, _⟩
  refine wp_mono (wp_wakeup_proc h1 _) ?_
  rintro _ m2 ⟨h2, hcurrent2, _⟩
  simp only [wp_set_proc, wp_set_current]
  exact inv_off_cpu h2 (hcurrent2.trans (hcurrent1.trans hp)) (Or.inr rfl)

theorem wp_wait (hp : m.current = some p) (copied : Bool) :
    wp (wait p copied) E (fun _ m' => Inv none m') m := by
  unfold wait
  simp only [wp_bind, wp_get]
  cases hfind : findSlot m fun t => t.parent = some p ∧ t.state = .zombie with
  | some pp =>
    have hzombie : (m.proc pp).state = .zombie := by
      have htest := find_slot_some hfind
      simp only [decide_eq_true_eq] at htest
      exact htest.2
    simp only [wp_ite, wp_bind, wp_pure]
    refine ⟨fun _ => ?_, fun _ => h⟩
    exact wp_mono (wp_freeproc h (by simp [hzombie])) fun _ _ hm => hm.1
  | none =>
    simp only [wp_ite, wp_bind, wp_pure]
    exact ⟨fun _ => h, fun _ => wp_sleep h hp _⟩

theorem wp_sys_setpriority (p : Slot) (pid priority : Int) :
    wp (sysSetpriority p pid priority) E (fun _ m' => Inv none m') m := by
  unfold sysSetpriority
  simp only [wp_ite, wp_pure, wp_bind, wp_get]
  refine ⟨fun _ => h, fun hrange => ?_⟩
  have hset (t : Slot) : Inv none (withProc m t { m.proc t with priority := priority } m.current) :=
    h.set_same_state rfl rfl fun hr => ⟨hr.level, by dsimp only; omega, hr.quantum⟩
  refine ⟨fun _ => hset p, fun _ => ?_⟩
  cases findSlot m (·.pid = pid) with
  | none => exact h
  | some t => exact hset t

end

/-! ## Selection -/

/-- Queue `i` is `before`, process `p` and `after`, and `pop` takes `p`: the head of a ring, and
from level 2 the first entry of the greatest priority. -/
structure Choice (m : Machine) (i : QueueId) (p : Slot) (before after : List Ptr) : Prop where
  split : entries m i = before ++ some p :: after
  head : i ≠ .mlfq 2 → before = []
  greater : i = .mlfq 2 → ∀ t ∈ before, priorityOf m t < (m.proc p).priority
  greatest : i = .mlfq 2 → ∀ t ∈ after, priorityOf m t ≤ (m.proc p).priority

/-- What taking process `p` off queue `i` leaves: only that queue has changed, and `p` is the
RUNNABLE process that is no longer queued. -/
structure Popped (m : Machine) (i : QueueId) (p : Slot) (m' : Machine) : Prop where
  inv : Inv (some p) m'
  state : (m.proc p).state = .runnable
  proc : m'.proc = m.proc
  cpu : SameCpu m m'
  taken : ∃ before after, Choice m i p before after ∧ entries m' i = before ++ after
  other : ∀ j, j ≠ i → entries m' j = entries m j

/-- Removing an entry from one queue in use makes its process the missing one. -/
theorem inv_remove {before after : List Ptr} (h : Inv none m) (hi : i ∈ activeQueues m.mode)
    (hshape : Shape (withQueue m i q) i) (hchoice : Choice m i p before after)
    (hrest : entries (withQueue m i q) i = before ++ after) :
    Popped m i p (withQueue m i q) := by
  have hentry : (entries m i).Perm (some p :: entries (withQueue m i q) i) := by
    rw [hchoice.split, hrest]
    exact List.perm_middle
  have hsub : (entries (withQueue m i q) i).Sublist (entries m i) := by
    rw [hchoice.split, hrest]
    exact (List.Sublist.refl before).append (List.sublist_cons_self ..)
  have hperm : (queued m).Perm (some p :: queued (withQueue m i q)) :=
    queued_perm_cons rfl hi hentry fun j hj => (entries_with_queue_ne hj).symm
  have hnodup := List.nodup_cons.mp (hperm.nodup_iff.mp h.nodup)
  have hstate : (m.proc p).state = .runnable := by
    obtain ⟨r, hr, hrun, _⟩ := (h.mem _).mp (hperm.mem_iff.mpr (List.mem_cons_self ..))
    rw [Option.some.inj hr]
    exact hrun
  refine ⟨⟨?_, h.running, hnodup.2, ?_, ?_, ?_, ?_⟩, hstate, rfl, ⟨rfl, rfl, rfl⟩,
    ⟨before, after, hchoice, hrest⟩, fun j hj => entries_with_queue_ne hj⟩
  · intro j
    by_cases hj : j = i
    · subst hj
      exact hshape
    · exact shape_with_queue_ne hj (h.shape j)
  · intro t
    constructor
    · intro ht
      obtain ⟨r, rfl, hrun, _⟩ := (h.mem _).mp (hperm.mem_iff.mpr (List.mem_cons_of_mem _ ht))
      exact ⟨r, rfl, hrun, fun hrp => hnodup.1 (hrp ▸ ht)⟩
    · rintro ⟨r, rfl, hrun, hne⟩
      have hmem := hperm.mem_iff.mp ((h.mem _).mpr ⟨r, rfl, hrun, by simp⟩)
      rcases List.mem_cons.mp hmem with heq | hmem
      · exact absurd heq hne
      · exact hmem
  · intro hmode r hlive _
    exact h.fields hmode r hlive (by simp)
  · intro hmode l r hr
    refine h.level hmode l r ?_
    by_cases hj : QueueId.mlfq l = i
    · subst hj
      exact hentry.mem_iff.mpr (List.mem_cons_of_mem _ hr)
    · rwa [entries_with_queue_ne hj] at hr
  · intro hmode l
    by_cases hj : QueueId.mlfq l = i
    · subst hj
      exact (h.order hmode l).sublist hsub
    · rw [entries_with_queue_ne hj]
      exact h.order hmode l

/-- Every entry of queue `i` points to a process, at level 2 to one with a priority above the `-1`
that `L2_pop` starts from. -/
def Sound (m : Machine) (i : QueueId) : Prop :=
  ∀ t ∈ entries m i, ∃ p, t = some p ∧ (i = .mlfq 2 → 0 ≤ (m.proc p).priority)

/-- `pop` has taken `p` off queue `i`. -/
def TakenFrom (m : Machine) (i : QueueId) (p : Slot) (m' : Machine) : Prop :=
  ∃ q before after, m' = withQueue m i q ∧ Shape m' i ∧ Choice m i p before after ∧
    entries m' i = before ++ after

theorem wp_pop_ring (hshape : Shape m i) (hsound : Sound m i) (hring : i ≠ .mlfq 2)
    (hne : isEmpty (m.queue i) = false) :
    wp (pop i) E (fun t m' => ∃ p, t = some p ∧ TakenFrom m i p m') m := by
  have hpop := ring_queue_pop (hshape.ring hring) hne
  have hentries : entries m i = (queuePop (m.queue i)).1 ::
      entries (withQueue m i (queuePop (m.queue i)).2) i := by
    simpa [entries, hring, withQueue] using hpop
  obtain ⟨p, hp, _⟩ := hsound (queuePop (m.queue i)).1
    (by rw [hentries]; exact List.mem_cons_self ..)
  rw [hp] at hentries
  simp only [pop, wp_bind, wp_get, if_neg hring, setQueue, wp_modify, wp_pure]
  have hchoice : Choice m i p [] (entries (withQueue m i (queuePop (m.queue i)).2) i) :=
    ⟨hentries, fun _ => rfl, fun hl => absurd hl hring, fun hl => absurd hl hring⟩
  refine ⟨p, hp, _, _, _, rfl, ⟨?_, fun hl => absurd hl hring, ?_⟩, hchoice, rfl⟩
  · intro _
    simpa [withQueue] using queue_pop_in_ring (hshape.ring hring)
  · have hlen := hshape.length
    rw [hentries, List.length_cons] at hlen
    exact Nat.le_of_succ_le hlen

/-- `pop` of level 2 when it is not empty. It never returns null. -/
theorem wp_pop_linear (hshape : Shape m (.mlfq 2)) (hsound : Sound m (.mlfq 2))
    (hne : isEmpty (m.queue (.mlfq 2)) = false) :
    wp (pop (.mlfq 2)) E (fun t m' => ∃ p, t = some p ∧ TakenFrom m (.mlfq 2) p m') m := by
  have hs : (m.queue (.mlfq 2)).s = 0 := hshape.linear rfl
  have hpos : 0 < (m.queue (.mlfq 2)).e := by
    simp only [isEmpty, hs, beq_eq_false_iff_ne, ne_eq] at hne
    omega
  have hmem (t : Ptr) (ht : t ∈ (m.queue (.mlfq 2)).linear) :
      ∃ p, t = some p ∧ 0 ≤ (m.proc p).priority := by
    obtain ⟨p, hp, hprio⟩ := hsound t (by simpa [entries] using ht)
    exact ⟨p, hp, hprio rfl⟩
  have hnull : (none : Ptr) ∉ (m.queue (.mlfq 2)).linear := by
    intro hnone
    obtain ⟨p, hp, _⟩ := hmem none hnone
    simp at hp
  have hprio : ∀ k < (m.queue (.mlfq 2)).e, 0 ≤ priorityOf m ((m.queue (.mlfq 2)).p k) := by
    intro k hk
    obtain ⟨p, hp, hle⟩ := hmem ((m.queue (.mlfq 2)).p k)
      (List.mem_map.mpr ⟨k, List.mem_range.mpr hk, rfl⟩)
    rw [hp]
    exact hle
  obtain ⟨idx, hidx, hr, hmax, hfirst, hs', _, hlinear⟩ :=
    l2_pop_spec (priorityOf m) none hpos hprio
  obtain ⟨p, hp, _⟩ := hmem ((m.queue (.mlfq 2)).p idx)
    (List.mem_map.mpr ⟨idx, List.mem_range.mpr hidx, rfl⟩)
  have hlt : idx < (m.queue (.mlfq 2)).linear.length := by simpa using hidx
  have hget : (m.queue (.mlfq 2)).linear[idx] = some p := by simpa [Queue.linear] using hp
  rw [hp] at hmax hfirst
  have hchoice : Choice m (.mlfq 2) p ((m.queue (.mlfq 2)).linear.take idx)
      ((m.queue (.mlfq 2)).linear.drop (idx + 1)) := by
    refine ⟨?_, fun hl => absurd rfl hl, fun _ t ht => ?_, fun _ t ht => ?_⟩
    · rw [entries, if_pos rfl, ← hget, List.getElem_cons_drop, List.take_append_drop]
    · obtain ⟨k, hk, rfl⟩ := List.mem_take_iff_getElem.mp ht
      simpa [Queue.linear, priorityOf] using hfirst k (by omega)
    · obtain ⟨k, hk, rfl⟩ := List.mem_map.mp (List.mem_of_mem_drop ht)
      exact hmax k (List.mem_range.mp hk)
  simp only [pop, wp_bind, wp_get, if_true, if_neg hnull, setQueue, wp_modify, wp_pure]
  refine ⟨p, hr.trans hp, _, _, _, rfl, ⟨fun hl => absurd rfl hl, fun _ => ?_, ?_⟩, hchoice, ?_⟩
  · simpa using hs'.trans hs
  · have hlen := hshape.length
    simp only [entries, if_true, update_self, hlinear, List.length_eraseIdx] at hlen ⊢
    split <;> omega
  · simp only [entries, if_true, update_self, hlinear]
    exact List.eraseIdx_eq_take_drop_succ ..

theorem wp_pop_sound (hshape : Shape m i) (hsound : Sound m i) (hne : isEmpty (m.queue i) = false) :
    wp (pop i) E (fun t m' => ∃ p, t = some p ∧ TakenFrom m i p m') m := by
  by_cases hl : i = .mlfq 2
  · subst hl
    exact wp_pop_linear hshape hsound hne
  · exact wp_pop_ring hshape hsound hl hne

section

variable (h : Inv none m) (hi : i ∈ activeQueues m.mode)

include h hi

theorem Inv.sound : Sound m i := by
  intro t ht
  obtain ⟨p, hp, hrun, _⟩ := (h.mem t).mp (mem_queued.mpr ⟨i, hi, ht⟩)
  refine ⟨p, hp, fun hl => ?_⟩
  have hmode : m.mode = .mlfq := by
    cases hm : m.mode with
    | fcfs => simp [hm, hl, activeQueues] at hi
    | mlfq => rfl
  exact (h.fields hmode p (Or.inl hrun) (by simp)).priority.1

theorem wp_pop (hne : isEmpty (m.queue i) = false) :
    wp (pop i) E (fun t m' => ∃ p, t = some p ∧ Popped m i p m') m := by
  refine wp_mono (wp_pop_sound (h.shape i) (h.sound hi) hne) ?_
  intro t m' hpop
  obtain ⟨p, hp, q, before, after, hm', hshape, hchoice, hrest⟩ := hpop
  subst hm'
  exact ⟨p, hp, inv_remove h hi hshape hchoice hrest⟩

/-- The selection loop on a queue in use: the first entry it pops is RUNNABLE, so it stops
there, and it returns null only when the queue is empty. -/
theorem wp_select_from {fuel : Nat} :
    wp (selectFrom i (fuel + 1)) E (fun t m' =>
      (t = none ∧ m' = m ∧ entries m i = []) ∨ ∃ p, t = some p ∧ Popped m i p m') m := by
  simp only [selectFrom, wp_bind, wp_get, wp_ite, wp_pure]
  refine ⟨fun hempty => Or.inl ⟨trivial, trivial, ?_⟩, fun hne => ?_⟩
  · by_cases hl : i = .mlfq 2
    · subst hl
      have hs := (h.shape (.mlfq 2)).linear rfl
      simp only [isEmpty, hs, beq_iff_eq] at hempty
      simp [entries, Queue.linear, ← hempty]
    · simpa [entries, hl] using (ring_eq_nil_iff ((h.shape i).ring hl)).mpr hempty
  · refine wp_mono (wp_pop h hi (by simpa using hne)) ?_
    rintro _ m1 ⟨p, rfl, hpop⟩
    simp only [deref, wp_pure]
    refine ⟨fun _ => Or.inr ⟨p, rfl, hpop⟩, fun hstate => absurd ?_ hstate⟩
    rw [hpop.proc]
    exact hpop.state

end

/-- Selection in MLFQ mode takes from the first level that has an entry. -/
theorem wp_select_with_mlfq (h : Inv none m) (hmode : m.mode = .mlfq) :
    wp selectWithMlfq E (fun t m' => (t = none ∧ m' = m ∧ queued m = []) ∨
      ∃ (i : Fin 3) (p : Slot), t = some p ∧ Popped m (.mlfq i) p m' ∧
        ∀ j < i, entries m (.mlfq j) = []) m := by
  have hactive := mlfq_mem_active hmode
  simp only [selectWithMlfq, wp_bind]
  refine wp_mono (wp_select_from h (hactive 0)) ?_
  rintro t0 m0 (⟨rfl, rfl, hnil0⟩ | ⟨p, rfl, hpop⟩)
  · simp only [wp_bind]
    refine wp_mono (wp_select_from h (hactive 1)) ?_
    rintro t1 m1 (⟨rfl, rfl, hnil1⟩ | ⟨p, rfl, hpop⟩)
    · refine wp_mono (wp_select_from h (hactive 2)) ?_
      rintro t2 m2 (⟨rfl, rfl, hnil2⟩ | ⟨p, rfl, hpop⟩)
      · exact Or.inl ⟨rfl, rfl, by simp [queued, hmode, activeQueues, hnil0, hnil1, hnil2]⟩
      · refine Or.inr ⟨2, p, rfl, hpop, fun j hj => ?_⟩
        obtain rfl | rfl : j = 0 ∨ j = 1 := by omega
        · exact hnil0
        · exact hnil1
    · refine Or.inr ⟨1, p, rfl, hpop, fun j hj => ?_⟩
      obtain rfl : j = 0 := by omega
      exact hnil0
  · exact Or.inr ⟨0, p, rfl, hpop, fun j hj => absurd hj (Fin.not_lt_zero j)⟩

/-- Selection in either mode: null only when no queue in use has an entry. -/
theorem wp_select (h : Inv none m) :
    wp select E (fun t m' =>
      (t = none ∧ m' = m ∧ queued m = []) ∨ ∃ i p, t = some p ∧ Popped m i p m') m := by
  unfold select
  simp only [wp_bind, wp_get]
  cases hmode : m.mode with
  | fcfs =>
    simp only [if_true, selectWithFcfs]
    refine wp_mono (wp_select_from h (by simp [hmode, activeQueues])) ?_
    rintro t m' (⟨rfl, rfl, hnil⟩ | ⟨p, rfl, hpop⟩)
    · exact Or.inl ⟨rfl, rfl, by simp [queued, hmode, activeQueues, hnil]⟩
    · exact Or.inr ⟨_, p, rfl, hpop⟩
  | mlfq =>
    simp only [reduceCtorEq, if_false]
    refine wp_mono (wp_select_with_mlfq h hmode) ?_
    rintro t m' (hnone | ⟨i, p, rfl, hpop, _⟩)
    · exact Or.inl hnone
    · exact Or.inr ⟨_, p, rfl, hpop⟩

theorem wp_dispatch (h : Inv none m) (hidle : m.current = none) :
    wp dispatch E (fun _ m' => Inv none m') m := by
  unfold dispatch
  simp only [wp_bind]
  refine wp_mono (wp_select h) ?_
  rintro t m1 (⟨rfl, rfl, _⟩ | ⟨i, p, rfl, hpop⟩)
  · exact h
  · simp only [wp_bind, wp_set_proc, wp_set_current, wp_pure]
    have hstate : (m1.proc p).state = .runnable := by rw [hpop.proc]; exact hpop.state
    refine hpop.inv.set_proc
      (t := { m1.proc p with state := .running, chan := none }) ?_ (by simp) ?_ ?_ (Or.inl rfl)
    · intro q hq
      simp [hq]
    · intro q
      by_cases hq : q = p
      · subst hq
        simp
      · have hrun := hpop.inv.running q
        rw [hpop.cpu.1, hidle] at hrun
        simpa [update_of_ne hq, Ne.symm hq] using hrun
    · intro hmode _ _
      have hrange := h.fields (hpop.cpu.2.1 ▸ hmode) p (Or.inl hpop.state) (by simp)
      rw [hpop.proc]
      exact ⟨hrange.level, hrange.priority, hrange.quantum⟩

/-! ## Rebuilding a queue -/

/-- The RUNNABLE processes among the first `k` slots, in table order. -/
def runnableBelow (m : Machine) (k : Nat) : List Ptr :=
  (((List.finRange NPROC).take k).filter fun p => (m.proc p).state = .runnable).map some

theorem runnable_below_succ (m : Machine) (k : Slot) :
    runnableBelow m (k + 1) =
      runnableBelow m k ++ if (m.proc k).state = .runnable then [some k] else [] := by
  have hk : (k : Nat) < (List.finRange NPROC).length := by simp
  have htake : (List.finRange NPROC).take (k + 1) = (List.finRange NPROC).take k ++ [k] := by
    rw [List.take_add_one, List.getElem?_eq_getElem hk]
    simp
  unfold runnableBelow
  rw [htake, List.filter_append, List.map_append]
  congr 1
  by_cases hrun : (m.proc k).state = .runnable <;> simp [hrun]

theorem runnable_below_length (m : Machine) (k : Nat) : (runnableBelow m k).length ≤ NPROC := by
  unfold runnableBelow
  rw [List.length_map]
  refine (List.length_filter_le ..).trans ?_
  simp

theorem mem_runnable_below (m : Machine) (t : Ptr) :
    t ∈ runnableBelow m NPROC ↔ ∃ p, t = some p ∧ (m.proc p).state = .runnable := by
  simp only [runnableBelow, List.mem_map, List.mem_filter, decide_eq_true_eq]
  constructor
  · rintro ⟨p, ⟨_, hrun⟩, rfl⟩
    exact ⟨p, rfl, hrun⟩
  · rintro ⟨p, rfl, hrun⟩
    refine ⟨p, ⟨?_, hrun⟩, rfl⟩
    rw [List.take_of_length_le (by simp)]
    exact List.mem_finRange p

theorem runnable_below_nodup (m : Machine) (k : Nat) : (runnableBelow m k).Nodup := by
  refine List.Nodup.map (Option.some_injective _) (List.Nodup.filter _ ?_)
  exact (List.nodup_finRange NPROC).sublist (List.take_sublist ..)

/-- A queue that has been emptied and filled with `l` without wrapping. -/
structure Filled (q : Queue Ptr) (l : List Ptr) : Prop where
  start : q.s = 0
  linear : q.linear = l
  bound : l.length ≤ NPROC

theorem Filled.end_lt (h : Filled q l) : q.e < QNUM := by
  have hlen := h.bound
  rw [← h.linear, linear_length] at hlen
  exact lt_of_le_of_lt hlen (by decide)

theorem Filled.entries (h : Filled (m.queue i) l) :
    entries m i = l := by
  by_cases hi : i = .mlfq 2
  · simpa [Sched.entries, hi] using hi ▸ h.linear
  · simpa [Sched.entries, hi, ring_eq_linear h.start h.end_lt] using h.linear

theorem Filled.shape (h : Filled (m.queue i) l) : Shape m i where
  ring _ := ⟨by rw [h.start]; decide, h.end_lt⟩
  linear _ := h.start
  length := by
    rw [h.entries]
    exact h.bound

theorem Filled.push (h : Filled q l) (x : Ptr) (hlen : (l ++ [x]).length ≤ NPROC) :
    Filled (l2Push q x) (l ++ [x]) :=
  ⟨h.start, by rw [linear_l2_push, h.linear], hlen⟩

theorem filled_reset (q : Queue Ptr) : Filled { q with s := 0, e := 0 } [] :=
  ⟨rfl, rfl, Nat.zero_le _⟩

/-- Machine `m` with process table `proc` and the queues of `m'`. -/
def requeued (m : Machine) (proc : Slot → Proc) (m' : Machine) : Machine :=
  { m with proc := proc, queue := m'.queue, arrival := m'.arrival, arrivals := m'.arrivals }

/-- `refill` applies `f` to every slot and leaves queue `i` with the RUNNABLE processes in table
order. -/
theorem wp_refill {f : Proc → Proc} (hempty : Filled (m.queue i) [])
    (hf : ∀ t, (f t).state = t.state) :
    wp (refill i f) E (fun _ m' => m' = requeued m (fun p => f (m.proc p)) m' ∧
      Filled (m'.queue i) (runnableBelow m NPROC) ∧ InOrder m' (runnableBelow m NPROC) ∧
      ∀ j, j ≠ i → m'.queue j = m.queue j) m := by
  have hloop := wp_for_each (E := E) (n := NPROC)
    (f := fun p => do
      setProc p f
      let m ← get
      if (m.proc p).state = .runnable then store i l2Push (some p) else pure ())
    (fun k m' => m' = requeued m (fun p => if (p : Nat) < k then f (m.proc p) else m.proc p) m' ∧
      Filled (m'.queue i) (runnableBelow m k) ∧ InOrder m' (runnableBelow m k) ∧
      ∀ j, j ≠ i → m'.queue j = m.queue j)
    (s := m) ?_ ⟨by simp [requeued], by simpa [runnableBelow] using hempty,
      by simpa [runnableBelow] using InOrder.nil, fun _ _ => rfl⟩
  · refine wp_mono hloop ?_
    rintro _ m' ⟨heq, hfilled, horder, hother⟩
    refine ⟨?_, hfilled, horder, hother⟩
    simpa using heq
  · rintro k m1 ⟨heq, hfilled, horder, hother⟩
    have hproc : m1.proc k = m.proc k := by rw [heq]; simp [requeued]
    have hsame : (withProc m1 k (f (m.proc k)) m1.current) =
        requeued m (fun p => if (p : Nat) < k + 1 then f (m.proc p) else m.proc p) m1 := by
      rw [withProc, heq]
      unfold requeued
      congr 1
      funext p
      by_cases hp : p = k
      · subst hp
        simp
      · have hne : (p : Nat) ≠ k := fun h => hp (Fin.ext h)
        simp only [update_of_ne hp, Nat.lt_succ_iff_lt_or_eq, hne, or_false]
    simp only [wp_bind, wp_set_proc, wp_get, wp_ite, wp_pure, with_proc_self, hf, hproc]
    rw [runnable_below_succ, hsame]
    refine ⟨fun hrun => ?_, fun hrun => ?_⟩
    · simp only [store, wp_bind, wp_get, wp_ite, setQueue, wp_modify, wp_fault]
      refine ⟨fun _ => ⟨rfl, ?_, ?_, ?_⟩, fun hfull => absurd hfilled.end_lt hfull⟩
      · rw [if_pos hrun]
        simp only [Machine.arrive, requeued, update_self]
        refine hfilled.push _ ?_
        have hlen := runnable_below_length m (k + 1)
        rwa [runnable_below_succ, if_pos hrun] at hlen
      · rw [if_pos hrun]
        have hnodup := runnable_below_nodup m (k + 1)
        rw [runnable_below_succ, if_pos hrun, List.nodup_append] at hnodup
        refine InOrder.push (m := { requeued m _ m1 with queue := _ }) horder ?_
        intro hmem
        exact hnodup.2.2 _ hmem _ (List.mem_singleton_self _) rfl
      · intro j hj
        simpa [Machine.arrive, requeued, update_of_ne hj] using hother j hj
    · rw [if_neg hrun, List.append_nil]
      exact ⟨rfl, hfilled, horder, hother⟩

/-! ## Mode switches and the boost -/

/-- A rebuild that leaves process states and the CPU alone, and puts the RUNNABLE processes into
one queue in use, keeps the invariant. -/
theorem inv_rebuilt (h : Inv none m) (hstate : ∀ p, (m'.proc p).state = (m.proc p).state)
    (hcurrent : m'.current = m.current) (hshape : ∀ i, Shape m' i) (hnodup : (queued m').Nodup)
    (hmem : ∀ t, t ∈ queued m' ↔ ∃ p, t = some p ∧ (m.proc p).state = .runnable)
    (hfields : m'.mode = .mlfq → ∀ p, InRange (m'.proc p) ∧ (m'.proc p).level = 0)
    (hlower : m'.mode = .mlfq → entries m' (.mlfq 1) = [] ∧ entries m' (.mlfq 2) = [])
    (horder : m'.mode = .mlfq → InOrder m' (entries m' (.mlfq 0))) :
    Inv none m' where
  shape := hshape
  running p := by rw [hstate, hcurrent]; exact h.running p
  nodup := hnodup
  mem t := by simpa [hstate] using hmem t
  fields hmode p _ _ := (hfields hmode p).1
  level := by
    intro hmode i p hp
    obtain ⟨hone, htwo⟩ := hlower hmode
    fin_cases i
    · exact (hfields hmode p).2
    · rw [show (QueueId.mlfq ⟨1, by decide⟩) = .mlfq 1 from rfl, hone] at hp
      exact absurd hp List.not_mem_nil
    · rw [show (QueueId.mlfq ⟨2, by decide⟩) = .mlfq 2 from rfl, htwo] at hp
      exact absurd hp List.not_mem_nil
  order := by
    intro hmode i
    obtain ⟨hone, htwo⟩ := hlower hmode
    fin_cases i
    · exact horder hmode
    · rw [show (QueueId.mlfq ⟨1, by decide⟩) = .mlfq 1 from rfl, hone]
      exact InOrder.nil
    · rw [show (QueueId.mlfq ⟨2, by decide⟩) = .mlfq 2 from rfl, htwo]
      exact InOrder.nil

/-- A queue that an operation did not touch keeps its shape. -/
theorem Shape.of_queue_eq (h : Shape m i) (hqueue : m'.queue i = m.queue i) : Shape m' i := by
  refine ⟨?_, ?_, ?_⟩
  · rw [hqueue]; exact h.ring
  · rw [hqueue]; exact h.linear
  · simpa [entries, hqueue] using h.length

theorem entries_of_queue_eq (hqueue : m'.queue i = m.queue i) :
    entries m' i = entries m i := by
  simp [entries, hqueue]

/-- What a switch to FCFS mode does: the queue has the RUNNABLE processes in table order. -/
structure SwitchedToFcfs (m m' : Machine) : Prop where
  mode : m'.mode = .fcfs
  current : m'.current = m.current
  state : ∀ p, (m'.proc p).state = (m.proc p).state
  fcfs : Filled (m'.queue .fcfs) (runnableBelow m NPROC)
  other : ∀ i, i ≠ .fcfs → m'.queue i = m.queue i

theorem SwitchedToFcfs.queued (h : SwitchedToFcfs m m') :
    queued m' = runnableBelow m NPROC := by
  rw [Sched.queued, h.mode, activeQueues, List.flatMap_singleton]
  exact h.fcfs.entries

theorem SwitchedToFcfs.inv (h : SwitchedToFcfs m m') (hinv : Inv none m) :
    Inv none m' := by
  have hfcfs : m'.mode ≠ .mlfq := by
    rw [h.mode]
    decide
  refine inv_rebuilt hinv h.state h.current ?_ ?_ ?_ (fun hm => absurd hm hfcfs)
    (fun hm => absurd hm hfcfs) fun hm => absurd hm hfcfs
  · intro i
    by_cases hi : i = .fcfs
    · subst hi
      exact h.fcfs.shape
    · exact (hinv.shape i).of_queue_eq (h.other i hi)
  · rw [h.queued]
    exact runnable_below_nodup ..
  · intro t
    rw [h.queued]
    exact mem_runnable_below ..

theorem wp_sys_fcfsmode_switch (hmode : m.mode = .mlfq) :
    wp sysFcfsmode E (fun r m' => r = 0 ∧ SwitchedToFcfs m m') m := by
  unfold sysFcfsmode
  simp only [wp_bind, wp_get, reset, wp_modify, hmode, reduceCtorEq, if_false]
  refine wp_mono (wp_refill (i := .fcfs) ?_ fun _ => rfl) ?_
  · simpa using filled_reset (m.queue .fcfs)
  · intro _ m1 hm1
    obtain ⟨heq, hfilled, -, hother⟩ := hm1
    refine ⟨rfl, rfl, ?_, fun p => ?_, hfilled, fun i hi => ?_⟩
    · rw [heq]
      rfl
    · rw [heq]
      rfl
    · simpa [update_of_ne hi] using hother i hi

theorem wp_sys_fcfsmode (h : Inv none m) :
    wp sysFcfsmode E (fun _ m' => Inv none m') m := by
  cases hmode : m.mode with
  | fcfs =>
    unfold sysFcfsmode
    rw [wp_bind, wp_get, if_pos hmode]
    exact h
  | mlfq => exact wp_mono (wp_sys_fcfsmode_switch hmode) fun _ _ hm' => hm'.2.inv h

theorem wp_reset_mlfq {Q : Unit → Machine → Prop}
    (hQ : ∀ m', m' = { m with queue := m'.queue } → m'.queue .fcfs = m.queue .fcfs →
      (∀ i, Filled (m'.queue (.mlfq i)) []) → Q () m') :
    wp (do reset (.mlfq 0); reset (.mlfq 1); reset (.mlfq 2)) E Q m := by
  simp only [wp_bind, reset, wp_modify]
  refine hQ _ rfl (by simp) ?_
  intro i
  fin_cases i
  · simpa using filled_reset (m.queue (.mlfq 0))
  · simpa using filled_reset (m.queue (.mlfq 1))
  · simpa using filled_reset (m.queue (.mlfq 2))

theorem wp_priority_boosting (h : Inv none m) :
    wp priorityBoosting E (fun _ m' => Inv none m') m := by
  unfold priorityBoosting
  have hreset := wp_reset_mlfq (E := E) (m := m)
    (Q := fun _ m1 => wp (refill (.mlfq 0) enter) E (fun _ m' => Inv none m') m1) ?_
  · simpa only [wp_bind] using hreset
  · intro m1 heq1 hfcfs hempty
    refine wp_mono (wp_refill (hempty 0) fun _ => rfl) ?_
    rintro _ m2 ⟨heq2, hfilled, horder, hother⟩
    have hrunnable : runnableBelow m1 NPROC = runnableBelow m NPROC := by rw [heq1]; rfl
    rw [hrunnable] at hfilled horder
    have hmode : m2.mode = m.mode := by
      rw [heq2, heq1]
      rfl
    have hone : Filled (m2.queue (.mlfq 1)) [] := hother (.mlfq 1) (by decide) ▸ hempty 1
    have htwo : Filled (m2.queue (.mlfq 2)) [] := hother (.mlfq 2) (by decide) ▸ hempty 2
    have hfcfs2 : m2.queue .fcfs = m.queue .fcfs := (hother .fcfs (by decide)).trans hfcfs
    have hqueued : queued m2 = if m.mode = .fcfs then queued m else runnableBelow m NPROC := by
      cases hm : m.mode with
      | fcfs => simp [queued, hmode, hm, activeQueues, entries_of_queue_eq hfcfs2]
      | mlfq =>
        simp [queued, hmode, hm, activeQueues, hfilled.entries, hone.entries, htwo.entries]
    refine inv_rebuilt h ?_ ?_ ?_ ?_ ?_ ?_ ?_ ?_
    · intro p
      rw [heq2, heq1]
      rfl
    · rw [heq2, heq1]
      rfl
    · intro i
      cases i with
      | fcfs => exact (h.shape .fcfs).of_queue_eq hfcfs2
      | mlfq i =>
        fin_cases i
        · exact hfilled.shape
        · exact hone.shape
        · exact htwo.shape
    · rw [hqueued]
      split
      · exact h.nodup
      · exact runnable_below_nodup ..
    · intro t
      rw [hqueued]
      split
      · simpa using h.mem t
      · exact mem_runnable_below ..
    · intro _ p
      rw [heq2]
      exact ⟨InRange.enter _, rfl⟩
    · exact fun _ => ⟨hone.entries, htwo.entries⟩
    · intro _
      rw [hfilled.entries]
      exact horder

/-- The loop over the FCFS ring appends its entries, from index `i` on, to `mlfq[0]`. -/
theorem wp_refill_from_ring {fuel i : Nat} (hring : ({ q with s := i } : Queue Ptr).InRing)
    (hfuel : ({ q with s := i } : Queue Ptr).ring.length < fuel)
    (hrunnable : ∀ t ∈ ({ q with s := i } : Queue Ptr).ring,
      ∃ p, t = some p ∧ (m.proc p).state = .runnable) (hfilled : Filled (m.queue (.mlfq 0)) l)
    (horder : InOrder m l) (hnodup : (l ++ ({ q with s := i } : Queue Ptr).ring).Nodup)
    (hbound : (l ++ ({ q with s := i } : Queue Ptr).ring).length ≤ NPROC) :
    wp (refillFromRing q fuel i) E (fun _ m' => m' = requeued m m.proc m' ∧
      Filled (m'.queue (.mlfq 0)) (l ++ ({ q with s := i } : Queue Ptr).ring) ∧
      InOrder m' (l ++ ({ q with s := i } : Queue Ptr).ring) ∧
      ∀ j, j ≠ .mlfq 0 → m'.queue j = m.queue j) m := by
  induction fuel generalizing i l m with
  | zero => omega
  | succ fuel ih =>
    simp only [refillFromRing, wp_ite, wp_pure]
    refine ⟨fun hend => ?_, fun hne => ?_⟩
    · have hnil : ({ q with s := i } : Queue Ptr).ring = [] :=
        (ring_eq_nil_iff hring).mpr (by simpa [isEmpty] using hend)
      rw [hnil, List.append_nil]
      exact ⟨rfl, hfilled, horder, fun _ _ => trivial⟩
    · have hpop := ring_queue_pop hring (by simpa [isEmpty] using hne)
      simp only [queuePop] at hpop
      obtain ⟨p, hp, hrun⟩ := hrunnable (q.p i) (by rw [hpop]; exact List.mem_cons_self ..)
      rw [hp] at hpop
      simp only [wp_bind, hp, deref, wp_pure, wp_get, wp_ite, store, setQueue, wp_modify,
        wp_fault]
      refine ⟨fun _ => ⟨fun _ => ?_, fun hfull => absurd hfilled.end_lt hfull⟩,
        fun hnot => absurd hrun hnot⟩
      have hlen : (l ++ [some p]).length ≤ NPROC := by
        rw [hpop] at hbound
        simp only [List.length_append, List.length_cons, List.length_nil] at hbound ⊢
        omega
      have hpushed := hfilled.push (some p) hlen
      rw [hpop] at hfuel hbound hrunnable hnodup
      rw [hpop]
      have hnew : some p ∉ l := by
        intro hmem
        exact (List.nodup_append.mp hnodup).2.2 _ hmem _ (List.mem_cons_self ..) rfl
      refine wp_mono (ih (i := (i + 1) &&& QMOD) (l := l ++ [some p]) ?_ ?_ ?_ ?_ ?_ ?_ ?_) ?_
      · exact queue_pop_in_ring hring
      · simpa using hfuel
      · intro t ht
        exact hrunnable t (List.mem_cons_of_mem _ ht)
      · simpa [Machine.arrive] using hpushed
      · exact InOrder.push (m := { m with queue := _ }) horder hnew
      · simpa using hnodup
      · simpa using hbound
      · rintro _ m' ⟨heq, hfilled', horder', hother⟩
        refine ⟨heq, by simpa using hfilled', by simpa using horder', ?_⟩
        intro j hj
        rw [hother j hj]
        exact update_of_ne hj _ _

/-- The first loop of `sys_mlfqmode` gives every slot the fields of a process that enters. -/
theorem wp_enter_all : wp (forEach NPROC fun p => setProc p enter) E
    (fun _ m' => m' = { m with proc := fun p => enter (m.proc p) }) m := by
  have hloop := wp_for_each (E := E) (n := NPROC) (f := fun p => setProc p enter)
    (fun k m' => m' = { m with
      proc := fun p => if (p : Nat) < k then enter (m.proc p) else m.proc p }) (s := m) ?_ (by simp)
  · refine wp_mono hloop ?_
    rintro _ m' rfl
    simp
  · rintro k m1 rfl
    simp only [wp_set_proc, withProc]
    congr 1
    funext p
    by_cases hp : p = k
    · subst hp
      simp
    · have hne : (p : Nat) ≠ k := fun h => hp (Fin.ext h)
      simp only [update_of_ne hp, Nat.lt_succ_iff_lt_or_eq, hne, or_false]

/-- What a switch to MLFQ mode does: the entries of the FCFS queue are now in `mlfq[0]`, the other
two levels are empty, and every slot has the fields of a process that enters. -/
structure SwitchedToMlfq (m m' : Machine) : Prop where
  mode : m'.mode = .mlfq
  current : m'.current = m.current
  proc : m'.proc = fun p => enter (m.proc p)
  fcfs : m'.queue .fcfs = m.queue .fcfs
  top : Filled (m'.queue (.mlfq 0)) (queued m)
  middle : Filled (m'.queue (.mlfq 1)) []
  bottom : Filled (m'.queue (.mlfq 2)) []
  order : InOrder m' (queued m)

theorem SwitchedToMlfq.queued (h : SwitchedToMlfq m m') :
    queued m' = queued m := by
  rw [Sched.queued, h.mode]
  simp [activeQueues, h.top.entries, h.middle.entries, h.bottom.entries]

theorem SwitchedToMlfq.inv (h : SwitchedToMlfq m m') (hinv : Inv none m) :
    Inv none m' := by
  refine inv_rebuilt hinv ?_ h.current ?_ ?_ ?_ ?_ ?_ ?_
  · intro p
    rw [h.proc]
    rfl
  · intro i
    cases i with
    | fcfs => exact (hinv.shape .fcfs).of_queue_eq h.fcfs
    | mlfq i =>
      fin_cases i
      · exact h.top.shape
      · exact h.middle.shape
      · exact h.bottom.shape
  · rw [h.queued]
    exact hinv.nodup
  · intro t
    rw [h.queued]
    simpa using hinv.mem t
  · intro _ p
    rw [h.proc]
    exact ⟨InRange.enter _, rfl⟩
  · exact fun _ => ⟨h.middle.entries, h.bottom.entries⟩
  · intro _
    rw [h.top.entries]
    exact h.order

theorem wp_sys_mlfqmode_switch (h : Inv none m) (hmode : m.mode = .fcfs) :
    wp sysMlfqmode E (fun r m' => r = 0 ∧ SwitchedToMlfq m m') m := by
  have hqueued : queued m = (m.queue .fcfs).ring := by
    simp [queued, hmode, activeQueues, entries]
  have hwhole : ({ m.queue .fcfs with s := (m.queue .fcfs).s } : Queue Ptr) = m.queue .fcfs := rfl
  unfold sysMlfqmode
  simp only [wp_bind, wp_get, hmode, reduceCtorEq, if_false]
  have hreset := wp_reset_mlfq (E := E) (m := m) (Q := fun _ m1 =>
    wp (do
      forEach NPROC fun p => setProc p enter
      refillFromRing (m.queue .fcfs) QNUM (m.queue .fcfs).s
      modify fun m => { m with mode := .mlfq, ticks := 0 }
      pure (0 : Int)) E (fun r m' => r = 0 ∧ SwitchedToMlfq m m') m1) ?_
  · simpa only [wp_bind] using hreset
  intro m1 heq1 hfcfs hempty
  simp only [wp_bind]
  refine wp_mono wp_enter_all fun _ m2 heq2 => ?_
  have hqueue2 : m2.queue = m1.queue := by rw [heq2]
  refine wp_mono (wp_refill_from_ring (l := []) ?_ ?_ ?_ ?_ InOrder.nil ?_ ?_) ?_
  · exact (h.shape .fcfs).ring (by decide)
  · have hlen := h.queued_length
    rw [hqueued] at hlen
    exact lt_of_le_of_lt hlen (by decide)
  · intro t ht
    rw [hwhole, ← hqueued] at ht
    obtain ⟨p, hp, hrun, _⟩ := (h.mem t).mp ht
    refine ⟨p, hp, ?_⟩
    rw [heq2, heq1]
    exact hrun
  · rw [hqueue2]
    exact hempty 0
  · simpa [hqueued] using h.nodup
  · simpa [hqueued] using h.queued_length
  · intro _ m3 hm3
    obtain ⟨heq3, hfilled, horder, hother⟩ := hm3
    rw [List.nil_append, hwhole, ← hqueued] at hfilled horder
    refine ⟨rfl, rfl, ?_, ?_, ?_, hfilled, ?_, ?_, horder⟩
    · rw [heq3, heq2, heq1]
      rfl
    · rw [heq3, heq2, heq1]
      rfl
    · exact (hother .fcfs (by decide)).trans (hqueue2 ▸ hfcfs)
    · rw [hother (.mlfq 1) (by decide), hqueue2]
      exact hempty 1
    · rw [hother (.mlfq 2) (by decide), hqueue2]
      exact hempty 2

theorem wp_sys_mlfqmode (h : Inv none m) :
    wp sysMlfqmode E (fun _ m' => Inv none m') m := by
  cases hmode : m.mode with
  | mlfq =>
    unfold sysMlfqmode
    rw [wp_bind, wp_get, if_pos hmode]
    exact h
  | fcfs => exact wp_mono (wp_sys_mlfqmode_switch h hmode) fun _ _ hm' => hm'.2.inv h

/-! ## The invariant along every run -/

/-- The faults an event can end in: `userinit` does not check its `allocproc`, and `init` may
not exit. No event stores past the end of a queue or follows a null queue entry. -/
def faults : Event → Fault → Prop
  | .userinit _ => (· = .wild)
  | .exit => (· = .panic "init exiting")
  | _ => Fault.never

/-- A system call of the running process, given what the call does. -/
theorem wp_syscall {code : Slot → Code Unit} (h : Inv none m)
    (hcode : ∀ p, m.current = some p → wp (code p) E (fun _ m' => Inv none m') m) :
    wp (syscall code) E (fun _ m' => Inv none m') m := by
  simp only [syscall, wp_bind, wp_get]
  cases hc : m.current with
  | none => exact h
  | some p => exact hcode p hc

theorem wp_discard {α : Type} {code : Code α} (h : wp code E (fun _ m' => Inv none m') m) :
    wp (discard code) E (fun _ m' => Inv none m') m := by
  change wp ((fun _ => ()) <$> code) E _ m
  rwa [wp_map]

theorem step_inv (h : Inv none m) (e : Event) :
    wp (step e) (faults e) (fun _ m' => Inv none m') m := by
  cases e with
  | userinit memory => exact wp_userinit h memory
  | select =>
    simp only [step, wp_bind, wp_get, wp_ite, wp_pure]
    exact ⟨fun hidle => wp_discard (wp_dispatch h hidle), fun _ => h⟩
  | fork memory copied => exact wp_syscall h fun p _ => wp_discard (wp_fork h p memory copied)
  | yield => exact wp_syscall h fun p hp => wp_yield h hp
  | sleep chan => exact wp_syscall h fun p hp => wp_sleep h hp chan
  | wakeup chan => exact wp_mono (wp_wakeup h chan) fun _ _ hm => hm.1
  | kill pid => exact wp_syscall h fun _ _ => wp_discard (wp_kill h pid)
  | exit => exact wp_syscall h fun p hp => wp_exit h hp
  | wait copied => exact wp_syscall h fun p hp => wp_discard (wp_wait h hp copied)
  | fcfsmode => exact wp_syscall h fun _ _ => wp_discard (wp_sys_fcfsmode h)
  | mlfqmode => exact wp_syscall h fun _ _ => wp_discard (wp_sys_mlfqmode h)
  | setpriority pid priority =>
    exact wp_syscall h fun p _ => wp_discard (wp_sys_setpriority h p pid priority)
  | priorityBoosting => exact wp_priority_boosting h

theorem inv_boot : Inv none boot := by
  have hempty (i : QueueId) : Filled (boot.queue i) [] := ⟨rfl, rfl, Nat.zero_le _⟩
  have hqueued : queued boot = [] := (hempty .fcfs).entries
  refine ⟨fun i => (hempty i).shape, by simp [boot], ?_, ?_, by simp [boot], by simp [boot],
    by simp [boot]⟩
  · rw [hqueued]
    exact List.nodup_nil
  · intro t
    rw [hqueued]
    simp [boot]

theorem inv_reached (h : Reached m) : Inv none m := by
  refine h.induct (E := Fault.any) _ ?_ ?_
  · rintro s rfl
    exact inv_boot
  · intro s e hs _
    exact wp_mono_fault (step_inv hs e) fun _ _ => trivial

/-- How often process `p` is queued in the queues in use. -/
theorem Inv.count (h : Inv none m) (p : Slot) :
    (queued m).count (some p) = if (m.proc p).state = .runnable then 1 else 0 := by
  split
  next hrun =>
    exact List.count_eq_one_of_mem h.nodup ((h.mem _).mpr ⟨p, rfl, hrun, by simp⟩)
  next hrun => exact List.count_eq_zero.mpr (h.not_mem_queued (Or.inl hrun))

/-- Run-queue exactness on one CPU. In FCFS mode every RUNNABLE process occurs exactly once in
the FCFS ring and nothing else occurs there; in MLFQ mode the same holds of the three levels
taken together. No queue holds more than `NPROC` entries, its next free index lies inside the
array, and no event stores outside an array or follows a null entry. -/
theorem run_queue_exact (h : Reached m) :
    (m.mode = .fcfs → none ∉ (m.queue .fcfs).ring ∧ ∀ p,
      (m.queue .fcfs).ring.count (some p) = if (m.proc p).state = .runnable then 1 else 0) ∧
    (m.mode = .mlfq → (∀ i, none ∉ entries m (.mlfq i)) ∧ ∀ p,
      (m.queue (.mlfq 0)).ring.count (some p) + (m.queue (.mlfq 1)).ring.count (some p) +
        (m.queue (.mlfq 2)).linear.count (some p) =
          if (m.proc p).state = .runnable then 1 else 0) ∧
    (∀ i, (entries m i).length ≤ NPROC ∧ (m.queue i).e < QNUM) ∧
    ∀ e, wp (step e) (faults e) (fun _ _ => True) m := by
  have hinv := inv_reached h
  have hnull : (none : Ptr) ∉ queued m := by
    intro hnone
    obtain ⟨p, hp, _⟩ := (hinv.mem _).mp hnone
    simp at hp
  refine ⟨fun hmode => ?_, fun hmode => ⟨fun i hi => ?_, fun p => ?_⟩, fun i => ?_, fun e => ?_⟩
  · have hqueued : queued m = (m.queue .fcfs).ring := by
      simp [queued, hmode, activeQueues, entries]
    rw [← hqueued]
    exact ⟨hnull, hinv.count⟩
  · exact hnull (mem_queued.mpr ⟨_, mlfq_mem_active hmode i, hi⟩)
  · rw [← hinv.count p]
    simp [queued, hmode, activeQueues, entries, Nat.add_assoc]
  · exact ⟨(hinv.shape i).length, (hinv.shape i).end_lt⟩
  · exact wp_mono (step_inv hinv e) fun _ _ _ => trivial

/-- Two processes in MLFQ mode: the forked one is queued once while its parent runs. -/
theorem run_queue_exact_forked :
    let m := lastState unguarded step [.userinit true, .select, .fork true true, .mlfqmode] boot
    let child : Slot := ⟨1, by decide⟩
    Reached m ∧ m.mode = .mlfq ∧ m.current = some ⟨0, by decide⟩ ∧
      (m.proc child).state = .runnable ∧
      (m.queue (.mlfq 0)).ring.count (some child) + (m.queue (.mlfq 1)).ring.count (some child) +
        (m.queue (.mlfq 2)).linear.count (some child) = 1 := by
  intro m child
  have hboot : Reached boot := .start rfl
  have hreached : Reached m := hboot.last_state _
  have hmode : m.mode = .mlfq := by decide +kernel
  have hstate : (m.proc child).state = .runnable := by decide +kernel
  refine ⟨hreached, hmode, by decide +kernel, hstate, ?_⟩
  rw [((run_queue_exact hreached).2.1 hmode).2 child, if_pos hstate]

end Xv6.Sched
