import Xv6.Sched.Exactness

/-!
# Mode switches

What `mlfqmode` and `fcfsmode` make of the queues in a reachable state, and that a switch to MLFQ
mode does not change the order in which the waiting processes get the CPU. `Waiting m l` says that
the processes `l` are the ones that the next selections find, in this order, whichever mode the
machine is in.
-/

namespace Xv6.Sched

open Function

variable {E : Fault → Prop} {m m' : Machine} {p : Slot} {l : List Slot}

/-- The processes that the next `n` selections return. -/
def picks : Nat → Code (List Slot)
  | 0 => pure []
  | n + 1 => do
    match ← select with
    | none => pure []
    | some p => do
      let rest ← picks n
      pure (p :: rest)

/-- The RUNNABLE processes `l` are in the ring `i`, in this order. -/
structure Line (m : Machine) (i : QueueId) (l : List Slot) : Prop where
  inRing : (m.queue i).InRing
  ring : (m.queue i).ring = l.map some
  runnable : ∀ p ∈ l, (m.proc p).state = .runnable

/-- The processes `l` wait for the CPU: in the FCFS queue, or in `mlfq[0]` with nothing below. -/
def Waiting (m : Machine) (l : List Slot) : Prop :=
  (m.mode = .fcfs ∧ Line m .fcfs l) ∨
    (m.mode = .mlfq ∧ Line m (.mlfq 0) l ∧ isEmpty (m.queue (.mlfq 1)) = true ∧
      isEmpty (m.queue (.mlfq 2)) = true)

theorem wp_select_line {i : QueueId} {fuel : Nat} (h : Line m i (p :: l)) (hi : i ≠ .mlfq 2) :
    wp (selectFrom i (fuel + 1)) E (fun r m' => r = some p ∧ Line m' i l ∧
      m' = withQueue m i (queuePop (m.queue i)).2) m := by
  have hne : isEmpty (m.queue i) = false := by
    have hnil := (ring_eq_nil_iff h.inRing).mpr
    rw [h.ring] at hnil
    exact Bool.eq_false_iff.mpr fun hempty => by cases hnil hempty
  have hpop := ring_queue_pop h.inRing hne
  rw [h.ring, List.map_cons, List.cons.injEq] at hpop
  simp only [selectFrom, pop, wp_bind, wp_get, hne, Bool.false_eq_true, if_false, if_neg hi,
    setQueue, wp_modify, wp_pure, ← hpop.1, deref]
  rw [if_pos (h.runnable p (List.mem_cons_self ..))]
  refine ⟨rfl, ⟨?_, ?_, fun q hq => h.runnable q (List.mem_cons_of_mem _ hq)⟩, rfl⟩
  · show (update m.queue i (queuePop (m.queue i)).2 i).InRing
    rw [update_self]
    exact queue_pop_in_ring h.inRing
  · show (update m.queue i (queuePop (m.queue i)).2 i).ring = _
    rw [update_self]
    exact hpop.2.symm

theorem wp_select_empty {i : QueueId} {fuel : Nat} (h : isEmpty (m.queue i) = true) :
    wp (selectFrom i (fuel + 1)) E (fun r m' => r = none ∧ m' = m) m := by
  simp only [selectFrom, wp_bind, wp_get]
  rw [if_pos h]
  exact ⟨rfl, rfl⟩

theorem Line.empty {i : QueueId} (h : Line m i []) : isEmpty (m.queue i) = true :=
  (ring_eq_nil_iff h.inRing).mp h.ring

/-- The process that has waited longest is selected, and the others go on waiting. -/
theorem wp_select_waiting (h : Waiting m (p :: l)) :
    wp select E (fun r m' => r = some p ∧ Waiting m' l) m := by
  simp only [select, wp_bind, wp_get]
  rcases h with ⟨hmode, hline⟩ | ⟨hmode, hline, hone, htwo⟩
  · rw [if_pos hmode]
    refine wp_mono (wp_select_line hline (by decide)) fun r m' hm' => ?_
    obtain ⟨hr, hrest, rfl⟩ := hm'
    exact ⟨hr, .inl ⟨hmode, hrest⟩⟩
  · rw [if_neg (by rw [hmode]; decide)]
    simp only [selectWithMlfq, wp_bind]
    refine wp_mono (wp_select_line hline (by decide)) fun r m' hm' => ?_
    obtain ⟨rfl, hrest, rfl⟩ := hm'
    refine ⟨rfl, .inr ⟨hmode, hrest, ?_, ?_⟩⟩
    · show isEmpty (update m.queue _ _ _) = true
      rw [update_of_ne (by decide)]
      exact hone
    · show isEmpty (update m.queue _ _ _) = true
      rw [update_of_ne (by decide)]
      exact htwo

theorem wp_select_none (h : Waiting m []) : wp select E (fun r m' => r = none ∧ m' = m) m := by
  simp only [select, wp_bind, wp_get]
  rcases h with ⟨hmode, hline⟩ | ⟨hmode, hline, hone, htwo⟩
  · rw [if_pos hmode]
    exact wp_select_empty hline.empty
  · rw [if_neg (by rw [hmode]; decide)]
    simp only [selectWithMlfq, wp_bind]
    refine wp_mono (wp_select_empty hline.empty) fun r m' hm' => ?_
    obtain ⟨rfl, rfl⟩ := hm'
    simp only [wp_bind]
    refine wp_mono (wp_select_empty hone) fun r m' hm' => ?_
    obtain ⟨rfl, rfl⟩ := hm'
    exact wp_select_empty htwo

/-- The next selections return the waiting processes in order. -/
theorem wp_picks (n : Nat) (h : Waiting m l) :
    wp (picks n) E (fun r _ => r = l.take n) m := by
  induction n generalizing m l with
  | zero => exact List.take_zero.symm
  | succ n ih =>
    simp only [picks, wp_bind]
    cases l with
    | nil =>
      refine wp_mono (wp_select_none h) fun r m' hm' => ?_
      rw [hm'.1]
      exact List.take_nil.symm
    | cons p l =>
      refine wp_mono (wp_select_waiting h) fun r m' hm' => ?_
      rw [hm'.1]
      simp only [wp_bind]
      refine wp_mono (ih hm'.2) fun rest _ hrest => ?_
      rw [hrest]
      rfl

theorem value_picks (n : Nat) (h : Waiting m l) : valueOf (picks n) m = some (l.take n) := by
  obtain ⟨r, m', hrun, hr⟩ := wp_returns (wp_picks (E := Fault.never) n h)
  unfold valueOf
  rw [hrun, hr]

/-! ## The queues after a switch -/

/-- In FCFS mode the queue holds RUNNABLE processes only. -/
theorem exists_line (h : Inv none m) (hmode : m.mode = .fcfs) :
    ∃ l : List Slot, Line m .fcfs l := by
  have hqueued : queued m = (m.queue .fcfs).ring := by
    simp [queued, hmode, activeQueues, entries]
  have hsome : ∀ t ∈ (m.queue .fcfs).ring, ∃ p, t = some p ∧ (m.proc p).state = .runnable := by
    intro t ht
    rw [← hqueued] at ht
    obtain ⟨p, hp, hrun, _⟩ := (h.mem t).mp ht
    exact ⟨p, hp, hrun⟩
  obtain ⟨l, hl⟩ : (m.queue .fcfs).ring ∈ Set.range (List.map (some : Slot → Ptr)) := by
    rw [Set.range_list_map]
    intro t ht
    obtain ⟨p, hp, _⟩ := hsome t ht
    exact ⟨p, hp.symm⟩
  refine ⟨l, (h.shape .fcfs).ring (by decide), hl.symm, fun p hp => ?_⟩
  obtain ⟨q, hq, hrun⟩ := hsome (some p) (hl ▸ List.mem_map_of_mem hp)
  rw [Option.some.inj hq]
  exact hrun

/-- A switch to MLFQ mode leaves the same processes waiting, in the same order. -/
theorem SwitchedToMlfq.line (h : SwitchedToMlfq m m') (hmode : m.mode = .fcfs)
    (hline : Line m .fcfs l) : Line m' (.mlfq 0) l := by
  refine ⟨h.top.shape.ring (by decide), ?_, fun p hp => ?_⟩
  · rw [← hline.ring]
    calc (m'.queue (.mlfq 0)).ring = Sched.queued m := h.top.entries
      _ = (m.queue .fcfs).ring := by simp [Sched.queued, hmode, activeQueues, entries]
  · rw [h.proc]
    exact hline.runnable p hp

theorem Line.waiting (h : Line m (.mlfq 0) l) (hmode : m.mode = .mlfq)
    (hone : Filled (m.queue (.mlfq 1)) []) (htwo : Filled (m.queue (.mlfq 2)) []) :
    Waiting m l := by
  refine .inr ⟨hmode, h, ?_, ?_⟩
  · exact (ring_eq_nil_iff (hone.shape.ring (by decide))).mp hone.entries
  · have hempty := congrArg List.length htwo.linear
    rw [linear_length, List.length_nil] at hempty
    simp only [isEmpty, htwo.start, hempty]
    rfl

theorem SwitchedToMlfq.waiting (h : SwitchedToMlfq m m') (hline : Line m' (.mlfq 0) l) :
    Waiting m' l :=
  hline.waiting h.mode h.middle h.bottom

/-- What mode switches do, in every reachable state. A switch to MLFQ mode puts the RUNNABLE
processes of the FCFS queue into `mlfq[0]` in their order and empties the other levels, every slot
gets the fields of a process that enters, and the next selections return the processes that those
in FCFS mode would have returned. A switch to FCFS mode leaves every RUNNABLE process in the queue
once. A switch to the mode that is set returns -1 and changes nothing. -/
theorem mode_switch_keeps_order (h : Reached m) :
    (m.mode = .fcfs → wp sysMlfqmode Fault.never (fun r m' => r = 0 ∧ m'.mode = .mlfq ∧
      (m'.queue (.mlfq 0)).ring = (m.queue .fcfs).ring.filter
        (fun t => t.any fun p => (m.proc p).state = .runnable) ∧
      (m'.queue (.mlfq 1)).ring = [] ∧ (m'.queue (.mlfq 2)).linear = [] ∧
      (∀ p, (m'.proc p).level = 0 ∧ (m'.proc p).priority = 3 ∧ (m'.proc p).timeQuantum = 1 ∧
        (m'.proc p).state = (m.proc p).state) ∧
      ∀ n, ∃ l : List Slot, valueOf (picks n) m' = some l ∧ valueOf (picks n) m = some l ∧
        l.map some = (m'.queue (.mlfq 0)).ring.take n) m) ∧
    (m.mode = .mlfq → wp sysFcfsmode Fault.never (fun r m' => r = 0 ∧ m'.mode = .fcfs ∧
      (∀ p, (m'.proc p).state = (m.proc p).state) ∧ none ∉ (m'.queue .fcfs).ring ∧
      ∀ p, (m'.queue .fcfs).ring.count (some p) =
        if (m.proc p).state = .runnable then 1 else 0) m) ∧
    (m.mode = .mlfq → sysMlfqmode m = .ok (-1, m)) ∧
    (m.mode = .fcfs → sysFcfsmode m = .ok (-1, m)) := by
  have hinv := inv_reached h
  refine ⟨fun hmode => ?_, fun hmode => ?_, fun hmode => ?_, fun hmode => ?_⟩
  · obtain ⟨l, hline⟩ := exists_line hinv hmode
    refine wp_mono (wp_sys_mlfqmode_switch hinv hmode) fun r m' hm' => ?_
    obtain ⟨hr, hswitch⟩ := hm'
    have hline' := hswitch.line hmode hline
    refine ⟨hr, hswitch.mode, ?_, hswitch.middle.entries, hswitch.bottom.linear, fun p => ?_,
      fun n => ?_⟩
    · rw [hline'.ring, hline.ring]
      refine (List.filter_eq_self.mpr fun t ht => ?_).symm
      obtain ⟨p, hp, rfl⟩ := List.mem_map.mp ht
      exact decide_eq_true (hline.runnable p hp)
    · rw [hswitch.proc]
      exact ⟨rfl, rfl, rfl, rfl⟩
    · refine ⟨l.take n, value_picks n (hswitch.waiting hline'),
        value_picks n (.inl ⟨hmode, hline⟩), ?_⟩
      rw [hline'.ring, List.map_take]
  · refine wp_mono (wp_sys_fcfsmode_switch hmode) fun r m' hm' => ?_
    obtain ⟨hr, hswitch⟩ := hm'
    have hexact := hswitch.inv hinv
    have hqueued : queued m' = (m'.queue .fcfs).ring := by
      simp [queued, hswitch.mode, activeQueues, entries]
    refine ⟨hr, hswitch.mode, hswitch.state, ?_, fun p => ?_⟩
    · intro hnone
      rw [← hqueued] at hnone
      obtain ⟨p, hp, _⟩ := (hexact.mem none).mp hnone
      cases hp
    · rw [← hqueued, hexact.count p, hswitch.state p]
  · unfold sysMlfqmode
    show (if m.mode = .mlfq then pure (-1) else _ : Code Int) m = _
    rw [if_pos hmode]
    rfl
  · unfold sysFcfsmode
    show (if m.mode = .fcfs then pure (-1) else _ : Code Int) m = _
    rw [if_pos hmode]
    rfl

/-- Three processes in FCFS mode, two of them waiting: after `mlfqmode` they are selected in the
order in which they were forked. -/
theorem mode_switch_keeps_order_forked :
    let m := lastState unguarded step
      [.userinit true, .select, .fork true true, .fork true true] boot
    Reached m ∧ m.mode = .fcfs ∧ ∃ r m', sysMlfqmode m = .ok (r, m') ∧ r = 0 ∧
      m'.mode = .mlfq ∧ valueOf (picks 3) m' = some [⟨1, by decide⟩, ⟨2, by decide⟩] := by
  intro m
  have hboot : Reached boot := .start rfl
  have hreached : Reached m := hboot.last_state _
  have hmode : m.mode = .fcfs := by decide +kernel
  obtain ⟨r, m', hrun, hr, hmlfq, -, -, -, -, horder⟩ :=
    wp_returns ((mode_switch_keeps_order hreached).1 hmode)
  obtain ⟨l, hnew, hold, -⟩ := horder 3
  refine ⟨hreached, hmode, r, m', hrun, hr, hmlfq, ?_⟩
  rw [hnew, ← hold]
  decide +kernel

/-! ## The boost -/

/-- A boost in MLFQ mode ends every wait: each process gets the fields of one that enters, and the
next selections return all RUNNABLE processes, one after the other in the order of the process
table, whatever their levels and priorities were. -/
theorem boost_serves_everyone (hmode : m.mode = .mlfq) :
    wp priorityBoosting Fault.never (fun _ m' => m'.mode = .mlfq ∧
      (∀ p, m'.proc p = enter (m.proc p)) ∧ ∀ n, valueOf (picks n) m' =
        some (((List.finRange NPROC).filter fun p => (m.proc p).state = .runnable).take n)) m := by
  unfold priorityBoosting
  have hreset := wp_reset_mlfq (E := Fault.never) (m := m)
    (Q := fun _ m1 => wp (refill (.mlfq 0) enter) Fault.never (fun _ m' => m'.mode = .mlfq ∧
      (∀ p, m'.proc p = enter (m.proc p)) ∧ ∀ n, valueOf (picks n) m' = some (((List.finRange
        NPROC).filter fun p => (m.proc p).state = .runnable).take n)) m1) ?_
  · simpa only [wp_bind] using hreset
  intro m1 heq1 _ hempty
  refine wp_mono (wp_refill (hempty 0) fun _ => rfl) ?_
  rintro _ m2 ⟨heq2, hfilled, -, hother⟩
  have hproc : ∀ p, m2.proc p = enter (m.proc p) := by
    intro p
    rw [heq2, heq1]
    rfl
  have hmode2 : m2.mode = .mlfq := by
    rw [heq2, heq1]
    exact hmode
  refine ⟨hmode2, hproc, fun n => value_picks n ?_⟩
  refine Line.waiting ⟨?_, ?_, fun p hp => ?_⟩ hmode2 ?_ ?_
  · exact hfilled.shape.ring (by decide)
  · have hring := hfilled.entries
    rw [heq1, runnableBelow, List.take_of_length_le (by simp)] at hring
    exact hring
  · rw [hproc]
    simpa [enter] using (List.mem_filter.mp hp).2
  · exact hother (.mlfq 1) (by decide) ▸ hempty 1
  · exact hother (.mlfq 2) (by decide) ▸ hempty 2

/-- Two processes wait in MLFQ mode. -/
def twoWaiting : Machine :=
  lastState unguarded step
    [.userinit true, .select, .fork true true, .fork true true, .mlfqmode] boot

theorem boost_serves_everyone_two : Reached twoWaiting ∧ ∃ m',
    priorityBoosting twoWaiting = .ok ((), m') ∧
      valueOf (picks 3) m' = some [⟨1, by decide⟩, ⟨2, by decide⟩] := by
  have hboot : Reached boot := .start rfl
  have hserved : ∀ m : Machine, m.mode = .mlfq → ∃ m', priorityBoosting m = .ok ((), m') ∧
      valueOf (picks 3) m' =
        some (((List.finRange NPROC).filter fun p => (m.proc p).state = .runnable).take 3) := by
    intro m hmode
    obtain ⟨_, m', hrun, -, -, hpicks⟩ := wp_returns (boost_serves_everyone hmode)
    exact ⟨m', hrun, hpicks 3⟩
  obtain ⟨m', hrun, hpicks⟩ := hserved twoWaiting (by decide +kernel)
  exact ⟨hboot.last_state _, m', hrun, hpicks.trans (by decide +kernel)⟩

end Xv6.Sched
