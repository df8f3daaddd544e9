import Xv6.Sched.Exactness

/-!
# The order of FCFS dispatch

While the mode is FCFS the ring is a first-in-first-out queue: `Appended m m'` says that an
operation has only added entries behind those that were there, in the order in which it stored
them. Every operation but the selection does so, and the selection takes the head. Along a run
the processes dispatched and those still queued are therefore the entries at its start followed
by the processes that became RUNNABLE since, whatever the ring indices have done meanwhile.
-/

namespace Xv6.Sched

variable {E : Fault → Prop} {m m' m'' : Machine} {p : Slot}

/-! ## Operations that only append -/

/-- The FCFS ring has grown at its end, by entries stored in the order they have there. -/
structure Appended (m m' : Machine) : Prop where
  mode : m'.mode = m.mode
  arrivals : m.arrivals ≤ m'.arrivals
  kept : ∀ t ∈ entries m .fcfs, m'.arrival t = m.arrival t
  grown : ∃ l, entries m' .fcfs = entries m .fcfs ++ l ∧
    l.Pairwise (fun a b => m'.arrival a < m'.arrival b) ∧
    ∀ t ∈ l, m.arrivals ≤ m'.arrival t ∧ m'.arrival t < m'.arrivals

/-- Nothing is appended. -/
theorem Appended.refl (m : Machine) : Appended m m :=
  ⟨rfl, le_refl _, fun _ _ => rfl, [], by simp, List.Pairwise.nil, by simp⟩

/-- What is appended later is stored later. -/
theorem Appended.trans (h : Appended m m') (h' : Appended m' m'') : Appended m m'' := by
  obtain ⟨l, hl, hsorted, hbound⟩ := h.grown
  obtain ⟨l', hl', hsorted', hbound'⟩ := h'.grown
  have hkept : ∀ t ∈ l, m''.arrival t = m'.arrival t := fun t ht => h'.kept t (by simp [hl, ht])
  refine ⟨h'.mode.trans h.mode, h.arrivals.trans h'.arrivals, fun t ht => ?_, l ++ l', ?_, ?_, ?_⟩
  · rw [h'.kept t (by simp [hl, ht]), h.kept t ht]
  · rw [hl', hl, List.append_assoc]
  · refine List.pairwise_append.mpr ⟨?_, hsorted', fun a ha b hb => ?_⟩
    · refine hsorted.imp_of_mem fun ha hb hlt => ?_
      rwa [hkept _ ha, hkept _ hb]
    · rw [hkept a ha]
      exact (hbound a ha).2.trans_le (hbound' b hb).1
  · intro t ht
    rcases List.mem_append.mp ht with ht | ht
    · rw [hkept t ht]
      exact ⟨(hbound t ht).1, (hbound t ht).2.trans_le h'.arrivals⟩
    · exact ⟨h.arrivals.trans (hbound' t ht).1, (hbound' t ht).2⟩

/-- The queues and their history are as before. -/
structure Unqueued (m m' : Machine) : Prop where
  queue : m'.queue = m.queue
  mode : m'.mode = m.mode
  arrival : m'.arrival = m.arrival
  arrivals : m'.arrivals = m.arrivals

instance : Std.Refl Unqueued := ⟨fun _ => ⟨rfl, rfl, rfl, rfl⟩⟩

instance : IsTrans Machine Unqueued :=
  ⟨fun _ _ _ h h' => ⟨h'.queue.trans h.queue, h'.mode.trans h.mode, h'.arrival.trans h.arrival,
    h'.arrivals.trans h.arrivals⟩⟩

/-- The ring has the same entries. -/
theorem Unqueued.entries (h : Unqueued m m') : entries m' .fcfs = entries m .fcfs := by
  simp only [Sched.entries, h.queue]

/-- Nothing is appended by code that does not queue. -/
theorem Unqueued.appended (h : Unqueued m m') : Appended m m' := by
  refine ⟨h.mode, h.arrivals.ge, fun t _ => by rw [h.arrival], [], ?_, List.Pairwise.nil, by simp⟩
  simp [h.entries]

/-- Fields of a process are not queues. -/
theorem unqueued_set_proc (p : Slot) (f : Proc → Proc) : Respects Unqueued E (setProc p f) :=
  fun _ => ⟨rfl, rfl, rfl, rfl⟩

/-- A slot is freed without a look at the queues. -/
theorem unqueued_freeproc (p : Slot) : Respects Unqueued E (freeproc p) := unqueued_set_proc p _

/-- A slot is filled, and freed again if there is no memory. -/
theorem unqueued_allocproc (memory : Bool) : Respects Unqueued E (allocproc memory) := by
  refine .get fun m => ?_
  cases findSlot m (·.state = .unused) with
  | none => exact Std.Refl.refl m
  | some p =>
    have hpid : Respects Unqueued E allocpid := fun _ => ⟨rfl, rfl, rfl, rfl⟩
    refine Respects.bind hpid (fun pid => .bind (unqueued_set_proc p _) fun _ => ?_) m
    exact .ite (.pure _) (.bind (unqueued_freeproc p) fun _ => .pure none)

/-- A process that sleeps was on its CPU, in no queue. -/
theorem unqueued_sleep (p : Slot) (chan : Chan) : Respects Unqueued E (sleep p chan) :=
  fun _ => ⟨rfl, rfl, rfl, rfl⟩

/-- `wait` frees a ZOMBIE, fails or sleeps. -/
theorem unqueued_wait (p : Slot) (copied : Bool) : Respects Unqueued E (wait p copied) := by
  refine .get fun m => ?_
  split
  next pp _ =>
    exact Respects.ite (.bind (unqueued_freeproc pp) fun _ => .pure _) (.pure _) m
  next =>
    split
    next => exact Std.Refl.refl m
    next => exact Respects.bind (unqueued_sleep p _) (fun _ => .pure 0) m

/-- A new priority moves no entry. -/
theorem unqueued_sys_setpriority (p : Slot) (pid priority : Int) :
    Respects Unqueued E (sysSetpriority p pid priority) := by
  refine .ite (.pure _) (.get fun m => ?_)
  split
  next => exact Respects.bind (unqueued_set_proc p _) (fun _ => .pure _) m
  next =>
    split
    next => exact Std.Refl.refl m
    next t _ => exact Respects.bind (unqueued_set_proc t _) (fun _ => .pure _) m

/-! ## Operations that enqueue -/

/-- Storing a process that is not queued yet. -/
theorem appended_store (h : Shape m .fcfs) (hout : some p ∉ entries m .fcfs) :
    Appended m ((withQueue m .fcfs (storeOp .fcfs (m.queue .fcfs) (some p))).arrive (some p)) := by
  refine ⟨rfl, Nat.le_succ _, fun t ht => ?_, [some p], ?_, List.pairwise_singleton .., ?_⟩
  · have hne : t ≠ some p := fun heq => hout (heq ▸ ht)
    exact Function.update_of_ne hne _ _
  · rw [entries_arrive, entries_store h]
  · intro t ht
    rw [List.mem_singleton.mp ht]
    simp [Machine.arrive, withQueue]

/-- In FCFS mode `add_proc_to_queue` and `my_queueing` append the missing process. -/
theorem wp_push_fcfs (h : Inv (some p) m) (hstate : (m.proc p).state = .runnable)
    (hmode : m.mode = .fcfs) :
    wp (push .fcfs p) E (fun _ m' => Inv none m' ∧ SameCpu m m' ∧ Appended m m') m := by
  have hactive : QueueId.fcfs ∈ activeQueues m.mode := by simp [hmode, activeQueues]
  have hout : some p ∉ entries m .fcfs := fun hmem =>
    h.not_mem_queued (.inr rfl) (mem_queued.mpr ⟨_, hactive, hmem⟩)
  refine wp_push (h.shape _) ⟨inv_store h hstate hactive ?_ ?_, ⟨rfl, rfl, rfl⟩, ?_⟩
  · simp [hmode]
  · simp
  · exact appended_store (h.shape _) hout

/-- A process that was neither running nor queued is made RUNNABLE and appended. -/
theorem wp_make_runnable_fcfs {t : Proc} {Q : Unit → Machine → Prop} (h : Inv none m)
    (hmode : m.mode = .fcfs) (hold : (m.proc p).state ≠ .runnable ∧ (m.proc p).state ≠ .running)
    (hnew : t.state = .runnable)
    (hQ : ∀ m', Inv none m' → SameCpu m m' → Appended m m' → Q () m') :
    wp (addProcToQueue p) E Q (withProc m p t m.current) := by
  have hmissing := h.set_runnable hold hnew
  simp only [addProcToQueue, wp_bind, wp_get]
  rw [if_pos (show (withProc m p t m.current).mode = .fcfs from hmode)]
  refine wp_mono (wp_push_fcfs hmissing (by simpa [withProc] using hnew) hmode) ?_
  rintro _ m' ⟨h', hcpu, happended⟩
  have hset : Unqueued m (withProc m p t m.current) := ⟨rfl, rfl, rfl, rfl⟩
  exact hQ m' h' hcpu (hset.appended.trans happended)

/-- What an operation other than the selection does in FCFS mode. -/
structure Behind (m m' : Machine) : Prop where
  inv : Inv none m'
  cpu : SameCpu m m'
  appended : Appended m m'

/-- Nothing happens. -/
theorem Behind.refl (h : Inv none m) : Behind m m := ⟨h, ⟨rfl, rfl, rfl⟩, .refl m⟩

/-- One operation after another. -/
theorem Behind.trans (h : Behind m m') (h' : Behind m' m'') : Behind m m'' := by
  obtain ⟨hcurrent, hmode, hinit⟩ := h.cpu
  obtain ⟨hcurrent', hmode', hinit'⟩ := h'.cpu
  exact ⟨h'.inv, ⟨hcurrent'.trans hcurrent, hmode'.trans hmode, hinit'.trans hinit⟩,
    h.appended.trans h'.appended⟩

/-- The mode is still FCFS. -/
theorem Behind.fcfs (h : Behind m m') (hmode : m.mode = .fcfs) : m'.mode = .fcfs :=
  h.cpu.2.1.trans hmode

section

variable (h : Inv none m) (hmode : m.mode = .fcfs)

include h hmode

/-- `wakeup` appends what it wakes, in table order. -/
theorem wp_wakeup_fcfs (chan : Chan) :
    wp (wakeup chan) E (fun _ m' => Behind m m') m := by
  refine wp_for_each (fun _ m' => Behind m m') ?_ (.refl h)
  intro q m1 h1
  simp only [wp_bind, wp_get, wp_ite, wp_pure, wp_set_proc]
  refine ⟨fun hwake => ?_, fun _ => h1⟩
  refine wp_make_runnable_fcfs h1.inv (h1.fcfs hmode) (by simp [hwake.2.1]) rfl ?_
  exact fun m2 h2 hcpu happended => h1.trans ⟨h2, hcpu, happended⟩

/-- The same for a wakeup of a process that may be null. -/
theorem wp_wakeup_proc_fcfs (q : Ptr) :
    wp (wakeupProc q) E (fun _ m' => Behind m m') m := by
  cases q with
  | none => exact .refl h
  | some q => exact wp_wakeup_fcfs h hmode (.proc q)

/-- `userinit` appends the first process. -/
theorem wp_userinit_fcfs (memory : Bool) :
    wp (userinit memory) Fault.any (fun _ m' => Appended m m') m := by
  unfold userinit
  simp only [wp_bind]
  refine wp_mono (wp_and (wp_allocproc h memory) (unqueued_allocproc memory m)) ?_
  rintro r m1 ⟨⟨h1, hcpu, hused⟩, hsame⟩
  cases r with
  | none => exact trivial
  | some q =>
    simp only [deref, wp_pure, wp_modify, wp_set_proc]
    have hinit : Inv none { m1 with initproc := some q } := h1.congr rfl rfl rfl rfl rfl rfl
    have hset : Unqueued m1 { m1 with initproc := some q } := ⟨rfl, rfl, rfl, rfl⟩
    refine wp_make_runnable_fcfs hinit (hcpu.2.1.trans hmode) (by simp [hused q rfl]) rfl ?_
    exact fun _ _ _ happended => hsame.appended.trans (hset.appended.trans happended)

/-- `fork` appends the child, or nothing. -/
theorem wp_fork_fcfs (q : Slot) (memory copied : Bool) :
    wp (fork q memory copied) E (fun _ m' => Appended m m') m := by
  unfold fork
  simp only [wp_bind]
  refine wp_mono (wp_and (wp_allocproc h memory) (unqueued_allocproc memory m)) ?_
  rintro r m1 ⟨⟨h1, hcpu, hused⟩, hsame⟩
  cases r with
  | none => exact hsame.appended
  | some np =>
    simp only [wp_ite, wp_bind, wp_get, wp_pure, wp_set_proc]
    refine ⟨fun _ => ?_, fun _ => (unqueued_freeproc np).next fun _ _ hfree => ?_⟩
    · refine wp_make_runnable_fcfs h1 (hcpu.2.1.trans hmode) (by simp [hused np rfl]) rfl ?_
      exact fun _ _ _ happended => hsame.appended.trans happended
    · exact hsame.appended.trans hfree.appended

/-- `kill` appends a process that slept. -/
theorem wp_kill_fcfs (pid : Int) :
    wp (kill pid) E (fun _ m' => Appended m m') m := by
  unfold kill
  simp only [wp_bind, wp_get]
  cases findSlot m (·.pid = pid) with
  | none => exact .refl m
  | some q =>
    have hkilled := h.set_same_state (p := q) (t := { m.proc q with killed := true }) rfl rfl
      (fun hr => ⟨hr.level, hr.priority, hr.quantum⟩)
    have hset : Unqueued m (withProc m q { m.proc q with killed := true } m.current) :=
      ⟨rfl, rfl, rfl, rfl⟩
    simp only [wp_set_proc, wp_bind, wp_ite, wp_pure]
    refine ⟨fun hsleep => ?_, fun _ => hset.appended⟩
    refine wp_make_runnable_fcfs hkilled hmode (by simp [withProc, hsleep]) rfl ?_
    exact fun _ _ _ happended => hset.appended.trans happended

end

/-- `yield` appends the process that leaves the CPU. -/
theorem wp_yield_fcfs (h : Inv none m) (hp : m.current = some p) (hmode : m.mode = .fcfs) :
    wp (yield p) E (fun _ m' => Appended m m') m := by
  have hoff : Inv (some p) (withProc m p { m.proc p with state := .runnable } none) :=
    h.set_off_cpu hp (by simp) (by simp)
  have hset : Unqueued m (withProc m p { m.proc p with state := .runnable } none) :=
    ⟨rfl, rfl, rfl, rfl⟩
  simp only [yield, wp_set_proc, wp_set_current, wp_bind, myQueueing, wp_get]
  rw [if_pos (by exact hmode)]
  refine wp_mono (wp_push_fcfs hoff (by simp [withProc]) hmode) ?_
  rintro _ m' ⟨-, -, happended⟩
  exact hset.appended.trans happended

/-- `reparent` wakes `initproc` for each child it hands over. -/
theorem wp_reparent_fcfs (h : Inv none m) (hmode : m.mode = .fcfs) (q : Slot) :
    wp (reparent q) E (fun _ m' => Behind m m') m := by
  refine wp_for_each (fun _ m' => Behind m m') ?_ (.refl h)
  intro pp m1 h1
  simp only [wp_bind, wp_get, wp_ite, wp_pure]
  refine ⟨fun _ => ?_, fun _ => h1⟩
  simp only [wp_set_proc]
  have hparent := h1.inv.set_same_state (p := pp)
    (t := { m1.proc pp with parent := m1.initproc }) rfl rfl
    (fun hr => ⟨hr.level, hr.priority, hr.quantum⟩)
  have hset : Behind m1 (withProc m1 pp { m1.proc pp with parent := m1.initproc } m1.current) :=
    ⟨hparent, ⟨rfl, rfl, rfl⟩, Unqueued.appended ⟨rfl, rfl, rfl, rfl⟩⟩
  refine wp_mono (wp_wakeup_proc_fcfs hparent (h1.fcfs hmode) _) ?_
  exact fun _ m2 h2 => h1.trans (hset.trans h2)

/-- `exit` appends what it wakes, and not the process that exits. -/
theorem wp_exit_fcfs (h : Inv none m) (hmode : m.mode = .fcfs) (q : Slot) :
    wp (exit q) Fault.any (fun _ m' => Appended m m') m := by
  unfold exit
  simp only [wp_bind, wp_get, wp_ite, wp_kpanic, Fault.any_iff, implies_true, true_and]
  intro _
  refine wp_mono (wp_reparent_fcfs h hmode q) fun _ m1 h1 => ?_
  refine wp_mono (wp_wakeup_proc_fcfs h1.inv (h1.fcfs hmode) _) fun _ m2 h2 => ?_
  simp only [wp_set_proc, wp_set_current]
  have hset : Unqueued m2 (withProc m2 q { m2.proc q with state := .zombie } none) :=
    ⟨rfl, rfl, rfl, rfl⟩
  exact (h1.trans h2).appended.trans hset.appended

/-! ## The sequence of dispatches -/

/-- Process `p` was stored before process `q`, or is `q`. -/
def StoredBefore (m : Machine) (p q : Slot) : Prop := m.arrival (some p) ≤ m.arrival (some q)

instance (m : Machine) : DecidableRel (StoredBefore m) := fun _ _ => Nat.decLe _ _

instance (m : Machine) : Std.Total (StoredBefore m) := ⟨fun _ _ => Nat.le_total _ _⟩

instance (m : Machine) : IsTrans Slot (StoredBefore m) := ⟨fun _ _ _ h h' => Nat.le_trans h h'⟩

/-- The processes that a step from `m` to `m'` has made RUNNABLE, in the order in which it has
done so. -/
def woken (m m' : Machine) : List Slot :=
  ((List.finRange NPROC).filter fun p =>
    (m.proc p).state ≠ .runnable ∧ (m'.proc p).state = .runnable).insertionSort (StoredBefore m')

/-- The process that `select_with_fcfs` returns, if the event calls it and it returns one. -/
def dispatched (e : Event) (m : Machine) : List Slot :=
  match e with
  | .select =>
    if m.current = none then
      match selectWithFcfs m with
      | .ok (some p, _) => [p]
      | _ => []
    else []
  | _ => []

/-- The sorting of `woken` loses nothing. -/
theorem mem_woken : p ∈ woken m m' ↔
    (m.proc p).state ≠ .runnable ∧ (m'.proc p).state = .runnable := by
  simp [woken]

/-- No process is woken twice. -/
theorem woken_nodup (m m' : Machine) : (woken m m').Nodup :=
  (List.perm_insertionSort ..).nodup_iff.mpr ((List.nodup_finRange NPROC).filter _)

/-- Nothing is woken if no state changes. -/
theorem woken_same (h : ∀ p, (m'.proc p).state = (m.proc p).state) : woken m m' = [] := by
  refine List.eq_nil_iff_forall_not_mem.mpr fun p hp => ?_
  obtain ⟨hold, hnew⟩ := mem_woken.mp hp
  rw [h] at hnew
  exact hold hnew

/-- In FCFS mode the ring is the only queue in use. -/
theorem queued_fcfs (hmode : m.mode = .fcfs) : queued m = entries m .fcfs := by
  simp [queued, hmode, activeQueues]

/-- An operation that appends has appended the processes it made RUNNABLE. -/
theorem Appended.woken (h : Appended m m') (hm : Inv none m) (hm' : Inv none m')
    (hmode : m.mode = .fcfs) :
    entries m' .fcfs = entries m .fcfs ++ (woken m m').map some := by
  obtain ⟨l, hl, hsorted, -⟩ := h.grown
  have hmem := hm.mem
  have hmem' := hm'.mem
  have hnodup := hm'.nodup
  rw [queued_fcfs hmode] at hmem
  rw [queued_fcfs (h.mode.trans hmode), hl] at hmem' hnodup
  obtain ⟨-, hlnodup, hdisjoint⟩ := List.nodup_append.mp hnodup
  have hsome : ((Sched.woken m m').map some).Nodup :=
    (woken_nodup m m').map (Option.some_injective _)
  -- both lists hold the processes that have become RUNNABLE, once each and in the same order
  have hperm : l.Perm ((Sched.woken m m').map some) := by
    refine (List.perm_ext_iff_of_nodup hlnodup hsome).mpr fun t => ?_
    constructor
    · intro ht
      obtain ⟨q, rfl, hstate, -⟩ := (hmem' t).mp (List.mem_append_right _ ht)
      refine List.mem_map_of_mem (mem_woken.mpr ⟨fun hold => ?_, hstate⟩)
      exact hdisjoint _ ((hmem _).mpr ⟨q, rfl, hold, by simp⟩) _ ht rfl
    · intro ht
      obtain ⟨q, hq, rfl⟩ := List.mem_map.mp ht
      obtain ⟨hold, hnew⟩ := mem_woken.mp hq
      rcases List.mem_append.mp ((hmem' _).mpr ⟨q, rfl, hnew, by simp⟩) with hin | hin
      · obtain ⟨q', hq', hstate, -⟩ := (hmem _).mp hin
        rw [← Option.some.inj hq'] at hstate
        exact absurd hstate hold
      · exact hin
  have hwoken : ((Sched.woken m m').map some).Pairwise
      fun a b => m'.arrival a ≤ m'.arrival b := by
    rw [List.pairwise_map]
    exact List.pairwise_insertionSort (StoredBefore m') _
  rw [hl, hperm.eq_of_pairwise ?_ (hsorted.imp fun hlt => hlt.le) hwoken]
  intro a b ha hb hab hba
  by_contra hne
  have hdistinct : l.Pairwise fun a b => m'.arrival a ≠ m'.arrival b := hsorted.imp ne_of_lt
  have : Std.Symm fun a b => m'.arrival a ≠ m'.arrival b := ⟨fun _ _ => Ne.symm⟩
  exact hdistinct.forall ha (hperm.mem_iff.mpr hb) hne (le_antisymm hab hba)

/-- Selection takes the head of the ring. -/
theorem wp_dispatch_fcfs (h : Inv none m) (hidle : m.current = none) (hmode : m.mode = .fcfs) :
    wp dispatch E (fun _ m' => woken m m' = [] ∧
      entries m .fcfs = (dispatched .select m).map some ++ entries m' .fcfs) m := by
  have hactive : QueueId.fcfs ∈ activeQueues m.mode := by simp [hmode, activeQueues]
  obtain ⟨t, m1, hselect, hpost⟩ :=
    wp_returns (wp_select_from h hactive)
  have hrun : selectWithFcfs m = .ok (t, m1) := hselect
  have hcode : select m = .ok (t, m1) := by
    show (if m.mode = .fcfs then selectWithFcfs else selectWithMlfq) m = _
    rw [if_pos hmode, hrun]
  unfold dispatch
  rw [wp_bind]
  refine wp_of_ok hcode ?_
  rcases hpost with ⟨rfl, rfl, hnil⟩ | ⟨p, rfl, hpop⟩
  · refine ⟨woken_same fun _ => rfl, ?_⟩
    simp [dispatched, hidle, hrun, hnil]
  · obtain ⟨before, after, hchoice, hrest⟩ := hpop.taken
    simp only [wp_bind, wp_set_proc, wp_set_current, wp_pure]
    refine ⟨List.eq_nil_iff_forall_not_mem.mpr fun q hq => ?_, ?_⟩
    · obtain ⟨hold, hnew⟩ := mem_woken.mp hq
      by_cases hqp : q = p
      · subst hqp
        exact hold hpop.state
      · refine hold ?_
        rw [← hpop.proc]
        simpa [withProc, hqp] using hnew
    · show _ = _ ++ entries m1 .fcfs
      rw [hchoice.split, hrest, hchoice.head (by simp)]
      simp [dispatched, hidle, hrun]

/-- A boost in FCFS mode leaves the FCFS ring and the states alone. -/
theorem wp_priority_boosting_fcfs :
    wp priorityBoosting Fault.any (fun _ m' => entries m' .fcfs = entries m .fcfs ∧
      ∀ p, (m'.proc p).state = (m.proc p).state) m := by
  unfold priorityBoosting
  have hreset := wp_reset_mlfq (E := Fault.any) (m := m)
    (Q := fun _ m1 => wp (refill (.mlfq 0) enter) Fault.any (fun _ m' =>
      entries m' .fcfs = entries m .fcfs ∧ ∀ p, (m'.proc p).state = (m.proc p).state) m1) ?_
  · simpa only [wp_bind] using hreset
  · intro m1 heq1 hfcfs hempty
    refine wp_mono (wp_refill (hempty 0) fun _ => rfl) ?_
    rintro _ m2 ⟨heq2, -, -, hother⟩
    refine ⟨entries_of_queue_eq ((hother .fcfs (by decide)).trans hfcfs), fun p => ?_⟩
    rw [heq2, heq1]
    rfl

/-- The switch to MLFQ leaves FCFS mode. -/
theorem wp_sys_mlfqmode_fcfs (hmode : m.mode = .fcfs) :
    wp sysMlfqmode Fault.any (fun _ m' => m'.mode = .mlfq) m := by
  simp only [sysMlfqmode, wp_bind, wp_get]
  rw [if_neg (by simp [hmode])]
  simp only [wp_bind, reset, wp_modify, wp_pure]
  exact wp_mono (wp_any _) fun _ _ _ => wp_mono (wp_any _) fun _ _ _ => trivial

/-- One event in FCFS mode: the ring loses the process that is dispatched at its head and gains
those that become RUNNABLE at its end. -/
theorem step_fcfs (h : Inv none m) (hmode : m.mode = .fcfs) (e : Event) :
    wp (step e) Fault.any (fun _ m' => m'.mode = .fcfs →
      entries m .fcfs ++ (woken m m').map some =
        (dispatched e m).map some ++ entries m' .fcfs) m := by
  have hinv : wp (step e) Fault.any (fun _ m' => Inv none m') m :=
    wp_mono_fault (step_inv h e) fun _ _ => trivial
  have happend : dispatched e m = [] → wp (step e) Fault.any (fun _ m' => Appended m m') m →
      wp (step e) Fault.any (fun _ m' => m'.mode = .fcfs →
        entries m .fcfs ++ (woken m m').map some =
          (dispatched e m).map some ++ entries m' .fcfs) m := by
    intro hnone hstep
    refine wp_mono (wp_and hinv hstep) ?_
    rintro _ m' ⟨h', happended⟩ _
    rw [hnone, happended.woken h h' hmode]
    rfl
  -- a system call that appends
  have hcall : ∀ {code : Slot → Code Unit},
      (∀ p, m.current = some p → wp (code p) Fault.any (fun _ m' => Appended m m') m) →
      wp (syscall code) Fault.any (fun _ m' => Appended m m') m := by
    intro code hcode
    simp only [syscall, wp_bind, wp_get]
    cases hc : m.current with
    | none => exact .refl m
    | some p => exact hcode p hc
  cases e with
  | select =>
    simp only [step, wp_bind, wp_get]
    split
    next hidle =>
      change wp ((fun _ => ()) <$> dispatch) _ _ m
      rw [wp_map]
      refine wp_mono (wp_dispatch_fcfs h hidle hmode) ?_
      rintro _ m' ⟨hwoken, hentries⟩ _
      rw [hwoken, ← hentries]
      simp
    next hbusy =>
      rw [wp_pure, woken_same fun _ => rfl]
      simp [dispatched, hbusy]
  | mlfqmode =>
    simp only [step, syscall, wp_bind, wp_get]
    cases m.current with
    | none =>
      rw [wp_pure, woken_same fun _ => rfl]
      simp [dispatched]
    | some p =>
      refine (wp_map _ _).mpr (wp_mono (wp_sys_mlfqmode_fcfs hmode) fun _ m' hm' hfcfs => ?_)
      rw [hm'] at hfcfs
      exact absurd hfcfs (by decide)
  | priorityBoosting =>
    refine wp_mono wp_priority_boosting_fcfs ?_
    rintro _ m' ⟨hentries, hstates⟩ _
    rw [woken_same hstates, hentries]
    simp [dispatched]
  | userinit memory => exact happend rfl (wp_userinit_fcfs h hmode memory)
  | fork memory copied =>
    exact happend rfl (hcall fun p _ => (wp_map _ _).mpr (wp_fork_fcfs h hmode p memory copied))
  | yield => exact happend rfl (hcall fun p hp => wp_yield_fcfs h hp hmode)
  | sleep chan =>
    exact happend rfl (hcall fun p _ => (unqueued_sleep p chan).next fun _ _ hs => hs.appended)
  | wakeup chan =>
    exact happend rfl (wp_mono (wp_wakeup_fcfs h hmode chan) fun _ _ hs => hs.appended)
  | kill pid => exact happend rfl (hcall fun _ _ => (wp_map _ _).mpr (wp_kill_fcfs h hmode pid))
  | exit => exact happend rfl (hcall fun p _ => wp_exit_fcfs h hmode p)
  | wait copied =>
    exact happend rfl (hcall fun p _ => (wp_map _ _).mpr
      ((unqueued_wait p copied).next fun _ _ hs => hs.appended))
  | fcfsmode =>
    refine happend rfl (hcall fun _ _ => (wp_map _ _).mpr ?_)
    simp only [sysFcfsmode, wp_bind, wp_get]
    rw [if_pos hmode]
    exact .refl m
  | setpriority pid priority =>
    exact happend rfl (hcall fun p _ => (wp_map _ _).mpr
      ((unqueued_sys_setpriority p pid priority).next fun _ _ hs => hs.appended))

/-! ## Runs -/

/-- A run from `m0` that stays in FCFS mode, with the processes that `select_with_fcfs` has
returned and those that have become RUNNABLE, in order. -/
inductive FcfsRun (m0 : Machine) : Machine → List Slot → List Slot → Prop where
  | start (hmode : m0.mode = .fcfs) : FcfsRun m0 m0 [] []
  | next {m m' : Machine} {returned pushed : List Slot} {e : Event}
      (h : FcfsRun m0 m returned pushed) (hstep : step e m = .ok ((), m'))
      (hmode : m'.mode = .fcfs) :
      FcfsRun m0 m' (returned ++ dispatched e m) (pushed ++ woken m m')

/-- FCFS dispatch order. In every run that stays in FCFS mode the processes dispatched are a prefix
of the entries queued at its start followed by those that became RUNNABLE since. The ring holds the
rest of that sequence, so no store has overwritten an entry, and the next one will not either. -/
theorem fcfs_dispatch_order {m0 : Machine} {returned pushed : List Slot} (h0 : Reached m0)
    (hrun : FcfsRun m0 m returned pushed) :
    returned.map some <+: (m0.queue .fcfs).ring ++ pushed.map some ∧
      (m.queue .fcfs).ring =
        ((m0.queue .fcfs).ring ++ pushed.map some).drop returned.length ∧
      ∀ k < (m.queue .fcfs).ring.length, ((m.queue .fcfs).s + k) % QNUM ≠ (m.queue .fcfs).e := by
  have hentries : ∀ m, entries m .fcfs = (m.queue .fcfs).ring := fun _ => by simp [entries]
  have hsplit : Inv none m ∧ m.mode = .fcfs ∧
      entries m0 .fcfs ++ pushed.map some = returned.map some ++ entries m .fcfs := by
    induction hrun with
    | start hmode => exact ⟨inv_reached h0, hmode, by simp⟩
    | @next m1 m2 returned pushed e _ hstep hmode2 ih =>
      obtain ⟨h1, hmode1, hseq⟩ := ih
      have hnext := wp_ok (step_fcfs h1 hmode1 e) hstep hmode2
      have h2 := wp_ok (step_inv h1 e) hstep
      refine ⟨h2, hmode2, ?_⟩
      rw [List.map_append, List.map_append, ← List.append_assoc, hseq, List.append_assoc, hnext,
        List.append_assoc]
  obtain ⟨hinv, -, hseq⟩ := hsplit
  rw [hentries, hentries] at hseq
  refine ⟨⟨_, hseq.symm⟩, ?_, fun k hk => ?_⟩
  · rw [hseq]
    exact (List.drop_left' (by simp)).symm
  · obtain ⟨hs, he⟩ := (hinv.shape .fcfs).ring (by simp)
    have hlen := (hinv.shape .fcfs).length
    rw [hentries, ring_length] at hlen
    rw [ring_length] at hk
    simp only [QNUM, NPROC] at *
    omega

/-- One more event that returns. -/
theorem FcfsRun.perform {m0 : Machine} {returned pushed : List Slot}
    (h : FcfsRun m0 m returned pushed) (e : Event) (hok : faultOf (step e) m = none)
    (hmode : (lastState unguarded step [e] m).mode = .fcfs) :
    FcfsRun m0 (lastState unguarded step [e] m) (returned ++ dispatched e m)
      (pushed ++ woken m (lastState unguarded step [e] m)) := by
  refine h.next ?_ hmode
  unfold faultOf at hok
  simp only [lastState, unguarded]
  cases hstep : step e m with
  | ok r => rfl
  | error f => simp [hstep] at hok

/-- The first process forks a second one and yields: the second is dispatched, and the first is
queued behind it. -/
theorem fcfs_dispatch_order_forked :
    let m0 := lastState unguarded step [.userinit true, .select, .fork true true] boot
    let m := lastState unguarded step [.select] (lastState unguarded step [.yield] m0)
    let first : Slot := ⟨0, by decide⟩
    let second : Slot := ⟨1, by decide⟩
    FcfsRun m0 m [second] [first] ∧
      [some second] <+: (m0.queue .fcfs).ring ++ [some first] ∧
      (m.queue .fcfs).ring = [some first] := by
  intro m0 m first second
  have hboot : Reached boot := .start rfl
  have hreached : Reached m0 := hboot.last_state _
  have hstart : FcfsRun m0 m0 [] [] := .start (by decide +kernel)
  have hyield := hstart.perform .yield (by decide +kernel) (by decide +kernel)
  have hselect := hyield.perform .select (by decide +kernel) (by decide +kernel)
  have hreturned : [] ++ dispatched .yield m0 ++
      dispatched .select (lastState unguarded step [.yield] m0) = [second] := by decide +kernel
  have hpushed : [] ++ woken m0 (lastState unguarded step [.yield] m0) ++
      woken (lastState unguarded step [.yield] m0) m = [first] := by decide +kernel
  rw [hreturned, hpushed] at hselect
  obtain ⟨hreturns, hrest, -⟩ := fcfs_dispatch_order hreached hselect
  have hring : (m0.queue .fcfs).ring = [some second] := by decide +kernel
  refine ⟨hselect, hreturns, ?_⟩
  rw [hrest, hring]
  rfl

end Xv6.Sched
