import Xv6.Sched.RunQueue

/-!
# The demotion schedule

What the MLFQ fields of a process are after it has been put back `k` times: a closed form that
holds for every `k`, along every run on any number of CPUs in which the process is not woken, its
priority is not set, and there is neither a boost nor a change of mode. The events of a CPU are
those of `step`, performed one at a time with that CPU's process as the running one. `Woke` says
what an event can do to a process that does not perform it: nothing, unless it makes the process
RUNNABLE, which then has the fields of a process that enters.
-/

namespace Xv6.Sched

open Function

variable {e : Event} {f : Proc → Proc}

/-! ## Several CPUs -/

/-- The kernel on `n` CPUs: `running k` is `c->proc` of CPU `k`. -/
structure Multi (n : Nat) where
  machine : Machine
  running : Fin n → Ptr

variable {n : Nat}

/-- One event on CPU `k`. -/
def multiStep (k : Fin n) (e : Event) : Kernel (Multi n) Unit := fun c =>
  match step e { c.machine with current := c.running k } with
  | .ok (_, m) => .ok ((), ⟨m, update c.running k m.current⟩)
  | .error f => .error f

/-- The process is in no queue and on no CPU. -/
def Proc.Idle (t : Proc) : Prop := t.state ≠ .runnable ∧ t.state ≠ .running

instance (t : Proc) : Decidable t.Idle := inferInstanceAs (Decidable (_ ∧ _))

/-- An event on CPU `k` calls `my_queueing` for process `p`. -/
def PutsBack (p : Slot) (c : Multi n) (k : Fin n) (e : Event) : Prop :=
  e = .yield ∧ c.running k = some p

/-- The event is no boost, no switch to FCFS mode and no `setpriority` of process `p`. -/
def Spares (p : Slot) (m : Machine) : Event → Prop
  | .priorityBoosting | .fcfsmode => False
  | .setpriority pid priority => 0 ≤ priority → priority ≤ 3 → (m.proc p).pid ≠ pid
  | _ => True

/-- Process `p` is idle in `c` and no longer in `c'`: it has gone through `add_proc_to_queue`. -/
def Enters (p : Slot) (c c' : Multi n) : Prop :=
  (c.machine.proc p).Idle ∧ ¬(c'.machine.proc p).Idle

instance (p : Slot) (c c' : Multi n) : Decidable (Enters p c c') :=
  inferInstanceAs (Decidable (_ ∧ _))

/-- Process `p` has entered the MLFQ by `add_proc_to_queue` and has been put back `k` times since,
with no wakeup or `setpriority` of it, and no boost or change of mode in between. -/
inductive Demoted (p : Slot) : Nat → Multi n → Prop where
  | enter {c c' : Multi n} {j : Fin n} {e : Event} (hmode : c.machine.mode = .mlfq)
      (hspares : Spares p c.machine e) (hstep : multiStep j e c = .ok ((), c'))
      (hback : ¬PutsBack p c j e) (henters : Enters p c c') : Demoted p 0 c'
  | putBack {c c' : Multi n} {j : Fin n} {e : Event} {k : Nat} (h : Demoted p k c)
      (hstep : multiStep j e c = .ok ((), c')) (hback : PutsBack p c j e) : Demoted p (k + 1) c'
  | other {c c' : Multi n} {j : Fin n} {e : Event} {k : Nat} (h : Demoted p k c)
      (hspares : Spares p c.machine e) (hstep : multiStep j e c = .ok ((), c'))
      (hback : ¬PutsBack p c j e) (henters : ¬Enters p c c') : Demoted p k c'

/-! ## What an event does to a process -/

variable {E : Fault → Prop} {m m' : Machine} {p q : Slot} {t t' : Proc}

/-- The fields that the MLFQ uses. -/
def Proc.mlfqFields (t : Proc) : Int × Int × Int := (t.level, t.priority, t.timeQuantum)

/-- The MLFQ fields are as before, and the process is idle if it was. -/
structure Kept (t t' : Proc) : Prop where
  fields : t'.mlfqFields = t.mlfqFields
  idle : t'.Idle ↔ t.Idle

theorem Kept.refl (t : Proc) : Kept t t := ⟨rfl, Iff.rfl⟩

theorem Kept.trans {t'' : Proc} (h : Kept t t') (h' : Kept t' t'') : Kept t t'' :=
  ⟨h'.fields.trans h.fields, h'.idle.trans h.idle⟩

/-- In MLFQ mode process `p` is left as it is or has entered. -/
structure Woke (p : Slot) (m m' : Machine) : Prop where
  mode : m'.mode = m.mode
  proc : m.mode = .mlfq → Kept (m.proc p) (m'.proc p) ∨
    (m.proc p).Idle ∧ ¬(m'.proc p).Idle ∧ (m'.proc p).mlfqFields = (0, 3, 1)

instance : Std.Refl (Woke p) := ⟨fun _ => ⟨rfl, fun _ => .inl (.refl _)⟩⟩

instance : IsTrans Machine (Woke p) where
  trans m m1 m2 h h' := by
    refine ⟨h'.mode.trans h.mode, fun hmode => ?_⟩
    have hmode1 : m1.mode = .mlfq := h.mode.trans hmode
    rcases h.proc hmode with hk | ⟨hidle, hactive, hfields⟩
    · rcases h'.proc hmode1 with hk' | ⟨hidle', hrest⟩
      · exact .inl (hk.trans hk')
      · exact .inr ⟨hk.idle.mp hidle', hrest⟩
    · rcases h'.proc hmode1 with hk' | ⟨hidle', _⟩
      · exact .inr ⟨hidle, fun h => hactive (hk'.idle.mp h), hk'.fields.trans hfields⟩
      · exact absurd hidle' hactive

theorem Woke.of_kept (hmode : m'.mode = m.mode) (hproc : Kept (m.proc p) (m'.proc p)) :
    Woke p m m' := ⟨hmode, fun _ => .inl hproc⟩

theorem Woke.of_same (hmode : m'.mode = m.mode) (hproc : m'.proc p = m.proc p) : Woke p m m' := by
  refine .of_kept hmode ?_
  rw [hproc]
  exact .refl _

/-- An assignment to a slot that keeps the MLFQ fields and what the process is. -/
theorem kept_update (h : Kept (m.proc q) t) : Kept (m.proc p) (update m.proc q t p) := by
  by_cases hp : p = q
  · subst hp
    rw [update_self]
    exact h
  · rw [update_of_ne hp]
    exact .refl _

theorem woke_set_proc (hf : ∀ t, Kept t (f t)) :
    Respects (Woke p) E (setProc q f) :=
  fun _ => .of_kept rfl (kept_update (hf _))

theorem woke_store (i : QueueId) (op : Queue Ptr → Ptr → Queue Ptr) (x : Ptr) :
    Respects (Woke p) Fault.any (store i op x) := by
  refine .get fun m => ?_
  split
  next => exact .of_same rfl rfl
  next => exact trivial

theorem woke_push (i : QueueId) (q : Slot) : Respects (Woke p) Fault.any (push i q) :=
  .ite (woke_store i _ _) (woke_store i _ _)

theorem woke_mlfq_at (level : Int) : Respects (Woke p) Fault.any (mlfqAt level) :=
  .ite (.pure _) (.ite (.pure _) (.ite (.pure _) (.fault trivial)))

theorem woke_set_current (c : Ptr) : Respects (Woke p) E (setCurrent c) :=
  fun _ => .of_same rfl rfl

theorem woke_enter (hidle : (m.proc q).Idle) (hf : ∀ t, (f t).state = .runnable) :
    wp (do setProc q f; addProcToQueue q) Fault.any (fun _ m' => Woke p m m') m := by
  simp only [addProcToQueue, wp_bind, wp_set_proc, wp_get]
  by_cases hmode : m.mode = .fcfs
  · rw [if_pos (show (withProc m q (f (m.proc q)) m.current).mode = .fcfs from hmode)]
    refine (woke_push (p := p) .fcfs q).next fun _ m' hm' => ⟨hm'.mode, fun hmlfq => ?_⟩
    rw [hmode] at hmlfq
    cases hmlfq
  · rw [if_neg (show ¬(withProc m q (f (m.proc q)) m.current).mode = .fcfs from hmode), wp_bind,
      wp_set_proc, wp_bind]
    refine (woke_mlfq_at (p := p) 0).next fun i m1 hm1 => ?_
    refine (woke_push (p := p) i q).next fun _ m2 hm2 => ?_
    have hrest := IsTrans.trans _ _ _ hm1 hm2
    -- the two assignments make an idle process one that has just entered
    have hset : Woke p m (withProc (withProc m q (f (m.proc q)) m.current) q
        (enter ((withProc m q (f (m.proc q)) m.current).proc q)) m.current) := by
      unfold withProc
      by_cases hp : p = q
      · subst hp
        refine ⟨rfl, fun _ => .inr ⟨hidle, ?_, ?_⟩⟩
        · simp only [update_self]
          exact fun h => h.1 (hf _)
        · simp only [update_self]
          rfl
      · refine .of_same rfl ?_
        simp only [update_of_ne hp]
    exact IsTrans.trans _ _ _ hset hrest

theorem woke_wakeup (chan : Chan) : Respects (Woke p) Fault.any (wakeup chan) := by
  refine .loop fun q => .get fun m => ?_
  split
  next hsleeping =>
    refine woke_enter ?_ fun _ => rfl
    unfold Proc.Idle
    rw [hsleeping.2.1]
    decide
  next => exact Std.Refl.refl m

theorem woke_wakeup_proc (q : Ptr) : Respects (Woke p) Fault.any (wakeupProc q) := by
  cases q with
  | none => exact .pure ()
  | some q => exact woke_wakeup (.proc q)

theorem woke_reparent (q : Slot) : Respects (Woke p) Fault.any (reparent q) := by
  refine .loop fun pp => .get fun m => Respects.ite ?_ (.pure ()) m
  exact .bind (woke_set_proc fun _ => ⟨rfl, Iff.rfl⟩) fun _ => woke_wakeup_proc _

theorem kept_idle (hfields : t'.mlfqFields = t.mlfqFields) (ht : t.Idle) (ht' : t'.Idle) :
    Kept t t' := ⟨hfields, iff_of_true ht' ht⟩

/-- `allocproc` finds a slot that nobody uses; it is idle afterwards. -/
theorem woke_allocproc (memory : Bool) : wp (allocproc memory) Fault.any (fun r m' =>
    Woke p m m' ∧ ∀ q, r = some q → (m'.proc q).Idle) m := by
  simp only [allocproc, wp_bind, wp_get]
  cases hfind : findSlot m (·.state = .unused) with
  | none => exact ⟨Std.Refl.refl m, fun _ h => by cases h⟩
  | some q =>
    have hunused : (m.proc q).state = .unused := by
      have hfound := List.find?_some hfind
      simpa using hfound
    have hidle : (m.proc q).Idle := by
      unfold Proc.Idle
      rw [hunused]
      decide
    simp only [allocpid, wp_bind, wp_get, wp_set, wp_pure, wp_set_proc]
    have hused : ∀ pid, Kept (m.proc q) { m.proc q with pid := pid, state := .used } :=
      fun pid => kept_idle rfl hidle (by simp [Proc.Idle])
    by_cases hmem : memory = true
    · rw [if_pos hmem, wp_pure]
      refine ⟨.of_kept rfl (kept_update (hused _)), ?_⟩
      intro r hr
      cases hr
      rw [with_proc_self]
      simp [Proc.Idle]
    · rw [if_neg hmem]
      simp only [freeproc, wp_bind, wp_set_proc, wp_pure, with_proc_self]
      refine ⟨.of_kept rfl ?_, fun _ h => by cases h⟩
      simp only [withProc, update_idem]
      exact kept_update (kept_idle rfl hidle (by simp [Proc.Idle]))

theorem woke_userinit (memory : Bool) : Respects (Woke p) Fault.any (userinit memory) := by
  intro m
  simp only [userinit, wp_bind]
  refine wp_mono (woke_allocproc (p := p) memory) fun r m1 hm1 => ?_
  obtain ⟨hwoke, hidle⟩ := hm1
  cases r with
  | none => exact trivial
  | some q =>
    simp only [deref, wp_pure, wp_modify]
    have henter := woke_enter (p := p) (m := { m1 with initproc := some q })
      (f := fun t => { t with state := .runnable }) (hidle q rfl) fun _ => rfl
    rw [wp_bind] at henter
    refine wp_mono henter fun _ m2 hm2 => ?_
    exact wp_mono hm2 fun _ m3 hm3 => IsTrans.trans _ _ _ hwoke ⟨hm3.mode, hm3.proc⟩

theorem woke_fork (q : Slot) (memory copied : Bool) :
    Respects (Woke p) Fault.any (fork q memory copied) := by
  intro m
  simp only [fork, wp_bind]
  refine wp_mono (woke_allocproc (p := p) memory) fun r m1 hm1 => ?_
  obtain ⟨hwoke, hidle⟩ := hm1
  cases r with
  | none => exact hwoke
  | some np =>
    by_cases hcopied : copied = true
    · simp only [hcopied, if_true, wp_bind, wp_get]
      have henter := woke_enter (p := p) (m := m1)
        (f := fun t => { t with parent := some q, state := .runnable }) (hidle np rfl)
        fun _ => rfl
      rw [wp_bind] at henter
      refine wp_mono henter fun _ m2 hm2 => ?_
      exact wp_mono hm2 fun _ m3 hm3 => IsTrans.trans _ _ _ hwoke hm3
    · simp only [hcopied, freeproc]
      refine IsTrans.trans _ _ _ hwoke (.of_kept rfl (kept_update ?_))
      exact kept_idle rfl (hidle np rfl) (by simp [Proc.Idle])

theorem woke_kill (pid : Int) : Respects (Woke p) Fault.any (kill pid) := by
  intro m
  simp only [kill, wp_bind, wp_get]
  cases findSlot m (·.pid = pid) with
  | none => exact Std.Refl.refl m
  | some q =>
    have hkilled : Respects (Woke p) Fault.any (setProc q fun t => { t with killed := true }) :=
      woke_set_proc fun _ => ⟨rfl, Iff.rfl⟩
    simp only [wp_bind]
    refine wp_mono (wp_and (hkilled m) (Q := fun _ m' => Woke p m m')
      (R := fun _ m' => (m'.proc q).state = (m.proc q).state) ?_) fun _ m1 hm1 => ?_
    · rw [wp_set_proc, with_proc_self]
    · obtain ⟨hwoke, hstate⟩ := hm1
      by_cases hsleeping : (m.proc q).state = .sleeping
      · rw [if_pos hsleeping, wp_bind]
        have henter := woke_enter (p := p) (m := m1) (q := q)
          (f := fun t => { t with state := .runnable }) ?_ fun _ => rfl
        · rw [wp_bind] at henter
          refine wp_mono henter fun _ m2 hm2 => ?_
          exact wp_seq hm2 fun _ m3 hm3 => IsTrans.trans _ _ _ hwoke hm3
        · unfold Proc.Idle
          rw [hstate, hsleeping]
          decide
      · rw [if_neg hsleeping]
        exact hwoke

theorem woke_pop (i : QueueId) : Respects (Woke p) Fault.any (pop i) := by
  have hset : ∀ q, Respects (Woke p) Fault.any (setQueue i q) := fun _ _ => .of_same rfl rfl
  refine .get fun m => Respects.ite (.ite (.fault trivial) ?_) ?_ m
  · exact .bind (hset _) fun _ => .pure _
  · exact .bind (hset _) fun _ => .pure _

theorem woke_deref (x : Ptr) : Respects (Woke p) Fault.any (deref x) := by
  cases x with
  | none => exact .fault trivial
  | some x => exact .pure x

/-- A selection changes no process, and finds one that is RUNNABLE. -/
theorem woke_select_from (i : QueueId) (fuel : Nat) : wp (selectFrom i fuel) Fault.any
    (fun r m' => Woke p m m' ∧ ∀ q, r = some q → ¬(m'.proc q).Idle) m := by
  induction fuel generalizing m with
  | zero => exact trivial
  | succ fuel ih =>
    simp only [selectFrom, wp_bind, wp_get]
    by_cases hempty : isEmpty (m.queue i) = true
    · rw [if_pos hempty]
      exact ⟨Std.Refl.refl m, fun _ h => by cases h⟩
    · rw [if_neg hempty]
      simp only [wp_bind]
      refine (woke_pop (p := p) i).next fun t m1 hm1 => ?_
      refine (woke_deref (p := p) t).next fun q m2 hm2 => ?_
      have hwoke := IsTrans.trans _ _ _ hm1 hm2
      simp only [wp_get]
      by_cases hrun : (m2.proc q).state = .runnable
      · rw [if_pos hrun]
        refine ⟨hwoke, fun r hr hidle => ?_⟩
        cases hr
        exact hidle.1 hrun
      · rw [if_neg hrun]
        refine wp_mono ih fun r m3 hm3 => ⟨IsTrans.trans _ _ _ hwoke hm3.1, hm3.2⟩

theorem woke_select : wp select Fault.any
    (fun r m' => Woke p m m' ∧ ∀ q, r = some q → ¬(m'.proc q).Idle) m := by
  simp only [select, wp_bind, wp_get]
  by_cases hmode : m.mode = .fcfs
  · rw [if_pos hmode]
    exact woke_select_from .fcfs QNUM
  · rw [if_neg hmode]
    simp only [selectWithMlfq, wp_bind]
    refine wp_mono (woke_select_from (p := p) (.mlfq 0) QNUM) fun r m1 hm1 => ?_
    cases r with
    | some q => exact hm1
    | none =>
      simp only [wp_bind]
      refine wp_mono (woke_select_from (p := p) (.mlfq 1) QNUM) fun r m2 hm2 => ?_
      have hwoke := IsTrans.trans _ _ _ hm1.1 hm2.1
      cases r with
      | some q => exact ⟨hwoke, hm2.2⟩
      | none =>
        refine wp_mono (woke_select_from (p := p) (.mlfq 2) QNUM) fun r m3 hm3 => ?_
        exact ⟨IsTrans.trans _ _ _ hwoke hm3.1, hm3.2⟩

theorem woke_dispatch : Respects (Woke p) Fault.any dispatch := by
  intro m
  simp only [dispatch, wp_bind]
  refine wp_mono (woke_select (p := p)) fun r m1 hm1 => ?_
  obtain ⟨hwoke, hactive⟩ := hm1
  cases r with
  | none => exact hwoke
  | some q =>
    simp only [wp_bind, wp_set_proc, wp_set_current, wp_pure]
    refine IsTrans.trans _ _ _ hwoke (.of_kept rfl (kept_update ⟨rfl, ?_⟩))
    exact iff_of_false (fun h => h.2 rfl) (hactive q rfl)

/-! ## The process itself -/

/-- The process on the CPU is left as it is. -/
structure Held (p : Slot) (m m' : Machine) : Prop where
  current : m'.current = m.current
  proc : m.current = some p → Kept (m.proc p) (m'.proc p)

instance : Std.Refl (Held p) := ⟨fun _ => ⟨rfl, fun _ => .refl _⟩⟩

instance : IsTrans Machine (Held p) where
  trans _ _ _ h h' := by
    refine ⟨h'.current.trans h.current, fun hp => ?_⟩
    exact (h.proc hp).trans (h'.proc (h.current.trans hp))

theorem Held.of_same (hcurrent : m'.current = m.current) (hproc : m'.proc p = m.proc p) :
    Held p m m' := by
  refine ⟨hcurrent, fun _ => ?_⟩
  rw [hproc]
  exact .refl _

theorem held_store (i : QueueId) (op : Queue Ptr → Ptr → Queue Ptr) (x : Ptr) :
    Respects (Held p) Fault.any (store i op x) := by
  refine .get fun m => ?_
  split
  next => exact .of_same rfl rfl
  next => exact trivial

theorem held_push (i : QueueId) (q : Slot) : Respects (Held p) Fault.any (push i q) :=
  .ite (held_store i _ _) (held_store i _ _)

theorem held_mlfq_at (level : Int) : Respects (Held p) Fault.any (mlfqAt level) :=
  .ite (.pure _) (.ite (.pure _) (.ite (.pure _) (.fault trivial)))

theorem held_set_proc (hq : some q ≠ m.current) :
    wp (setProc q f) E (fun _ m' => Held p m m') m := by
  refine ⟨rfl, fun hp => ?_⟩
  have hne : p ≠ q := by
    intro h
    exact hq (h ▸ hp.symm)
  show Kept (m.proc p) (update m.proc q (f (m.proc q)) p)
  rw [update_of_ne hne]
  exact .refl _

theorem held_add_proc_to_queue (hq : some q ≠ m.current) :
    wp (addProcToQueue q) Fault.any (fun _ m' => Held p m m') m := by
  simp only [addProcToQueue, wp_bind, wp_get]
  by_cases hmode : m.mode = .fcfs
  · rw [if_pos hmode]
    exact held_push .fcfs q m
  · rw [if_neg hmode]
    refine wp_seq (held_set_proc (p := p) hq) fun _ m1 hm1 => ?_
    rw [wp_bind]
    refine (held_mlfq_at (p := p) 0).next fun i m2 hm2 => ?_
    refine (held_push (p := p) i q).next fun _ m3 hm3 => ?_
    exact IsTrans.trans _ _ _ hm1 (IsTrans.trans _ _ _ hm2 hm3)

theorem held_wakeup (chan : Chan) : Respects (Held p) Fault.any (wakeup chan) := by
  refine .loop fun q => .get fun m => ?_
  split
  next hsleeping =>
    refine wp_seq (held_set_proc (p := p) hsleeping.1) fun _ m1 hm1 => ?_
    refine wp_mono (held_add_proc_to_queue (p := p) ?_) fun _ m2 hm2 => IsTrans.trans _ _ _ hm1 hm2
    rw [hm1.current]
    exact hsleeping.1
  next => exact Std.Refl.refl m

theorem held_wakeup_proc (q : Ptr) : Respects (Held p) Fault.any (wakeupProc q) := by
  cases q with
  | none => exact .pure ()
  | some q => exact held_wakeup (.proc q)

theorem held_reparent (q : Slot) : Respects (Held p) Fault.any (reparent q) := by
  refine .loop fun pp => .get fun m => Respects.ite ?_ (.pure ()) m
  refine .bind (fun m => ⟨rfl, fun _ => kept_update ⟨rfl, Iff.rfl⟩⟩) fun _ => held_wakeup_proc _

/-! ## One event -/

/-- In MLFQ mode the event leaves the MLFQ fields of process `p` alone, unless it makes `p`
RUNNABLE; then they are those of a process that enters. -/
structure Touched (p : Slot) (m m' : Machine) : Prop where
  mode : m'.mode = .mlfq
  proc : (m'.proc p).mlfqFields = (m.proc p).mlfqFields ∧ ((m.proc p).Idle → (m'.proc p).Idle) ∨
    (m.proc p).Idle ∧ ¬(m'.proc p).Idle ∧ (m'.proc p).mlfqFields = (0, 3, 1)

theorem Woke.touched (h : Woke p m m') (hmode : m.mode = .mlfq) : Touched p m m' := by
  refine ⟨h.mode.trans hmode, ?_⟩
  rcases h.proc hmode with hk | hentered
  · exact .inl ⟨hk.fields, hk.idle.mpr⟩
  · exact .inr hentered

theorem Touched.refl (hmode : m.mode = .mlfq) : Touched p m m := ⟨hmode, .inl ⟨rfl, id⟩⟩

/-- Then some process becomes idle; if it is `p`, nothing has happened to it before. -/
theorem Touched.set_idle {m1 : Machine} (h : Touched p m m1)
    (hsame : p = q → (m1.proc p).mlfqFields = (m.proc p).mlfqFields) (hmode : m'.mode = m1.mode)
    (hproc : m'.proc = update m1.proc q t)
    (hfields : t.mlfqFields = (m1.proc q).mlfqFields) (hidle : t.Idle) : Touched p m m' := by
  refine ⟨hmode.trans h.mode, ?_⟩
  rw [hproc]
  by_cases hp : p = q
  · have hkept := hsame hp
    subst hp
    rw [update_self]
    exact .inl ⟨hfields.trans hkept, fun _ => hidle⟩
  · rw [update_of_ne hp]
    exact h.proc

theorem touched_sleep (hmode : m.mode = .mlfq) (q : Slot) (chan : Chan) :
    wp (sleep q chan) E (fun _ m' => Touched p m m') m := by
  simp only [sleep, wp_bind, wp_set_proc, wp_set_current]
  exact (Touched.refl hmode).set_idle (fun _ => rfl) rfl rfl rfl (by simp [Proc.Idle])

theorem touched_wait (hmode : m.mode = .mlfq) (q : Slot) (copied : Bool) :
    wp (wait q copied) E (fun _ m' => Touched p m m') m := by
  simp only [wait, wp_bind, wp_get]
  cases findSlot m fun t => t.parent = some q ∧ t.state = .zombie with
  | some pp =>
    refine (wp_ite ..).mpr ⟨fun _ => ?_, fun _ => .refl hmode⟩
    simp only [freeproc, wp_bind, wp_set_proc, wp_pure]
    exact (Touched.refl hmode).set_idle (fun _ => rfl) rfl rfl rfl (by simp [Proc.Idle])
  | none =>
    refine (wp_ite ..).mpr ⟨fun _ => .refl hmode, fun _ => ?_⟩
    exact wp_seq (touched_sleep hmode q (.proc q)) fun _ _ hm' => hm'

/-- The exit of another process wakes `p` at most; its own exit leaves it idle. -/
theorem touched_exit (hmode : m.mode = .mlfq) (hq : m.current = some q) :
    wp (exit q) Fault.any (fun _ m' => Touched p m m') m := by
  simp only [exit, wp_bind, wp_get]
  refine (wp_ite ..).mpr ⟨fun _ => trivial, fun _ => ?_⟩
  simp only [wp_bind]
  refine wp_mono (wp_and (woke_reparent (p := p) q m) (held_reparent (p := p) q m))
    fun _ m1 hm1 => ?_
  refine wp_mono (wp_and (woke_wakeup_proc (p := p) _ m1) (held_wakeup_proc (p := p) _ m1))
    fun _ m2 hm2 => ?_
  have hwoke := IsTrans.trans _ _ _ hm1.1 hm2.1
  have hheld := IsTrans.trans _ _ _ hm1.2 hm2.2
  simp only [wp_set_proc, wp_set_current]
  refine (hwoke.touched hmode).set_idle (fun hp => ?_) rfl rfl rfl (by simp [Proc.Idle])
  exact (hheld.proc (hp ▸ hq)).fields

theorem woke_sys_setpriority {pid priority : Int}
    (hp : 0 ≤ priority → priority ≤ 3 → (m.proc p).pid ≠ pid) (q : Slot) :
    wp (sysSetpriority q pid priority) E (fun _ m' => Woke p m m') m := by
  have hset : ∀ t, 0 ≤ priority → priority ≤ 3 → (m.proc t).pid = pid →
      Woke p m (withProc m t { m.proc t with priority := priority } m.current) := by
    intro t h0 h3 ht
    have hne : p ≠ t := by
      intro h
      exact hp h0 h3 (h ▸ ht)
    exact .of_same rfl (update_of_ne hne _ _)
  unfold sysSetpriority
  refine (wp_ite ..).mpr ⟨fun _ => Std.Refl.refl m, fun hrange => ?_⟩
  simp only [wp_bind, wp_get]
  refine (wp_ite ..).mpr ⟨fun hq => ?_, fun _ => ?_⟩
  · exact hset q (by omega) (by omega) hq
  · cases hfind : findSlot m (·.pid = pid) with
    | none => exact Std.Refl.refl m
    | some t =>
      have hfound := List.find?_some hfind
      exact hset t (by omega) (by omega) (of_decide_eq_true hfound)

theorem touched_syscall {code : Slot → Code Unit} (hmode : m.mode = .mlfq)
    (h : ∀ q, m.current = some q → wp (code q) Fault.any (fun _ m' => Touched p m m') m) :
    wp (syscall code) Fault.any (fun _ m' => Touched p m m') m := by
  simp only [syscall, wp_bind, wp_get]
  cases hcurrent : m.current with
  | none => exact .refl hmode
  | some q => exact h q hcurrent

theorem woke_yield (hq : p ≠ q) : wp (yield q) Fault.any (fun _ m' => Woke p m m') m := by
  have hset : ∀ f, Respects (Woke p) Fault.any (setProc q f) :=
    fun f _ => .of_same rfl (update_of_ne hq _ _)
  refine Respects.bind (hset _) (fun _ => .bind (woke_set_current none) fun _ => ?_) m
  refine .get fun m => Respects.ite (woke_push .fcfs q) ?_ m
  exact .bind (hset _) fun _ => .bind (woke_mlfq_at _) fun i => woke_push i q

/-- An event that is none of those that reset or charge process `p`. -/
theorem touched_step (hmode : m.mode = .mlfq) (hspares : Spares p m e)
    (hyield : e = .yield → m.current ≠ some p) :
    wp (step e) Fault.any (fun _ m' => Touched p m m') m := by
  have hwoke {code : Code Unit} (h : wp code Fault.any (fun _ m' => Woke p m m') m) :
      wp code Fault.any (fun _ m' => Touched p m m') m :=
    wp_mono h fun _ _ hm' => hm'.touched hmode
  have hcall {α : Type} {code : Slot → Code α}
      (h : ∀ q, wp (code q) Fault.any (fun _ m' => Woke p m m') m) :
      wp (syscall fun q => discard (code q)) Fault.any (fun _ m' => Touched p m m') m :=
    touched_syscall hmode fun q _ => hwoke ((wp_map _ _).mpr (h q))
  cases e with
  | userinit memory => exact hwoke (woke_userinit memory m)
  | select =>
    simp only [step, wp_bind, wp_get]
    refine (wp_ite ..).mpr ⟨fun _ => ?_, fun _ => .refl hmode⟩
    exact hwoke ((wp_map _ _).mpr (woke_dispatch m))
  | fork memory copied => exact hcall fun q => woke_fork q memory copied m
  | yield =>
    refine touched_syscall hmode fun q hq => hwoke (woke_yield fun h => ?_)
    exact hyield rfl (h ▸ hq)
  | sleep chan => exact touched_syscall hmode fun q _ => touched_sleep hmode q chan
  | wakeup chan => exact hwoke (woke_wakeup chan m)
  | kill pid => exact hcall fun _ => woke_kill pid m
  | exit => exact touched_syscall hmode fun q hq => touched_exit hmode hq
  | wait copied =>
    refine touched_syscall hmode fun q _ => (wp_map _ _).mpr ?_
    exact touched_wait hmode q copied
  | fcfsmode => exact hspares.elim
  | mlfqmode =>
    refine hcall fun _ => ?_
    unfold sysMlfqmode
    rw [wp_bind, wp_get, if_pos hmode]
    exact Std.Refl.refl m
  | setpriority pid priority => exact hcall fun q => woke_sys_setpriority hspares q
  | priorityBoosting => exact hspares.elim

theorem charge_set_state (t : Proc) (state : ProcState) :
    (charge { t with state := state }).mlfqFields = (charge t).mlfqFields := by
  unfold charge
  dsimp only
  split_ifs <;> rfl

theorem charged_step (hmode : m.mode = .mlfq) (hcurrent : m.current = some p) :
    wp (step .yield) Fault.any (fun _ m' => m'.mode = .mlfq ∧
      (m'.proc p).mlfqFields = (charge (m.proc p)).mlfqFields) m := by
  simp only [step, syscall, wp_bind, wp_get, hcurrent]
  simp only [yield, myQueueing, wp_bind, wp_set_proc, wp_set_current, wp_get]
  refine (wp_ite ..).mpr ⟨fun h => ?_, fun _ => ?_⟩
  · rw [show m.mode = .fcfs from h] at hmode
    cases hmode
  · simp only [wp_bind, wp_set_proc]
    refine (woke_mlfq_at (p := p) _).next fun i m1 hm1 => ?_
    refine (woke_push (p := p) i p).next fun _ m2 hm2 => ?_
    have hrest := IsTrans.trans _ _ _ hm1 hm2
    have hmlfq : m2.mode = .mlfq := hrest.mode.trans hmode
    refine ⟨hmlfq, ?_⟩
    -- the process is RUNNABLE by now, so storing it in a queue cannot make it enter
    rcases hrest.proc hmode with hkept | ⟨hidle, _⟩
    · rw [hkept.fields, with_proc_self, with_proc_self]
      exact charge_set_state _ _
    · rw [with_proc_self, with_proc_self] at hidle
      exact absurd (charge_state _) hidle.1

theorem multiStep_ok {c c' : Multi n} {k : Fin n} (h : multiStep k e c = .ok ((), c')) :
    ∃ m', step e { c.machine with current := c.running k } = .ok ((), m') ∧
      c' = ⟨m', update c.running k m'.current⟩ := by
  unfold multiStep at h
  cases hstep : step e { c.machine with current := c.running k } with
  | error f => simp [hstep] at h
  | ok r =>
    simp only [hstep, Except.ok.injEq, Prod.mk.injEq, true_and] at h
    exact ⟨r.2, rfl, h.symm⟩

/-! ## The schedule -/

/-- Level, priority and quantum after `k` put-backs. -/
def demotion (k : Nat) : Int × Int × Int :=
  (if k = 0 then 0 else if k ≤ 3 then 1 else 2,
    if k < 4 then 3 else max 0 (3 - ((k - 4) / 5 : Nat)),
    if k = 0 then 1 else if k ≤ 3 then 4 - k else 5 - ((k - 4) % 5 : Nat))

/-- From the fourth put-back on the process is at level 2, and loses priority at every fifth. -/
theorem demotion_add_four (j : Nat) :
    demotion (j + 4) = (2, max 0 (3 - ((j / 5 : Nat) : Int)), 5 - ((j % 5 : Nat) : Int)) := by
  unfold demotion
  rw [if_neg (by omega), if_neg (by omega), if_neg (by omega), if_neg (by omega),
    if_neg (by omega), Nat.add_sub_cancel]

theorem charge_level_two {j : Nat} (h : t.mlfqFields = demotion (j + 4)) :
    (charge t).mlfqFields = demotion (j + 1 + 4) := by
  rw [demotion_add_four] at h ⊢
  simp only [Proc.mlfqFields, Prod.mk.injEq] at h ⊢
  obtain ⟨hlevel, hpriority, hquantum⟩ := h
  unfold charge
  dsimp only
  by_cases hspent : j % 5 = 4
  · rw [if_pos (by omega), if_neg (by omega)]
    by_cases hlow : t.priority > 0
    · rw [if_pos hlow]
      dsimp only
      omega
    · rw [if_neg hlow]
      dsimp only
      omega
  · rw [if_neg (by omega)]
    dsimp only
    omega

theorem charge_demotion {k : Nat} (h : t.mlfqFields = demotion k) :
    (charge t).mlfqFields = demotion (k + 1) := by
  rcases (by omega : k < 4 ∨ 4 ≤ k) with hk | hk
  · -- three put-backs lead from level 0 through level 1, with a quantum of 1 and then of 3
    unfold charge
    interval_cases k <;> simp_all [demotion, Proc.mlfqFields]
  · obtain ⟨j, rfl⟩ := Nat.exists_eq_add_of_le' hk
    exact charge_level_two h

/-- The MLFQ fields of a process that has been put back `k` times. -/
theorem demotion_schedule {k : Nat} {c : Multi n} (h : Demoted p k c) :
    (c.machine.proc p).level = (if k = 0 then 0 else if k ≤ 3 then 1 else 2) ∧
      (c.machine.proc p).priority =
        (if k < 4 then 3 else max 0 (3 - ((k - 4) / 5 : Nat) : Int)) ∧
      (c.machine.proc p).timeQuantum =
        (if k = 0 then 1 else if k ≤ 3 then 4 - (k : Int) else 5 - ((k - 4) % 5 : Nat)) := by
  have hall : c.machine.mode = .mlfq ∧ (c.machine.proc p).mlfqFields = demotion k := by
    induction h with
    | @enter c c' j e hmode hspares hstep hback henters =>
      obtain ⟨m', hrun, rfl⟩ := multiStep_ok hstep
      have htouched := wp_ok (touched_step (p := p)
        (m := { c.machine with current := c.running j }) hmode hspares
        fun he hcurrent => hback ⟨he, hcurrent⟩) hrun
      obtain ⟨hmode', hfields | hentered⟩ := htouched
      · exact absurd (hfields.2 henters.1) henters.2
      · exact ⟨hmode', hentered.2.2⟩
    | @putBack c c' j e k _ hstep hback ih =>
      obtain ⟨m', hrun, rfl⟩ := multiStep_ok hstep
      obtain ⟨rfl, hcurrent⟩ := hback
      have hcharged := wp_ok (charged_step (p := p)
        (m := { c.machine with current := c.running j }) ih.1 hcurrent) hrun
      exact ⟨hcharged.1, hcharged.2.trans (charge_demotion ih.2)⟩
    | @other c c' j e k _ hspares hstep hback henters ih =>
      obtain ⟨m', hrun, rfl⟩ := multiStep_ok hstep
      have htouched := wp_ok (touched_step (p := p)
        (m := { c.machine with current := c.running j }) ih.1 hspares
        fun he hcurrent => hback ⟨he, hcurrent⟩) hrun
      obtain ⟨hmode', hfields | hentered⟩ := htouched
      · exact ⟨hmode', hfields.1.trans ih.2⟩
      · exact absurd ⟨hentered.1, hentered.2.1⟩ henters
  have hfields := hall.2
  simp only [Proc.mlfqFields, demotion, Prod.mk.injEq] at hfields
  exact hfields

/-- The only CPU after one more event that returns. -/
def oneStep (c : Multi 1) (e : Event) : Multi 1 :=
  match multiStep 0 e c with
  | .ok (_, c') => c'
  | .error _ => c

theorem oneStep_ok {c : Multi 1} (h : faultOf (multiStep 0 e) c = none) :
    multiStep 0 e c = .ok ((), oneStep c e) := by
  unfold faultOf at h
  unfold oneStep
  cases hstep : multiStep 0 e c with
  | ok r => rfl
  | error f => simp [hstep] at h

/-- The only CPU after some events from boot. -/
def oneCpu (events : List Event) : Multi 1 := events.foldl oneStep ⟨boot, fun _ => none⟩

/-- The first process forks a second one in MLFQ mode and yields. The second one runs and is put
back: it is at level 1 with a quantum of 3. -/
theorem demotion_schedule_once :
    let c := oneCpu [.userinit true, .select, .mlfqmode, .fork true true, .yield, .select, .yield]
    let child : Slot := ⟨1, by decide⟩
    Demoted child 1 c ∧ (c.machine.proc child).level = 1 ∧ (c.machine.proc child).priority = 3 ∧
      (c.machine.proc child).timeQuantum = 3 := by
  intro c child
  have hfork : Demoted child 0 (oneCpu [.userinit true, .select, .mlfqmode, .fork true true]) :=
    .enter (c := oneCpu [.userinit true, .select, .mlfqmode]) (j := 0) (e := .fork true true)
      (by decide +kernel) trivial (oneStep_ok (by decide +kernel)) (fun h => by cases h.1)
      (by decide +kernel)
  have hyield : Demoted child 0
      (oneCpu [.userinit true, .select, .mlfqmode, .fork true true, .yield]) :=
    hfork.other (j := 0) (e := .yield) trivial (oneStep_ok (by decide +kernel))
      (fun h => absurd h.2 (by decide +kernel)) (by decide +kernel)
  have hselect : Demoted child 0
      (oneCpu [.userinit true, .select, .mlfqmode, .fork true true, .yield, .select]) :=
    hyield.other (j := 0) (e := .select) trivial (oneStep_ok (by decide +kernel))
      (fun h => by cases h.1) (by decide +kernel)
  have hback : Demoted child 1 c :=
    hselect.putBack (oneStep_ok (by decide +kernel)) ⟨rfl, by decide +kernel⟩
  exact ⟨hback, demotion_schedule hback⟩

end Xv6.Sched
