import Xv6.Sched.Machine

/-!
# `sys_sleep` and the clock

`sys_sleep` of `scheduler/kernel/sysproc.c` and the counting part of `clockintr`, over the
scheduler kernel of `Xv6.Sched.Machine` and without the locks. `ticks` is a 32-bit counter that a
change of the scheduling mode sets back to 0, while a sleeping process compares it with the value
it had at the call. The state carries the number of ticks that have really occurred, and each call
the number at which it began; both are history that the code does not keep.
-/

namespace Xv6.Sched

open Function

/-- A call of `sys_sleep` that has not returned: its argument, `ticks0`, and the number of ticks
that had occurred. -/
structure SleepCall where
  n : BitVec 32
  ticks0 : BitVec 32
  since : Nat
  deriving DecidableEq

/-- The kernel with the calls of `sys_sleep` in progress and the number of executions of
`ticks++`. -/
structure Timed where
  machine : Machine
  calls : Slot → Option SleepCall
  elapsed : Nat

/-- Code over that state. -/
abbrev TimedCode (α : Type) := Kernel Timed α

/-- Before the first tick. -/
def timedBoot : Timed where
  machine := boot
  calls := fun _ => none
  elapsed := 0

/-- The address of `ticks`. -/
def ticksChan : Chan := .address 0

/-- Code that has nothing to do with `sys_sleep`. -/
def untimed (code : Code Unit) : TimedCode Unit := fun c =>
  match code c.machine with
  | .ok (_, m) => .ok ((), { c with machine := m })
  | .error f => .error f

/-- Leave `sys_sleep` with a value. -/
def returnFrom (p : Slot) (call : SleepCall) (value : Int) :
    TimedCode (Option (SleepCall × Int)) := do
  modify fun c => { c with calls := update c.calls p none }
  pure (some (call, value))

/-- One round of the loop of `sys_sleep`. `ticks - ticks0 < n` compares unsigned values. -/
def sleepRound (p : Slot) (call : SleepCall) : TimedCode (Option (SleepCall × Int)) := do
  let c ← get
  if c.machine.ticks - call.ticks0 < call.n then
    if (c.machine.proc p).killed then returnFrom p call (-1)
    else
      untimed (sleep p ticksChan)
      pure none
  else returnFrom p call 0

/-- `sys_sleep` by process `p`, up to its first sleep or its return. -/
def sysSleep (p : Slot) (n : BitVec 32) : TimedCode (Option (SleepCall × Int)) := do
  let c ← get
  let call : SleepCall :=
    { n := if n.toInt < 0 then 0 else n, ticks0 := c.machine.ticks, since := c.elapsed }
  set { c with calls := update c.calls p (some call) }
  sleepRound p call

/-- `clockintr` on CPU 0, as far as it concerns sleepers. -/
def clockTick : TimedCode Unit := do
  modify fun c =>
    { c with machine := { c.machine with ticks := c.machine.ticks + 1 }, elapsed := c.elapsed + 1 }
  untimed (wakeup ticksChan)

/-- What can happen: an event of the kernel, a tick, a call of `sys_sleep` by the running process,
or its going on inside one. -/
inductive TimedEvent where
  | kernel (e : Event)
  | clockTick
  | sysSleep (n : BitVec 32)
  | resume

/-- The events that are system calls or traps of the running process. -/
def Event.ofProcess : Event → Bool
  | .userinit _ | .select | .wakeup _ | .priorityBoosting => false
  | .fork .. | .yield | .sleep _ | .kill _ | .exit | .wait _ | .fcfsmode | .mlfqmode
  | .setpriority .. => true

/-- The call of `sys_sleep` that the running process is in. -/
def Timed.currentCall (c : Timed) : Option (Slot × SleepCall) :=
  c.machine.current.bind fun p => (c.calls p).map fun call => (p, call)

/-- One event, with the call of `sys_sleep` that returns in it and its value. A process inside
`sys_sleep` makes no other system call. -/
def timedStep : TimedEvent → TimedCode (Option (SleepCall × Int))
  | .kernel e => do
    let c ← get
    if e.ofProcess ∧ c.currentCall.isSome then pure none
    else
      untimed (step e)
      pure none
  | .clockTick => do
    clockTick
    pure none
  | .sysSleep n => do
    let c ← get
    match c.machine.current with
    | none => pure none
    | some p => if (c.calls p).isSome then pure none else sysSleep p n
  | .resume => do
    let c ← get
    match c.currentCall with
    | none => pure none
    | some (p, call) => sleepRound p call

/-- No change of mode takes effect while a process is inside `sys_sleep`. -/
def Undisturbed (c : Timed) : TimedEvent → Prop
  | .kernel .fcfsmode => c.machine.mode = .fcfs ∨ ∀ p, c.calls p = none
  | .kernel .mlfqmode => c.machine.mode = .mlfq ∨ ∀ p, c.calls p = none
  | _ => True

instance (c : Timed) (e : TimedEvent) : Decidable (Undisturbed c e) := by
  unfold Undisturbed
  split <;> infer_instance

/-! ## What changes `ticks` -/

variable {E : Fault → Prop} {c c' : Timed} {m : Machine}

/-- `ticks` is as before. -/
structure SameTicks (m m' : Machine) : Prop where
  ticks : m'.ticks = m.ticks

instance : Std.Refl SameTicks := ⟨fun _ => ⟨rfl⟩⟩

instance : IsTrans Machine SameTicks := ⟨fun _ _ _ h h' => ⟨h'.ticks.trans h.ticks⟩⟩

theorem ticks_set_proc (p : Slot) (f : Proc → Proc) : Respects SameTicks E (setProc p f) :=
  fun _ => ⟨rfl⟩

theorem ticks_set_current (p : Ptr) : Respects SameTicks E (setCurrent p) := fun _ => ⟨rfl⟩

theorem ticks_deref (p : Ptr) : Respects SameTicks Fault.any (deref p) := by
  cases p with
  | none => exact .fault trivial
  | some p => exact .pure p

theorem ticks_mlfq_at (level : Int) : Respects SameTicks Fault.any (mlfqAt level) :=
  .ite (.pure _) (.ite (.pure _) (.ite (.pure _) (.fault trivial)))

theorem ticks_store (i : QueueId) (op : Queue Ptr → Ptr → Queue Ptr) (p : Ptr) :
    Respects SameTicks Fault.any (store i op p) := by
  refine .get fun m => ?_
  split
  next => exact ⟨rfl⟩
  next => exact trivial

theorem ticks_push (i : QueueId) (p : Slot) : Respects SameTicks Fault.any (push i p) :=
  .ite (ticks_store i _ _) (ticks_store i _ _)

theorem ticks_pop (i : QueueId) : Respects SameTicks Fault.any (pop i) := by
  have hset : ∀ q, Respects SameTicks Fault.any (setQueue i q) := fun _ _ => ⟨rfl⟩
  refine .get fun m => Respects.ite (.ite (.fault trivial) ?_) ?_ m
  · exact .bind (hset _) fun _ => .pure _
  · exact .bind (hset _) fun _ => .pure _

theorem ticks_my_queueing (p : Slot) : Respects SameTicks Fault.any (myQueueing p) := by
  refine .get fun m => Respects.ite (ticks_push .fcfs p) ?_ m
  exact .bind (ticks_set_proc p _) fun _ => .bind (ticks_mlfq_at _) fun i => ticks_push i p

theorem ticks_add_proc_to_queue (p : Slot) : Respects SameTicks Fault.any (addProcToQueue p) := by
  refine .get fun m => Respects.ite (ticks_push .fcfs p) ?_ m
  exact .bind (ticks_set_proc p _) fun _ => .bind (ticks_mlfq_at _) fun i => ticks_push i p

theorem ticks_select_from (i : QueueId) (fuel : Nat) :
    Respects SameTicks Fault.any (selectFrom i fuel) := by
  induction fuel with
  | zero => exact .fault trivial
  | succ fuel ih =>
    refine .get fun m => Respects.ite (.pure none) ?_ m
    refine .bind (ticks_pop i) fun t => .bind (ticks_deref t) fun q => .get fun m => ?_
    exact Respects.ite (.pure _) ih m

theorem ticks_select : Respects SameTicks Fault.any select := by
  refine .get fun m => Respects.ite (ticks_select_from .fcfs QNUM) ?_ m
  refine .bind (ticks_select_from _ _) fun t => ?_
  cases t with
  | some t => exact .pure _
  | none =>
    refine .bind (ticks_select_from _ _) fun t => ?_
    cases t with
    | some t => exact .pure _
    | none => exact ticks_select_from _ _

theorem ticks_dispatch : Respects SameTicks Fault.any dispatch := by
  refine .bind ticks_select fun t => ?_
  cases t with
  | none => exact .pure none
  | some p =>
    exact .bind (ticks_set_proc p _) fun _ => .bind (ticks_set_current _) fun _ => .pure _

theorem ticks_wakeup (chan : Chan) : Respects SameTicks Fault.any (wakeup chan) := by
  refine .loop fun p => .get fun m => Respects.ite ?_ (.pure ()) m
  exact .bind (ticks_set_proc p _) fun _ => ticks_add_proc_to_queue p

theorem ticks_wakeup_proc (p : Ptr) : Respects SameTicks Fault.any (wakeupProc p) := by
  cases p with
  | none => exact .pure ()
  | some p => exact ticks_wakeup (.proc p)

theorem ticks_allocproc (memory : Bool) : Respects SameTicks Fault.any (allocproc memory) := by
  refine .get fun m => ?_
  split
  next => exact ⟨rfl⟩
  next p _ =>
    have hpid : Respects SameTicks Fault.any allocpid := fun _ => ⟨rfl⟩
    refine Respects.bind hpid (fun pid => .bind (ticks_set_proc p _) fun _ => ?_) m
    exact .ite (.pure _) (.bind (ticks_set_proc p _) fun _ => .pure none)

theorem ticks_kill (pid : Int) : Respects SameTicks Fault.any (kill pid) := by
  refine .get fun m => ?_
  split
  next => exact ⟨rfl⟩
  next p _ =>
    refine Respects.bind (ticks_set_proc p _) (fun _ => .ite ?_ (.pure 0)) m
    exact .bind (ticks_set_proc p _) fun _ => .bind (ticks_add_proc_to_queue p) fun _ => .pure 0

theorem ticks_fork (p : Slot) (memory copied : Bool) :
    Respects SameTicks Fault.any (fork p memory copied) := by
  refine .bind (ticks_allocproc memory) fun np => ?_
  cases np with
  | none => exact .pure _
  | some np =>
    refine .ite (.get fun m => ?_) (.bind (ticks_set_proc np _) fun _ => .pure _)
    exact Respects.bind (ticks_set_proc np _)
      (fun _ => .bind (ticks_add_proc_to_queue np) fun _ => .pure _) m

theorem ticks_userinit (memory : Bool) : Respects SameTicks Fault.any (userinit memory) := by
  refine .bind (ticks_allocproc memory) fun np => .bind (ticks_deref np) fun p => ?_
  have hinit : Respects SameTicks Fault.any
      (modify fun m : Machine => { m with initproc := some p } : Code Unit) := fun _ => ⟨rfl⟩
  exact .bind hinit fun _ => .bind (ticks_set_proc p _) fun _ => ticks_add_proc_to_queue p

theorem ticks_exit (p : Slot) : Respects SameTicks Fault.any (exit p) := by
  refine .get fun m => Respects.ite (.kpanic trivial) ?_ m
  have hreparent : Respects SameTicks Fault.any (reparent p) := by
    refine .loop fun pp => .get fun m => Respects.ite ?_ (.pure ()) m
    exact .bind (ticks_set_proc pp _) fun _ => ticks_wakeup_proc _
  exact .bind hreparent fun _ => .bind (ticks_wakeup_proc _) fun _ =>
    .bind (ticks_set_proc p _) fun _ => ticks_set_current none

theorem ticks_sleep (p : Slot) (chan : Chan) : Respects SameTicks E (sleep p chan) :=
  fun _ => ⟨rfl⟩

theorem ticks_wait (p : Slot) (copied : Bool) : Respects SameTicks Fault.any (wait p copied) := by
  refine .get fun m => ?_
  split
  next pp _ => exact Respects.ite (.bind (ticks_set_proc pp _) fun _ => .pure _) (.pure _) m
  next => exact Respects.ite (.pure _) (.bind (ticks_sleep p _) fun _ => .pure _) m

theorem ticks_sys_setpriority (p : Slot) (pid priority : Int) :
    Respects SameTicks Fault.any (sysSetpriority p pid priority) := by
  refine .ite (.pure _) (.get fun m => Respects.ite ?_ ?_ m)
  · exact .bind (ticks_set_proc p _) fun _ => .pure _
  · cases findSlot m (·.pid = pid) with
    | none => exact .pure _
    | some t => exact .bind (ticks_set_proc t _) fun _ => .pure _

theorem ticks_priority_boosting : Respects SameTicks Fault.any priorityBoosting := by
  have hreset : ∀ i, Respects SameTicks Fault.any (reset i) := fun i _ => ⟨rfl⟩
  refine .bind (hreset _) fun _ => .bind (hreset _) fun _ => .bind (hreset _) fun _ => ?_
  refine .loop fun p => .bind (ticks_set_proc p _) fun _ => .get fun m => ?_
  exact Respects.ite (ticks_store _ _ _) (.pure ()) m

theorem ticks_syscall {code : Slot → Code Unit}
    (h : ∀ p, Respects SameTicks Fault.any (code p)) :
    Respects SameTicks Fault.any (syscall code) := by
  refine .get fun m => ?_
  cases m.current with
  | none => exact ⟨rfl⟩
  | some p => exact h p m

theorem ticks_discard {α : Type} {code : Code α} (h : Respects SameTicks E code) :
    Respects SameTicks E (discard code) := fun m => (wp_map _ _).mpr (h m)

theorem ticks_step (e : Event) (hfcfs : e ≠ .fcfsmode) (hmlfq : e ≠ .mlfqmode) :
    Respects SameTicks Fault.any (step e) := by
  cases e with
  | userinit memory => exact ticks_userinit memory
  | select => exact .get fun m => Respects.ite (ticks_discard ticks_dispatch) (.pure ()) m
  | fork memory copied => exact ticks_syscall fun p => ticks_discard (ticks_fork p memory copied)
  | yield =>
    exact ticks_syscall fun p => .bind (ticks_set_proc p _) fun _ =>
      .bind (ticks_set_current none) fun _ => ticks_my_queueing p
  | sleep chan => exact ticks_syscall fun p => ticks_sleep p chan
  | wakeup chan => exact ticks_wakeup chan
  | kill pid => exact ticks_syscall fun _ => ticks_discard (ticks_kill pid)
  | exit => exact ticks_syscall fun p => ticks_exit p
  | wait copied => exact ticks_syscall fun p => ticks_discard (ticks_wait p copied)
  | fcfsmode => exact absurd rfl hfcfs
  | mlfqmode => exact absurd rfl hmlfq
  | setpriority pid priority =>
    exact ticks_syscall fun p => ticks_discard (ticks_sys_setpriority p pid priority)
  | priorityBoosting => exact ticks_priority_boosting

/-- A change of mode that is already in force changes nothing. -/
theorem ticks_fcfsmode (hmode : m.mode = .fcfs) :
    wp (step .fcfsmode) E (fun _ m' => SameTicks m m') m := by
  have hcode : wp sysFcfsmode E (fun _ m' => SameTicks m m') m := by
    unfold sysFcfsmode
    rw [wp_bind, wp_get, if_pos hmode]
    exact ⟨rfl⟩
  unfold step syscall
  rw [wp_bind, wp_get]
  cases m.current with
  | none => exact ⟨rfl⟩
  | some p => exact (wp_map _ _).mpr hcode

theorem ticks_mlfqmode (hmode : m.mode = .mlfq) :
    wp (step .mlfqmode) E (fun _ m' => SameTicks m m') m := by
  have hcode : wp sysMlfqmode E (fun _ m' => SameTicks m m') m := by
    unfold sysMlfqmode
    rw [wp_bind, wp_get, if_pos hmode]
    exact ⟨rfl⟩
  unfold step syscall
  rw [wp_bind, wp_get]
  cases m.current with
  | none => exact ⟨rfl⟩
  | some p => exact (wp_map _ _).mpr hcode

/-! ## Every call sees the ticks that have occurred -/

/-- A call's `ticks0` lies as many ticks behind the counter as have occurred since the call, up to
the wrap-around of the counter. -/
structure SleepCall.InStep (c : Timed) (call : SleepCall) : Prop where
  since : call.since ≤ c.elapsed
  ticks : c.machine.ticks = call.ticks0 + BitVec.ofNat 32 (c.elapsed - call.since)
  nonneg : 0 ≤ call.n.toInt

/-- Every call in progress is in step with the clock. -/
def InStep (c : Timed) : Prop := ∀ p call, c.calls p = some call → call.InStep c

theorem in_step_boot : InStep timedBoot := by
  intro p call hcall
  cases hcall

@[simp] theorem wp_untimed {code : Code Unit} {Q : Unit → Timed → Prop} :
    wp (untimed code) E Q c ↔ wp code E (fun _ m => Q () { c with machine := m }) c.machine := by
  simp only [wp, untimed]
  cases code c.machine with
  | error f => rfl
  | ok r => rfl

/-- Code that leaves `ticks` alone keeps the calls in step. -/
theorem InStep.untimed {code : Code Unit} (h : InStep c)
    (hcode : wp code Fault.any (fun _ m' => SameTicks c.machine m') c.machine) :
    wp (untimed code) Fault.any (fun _ c' => InStep c') c := by
  rw [wp_untimed]
  refine wp_mono hcode ?_
  intro _ m' hsame p call hcall
  have hin := h p call hcall
  exact ⟨hin.since, hsame.ticks.trans hin.ticks, hin.nonneg⟩

/-- Without calls in progress there is nothing to keep in step. -/
theorem wp_untimed_idle {code : Code Unit} (h : ∀ p, c.calls p = none) :
    wp (untimed code) Fault.any (fun _ c' => InStep c') c := by
  rw [wp_untimed]
  refine wp_mono (wp_any code) ?_
  intro _ m' _ p call hcall
  have hnone : c.calls p = some call := hcall
  rw [h p] at hnone
  cases hnone

/-- A tick moves the counter and the number of ticks together. -/
theorem InStep.tick (h : InStep c) : wp clockTick Fault.any (fun _ c' => InStep c') c := by
  unfold clockTick
  rw [wp_bind, wp_modify]
  refine InStep.untimed ?_ (ticks_wakeup ticksChan _)
  intro p call hcall
  have hin := h p call hcall
  have hsince := hin.since
  refine ⟨Nat.le_succ_of_le hin.since, ?_, hin.nonneg⟩
  show c.machine.ticks + 1 = call.ticks0 + BitVec.ofNat 32 (c.elapsed + 1 - call.since)
  rw [hin.ticks, Nat.succ_sub hsince, Nat.succ_eq_add_one, BitVec.ofNat_add, BitVec.add_assoc]
  rfl

/-- What `sys_sleep` may return: a call that sleeps its time out is given at least `n` ticks. -/
def Lasting (c : Timed) : Option (SleepCall × Int) → Prop
  | some (call, value) => value = 0 → (call.since : Int) + call.n.toInt ≤ c.elapsed
  | none => True

/-- The counter may have wrapped around, so that the difference it shows is too small. It is never
too large. -/
theorem SleepCall.InStep.lasting {call : SleepCall} (h : call.InStep c)
    (hticks : ¬ c.machine.ticks - call.ticks0 < call.n) :
    (call.since : Int) + call.n.toInt ≤ c.elapsed := by
  have hdiff : c.machine.ticks - call.ticks0 = BitVec.ofNat 32 (c.elapsed - call.since) := by
    rw [h.ticks, BitVec.add_comm, BitVec.add_sub_cancel]
  have hle : call.n.toNat ≤ c.elapsed - call.since := by
    rw [hdiff, BitVec.lt_def, BitVec.toNat_ofNat, not_lt] at hticks
    exact hticks.trans (Nat.mod_le _ _)
  have hint : call.n.toInt = call.n.toNat := by
    have hnonneg := h.nonneg
    rw [BitVec.toInt_eq_toNat_cond] at hnonneg ⊢
    have hlt := call.n.isLt
    split at hnonneg
    next hsmall => rw [if_pos hsmall]
    next => omega
  have hsince := h.since
  omega

/-- One round of the loop: the process sleeps on, or returns from a call that lasted. -/
theorem InStep.round {p : Slot} {call : SleepCall} (h : InStep c) (hcall : c.calls p = some call) :
    wp (sleepRound p call) Fault.any (fun r c' => Lasting c' r ∧ InStep c') c := by
  have hleave : InStep { c with calls := update c.calls p none } := by
    intro q other hother
    have hwas : update c.calls p none q = some other := hother
    by_cases hq : q = p
    · subst hq
      rw [update_self] at hwas
      cases hwas
    · rw [update_of_ne hq] at hwas
      have hin := h q other hwas
      exact ⟨hin.since, hin.ticks, hin.nonneg⟩
  unfold sleepRound
  rw [wp_bind, wp_get, wp_ite]
  constructor
  · intro _
    rw [wp_ite]
    constructor
    · intro _
      exact ⟨fun hzero => absurd hzero (by decide), hleave⟩
    · intro _
      exact wp_seq (h.untimed (ticks_sleep p ticksChan _)) fun _ _ hin => ⟨trivial, hin⟩
  · intro hticks
    exact ⟨fun _ => (h p call hcall).lasting hticks, hleave⟩

theorem InStep.call (h : InStep c) (p : Slot) (n : BitVec 32) :
    wp (sysSleep p n) Fault.any (fun r c' => Lasting c' r ∧ InStep c') c := by
  unfold sysSleep
  simp only [wp_bind, wp_get, wp_set]
  refine InStep.round ?_ (update_self ..)
  intro q call hcall
  have hwas : update c.calls p _ q = some call := hcall
  by_cases hq : q = p
  · subst hq
    rw [update_self] at hwas
    cases hwas
    refine ⟨le_refl _, by simp, ?_⟩
    show 0 ≤ (if n.toInt < 0 then 0 else n).toInt
    split
    next => decide
    next hneg => exact not_lt.mp hneg
  · rw [update_of_ne hq] at hwas
    have hin := h q call hwas
    exact ⟨hin.since, hin.ticks, hin.nonneg⟩

theorem InStep.kernel {e : Event} (h : InStep c) (hguard : Undisturbed c (.kernel e)) :
    wp (Xv6.Sched.untimed (step e)) Fault.any (fun _ c' => InStep c') c := by
  by_cases hfcfs : e = .fcfsmode
  · subst hfcfs
    cases hguard with
    | inl hmode => exact h.untimed (ticks_fcfsmode hmode)
    | inr hidle => exact wp_untimed_idle hidle
  by_cases hmlfq : e = .mlfqmode
  · subst hmlfq
    cases hguard with
    | inl hmode => exact h.untimed (ticks_mlfqmode hmode)
    | inr hidle => exact wp_untimed_idle hidle
  exact h.untimed (ticks_step e hfcfs hmlfq _)

theorem Timed.calls_of_current_call {p : Slot} {call : SleepCall}
    (h : c.currentCall = some (p, call)) : c.calls p = some call := by
  unfold Timed.currentCall at h
  cases hp : c.machine.current with
  | none =>
    rw [hp] at h
    cases h
  | some q =>
    rw [hp, Option.bind_some, Option.map_eq_some_iff] at h
    obtain ⟨other, hother, hpair⟩ := h
    cases hpair
    exact hother

theorem timed_step {e : TimedEvent} (h : InStep c) (hguard : Undisturbed c e) :
    wp (timedStep e) Fault.any (fun r c' => Lasting c' r ∧ InStep c') c := by
  cases e with
  | kernel e =>
    unfold timedStep
    rw [wp_bind, wp_get, wp_ite]
    constructor
    · intro _
      exact ⟨trivial, h⟩
    · intro _
      exact wp_seq (h.kernel hguard) fun _ _ hin => ⟨trivial, hin⟩
  | clockTick =>
    unfold timedStep
    exact wp_seq h.tick fun _ _ hin => ⟨trivial, hin⟩
  | sysSleep n =>
    unfold timedStep
    rw [wp_bind, wp_get]
    cases c.machine.current with
    | none => exact ⟨trivial, h⟩
    | some p =>
      refine (wp_ite _ _ _).mpr ⟨fun _ => ⟨trivial, h⟩, fun _ => ?_⟩
      exact h.call p n
  | resume =>
    unfold timedStep
    rw [wp_bind, wp_get]
    cases hcall : c.currentCall with
    | none => exact ⟨trivial, h⟩
    | some r => exact h.round (Timed.calls_of_current_call hcall)

/-- In every run in which no change of mode takes effect while a process is inside `sys_sleep`, a
call that returns 0 has been given as many ticks as it asked for. -/
theorem sleep_not_cut_short {e : TimedEvent} {call : SleepCall}
    (h : Reachable (· = timedBoot) Undisturbed timedStep c) (hguard : Undisturbed c e)
    (hreturns : timedStep e c = .ok (some (call, 0), c')) :
    (call.since : Int) + call.n.toInt ≤ c'.elapsed := by
  have hin : InStep c := by
    refine Reachable.induct (E := Fault.any) InStep (fun s hs => ?_) (fun s e hI hg => ?_) h
    · subst hs
      exact in_step_boot
    · exact wp_mono (timed_step hI hg) fun _ _ hafter => hafter.2
  have hafter := wp_ok (timed_step hin hguard) hreturns
  exact hafter.1 rfl

/-- A process that sleeps one tick alone gets it. -/
theorem sleep_not_cut_short_one :
    let events : List TimedEvent :=
      [.kernel (.userinit true), .kernel .select, .sysSleep 1, .clockTick, .kernel .select]
    let c := lastState Undisturbed timedStep events timedBoot
    valueOf (timedStep .resume) c = some (some (⟨1, 0, 0⟩, 0)) ∧
      (0 : Int) + (1 : BitVec 32).toInt ≤ (lastState unguarded timedStep [.resume] c).elapsed := by
  intro events c
  have hboot : Reachable (· = timedBoot) Undisturbed timedStep timedBoot := .start rfl
  have hvalue : valueOf (timedStep .resume) c = some (some (⟨1, 0, 0⟩, 0)) := by decide +kernel
  have hguard : Undisturbed c .resume := trivial
  have hlast := sleep_not_cut_short (hboot.last_state events) hguard (step_of_value_of hvalue)
  exact ⟨hvalue, hlast⟩

/-- The first process asks for three ticks when `ticks` is 2. The second one changes the mode, so
that `ticks` is 1 after the next tick, `ticks - ticks0` is the largest unsigned number, and the
call returns 0 after one tick. -/
theorem sleep_cut_short :
    let events : List TimedEvent :=
      [.kernel (.userinit true), .kernel .select, .kernel (.fork true true), .clockTick,
        .clockTick, .sysSleep 3, .kernel .select, .kernel .mlfqmode, .clockTick, .kernel .yield,
        .kernel .select]
    let c := lastState unguarded timedStep events timedBoot
    let c' := lastState unguarded timedStep [.resume] c
    Reachable (· = timedBoot) unguarded timedStep c ∧
      timedStep .resume c = .ok (some (⟨3, 2, 2⟩, 0), c') ∧
      ¬ (2 : Int) + (3 : BitVec 32).toInt ≤ c'.elapsed := by
  intro events c c'
  have hboot : Reachable (· = timedBoot) unguarded timedStep timedBoot := .start rfl
  have hvalue : valueOf (timedStep .resume) c = some (some (⟨3, 2, 2⟩, 0)) := by decide +kernel
  refine ⟨hboot.last_state events, step_of_value_of hvalue, ?_⟩
  have helapsed : c'.elapsed = 3 := by decide +kernel
  rw [helapsed]
  decide

end Xv6.Sched
