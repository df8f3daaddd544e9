import Xv6.Sched.Exactness

/-!
# Spinlocks on one CPU and the clock interrupt

`scheduler/kernel/spinlock.c` as one CPU sees it, and `clockintr` of `scheduler/kernel/trap.c`
with every lock it takes. `acquire` waits while another CPU holds the lock, which changes nothing
on this one, and panics when this CPU holds it already; so the state is the set of locks this
CPU holds, with the bookkeeping of `push_off` and `pop_off`. Read `wp_clockintr` first: a tick
either leaves the locks as they were or stops in `acquire`, and which of the two happens is
decided by whether a process sleeps on `&ticks`.
-/

namespace Xv6.Sched

open Function

/-- The spinlocks of the scheduler. -/
inductive Lock where
  | schedule
  | ticks
  | boost
  | queue (i : QueueId)
  | proc (p : Slot)
  deriving DecidableEq

/-- One CPU and the memory it works on. `held l` is `l->locked && l->cpu == mycpu()`, `intr` is
the interrupt enable bit, and `boost` is the variable `priority_boost`. -/
structure Cpu where
  machine : Machine
  boost : Bool
  held : Lock → Bool
  noff : Nat
  intena : Bool
  intr : Bool

/-- Code with locks. -/
abbrev CpuCode (α : Type) := Kernel Cpu α

/-! ## Spinlocks (`spinlock.c`) -/

/-- `push_off`. -/
def pushOff : CpuCode Unit :=
  modify fun c =>
    { c with intr := false, intena := if c.noff = 0 then c.intr else c.intena, noff := c.noff + 1 }

/-- `pop_off`. -/
def popOff : CpuCode Unit := do
  let c ← get
  if c.intr then kpanic "pop_off - interruptible"
  else if c.noff < 1 then kpanic "pop_off"
  else set { c with noff := c.noff - 1, intr := c.noff - 1 = 0 ∧ c.intena }

/-- `acquire`. -/
def acquire (l : Lock) : CpuCode Unit := do
  pushOff
  let c ← get
  if c.held l then kpanic "acquire"
  else set { c with held := update c.held l true }

/-- `release`. -/
def release (l : Lock) : CpuCode Unit := do
  let c ← get
  if c.held l then
    set { c with held := update c.held l false }
    popOff
  else kpanic "release"

/-- `myproc`. -/
def myproc : CpuCode Ptr := do
  pushOff
  let c ← get
  popOff
  pure c.machine.current

/-- Code that takes no lock. -/
def unlocked (code : Code Unit) : CpuCode Unit := fun c =>
  match code c.machine with
  | .ok (_, m) => .ok ((), { c with machine := m })
  | .error f => .error f

/-! ## The clock interrupt (`trap.c`, `proc.c`, `my_proc.c`) -/

/-- `push` with its lock. -/
def lockedPush (i : QueueId) (p : Slot) : CpuCode Unit := do
  acquire (.queue i)
  unlocked (push i p)
  release (.queue i)

/-- `add_proc_to_queue` with its locks. -/
def lockedAddProcToQueue (p : Slot) : CpuCode Unit := do
  acquire .schedule
  let c ← get
  if c.machine.mode = .fcfs then lockedPush .fcfs p
  else
    unlocked (setProc p enter)
    lockedPush (.mlfq 0) p
  release .schedule

/-- `wakeup` with its locks. -/
def lockedWakeup (chan : Chan) : CpuCode Unit :=
  forEach NPROC fun p => do
    let me ← myproc
    if some p ≠ me then
      acquire (.proc p)
      let c ← get
      if (c.machine.proc p).state = .sleeping ∧ (c.machine.proc p).chan = some chan then
        unlocked (setProc p fun t => { t with state := .runnable })
        lockedAddProcToQueue p
      release (.proc p)

/-- `clockintr` on the CPU numbered `cpuid`; `ticksAt` is the address of `ticks`. -/
def clockintr (cpuid ticksAt : Nat) : CpuCode Unit := do
  if cpuid = 0 then
    acquire .ticks
    acquire .schedule
    modify fun c => { c with machine := { c.machine with ticks := c.machine.ticks + 1 } }
    let c ← get
    if c.machine.ticks.toNat % 50 = 0 ∧ c.machine.mode = .mlfq then
      acquire .boost
      modify fun c => { c with boost := true }
      release .boost
    lockedWakeup (.address ticksAt)
    release .schedule
    release .ticks

/-- A CPU as an interrupt finds it: interrupts are off whenever a lock is held, so it holds none,
and the hardware has turned interrupts off. -/
structure Interrupted (c : Cpu) : Prop where
  held : ∀ l, c.held l = false
  noff : c.noff = 0
  intr : c.intr = false

/-- Process `p` waits for the clock. -/
def SleepsOn (m : Machine) (chan : Chan) (p : Slot) : Prop :=
  some p ≠ m.current ∧ (m.proc p).state = .sleeping ∧ (m.proc p).chan = some chan

instance (m : Machine) (chan : Chan) (p : Slot) : Decidable (SleepsOn m chan p) := by
  unfold SleepsOn
  infer_instance

/-! ## What the lock operations do -/

section Locks

variable {E : Fault → Prop} {c : Cpu} {l : Lock}

/-- The CPU after it has taken `l`. -/
def Cpu.take (c : Cpu) (l : Lock) : Cpu :=
  { c with
    held := update c.held l true, noff := c.noff + 1, intr := false,
    intena := if c.noff = 0 then c.intr else c.intena }

/-- The CPU after it has given `l` back. -/
def Cpu.drop (c : Cpu) (l : Lock) : Cpu :=
  { c with
    held := update c.held l false, noff := c.noff - 1,
    intr := c.noff - 1 = 0 ∧ c.intena }

theorem wp_acquire {Q : Unit → Cpu → Prop} (h : c.held l = false) (hQ : Q () (c.take l)) :
    wp (acquire l) E Q c := by
  simpa [acquire, pushOff, h, Cpu.take] using hQ

theorem wp_acquire_held {Q : Unit → Cpu → Prop} (h : c.held l = true)
    (hE : E (.panic "acquire")) : wp (acquire l) E Q c := by
  simpa [acquire, pushOff, h] using hE

theorem wp_release {Q : Unit → Cpu → Prop} (h : c.held l = true) (hnoff : 0 < c.noff)
    (hintr : c.intr = false) (hQ : Q () (c.drop l)) : wp (release l) E Q c := by
  simp only [release, popOff, wp_bind, wp_get, wp_ite, wp_set, wp_kpanic, h, hintr, forall_const,
    not_true, false_implies, and_true, Bool.false_eq_true, not_false_eq_true, true_and]
  exact ⟨fun hlt => by omega, fun _ => hQ⟩

@[simp] theorem wp_unlocked {code : Code Unit} {Q : Unit → Cpu → Prop} :
    wp (unlocked code) E Q c ↔ wp code E (fun _ m => Q () { c with machine := m }) c.machine := by
  unfold wp unlocked
  cases code c.machine with
  | error f => rfl
  | ok r => rfl

/-- With a lock held, taking and giving back another one changes nothing. -/
theorem take_drop (h : c.held l = false) (hnoff : 0 < c.noff) (hintr : c.intr = false) :
    (c.take l).drop l = c := by
  obtain ⟨m, boost, held, noff, intena, intr⟩ := c
  simp only at h hnoff hintr
  subst hintr
  simp only [Cpu.take, Cpu.drop, update_idem, Nat.add_sub_cancel, Cpu.mk.injEq, true_and]
  refine ⟨?_, ?_, by simp; omega⟩
  · rw [← h, update_eq_self]
  · rw [if_neg (by omega)]

theorem wp_myproc {Q : Ptr → Cpu → Prop} (hnoff : 0 < c.noff) (hintr : c.intr = false)
    (hQ : Q c.machine.current c) : wp myproc E Q c := by
  obtain ⟨m, boost, held, noff, intena, intr⟩ := c
  simp only at hnoff hintr
  subst hintr
  have hne : noff ≠ 0 := by omega
  simpa [myproc, pushOff, popOff, hne] using hQ

end Locks

/-! ## The tick -/

section Tick

variable {c : Cpu}

/-- `wakeup` by a CPU that holds `schedule_lock` but no process lock: it runs into its own
`schedule_lock` exactly when it finds a process to wake. -/
theorem wp_locked_wakeup {chan : Chan} (hschedule : c.held .schedule = true)
    (hproc : ∀ p, c.held (.proc p) = false) (hnoff : 0 < c.noff) (hintr : c.intr = false) :
    wp (lockedWakeup chan)
      (fun f => f = .panic "acquire" ∧ ∃ p, SleepsOn c.machine chan p)
      (fun _ c' => c' = c ∧ ∀ p, ¬ SleepsOn c.machine chan p) c := by
  have hloop := wp_for_each
    (E := fun f => f = .panic "acquire" ∧ ∃ p, SleepsOn c.machine chan p)
    (fun k c' => c' = c ∧ ∀ p : Slot, (p : Nat) < k → ¬ SleepsOn c.machine chan p) (s := c)
    (n := NPROC)
    (f := fun p => do
      let me ← myproc
      if some p ≠ me then
        acquire (.proc p)
        let c ← get
        if (c.machine.proc p).state = .sleeping ∧ (c.machine.proc p).chan = some chan then
          unlocked (setProc p fun t => { t with state := .runnable })
          lockedAddProcToQueue p
        release (.proc p)) ?_ ⟨rfl, by simp⟩
  · refine wp_mono hloop ?_
    rintro _ c' ⟨rfl, hquiet⟩
    exact ⟨rfl, fun p => hquiet p p.isLt⟩
  · rintro k c1 ⟨rfl, hquiet⟩
    have hnext (hk : ¬ SleepsOn c1.machine chan k) (p : Slot) (hp : (p : Nat) < k + 1) :
        ¬ SleepsOn c1.machine chan p := by
      rcases Nat.lt_succ_iff_lt_or_eq.mp hp with hlt | heq
      · exact hquiet p hlt
      · rwa [Fin.ext heq]
    rw [wp_bind]
    refine wp_myproc hnoff hintr ?_
    simp only [wp_ite, wp_bind, wp_pure]
    refine ⟨fun hother => ?_, fun hme => ⟨trivial, hnext fun hsleep => hme hsleep.1⟩⟩
    refine wp_acquire (hproc k) ?_
    simp only [wp_get]
    refine ⟨fun hsleep => ?_, fun hawake => ?_⟩
    · -- the process is woken under its lock, and `add_proc_to_queue` asks for `schedule_lock`
      simp only [wp_unlocked, wp_set_proc, lockedAddProcToQueue, wp_bind]
      refine wp_acquire_held ?_ ⟨rfl, k, hother, hsleep⟩
      simpa [Cpu.take] using hschedule
    · refine wp_release (by simp [Cpu.take]) (by simp [Cpu.take]) rfl ?_
      rw [take_drop (hproc k) hnoff hintr]
      exact ⟨rfl, hnext fun hsleep => hawake hsleep.2⟩

/-- CPU `c'` has been interrupted as `c` and is inside `clockintr`. -/
structure InTick (c c' : Cpu) : Prop where
  held : c'.held = update (update c.held .ticks true) .schedule true
  noff : c'.noff = 2
  intena : c'.intena = false
  intr : c'.intr = false
  proc : c'.machine.proc = c.machine.proc
  current : c'.machine.current = c.machine.current

theorem InTick.sleeps_on {c' : Cpu} (h : InTick c c') (chan : Chan) (p : Slot) :
    SleepsOn c'.machine chan p ↔ SleepsOn c.machine chan p := by
  rw [SleepsOn, SleepsOn, h.proc, h.current]

/-- Where a tick may stop. -/
def Stops (c : Cpu) (ticksAt : Nat) (f : Fault) : Prop :=
  f = .panic "acquire" ∧ ∃ p, SleepsOn c.machine (.address ticksAt) p

/-- What holds when a tick has returned. -/
def Returned (c : Cpu) (ticksAt : Nat) (c' : Cpu) : Prop :=
  c'.held = c.held ∧ c'.noff = c.noff ∧ c'.intr = c.intr ∧
    ∀ p, ¬ SleepsOn c.machine (.address ticksAt) p

/-- The wakeup of a tick and the releases that follow it. -/
theorem wp_end_of_tick {c' : Cpu} {ticksAt : Nat} (h : Interrupted c) (hin : InTick c c') :
    wp (lockedWakeup (.address ticksAt)) (Stops c ticksAt)
      (fun _ c1 => wp (release .schedule) (Stops c ticksAt)
        (fun _ c2 => wp (release .ticks) (Stops c ticksAt) (fun _ => Returned c ticksAt) c2) c1)
      c' := by
  have hsleeps (p : Slot) := hin.sleeps_on (.address ticksAt) p
  have hwake : wp (lockedWakeup (.address ticksAt)) (Stops c ticksAt)
      (fun _ c1 => c1 = c' ∧ ∀ p, ¬ SleepsOn c.machine (.address ticksAt) p) c' := by
    unfold Stops
    simp only [← hsleeps]
    exact wp_locked_wakeup (by simp [hin.held]) (fun p => by simp [hin.held, h.held])
      (by rw [hin.noff]; decide) hin.intr
  refine wp_mono hwake ?_
  rintro _ c1 ⟨rfl, hquiet⟩
  refine wp_release (by simp [hin.held]) (by rw [hin.noff]; decide) hin.intr ?_
  refine wp_release (by simp [Cpu.drop, hin.held]) (by simp [Cpu.drop, hin.noff])
    (by simp [Cpu.drop, hin.noff]) ?_
  refine ⟨?_, ?_, ?_, hquiet⟩
  · have hschedule : c.held .schedule = false := h.held _
    have hticks : c.held .ticks = false := h.held _
    funext l
    simp only [Cpu.drop, hin.held, update_apply]
    split_ifs with h1 h2
    · rw [h1, hticks]
    · rw [h2, hschedule]
    · rfl
  · simp [Cpu.drop, hin.noff, h.noff]
  · simp [Cpu.drop, hin.intena, h.intr]

/-- A tick on CPU 0 stops in `acquire` exactly when a process sleeps on `&ticks`; otherwise it
ends with the locks it began with. -/
theorem wp_clockintr {ticksAt : Nat} (h : Interrupted c) :
    wp (clockintr 0 ticksAt) (Stops c ticksAt) (fun _ => Returned c ticksAt) c := by
  have hlocked : InTick c ((c.take .ticks).take .schedule) :=
    ⟨rfl, by simp [Cpu.take, h.noff], by simp [Cpu.take, h.noff, h.intr], rfl, rfl, rfl⟩
  simp only [clockintr, if_true, wp_bind]
  refine wp_acquire (h.held _) ?_
  refine wp_acquire (by simpa [Cpu.take] using h.held _) ?_
  simp only [wp_modify, wp_get, wp_ite, wp_bind]
  refine ⟨fun _ => ?_, fun _ => ?_⟩
  · refine wp_acquire (by simpa [Cpu.take] using h.held _) ?_
    refine wp_release (by simp [Cpu.take]) (by simp [Cpu.take]) rfl ?_
    refine wp_end_of_tick h ⟨?_, ?_, ?_, ?_, rfl, rfl⟩
    · simp only [Cpu.take, Cpu.drop, update_idem, update_eq_self_iff]
      simp [h.held]
    · simp [Cpu.take, Cpu.drop, h.noff]
    · simp [Cpu.take, Cpu.drop, h.noff, h.intr]
    · simp [Cpu.take, Cpu.drop]
  · exact wp_end_of_tick h ⟨hlocked.held, hlocked.noff, hlocked.intena, hlocked.intr, rfl, rfl⟩

/-- A clock tick and its own locks. On CPU 0, whatever the process table, the mode and the tick
count are, `clockintr` returns with exactly the locks it was entered with if and only if no
process other than the interrupted one is SLEEPING on `&ticks`. -/
theorem tick_keeps_locks_iff (c : Cpu) (ticksAt : Nat) (h : Interrupted c) :
    (∃ c', clockintr 0 ticksAt c = .ok ((), c') ∧ c'.held = c.held) ↔
      ∀ p, ¬ SleepsOn c.machine (.address ticksAt) p := by
  have htick : wp (clockintr 0 ticksAt) (Stops c ticksAt) (fun _ => Returned c ticksAt) c :=
    wp_clockintr h
  constructor
  · rintro ⟨c', hrun, _⟩
    exact (wp_ok htick hrun).2.2.2
  · intro hquiet
    have hreturns : wp (clockintr 0 ticksAt) Fault.never (fun _ => Returned c ticksAt) c := by
      refine wp_mono_fault htick ?_
      rintro f ⟨_, p, hp⟩
      exact hquiet p hp
    obtain ⟨⟨⟩, c', hrun, hpost⟩ := wp_returns hreturns
    exact ⟨c', hrun, hpost.1⟩

end Tick

/-- CPU 0 interrupted in state `m`. -/
def interruptedIn (m : Machine) : Cpu where
  machine := m
  boost := false
  held := fun _ => false
  noff := 0
  intena := true
  intr := false

theorem interrupted_in (m : Machine) : Interrupted (interruptedIn m) := ⟨fun _ => rfl, rfl, rfl⟩

/-- The first process has just been started, and the clock ticks. -/
theorem tick_keeps_locks_iff_started :
    let m := lastState unguarded step [.userinit true, .select] boot
    Reached m ∧ (∀ p, ¬ SleepsOn m (.address 1024) p) ∧
      ∃ c', clockintr 0 1024 (interruptedIn m) = .ok ((), c') ∧
        c'.held = (interruptedIn m).held := by
  intro m
  have hboot : Reached boot := .start rfl
  have hquiet : ∀ p, ¬ SleepsOn m (.address 1024) p := by decide +kernel
  exact ⟨hboot.last_state _, hquiet,
    (tick_keeps_locks_iff (interruptedIn m) 1024 (interrupted_in m)).mpr hquiet⟩

/-- A process calls `sleep`, which waits on `&ticks`, and the clock ticks on the idle CPU: the
wakeup asks for `schedule_lock`, which `clockintr` has taken. -/
theorem tick_takes_schedule_lock_twice :
    let m := lastState unguarded step [.userinit true, .select, .sleep (.address 1024)] boot
    Reached m ∧ Interrupted (interruptedIn m) ∧
      clockintr 0 1024 (interruptedIn m) = .error (.panic "acquire") := by
  intro m
  have hboot : Reached boot := .start rfl
  exact ⟨hboot.last_state _, interrupted_in m, fault_of_eq (by decide +kernel)⟩

end Xv6.Sched
