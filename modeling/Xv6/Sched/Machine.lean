import Xv6.Lib.Run
import Xv6.Lib.Word
import Xv6.Sched.Queue

/-!
# The scheduler kernel on one CPU

The process table, the FCFS and MLFQ run queues and the operations on them, after
`scheduler/kernel/my_proc.c` and `scheduler/kernel/proc.c`. Each operation that the kernel
performs between two points where the CPU can be given away is one event of `step`; spinlocks
are left out, since on one CPU a critical section is not interrupted. Memory, files and
registers do not appear: whether an allocation or a copy to user memory succeeds is a parameter
of the event.
-/

namespace Xv6.Sched

/-- Slots of the process table. -/
def NPROC : Nat := 64

/-- A slot of the process table, which is what a non-null `struct proc *` points to. -/
abbrev Slot := Fin NPROC

/-- A `struct proc *`. -/
abbrev Ptr := Option Slot

/-- `enum procstate`. -/
inductive ProcState where
  | unused | used | sleeping | runnable | running | zombie
  deriving DecidableEq, Repr

/-- A wait channel: the address of a process table slot, or any other kernel address. -/
inductive Chan where
  | proc (p : Slot)
  | address (a : Nat)
  deriving DecidableEq, Repr

/-- `schedule_mode`. -/
inductive Mode where
  | fcfs | mlfq
  deriving DecidableEq, Repr

/-- The fields of `struct proc` that the scheduler reads or writes. -/
structure Proc where
  state : ProcState := .unused
  chan : Option Chan := none
  killed : Bool := false
  pid : Int := 0
  level : Int := 0
  priority : Int := 0
  timeQuantum : Int := 0
  parent : Ptr := none

/-- The four queues: `&fcfs` and `mlfq + i`. -/
inductive QueueId where
  | fcfs
  | mlfq (level : Fin 3)
  deriving DecidableEq, Repr

/-- The state of the scheduler kernel. `current` is `c->proc` of the only CPU. The last two
fields are history that the code does not keep: every store into a queue gets the next number,
and `arrival p` is the number of the last store of `p`. -/
structure Machine where
  proc : Slot → Proc
  queue : QueueId → Queue Ptr
  mode : Mode
  current : Ptr
  initproc : Ptr
  nextpid : Int
  ticks : BitVec 32
  arrival : Ptr → Nat
  arrivals : Nat

/-- After `procinit` and `init_my_lock`: static storage is zero and the mode is FCFS. -/
def boot : Machine where
  proc := fun _ => {}
  queue := fun _ => { s := 0, e := 0, p := fun _ => none }
  mode := .fcfs
  current := none
  initproc := none
  nextpid := 1
  ticks := 0
  arrival := fun _ => 0
  arrivals := 0

/-- Number the store of `p` into a queue. -/
def Machine.arrive (m : Machine) (p : Ptr) : Machine :=
  { m with arrival := Function.update m.arrival p m.arrivals, arrivals := m.arrivals + 1 }

/-- Scheduler code. -/
abbrev Code (α : Type) := Kernel Machine α

/-- Assign to fields of a process table slot. -/
def setProc (p : Slot) (f : Proc → Proc) : Code Unit :=
  modify fun m => { m with proc := Function.update m.proc p (f (m.proc p)) }

/-- Assign to fields of a queue. -/
def setQueue (i : QueueId) (q : Queue Ptr) : Code Unit :=
  modify fun m => { m with queue := Function.update m.queue i q }

/-- Assign to `c->proc`. -/
def setCurrent (c : Ptr) : Code Unit := modify fun m => { m with current := c }

/-- Follow a process pointer. -/
def deref (p : Ptr) : Code Slot :=
  match p with
  | some p => pure p
  | none => fault .wild

/-- `mlfq + level`: one of the three queues, or a pointer past the array. -/
def mlfqAt (level : Int) : Code QueueId :=
  if level = 0 then pure (.mlfq 0)
  else if level = 1 then pure (.mlfq 1)
  else if level = 2 then pure (.mlfq 2)
  else fault .wild

/-! ## Enqueueing and selection (`my_proc.c`) -/

/-- The priority `L2_pop` reads through a queued pointer. -/
def priorityOf (m : Machine) (p : Ptr) : Int :=
  match p with
  | some p => (m.proc p).priority
  | none => 0

/-- `pop`. `L2_pop` reads every queued process, so a null entry is a wild access. -/
def pop (i : QueueId) : Code Ptr := do
  let m ← get
  let q := m.queue i
  if i = .mlfq 2 then
    if none ∈ q.linear then fault .wild
    else
      setQueue i (l2Pop (priorityOf m) none q).2
      pure (l2Pop (priorityOf m) none q).1
  else
    setQueue i (queuePop q).2
    pure (queuePop q).1

/-- Store at the end of queue `i`, which must lie inside the array. -/
def store (i : QueueId) (op : Queue Ptr → Ptr → Queue Ptr) (p : Ptr) : Code Unit := do
  let m ← get
  if (m.queue i).e < QNUM then
    setQueue i (op (m.queue i) p)
    modify fun m => m.arrive p
  else fault .wild

/-- `push`. -/
def push (i : QueueId) (p : Slot) : Code Unit :=
  if i = .mlfq 2 then store i l2Push (some p) else store i queuePush (some p)

/-- The accounting of `my_queueing`: the used quantum is charged and, when it is spent, the
process is demoted, or loses priority at the lowest level. -/
def charge (p : Proc) : Proc :=
  let p := { p with timeQuantum := p.timeQuantum - 1 }
  if p.timeQuantum = 0 then
    let p := if p.level ≠ 2 then { p with level := p.level + 1 }
      else if p.priority > 0 then { p with priority := p.priority - 1 } else p
    { p with timeQuantum := p.level * 2 + 1 }
  else p

/-- `my_queueing`. -/
def myQueueing (p : Slot) : Code Unit := do
  let m ← get
  if m.mode = .fcfs then push .fcfs p
  else
    setProc p charge
    let i ← mlfqAt (charge (m.proc p)).level
    push i p

/-- The fields a process gets when it enters the MLFQ. -/
def enter (p : Proc) : Proc := { p with level := 0, priority := 3, timeQuantum := 1 }

/-- `add_proc_to_queue`. -/
def addProcToQueue (p : Slot) : Code Unit := do
  let m ← get
  if m.mode = .fcfs then push .fcfs p
  else
    setProc p enter
    let i ← mlfqAt 0
    push i p

/-- The `while(!isEmpty(q))` loop of the two selection functions: entries are popped until one
is RUNNABLE. Every pop shortens the queue, so `QNUM` rounds are enough. -/
def selectFrom (i : QueueId) : Nat → Code Ptr
  | 0 => fault .hang
  | fuel + 1 => do
    let m ← get
    if isEmpty (m.queue i) then pure none
    else
      let t ← deref (← pop i)
      let m ← get
      if (m.proc t).state = .runnable then pure (some t) else selectFrom i fuel

/-- `select_with_fcfs`. -/
def selectWithFcfs : Code Ptr := selectFrom .fcfs QNUM

/-- `select_with_mlfq`. -/
def selectWithMlfq : Code Ptr := do
  match ← selectFrom (.mlfq 0) QNUM with
  | some t => pure (some t)
  | none =>
    match ← selectFrom (.mlfq 1) QNUM with
    | some t => pure (some t)
    | none => selectFrom (.mlfq 2) QNUM

/-- The choice `my_scheduler` makes under `schedule_lock`. -/
def select : Code Ptr := do
  let m ← get
  if m.mode = .fcfs then selectWithFcfs else selectWithMlfq

/-- One round of `my_scheduler` up to the `swtch` of `my_switching`. The process resumes inside
`sched`; if it had been asleep, its first act is `p->chan = 0`. -/
def dispatch : Code Ptr := do
  match ← select with
  | none => pure none
  | some p =>
    setProc p fun t => { t with state := .running, chan := none }
    setCurrent (some p)
    pure (some p)

/-! ## Mode switches and the boost (`my_proc.c`) -/

/-- Empty queue `i`: `q.s = q.e = 0`. -/
def reset (i : QueueId) : Code Unit :=
  modify fun m => { m with queue := Function.update m.queue i { m.queue i with s := 0, e := 0 } }

/-- The loop over the process table shared by `sys_fcfsmode` and `priority_boosting`: `f` is
applied to every slot and the RUNNABLE ones are appended to queue `i`. -/
def refill (i : QueueId) (f : Proc → Proc) : Code Unit :=
  forEach NPROC fun p => do
    setProc p f
    let m ← get
    if (m.proc p).state = .runnable then store i l2Push (some p) else pure ()

/-- `sys_fcfsmode`. -/
def sysFcfsmode : Code Int := do
  let m ← get
  if m.mode = .fcfs then pure (-1)
  else
    reset .fcfs
    refill .fcfs fun p => { p with timeQuantum := -1, level := -1, priority := -1 }
    modify fun m => { m with ticks := 0, mode := .fcfs }
    pure 0

/-- The loop of `sys_mlfqmode` over the FCFS ring from index `i`: RUNNABLE entries are appended
to `mlfq[0]`. The index wraps, so `QNUM` rounds reach the end from anywhere. -/
def refillFromRing (q : Queue Ptr) : Nat → Nat → Code Unit
  | 0, _ => fault .hang
  | fuel + 1, i =>
    if i = q.e then pure ()
    else do
      let p ← deref (q.p i)
      let m ← get
      if (m.proc p).state = .runnable then store (.mlfq 0) l2Push (some p) else pure ()
      refillFromRing q fuel ((i + 1) &&& QMOD)

/-- `sys_mlfqmode`. -/
def sysMlfqmode : Code Int := do
  let m ← get
  if m.mode = .mlfq then pure (-1)
  else
    reset (.mlfq 0)
    reset (.mlfq 1)
    reset (.mlfq 2)
    forEach NPROC fun p => setProc p enter
    refillFromRing (m.queue .fcfs) QNUM (m.queue .fcfs).s
    modify fun m => { m with mode := .mlfq, ticks := 0 }
    pure 0

/-- `priority_boosting`. -/
def priorityBoosting : Code Unit := do
  reset (.mlfq 0)
  reset (.mlfq 1)
  reset (.mlfq 2)
  refill (.mlfq 0) enter

/-! ## Process life cycle (`proc.c`) -/

/-- The first slot of the process table that satisfies `test`. -/
def findSlot (m : Machine) (test : Proc → Bool) : Ptr :=
  (List.finRange NPROC).find? fun p => test (m.proc p)

/-- `allocpid`. -/
def allocpid : Code Int := do
  let m ← get
  set { m with nextpid := wrap (m.nextpid + 1) }
  pure m.nextpid

/-- `freeproc`. The scheduling fields keep their values. -/
def freeproc (p : Slot) : Code Unit :=
  setProc p fun t =>
    { t with state := .unused, chan := none, killed := false, pid := 0, parent := none }

/-- `allocproc`; `memory` says whether the trapframe and the page table can be allocated. -/
def allocproc (memory : Bool) : Code Ptr := do
  let m ← get
  match findSlot m (·.state = .unused) with
  | none => pure none
  | some p =>
    let pid ← allocpid
    setProc p fun t => { t with pid := pid, state := .used }
    if memory then pure (some p)
    else
      freeproc p
      pure none

/-- `userinit`. Its `allocproc` is used without a check. -/
def userinit (memory : Bool) : Code Unit := do
  let p ← deref (← allocproc memory)
  modify fun m => { m with initproc := some p }
  setProc p fun t => { t with state := .runnable }
  addProcToQueue p

/-- `fork` by process `p`; `copied` says whether `uvmcopy` finds the memory it needs. -/
def fork (p : Slot) (memory copied : Bool) : Code Int := do
  match ← allocproc memory with
  | none => pure (-1)
  | some np =>
    if copied then
      let m ← get
      setProc np fun t => { t with parent := some p, state := .runnable }
      addProcToQueue np
      pure (m.proc np).pid
    else
      freeproc np
      pure (-1)

/-- `wakeup`. -/
def wakeup (chan : Chan) : Code Unit :=
  forEach NPROC fun p => do
    let m ← get
    if some p ≠ m.current ∧ (m.proc p).state = .sleeping ∧ (m.proc p).chan = some chan then
      setProc p fun t => { t with state := .runnable }
      addProcToQueue p
    else pure ()

/-- `yield` by process `p`, and `my_queueing` when `my_switching` has the CPU back. -/
def yield (p : Slot) : Code Unit := do
  setProc p fun t => { t with state := .runnable }
  setCurrent none
  myQueueing p

/-- `sleep` by process `p`, up to the switch to the scheduler. -/
def sleep (p : Slot) (chan : Chan) : Code Unit := do
  setProc p fun t => { t with chan := some chan, state := .sleeping }
  setCurrent none

/-- `kill`. -/
def kill (pid : Int) : Code Int := do
  let m ← get
  match findSlot m (·.pid = pid) with
  | none => pure (-1)
  | some p =>
    setProc p fun t => { t with killed := true }
    if (m.proc p).state = .sleeping then
      setProc p fun t => { t with state := .runnable }
      addProcToQueue p
    pure 0

/-- `wakeup` of a process pointer. It only compares the channel, and nobody sleeps on null. -/
def wakeupProc (p : Ptr) : Code Unit :=
  match p with
  | some p => wakeup (.proc p)
  | none => pure ()

/-- `reparent`. -/
def reparent (p : Slot) : Code Unit :=
  forEach NPROC fun pp => do
    let m ← get
    if (m.proc pp).parent = some p then
      setProc pp fun t => { t with parent := m.initproc }
      wakeupProc m.initproc
    else pure ()

/-- `exit` by process `p`, after its files are closed, up to the switch to the scheduler. -/
def exit (p : Slot) : Code Unit := do
  let m ← get
  if some p = m.initproc then kpanic "init exiting"
  else
    reparent p
    wakeupProc (m.proc p).parent
    setProc p fun t => { t with state := .zombie }
    setCurrent none

/-- One scan of `wait` by process `p`: a ZOMBIE child is freed, unless its status cannot be
copied out; with children but no ZOMBIE among them, `p` goes to sleep on itself. -/
def wait (p : Slot) (copied : Bool) : Code Int := do
  let m ← get
  match findSlot m fun t => t.parent = some p ∧ t.state = .zombie with
  | some pp =>
    if copied then
      freeproc pp
      pure (m.proc pp).pid
    else pure (-1)
  | none =>
    if findSlot m (·.parent = some p) = none ∨ (m.proc p).killed then pure (-1)
    else
      sleep p (.proc p)
      pure 0

/-- `sys_setpriority` by process `p`. -/
def sysSetpriority (p : Slot) (pid priority : Int) : Code Int := do
  if priority < 0 ∨ priority > 3 then pure (-2)
  else
    let m ← get
    if (m.proc p).pid = pid then
      setProc p fun t => { t with priority := priority }
      pure 0
    else
      match findSlot m (·.pid = pid) with
      | none => pure (-1)
      | some t =>
        setProc t fun t => { t with priority := priority }
        pure 0

/-! ## The system -/

/-- What can happen. The running process makes the system calls; `select` is the scheduler's
move when no process runs; `wakeup` may also come from an interrupt handler. -/
inductive Event where
  | userinit (memory : Bool)
  | select
  | fork (memory copied : Bool)
  | yield
  | sleep (chan : Chan)
  | wakeup (chan : Chan)
  | kill (pid : Int)
  | exit
  | wait (copied : Bool)
  | fcfsmode
  | mlfqmode
  | setpriority (pid priority : Int)
  | priorityBoosting

/-- A system call of the running process; nothing happens when no process runs. -/
def syscall (code : Slot → Code Unit) : Code Unit := do
  let m ← get
  match m.current with
  | none => pure ()
  | some p => code p

/-- One event. -/
def step : Event → Code Unit
  | .userinit memory => userinit memory
  | .select => do
    let m ← get
    if m.current = none then discard dispatch else pure ()
  | .fork memory copied => syscall fun p => discard (fork p memory copied)
  | .yield => syscall yield
  | .sleep chan => syscall fun p => sleep p chan
  | .wakeup chan => wakeup chan
  | .kill pid => syscall fun _ => discard (kill pid)
  | .exit => syscall exit
  | .wait copied => syscall fun p => discard (wait p copied)
  | .fcfsmode => syscall fun _ => discard sysFcfsmode
  | .mlfqmode => syscall fun _ => discard sysMlfqmode
  | .setpriority pid priority => syscall fun p => discard (sysSetpriority p pid priority)
  | .priorityBoosting => priorityBoosting

/-- The states of the runs from boot. -/
def Reached (m : Machine) : Prop := Reachable (· = boot) unguarded step m

end Xv6.Sched
