import Xv6.Lib.Run
import Xv6.Lib.Word

/-!
# The process table of the thread kernel

The life cycle of the process table slots: `clone`, `join`, `exec`, `fork`, `exit`, `wait`,
`kill`, `sleep`, `wakeup` and the scheduler, run by any number of CPUs. One event is one section
of code that another CPU cannot observe half done: a section under `p->lock`, or an unlocked
access of one slot. The loops over the table take one event for each slot, so the events of
several CPUs interleave inside them. `Pc` says where a kernel thread stands between two of its
sections, and `Pc.holdsWaitLock` that it holds `wait_lock` there.

Page tables, trapframes and open files are left to a flag that says whether the allocation or
copy of the section succeeds.
-/

namespace Xv6.Thread

open Function

/-- `NPROC`: the size of the process table. -/
def NPROC : Nat := 64

instance : NeZero NPROC := ⟨by decide⟩

/-- A slot of the process table. -/
abbrev Slot := Fin NPROC

/-- A `struct proc *`. -/
abbrev Ptr := Option Slot

/-- `enum procstate`. -/
inductive ProcState where
  | unused
  | used
  | sleeping
  | runnable
  | running
  | zombie
  deriving DecidableEq, Repr

/-- The address a process sleeps on: null, a process, or another kernel object. -/
inductive Chan where
  | null
  | proc (p : Slot)
  | other (address : Nat)
  deriving DecidableEq, Repr

/-- A process pointer used as a channel. -/
def Chan.ofPtr : Ptr → Chan
  | none => .null
  | some p => .proc p

/-- The fields of `struct proc` that the life cycle reads. -/
structure Proc where
  state : ProcState := .unused
  chan : Chan := .null
  killed : Bool := false
  pid : Int := 0
  parent : Ptr := none
  mainPid : Int := 0
  isThread : Bool := false
  mainThread : Ptr := none
  deriving DecidableEq, Repr

/-- Who called `cleanAllThreads`: `exit`, or `exec` with the main pid it saved. -/
inductive Cleaner where
  | exit
  | exec (mp : Int)
  deriving DecidableEq, Repr

/-- Where a kernel thread stands between two sections. -/
inductive Pc where
  /-- In user space, or in a part of a system call that touches no process table slot. -/
  | user
  /-- In `fork`, about to take `wait_lock` to set the parent of `np`. -/
  | forkLock (np : Slot) (pid : Int)
  /-- In `fork`, about to take `np->lock` to make `np` RUNNABLE. -/
  | forkPublish (np : Slot) (pid : Int)
  /-- In `cleanAllThreads(p)`, about to take `wait_lock`. -/
  | cleanLock (p : Slot) (caller : Cleaner)
  /-- In the loop of `cleanAllThreads(p)`, about to test slot `i`. -/
  | clean (p : Slot) (i : Nat) (caller : Cleaner)
  /-- In the loop of `cleanAllThreads(p)`, about to lock and free slot `i`. -/
  | cleanFree (p : Slot) (i : Slot) (caller : Cleaner)
  /-- In `exec`, after its `cleanAllThreads(mt)`. -/
  | execTail (mt : Slot) (mp : Int)
  /-- In `exit`, closing files; about to take `wait_lock`. -/
  | exitClose
  /-- In the loop of `reparent` called by `exit`, at slot `i`. -/
  | exitReparent (i : Nat)
  /-- In `exit`, about to become a ZOMBIE. -/
  | exitZombie
  /-- In the loop of `wakeup(chan)`, at slot `i`; then on to `next`. -/
  | waking (chan : Chan) (i : Nat) (next : Pc)
  /-- In `wait`, about to take `wait_lock`. -/
  | waitLock
  /-- In the loop of `wait`, at slot `i`. -/
  | waitScan (i : Nat) (havekids : Bool)
  /-- In `paull04_join`, about to take `wait_lock`. -/
  | joinLock
  /-- In the loop of `paull04_join`, at slot `i`. -/
  | joinScan (i : Nat) (havekids : Bool)
  /-- In `paull04_join`, after a failed `copyout` released both locks. -/
  | joinUnlocked (np : Slot)
  /-- In `paull04_join`, about to release `np->lock` a second time. -/
  | joinRelease
  /-- In the loop of `kill(pid)`, at slot `i`. -/
  | killScan (pid : Int) (i : Nat)
  /-- In `kill`, about to lock the main thread `p`. -/
  | killMain (p : Slot)
  deriving DecidableEq, Repr

/-- The points at which a kernel thread holds `wait_lock`. -/
def Pc.holdsWaitLock : Pc → Bool
  | .clean .. | .cleanFree .. | .exitReparent _ | .exitZombie | .waitScan .. | .joinScan .. => true
  | .waking _ _ next => next.holdsWaitLock
  | _ => false

/-- One assignment of UNUSED to `p->state`: the slot as it was, whether it was the current
process of a CPU, the sleep-locks it held, whether it was counted in `log.outstanding`, and
whether the slot is given back because its allocation failed. -/
structure Release where
  slot : Slot
  was : Proc
  onCpu : Bool
  sleepLocks : Nat
  inOp : Bool
  failedAllocation : Bool
  deriving DecidableEq, Repr

/-- The state of the kernel with `n` CPUs. `cpu c` is `c->proc`, `waitLock` the holder of
`wait_lock`; `released` collects every assignment of UNUSED made so far. -/
structure Machine (n : Nat) where
  proc : Slot → Proc
  cpu : Fin n → Ptr
  pc : Slot → Pc
  sleepLocks : Slot → Nat
  inOp : Slot → Bool
  waitLock : Ptr
  initproc : Ptr
  nextpid : Int
  released : List Release

variable {n : Nat}

/-- After `procinit`. -/
def boot (n : Nat) : Machine n where
  proc := fun _ => {}
  cpu := fun _ => none
  pc := fun _ => .user
  sleepLocks := fun _ => 0
  inOp := fun _ => false
  waitLock := none
  initproc := none
  nextpid := 1
  released := []

/-- Code of the thread kernel. -/
abbrev Code (n : Nat) (α : Type) := Kernel (Machine n) α

/-- Assign to fields of a slot. -/
def setProc (p : Slot) (f : Proc → Proc) : Code n Unit :=
  modify fun m => { m with proc := update m.proc p (f (m.proc p)) }

/-- Move the kernel thread of a slot. -/
def setPc (p : Slot) (pc : Pc) : Code n Unit :=
  modify fun m => { m with pc := update m.pc p pc }

/-- Assign to `c->proc`. -/
def setCpu (c : Fin n) (p : Ptr) : Code n Unit :=
  modify fun m => { m with cpu := update m.cpu c p }

/-- Follow a process pointer. -/
def deref (p : Ptr) : Code n Slot :=
  match p with
  | some p => pure p
  | none => fault .wild

/-- `acquire(&wait_lock)` by `p`, which then stands at `next`; it spins while the lock is held. -/
def acquireWaitLock (p : Slot) (next : Pc) : Code n Unit := do
  let m ← get
  if m.waitLock = none then
    set { m with waitLock := some p, pc := update m.pc p next }
  else pure ()

/-- `release(&wait_lock)` by `p`, which then stands at `next`. -/
def releaseWaitLock (p : Slot) (next : Pc) : Code n Unit :=
  modify fun m => { m with waitLock := none, pc := update m.pc p next }

/-- The entry of `released` for slot `p`. -/
def releaseOf (m : Machine n) (p : Slot) (failedAllocation : Bool) : Release where
  slot := p
  was := m.proc p
  onCpu := decide (∃ c, m.cpu c = some p)
  sleepLocks := m.sleepLocks p
  inOp := m.inOp p
  failedAllocation := failedAllocation

/-- Give slot `p` back with the fields `f` leaves, which include the state UNUSED. -/
def release (p : Slot) (failedAllocation : Bool) (f : Proc → Proc) : Code n Unit :=
  modify fun m => { m with
    proc := update m.proc p { f (m.proc p) with state := .unused }
    released := releaseOf m p failedAllocation :: m.released }

/-! ## Allocation and release of slots -/

/-- `allocpid`. -/
def allocpid : Code n Int := do
  let m ← get
  set { m with nextpid := wrap (m.nextpid + 1) }
  pure m.nextpid

/-- The fields that `freeproc` and `freethread` clear. -/
def cleared (_ : Proc) : Proc := {}

/-- `freeproc`. -/
def freeproc (p : Slot) (failedAllocation : Bool) : Code n Unit :=
  release p failedAllocation cleared

/-- The new kernel thread of slot `p` starts at `forkret` and holds nothing. -/
def initContext (p : Slot) : Code n Unit :=
  modify fun m => { m with
    pc := update m.pc p .user
    sleepLocks := update m.sleepLocks p 0
    inOp := update m.inOp p false }

/-- `allocproc` once its scan has locked the UNUSED slot `p`. The scan locks one slot at a time,
so this is any slot that is UNUSED when it is locked. -/
def allocproc (p : Slot) (memory : Bool) : Code n Bool := do
  let pid ← allocpid
  setProc p fun t => { t with pid := pid, state := .used }
  if memory then
    initContext p
    pure true
  else
    freeproc p true
    pure false

/-- `allocthread` once its scan has locked the UNUSED slot `p`. When there is no memory it only
sets the state back. -/
def allocthread (p : Slot) (memory : Bool) : Code n Bool := do
  let pid ← allocpid
  setProc p fun t => { t with pid := pid, state := .used, killed := false }
  if memory then
    initContext p
    pure true
  else
    release p true id
    pure false

/-- One iteration of the loop of `wakeup(chan)`, run for the current process `self`. -/
def wakeupSlot (self : Ptr) (chan : Chan) (p : Slot) : Code n Unit := do
  let m ← get
  if some p ≠ self ∧ (m.proc p).state = .sleeping ∧ (m.proc p).chan = chan then
    setProc p fun t => { t with state := .runnable }
  else pure ()

/-- `reparent(p)` as `freethread` calls it for the current process `self`. With `p->lock` held,
the `wakeup` for a first child takes that lock a second time. -/
def reparentFreed (self : Slot) (p : Slot) (locked : Bool) : Code n Unit := do
  let m ← get
  if ∃ q, (m.proc q).parent = some p then
    if locked then kpanic "acquire"
    else
      forEach NPROC fun q => do
        let m ← get
        if (m.proc q).parent = some p then
          setProc q fun t => { t with parent := m.initproc }
        else pure ()
      forEach NPROC (wakeupSlot (some self) (.ofPtr m.initproc))
  else pure ()

/-- `freethread(p)`, called by the current process `self`. -/
def freethread (self : Slot) (p : Slot) (locked : Bool) : Code n Unit := do
  reparentFreed self p locked
  release p false cleared

/-! ## System calls up to the end of their first section -/

/-- `userinit`. -/
def userinit (np : Ptr) (memory : Bool) : Code n Unit := do
  let p ← deref np
  let m ← get
  if (m.proc p).state = .unused then
    let allocated ← allocproc p memory
    if allocated then
      modify fun m => { m with initproc := some p }
      setProc p fun t => { t with
        state := .runnable, isThread := false, mainPid := t.pid, mainThread := some p }
    else fault .wild
  else pure ()

/-- `fork` by `p`, up to the release of `np->lock`. -/
def fork (p : Slot) (np : Ptr) (memory copied : Bool) : Code n Unit := do
  match np with
  | none => pure ()
  | some np =>
    let m ← get
    if (m.proc np).state = .unused then
      let allocated ← allocproc np memory
      if allocated then
        if copied then
          let m ← get
          setPc p (.forkLock np (m.proc np).pid)
        else freeproc np true
      else pure ()
    else pure ()

/-- `paull04_clone` by `p`. The lock of the new slot is held all through. -/
def clone (p : Slot) (np : Ptr) (memory mapped : Bool) : Code n Unit := do
  match np with
  | none => pure ()
  | some np =>
    let m ← get
    if (m.proc np).state = .unused then
      let allocated ← allocthread np memory
      if allocated then
        let main ← deref (m.proc p).mainThread
        if mapped then
          setProc np fun t => { t with
            state := .runnable, mainPid := (m.proc p).mainPid, mainThread := some main,
            isThread := true, parent := some main }
        else kpanic "paull04_clone: mappages failed"
      else pure ()
    else pure ()

/-- `exec` by `p`, from the point where it commits to the new image up to its call of
`cleanAllThreads`. -/
def exec (p : Slot) : Code n Unit := do
  let m ← get
  let mt ← deref (m.proc p).mainThread
  setProc p fun t => { t with mainPid := t.pid, mainThread := some p, isThread := false }
  setPc p (.cleanLock mt (.exec (m.proc p).mainPid))

/-- `exit` by `p`, up to its call of `cleanAllThreads`. -/
def exit (p : Slot) : Code n Unit := do
  let m ← get
  if m.initproc = some p then kpanic "init exiting"
  else if (m.proc p).isThread then setPc p .exitClose
  else setPc p (.cleanLock p .exit)

/-! ## The later sections -/

/-- Give up CPU `c` with the fields `f` leaves: `sched`, and the scheduler's `c->proc = 0`. -/
def sched (c : Fin n) (p : Slot) (f : Proc → Proc) : Code n Unit := do
  setProc p f
  setCpu c none

/-- The second section of `fork`: `np->parent = p` under `wait_lock`. -/
def forkParent (p np : Slot) (pid : Int) : Code n Unit := do
  let m ← get
  if m.waitLock = none then
    setProc np fun t => { t with parent := some p }
    setPc p (.forkPublish np pid)
  else pure ()

/-- The last section of `fork`. -/
def forkPublish (p np : Slot) (pid : Int) : Code n Unit := do
  setProc np fun t => { t with
    state := .runnable, isThread := false, mainPid := pid, mainThread := some np }
  setPc p .user

/-- One test in the loop of `cleanAllThreads(t)`, or its end. -/
def clean (p t : Slot) (i : Nat) (caller : Cleaner) : Code n Unit := do
  let m ← get
  if h : i < NPROC then
    let np : Slot := ⟨i, h⟩
    if (m.proc np).mainPid = (m.proc t).pid ∧ (m.proc np).isThread then
      setPc p (.cleanFree t np caller)
    else setPc p (.clean t (i + 1) caller)
  else
    match caller with
    | .exit => releaseWaitLock p .exitClose
    | .exec mp => releaseWaitLock p (.execTail t mp)

/-- The locked part of an iteration of `cleanAllThreads(t)`. -/
def cleanFree (p t np : Slot) (caller : Cleaner) : Code n Unit := do
  freethread p np true
  setPc p (.clean t (np + 1) caller)

/-- The end of `exec`: another main thread is told to exit. -/
def execTail (p mt : Slot) (mp : Int) : Code n Unit := do
  let m ← get
  if (m.proc p).pid = mp then setPc p .user
  else
    setProc mt fun t => { t with killed := true }
    setPc p .user

/-- `exit` takes `wait_lock` once its files are closed and its transaction has ended. -/
def exitClose (p : Slot) : Code n Unit := do
  let m ← get
  if m.sleepLocks p = 0 ∧ m.inOp p = false then acquireWaitLock p (.exitReparent 0)
  else pure ()

/-- One iteration of `reparent` in `exit`, or the `wakeup(p->parent)` after it. -/
def exitReparent (p : Slot) (i : Nat) : Code n Unit := do
  let m ← get
  if h : i < NPROC then
    let pp : Slot := ⟨i, h⟩
    if (m.proc pp).parent = some p then
      setProc pp fun t => { t with parent := m.initproc }
      setPc p (.waking (.ofPtr m.initproc) 0 (.exitReparent (i + 1)))
    else setPc p (.exitReparent (i + 1))
  else setPc p (.waking (.ofPtr (m.proc p).parent) 0 .exitZombie)

/-- The last section of `exit`. -/
def exitZombie (c : Fin n) (p : Slot) : Code n Unit := do
  releaseWaitLock p .user
  sched c p fun t => { t with state := .zombie }

/-- One iteration of `wakeup(chan)`, or its end. -/
def waking (p : Slot) (chan : Chan) (i : Nat) (next : Pc) : Code n Unit := do
  if h : i < NPROC then
    wakeupSlot (some p) chan ⟨i, h⟩
    setPc p (.waking chan (i + 1) next)
  else setPc p next

/-- The end of a scan that found nothing to reap: return, or `sleep(p, &wait_lock)`. -/
def scanEnd (c : Fin n) (p : Slot) (havekids : Bool) (again : Pc) : Code n Unit := do
  let m ← get
  if !havekids || (m.proc p).killed then releaseWaitLock p .user
  else
    releaseWaitLock p again
    sched c p fun t => { t with state := .sleeping, chan := .proc p }

/-- One iteration of the scan of `wait`. -/
def waitScan (c : Fin n) (p : Slot) (i : Nat) (havekids copied : Bool) : Code n Unit := do
  let m ← get
  if h : i < NPROC then
    let pp : Slot := ⟨i, h⟩
    if (m.proc pp).parent = some p ∧ (m.proc pp).isThread = false then
      if (m.proc pp).state = .zombie then
        if copied then
          freeproc pp false
          releaseWaitLock p .user
        else releaseWaitLock p .user
      else setPc p (.waitScan (i + 1) true)
    else setPc p (.waitScan (i + 1) havekids)
  else scanEnd c p havekids .waitLock

/-- One iteration of the scan of `paull04_join`. When `copyout` fails, both locks are released
and the code runs on. -/
def joinScan (c : Fin n) (p : Slot) (i : Nat) (havekids copied : Bool) : Code n Unit := do
  let m ← get
  if h : i < NPROC then
    let np : Slot := ⟨i, h⟩
    if (m.proc np).mainPid = (m.proc p).mainPid ∧ (m.proc np).isThread then
      if (m.proc np).state = .zombie then
        if copied then
          freethread p np true
          releaseWaitLock p .user
        else releaseWaitLock p (.joinUnlocked np)
      else setPc p (.joinScan (i + 1) true)
    else setPc p (.joinScan (i + 1) havekids)
  else scanEnd c p havekids .joinLock

/-- What `paull04_join` does after a failed `copyout`. -/
def joinUnlocked (p np : Slot) : Code n Unit := do
  freethread p np false
  setPc p .joinRelease

/-- One iteration of the scan of `kill(pid)`. -/
def killScan (p : Slot) (pid : Int) (i : Nat) : Code n Unit := do
  let m ← get
  if h : i < NPROC then
    let q : Slot := ⟨i, h⟩
    if (m.proc q).pid = pid then
      let main ← deref (m.proc q).mainThread
      setPc p (.killMain main)
    else setPc p (.killScan pid (i + 1))
  else setPc p .user

/-- The section of `kill` under the lock of the main thread. -/
def killMain (p main : Slot) : Code n Unit := do
  setProc main fun t => { t with
    killed := true, state := if t.state = .sleeping then .runnable else t.state }
  setPc p .user

/-- The next section of the kernel thread of `p`, the current process of CPU `c`. `ok` says
whether the `copyout` of the section succeeds. -/
def advance (c : Fin n) (p : Slot) (ok : Bool) : Pc → Code n Unit
  | .user => pure ()
  | .forkLock np pid => forkParent p np pid
  | .forkPublish np pid => forkPublish p np pid
  | .cleanLock t caller => acquireWaitLock p (.clean t 0 caller)
  | .clean t i caller => clean p t i caller
  | .cleanFree t np caller => cleanFree p t np caller
  | .execTail mt mp => execTail p mt mp
  | .exitClose => exitClose p
  | .exitReparent i => exitReparent p i
  | .exitZombie => exitZombie c p
  | .waking chan i next => waking p chan i next
  | .waitLock => acquireWaitLock p (.waitScan 0 false)
  | .waitScan i havekids => waitScan c p i havekids ok
  | .joinLock => acquireWaitLock p (.joinScan 0 false)
  | .joinScan i havekids => joinScan c p i havekids ok
  | .joinUnlocked np => joinUnlocked p np
  | .joinRelease => kpanic "release"
  | .killScan pid i => killScan p pid i
  | .killMain main => killMain p main

/-! ## The system -/

/-- The system calls of the life cycle, each with the outcome of its scan for an UNUSED slot
and of its allocations. -/
inductive Syscall where
  | fork (np : Ptr) (memory copied : Bool)
  | clone (np : Ptr) (memory mapped : Bool)
  | exec
  | exit
  | kill (pid : Int)
  | join
  | wait

/-- Enter a system call. -/
def enter (p : Slot) : Syscall → Code n Unit
  | .fork np memory copied => fork p np memory copied
  | .clone np memory mapped => clone p np memory mapped
  | .exec => exec p
  | .exit => exit p
  | .kill pid => setPc p (.killScan pid 0)
  | .join => setPc p .joinLock
  | .wait => setPc p .waitLock

/-- What can happen on CPU `c`. -/
inductive Event (n : Nat) where
  | userinit (np : Ptr) (memory : Bool)
  | schedule (c : Fin n) (p : Slot)
  | call (c : Fin n) (s : Syscall)
  | advance (c : Fin n) (ok : Bool)
  | yield (c : Fin n)
  | sleep (c : Fin n) (chan : Chan)
  | wakeup (c : Fin n) (chan : Chan) (p : Slot)
  | acquiresleep (c : Fin n)
  | releasesleep (c : Fin n)
  | beginOp (c : Fin n)
  | endOp (c : Fin n)

/-- Code of the current process of CPU `c`. -/
def current (c : Fin n) (code : Machine n → Slot → Code n Unit) : Code n Unit := do
  let m ← get
  match m.cpu c with
  | none => pure ()
  | some p => code m p

/-- The points at which a kernel thread may be inside the file system. -/
def Pc.mayUseFiles : Pc → Bool
  | .user | .exitClose => true
  | _ => false

/-- A step of the current process of CPU `c` inside the file system. -/
def inFiles (c : Fin n) (code : Slot → Code n Unit) : Code n Unit :=
  current c fun m p => if (m.pc p).mayUseFiles then code p else pure ()

/-- One event. -/
def step : Event n → Code n Unit
  | .userinit np memory => userinit np memory
  | .schedule c p => do
    let m ← get
    if m.cpu c = none ∧ (m.proc p).state = .runnable then
      -- a process that slept clears `p->chan` before it releases `p->lock`
      setProc p fun t => { t with state := .running, chan := .null }
      setCpu c (some p)
    else pure ()
  | .call c s =>
    current c fun m p =>
      if m.pc p = .user ∧ m.sleepLocks p = 0 ∧ m.inOp p = false then enter p s else pure ()
  | .advance c ok => current c fun m p => advance c p ok (m.pc p)
  | .yield c =>
    -- no timer interrupt while a spin-lock is held
    current c fun m p =>
      if (m.pc p).holdsWaitLock then pure () else sched c p fun t => { t with state := .runnable }
  | .sleep c chan =>
    inFiles c fun p => sched c p fun t => { t with state := .sleeping, chan := chan }
  | .wakeup c chan p => do
    let m ← get
    wakeupSlot (m.cpu c) chan p
  | .acquiresleep c =>
    inFiles c fun p =>
      modify fun m => { m with sleepLocks := update m.sleepLocks p (m.sleepLocks p + 1) }
  | .releasesleep c =>
    inFiles c fun p =>
      modify fun m => { m with sleepLocks := update m.sleepLocks p (m.sleepLocks p - 1) }
  | .beginOp c =>
    inFiles c fun p => modify fun m => { m with inOp := update m.inOp p true }
  | .endOp c =>
    inFiles c fun p => modify fun m => { m with inOp := update m.inOp p false }

end Xv6.Thread
