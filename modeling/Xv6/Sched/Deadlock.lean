import Xv6.Lib.Locks
import Xv6.Lib.Run
import Xv6.Sched.Tick

/-!
# The scheduler's locks on several CPUs

Which locks the scheduler's functions take, and in which order, after
`scheduler/kernel/my_proc.c`, `proc.c` and `trap.c`. Each function is the sequence of its
`acquire` and `release` calls; what it reads under the locks (which processes sleep, what the
queues hold, the mode) only decides between such sequences, so it is a parameter, and every
outcome is allowed at every moment. The clock may interrupt a CPU wherever it holds no lock.

No one order suits all functions, but three orders suit all but a few pairs. Selection and the mode
switches take `schedule_lock` first and process locks last, with `tickslock` after `schedule_lock`;
`clockintr` takes `tickslock` before it; and whoever enqueues a process takes `schedule_lock` while
it holds the lock of the process. `Op.Keeps` says which functions go with which order.
-/

namespace Xv6.Sched

open Function

open Locks (Action Cpus locked Ascends Keeps Deadlocked SpinsOn)

deriving instance Fintype for QueueId
deriving instance Fintype for Lock

/-- A sequence of lock operations. -/
abbrev Path := List (Action Lock)

/-- The lock of every process in `ps`, one at a time. -/
def visit (ps : List Slot) : Path := ps.flatMap fun p => locked (.proc p) []

/-- The whole process table. -/
def table : List Slot := List.finRange NPROC

/-! ## Enqueueing and selection (`my_proc.c`) -/

/-- `my_queueing` and `add_proc_to_queue`: `push` onto queue `i` under `schedule_lock`. -/
def enqueuePath (i : QueueId) : Path := locked .schedule (locked (.queue i) [])

/-- The lock of process `p`, and `p` put into a queue under it, if there is one to put it in. -/
def enqueueProc (p : Slot) (queue : Option QueueId) : Path :=
  locked (.proc p) (match queue with | none => [] | some i => enqueuePath i)

/-- One `pop`: the process it returns and, at level 2, the processes `L2_pop` looks at. -/
structure Pop where
  proc : Slot
  scanned : List Slot

/-- `pop` of queue `i`. -/
def popPath (i : QueueId) (t : Pop) : Path :=
  locked (.queue i) (if i = .mlfq 2 then visit t.scanned else [])

/-- What the selection loop meets in one queue: entries that are not RUNNABLE, and then a
process to run or the end of the queue. -/
structure Search where
  rejected : List Pop
  taken : Option Pop

/-- The selection loop on queue `i`. It returns with the lock of the process it takes. -/
def searchPath (i : QueueId) (r : Search) : Path :=
  r.rejected.flatMap (fun t => locked (.queue i) [] ++ popPath i t ++ locked (.proc t.proc) []) ++
    locked (.queue i) [] ++
    match r.taken with
    | none => []
    | some t => popPath i t ++ [.acquire (.proc t.proc)]

/-- What a selection meets, in each mode. -/
inductive Pick where
  | fcfs (r : Search)
  | mlfq (r : Fin 3 → Search)

/-- `select_with_fcfs` and `select_with_mlfq`: the locks taken, and the process returned. -/
def pickPath : Pick → Path × Option Slot
  | .fcfs r => (searchPath .fcfs r, r.taken.map Pop.proc)
  | .mlfq r =>
    match (r 0).taken with
    | some t => (searchPath (.mlfq 0) (r 0), some t.proc)
    | none =>
      match (r 1).taken with
      | some t => (searchPath (.mlfq 0) (r 0) ++ searchPath (.mlfq 1) (r 1), some t.proc)
      | none =>
        (searchPath (.mlfq 0) (r 0) ++ searchPath (.mlfq 1) (r 1) ++
          searchPath (.mlfq 2) (r 2), (r 2).taken.map Pop.proc)

/-- One round of `my_scheduler`. The chosen process, which has been switched to, gives back its
own lock. -/
def mySchedulerPath (pick : Pick) : Path :=
  .acquire .schedule :: (pickPath pick).1 ++ .release .schedule ::
    match (pickPath pick).2 with
    | none => []
    | some t => [.release (.proc t)]

/-- The three MLFQ locks around `code`. -/
def mlfqLocked (code : Path) : Path :=
  locked (.queue (.mlfq 0)) (locked (.queue (.mlfq 1)) (locked (.queue (.mlfq 2)) code))

/-- `priority_boosting`. -/
def priorityBoostingPath : Path := mlfqLocked (visit table)

/-- `yield` by process `p` and the second half of `my_switching`, which enqueues `p` if it is
still RUNNABLE and performs the boost if one is due. -/
def yieldPath (p : Slot) (requeued : Option QueueId) (boost : Bool) : Path :=
  enqueueProc p requeued ++ locked .boost (if boost then priorityBoostingPath else [])

/-! ## Mode switches (`my_proc.c`) -/

/-- `sys_fcfsmode` by process `now`. -/
def sysFcfsmodePath (now : Slot) (refused : Bool) : Path :=
  locked .schedule <|
    if refused then [] else locked .ticks (locked (.queue .fcfs) (visit (table.filter (· ≠ now))))

/-- `sys_mlfqmode`. `schedule_lock` is given back before `tickslock`. -/
def sysMlfqmodePath (refused : Bool) : Path :=
  if refused then locked .schedule []
  else
    [.acquire .schedule, .acquire .ticks] ++ locked (.queue .fcfs) (mlfqLocked (visit table)) ++
      [.release .schedule, .release .ticks]

/-! ## Processes and the clock (`proc.c`, `trap.c`) -/

/-- How a `fork` ends. -/
inductive ForkEnd where
  | full
  | failed (np : Slot)
  | forked (np : Slot) (i : QueueId)

/-- The slots before `p`, in table order. -/
def slotsBefore (p : Slot) : List Slot := table.filter (· < p)

/-- `fork`. -/
def forkPath : ForkEnd → Path
  | .full => visit table
  | .failed np => visit (slotsBefore np) ++ locked (.proc np) []
  | .forked np i =>
    visit (slotsBefore np) ++ locked (.proc np) [] ++ enqueueProc np (some i)

/-- `wakeup` on a CPU that runs `me`; `woken` gives the queue of each process it wakes. -/
def wakeupPath (me : Ptr) (woken : Slot → Option QueueId) : Path :=
  (table.filter (some · ≠ me)).flatMap fun p => enqueueProc p (woken p)

/-- `kill`: the process it finds, if any, and the queue it puts it in if it slept. -/
def killPath : Option (Slot × Option QueueId) → Path
  | none => visit table
  | some (p, woken) => visit (slotsBefore p) ++ enqueueProc p woken

/-- `clockintr`, whose locks are all taken on CPU 0. -/
def clockintrPath (cpuid : Nat) (boost : Bool) (me : Ptr) (woken : Slot → Option QueueId) : Path :=
  if cpuid = 0 then
    locked .ticks <| locked .schedule <|
      (if boost then locked .boost [] else []) ++ wakeupPath me woken
  else []

/-! ## The CPUs -/

/-- What a CPU can enter. -/
inductive Op where
  | mySchedulerRound (pick : Pick)
  | yield (p : Slot) (requeued : Option QueueId) (boost : Bool)
  | fork (how : ForkEnd)
  | wakeup (me : Ptr) (woken : Slot → Option QueueId)
  | kill (found : Option (Slot × Option QueueId))
  | fcfsmode (now : Slot) (refused : Bool)
  | mlfqmode (refused : Bool)
  | clockintr (boost : Bool) (me : Ptr) (woken : Slot → Option QueueId)

/-- The lock operations of `op` on the CPU numbered `cpuid`. -/
def Op.path (cpuid : Nat) : Op → Path
  | .mySchedulerRound pick => mySchedulerPath pick
  | .yield p requeued boost => yieldPath p requeued boost
  | .fork how => forkPath how
  | .wakeup me woken => wakeupPath me woken
  | .kill found => killPath found
  | .fcfsmode now refused => sysFcfsmodePath now refused
  | .mlfqmode refused => sysMlfqmodePath refused
  | .clockintr boost me woken => clockintrPath cpuid boost me woken

/-- The clock may interrupt another function. -/
def Op.interrupts : Op → Bool
  | .clockintr .. => true
  | _ => false

/-- What can happen on `n` CPUs. -/
inductive CpuEvent (n : Nat) where
  | enter (c : Fin n) (op : Op)
  | advance (c : Fin n)

/-- The CPUs, with the functions that each of them has entered since it was last outside all. -/
structure Parallel (n : Nat) where
  cpus : Cpus n Lock
  inside : Fin n → List Op

/-- All CPUs are outside. -/
def Parallel.idle (n : Nat) : Parallel n := ⟨Locks.idle, fun _ => []⟩

/-- CPU `c` enters `op`. -/
def Parallel.enter {n : Nat} (s : Parallel n) (c : Fin n) (op : Op) : Parallel n where
  cpus := Locks.enter c (op.path c) s.cpus
  inside := update s.inside c (if s.cpus.todo c = [] then [op] else op :: s.inside c)

/-- One event. A CPU enters a function when it has finished the last one, or is interrupted, and
holds no lock. -/
def cpuStep (n : Nat) : CpuEvent n → Kernel (Parallel n) Unit
  | .enter c op => modify fun s =>
    if s.cpus.stopped c = false ∧ (s.cpus.todo c = [] ∨ op.interrupts) ∧
      ∀ l, s.cpus.holder l ≠ some c then s.enter c op
    else s
  | .advance c => modify fun s => { s with cpus := Locks.advance c s.cpus }

/-! ## The orders -/

/-- An order of the locks. -/
inductive LockOrder where
  /-- `schedule_lock`, `tickslock`, the queues, the processes: for a change of the mode. -/
  | switching
  /-- `tickslock`, `schedule_lock`, the queues, the processes: for the clock. -/
  | ticking
  /-- A process, `schedule_lock`, a queue: for those that enqueue. -/
  | enqueueing
  deriving DecidableEq

/-- The place of a lock in the order. -/
def LockOrder.rank (o : LockOrder) : Lock → Nat
  | .schedule => 1
  | .ticks => if o = .ticking then 0 else 2
  | .queue .fcfs => 3
  | .boost => 4
  | .queue (.mlfq i) => 5 + i
  | .proc _ => if o = .enqueueing then 0 else 8

/-- Whether `op` goes with the order on the CPU numbered `cpuid`, by what it is: selection with
both orders that have processes last, a change of the mode and a tick with one of them, a function
that enqueues with the third. The boost goes with the first two, and what neither enqueues nor
boosts with all. -/
def Op.Keeps (cpuid : Nat) (o : LockOrder) : Op → Prop
  | .mySchedulerRound _ => o ≠ .enqueueing
  | .yield _ requeued boost =>
    (requeued ≠ none → o = .enqueueing) ∧ (boost = true → o ≠ .enqueueing)
  | .fork how => ∀ np i, how = .forked np i → o = .enqueueing
  | .wakeup _ woken => ∀ p, woken p ≠ none → o = .enqueueing
  | .kill found => ∀ p i, found = some (p, some i) → o = .enqueueing
  | .fcfsmode _ refused => refused = false → o = .switching
  | .mlfqmode refused => refused = false → o = .switching
  | .clockintr .. => cpuid = 0 → o = .ticking

/-- A CPU enters a function only when no other CPU is inside one, or when there is an order that
suits it and all functions that the CPUs are inside. -/
def Orderly (n : Nat) (s : Parallel n) : CpuEvent n → Prop
  | .enter c op => (∀ d, d ≠ c → s.cpus.todo d = []) ∨
    ∃ o, op.Keeps c o ∧ ∀ d, s.cpus.todo d ≠ [] → ∀ op' ∈ s.inside d, op'.Keeps d o
  | .advance _ => True

/-! ## What each function takes -/

section Order

variable {o : LockOrder} {held : Lock → Bool} {i : QueueId}

/-- Every held lock comes before those of rank `r` and above. -/
def Below (o : LockOrder) (held : Lock → Bool) (r : Nat) : Prop :=
  ∀ l, held l = true → o.rank l < r

theorem below_none {r : Nat} : Below o (fun _ => false) r := fun _ h => absurd h (by simp)

theorem Below.take {r : Nat} {l : Lock} (h : Below o held (o.rank l)) (hl : o.rank l < r) :
    Below o (update held l true) r := by
  intro k hk
  rw [update_apply] at hk
  split at hk
  next hkl => rw [hkl]; exact hl
  next => exact (h k hk).trans hl

theorem Below.mono {r r' : Nat} (h : Below o held r) (hle : r ≤ r') : Below o held r' :=
  fun l hl => (h l hl).trans_le hle

theorem keeps_section {l : Lock} {code : Path} (h : Below o held (o.rank l))
    (hcode : Below o (update held l true) (o.rank l + 1) →
      Keeps o.rank (update held l true) code) :
    Keeps o.rank held (locked l code) :=
  Locks.keeps_locked h (hcode (h.take (Nat.lt_succ_self _)))

theorem keeps_empty {l : Lock} (h : Below o held (o.rank l)) :
    Keeps o.rank held (locked l []) := keeps_section h fun _ => Locks.keeps_nil

theorem proc_rank (ho : o ≠ .enqueueing) (p : Slot) : o.rank (.proc p) = 8 := if_neg ho

theorem queue_rank (o : LockOrder) (i : QueueId) :
    3 ≤ o.rank (.queue i) ∧ o.rank (.queue i) < 8 := by
  cases i with
  | fcfs => exact ⟨le_rfl, by show 3 < 8; decide⟩
  | mlfq i =>
    have := i.isLt
    show 3 ≤ 5 + (i : Nat) ∧ 5 + (i : Nat) < 8
    omega

/-- A pass over the process table by a CPU that holds nothing. -/
theorem keeps_visit_free (ps : List Slot) : Keeps o.rank (fun _ => false) (visit ps) :=
  Locks.keeps_flat_map fun _ _ => keeps_empty below_none

section

variable (ho : o ≠ .enqueueing)

include ho

/-- A pass over the process table by a CPU that holds other locks. -/
theorem keeps_visit (h : Below o held 8) (ps : List Slot) :
    Keeps o.rank held (visit ps) :=
  Locks.keeps_flat_map fun p _ => keeps_empty (by rwa [proc_rank ho p])

theorem keeps_pop (h : Below o held (o.rank (.queue i))) (t : Pop) :
    Keeps o.rank held (popPath i t) := by
  refine keeps_section h fun hq => ?_
  split
  · exact keeps_visit ho (hq.mono (queue_rank o i).2) _
  · exact Locks.keeps_nil

/-- The search of one queue under `schedule_lock` alone: in order up to the lock of the process
it takes. -/
theorem ascends_search {r : Search} {rest : Path}
    (h : Below o held (o.rank (.queue i))) (hnone : r.taken = none → Ascends o.rank held rest)
    (hsome : ∀ t, r.taken = some t → Ascends o.rank (update held (.proc t.proc) true) rest) :
    Ascends o.rank held (searchPath i r ++ rest) := by
  have hbelow : ∀ p, Below o held (o.rank (.proc p)) := by
    intro p
    rw [proc_rank ho]
    exact h.mono (queue_rank o i).2.le
  have hrejected : Keeps o.rank held (r.rejected.flatMap fun t =>
      locked (.queue i) [] ++ popPath i t ++ locked (.proc t.proc) []) :=
    Locks.keeps_flat_map fun t _ =>
      ((keeps_empty h).append (keeps_pop ho h t)).append (keeps_empty (hbelow t.proc))
  rw [searchPath, List.append_assoc]
  refine (hrejected.append (keeps_empty h)) _ ?_
  cases htaken : r.taken with
  | none => exact hnone htaken
  | some t =>
    rw [List.append_assoc]
    exact keeps_pop ho h t _ (Or.inr ⟨hbelow t.proc, hsome t htaken⟩)

theorem ascends_my_scheduler (pick : Pick) :
    Ascends o.rank (fun _ => false) (mySchedulerPath pick) := by
  have hschedule {i : QueueId} :
      Below o (update (fun _ => false) .schedule true) (o.rank (.queue i)) :=
    Below.take below_none ((by decide : 1 < 3).trans_le (queue_rank o i).1)
  refine Or.inr ⟨below_none, ?_⟩
  show Ascends o.rank _ ((pickPath pick).1 ++ .release .schedule :: _)
  cases pick with
  | fcfs r =>
    refine ascends_search ho hschedule ?_ ?_
    · intro hnone
      simp [pickPath, hnone, Ascends]
    · intro t hsome
      simp [pickPath, hsome, Ascends]
  | mlfq r =>
    cases h0 : (r 0).taken with
    | some t =>
      simp only [pickPath, h0]
      refine ascends_search ho hschedule ?_ ?_
      · simp [h0]
      · simp [Ascends]
    | none =>
      cases h1 : (r 1).taken with
      | some t =>
        simp only [pickPath, h0, h1, List.append_assoc]
        refine ascends_search ho hschedule (fun _ => ?_) (by simp [h0])
        refine ascends_search ho hschedule ?_ ?_
        · simp [h1]
        · simp [Ascends]
      | none =>
        simp only [pickPath, h0, h1, List.append_assoc]
        refine ascends_search ho hschedule (fun _ => ?_) (by simp [h0])
        refine ascends_search ho hschedule (fun _ => ?_) (by simp [h1])
        refine ascends_search ho hschedule ?_ ?_
        · intro hnone
          simp [hnone, Ascends]
        · intro t hsome
          simp [hsome, Ascends]

/-- The three MLFQ locks and then the processes: the boost, and the last part of `sys_mlfqmode`. -/
theorem keeps_mlfq_visit (h : Below o held 5) (ps : List Slot) :
    Keeps o.rank held (mlfqLocked (visit ps)) :=
  keeps_section h fun h0 => keeps_section h0 fun h1 => keeps_section h1 fun h2 =>
    keeps_visit ho h2 ps

end

theorem keeps_enqueue (h : Below o held 1) (i : QueueId) : Keeps o.rank held (enqueuePath i) :=
  keeps_section h fun hschedule =>
    keeps_empty (hschedule.mono ((by decide : 2 ≤ 3).trans (queue_rank o i).1))

theorem keeps_enqueue_proc {p : Slot} {queue : Option QueueId}
    (h : queue ≠ none → o = .enqueueing) :
    Keeps o.rank (fun _ => false) (enqueueProc p queue) := by
  cases queue with
  | none => exact keeps_empty below_none
  | some i =>
    obtain rfl := h (by simp)
    exact keeps_section below_none fun hp => keeps_enqueue hp i

theorem keeps_yield {p : Slot} {requeued : Option QueueId} {boost : Bool}
    (hrequeued : requeued ≠ none → o = .enqueueing) (hboost : boost = true → o ≠ .enqueueing) :
    Keeps o.rank (fun _ => false) (yieldPath p requeued boost) := by
  refine (keeps_enqueue_proc hrequeued).append (keeps_section below_none fun hlock => ?_)
  cases boost with
  | false => exact Locks.keeps_nil
  | true => exact keeps_mlfq_visit (hboost rfl) hlock table

theorem keeps_fork {how : ForkEnd} (h : ∀ np i, how = .forked np i → o = .enqueueing) :
    Keeps o.rank (fun _ => false) (forkPath how) := by
  cases how with
  | full => exact keeps_visit_free _
  | failed np => exact (keeps_visit_free _).append (keeps_empty below_none)
  | forked np i =>
    exact ((keeps_visit_free _).append (keeps_empty below_none)).append
      (keeps_enqueue_proc fun _ => h np i rfl)

theorem keeps_wakeup {me : Ptr} {woken : Slot → Option QueueId}
    (h : ∀ p, woken p ≠ none → o = .enqueueing) :
    Keeps o.rank (fun _ => false) (wakeupPath me woken) :=
  Locks.keeps_flat_map fun p _ => keeps_enqueue_proc (h p)

theorem keeps_kill {found : Option (Slot × Option QueueId)}
    (h : ∀ p i, found = some (p, some i) → o = .enqueueing) :
    Keeps o.rank (fun _ => false) (killPath found) := by
  cases found with
  | none => exact keeps_visit_free _
  | some found =>
    obtain ⟨p, woken⟩ := found
    refine (keeps_visit_free _).append (keeps_enqueue_proc fun hwoken => ?_)
    obtain ⟨i, rfl⟩ := Option.ne_none_iff_exists'.mp hwoken
    exact h p i rfl

theorem keeps_sys_fcfsmode {now : Slot} {refused : Bool}
    (h : refused = false → o = .switching) :
    Keeps o.rank (fun _ => false) (sysFcfsmodePath now refused) := by
  refine keeps_section below_none fun hschedule => ?_
  cases refused with
  | true => exact Locks.keeps_nil
  | false =>
    obtain rfl := h rfl
    refine keeps_section hschedule fun hticks => keeps_section hticks fun hfcfs => ?_
    exact keeps_visit (by decide) (hfcfs.mono (by decide)) _

theorem ascends_sys_mlfqmode {refused : Bool} (h : refused = false → o = .switching) :
    Ascends o.rank (fun _ => false) (sysMlfqmodePath refused) := by
  unfold sysMlfqmodePath
  cases refused with
  | true => exact (keeps_empty below_none).ascends
  | false =>
    obtain rfl := h rfl
    have hschedule : Below .switching (update (fun _ => false) .schedule true) 2 :=
      below_none.take (by decide)
    have hticks :
        Below .switching (update (update (fun _ => false) .schedule true) .ticks true) 3 :=
      hschedule.take (by decide)
    refine Or.inr ⟨below_none, Or.inr ⟨hschedule, ?_⟩⟩
    refine (keeps_section hticks fun hfcfs => ?_) _ trivial
    exact keeps_mlfq_visit (by decide) (hfcfs.mono (by decide)) table

/-- A tick that wakes a process stops at the second `acquire` of `schedule_lock`. -/
theorem keeps_clockintr {cpuid : Nat} {boost : Bool} {me : Ptr} {woken : Slot → Option QueueId}
    (h : cpuid = 0 → o = .ticking) :
    Keeps o.rank (fun _ => false) (clockintrPath cpuid boost me woken) := by
  unfold clockintrPath
  split
  next hcpu =>
    obtain rfl := h hcpu
    refine keeps_section below_none fun hticks => keeps_section hticks fun hschedule => ?_
    refine Keeps.append ?_ (Locks.keeps_flat_map fun p _ => ?_)
    · cases boost with
      | false => exact Locks.keeps_nil
      | true => exact keeps_empty (hschedule.mono (by decide))
    · refine keeps_section (hschedule.mono (by show 2 ≤ 8; decide)) fun _ => ?_
      cases woken p with
      | none => exact Locks.keeps_nil
      | some i => exact Locks.keeps_held rfl
  next => exact Locks.keeps_nil

theorem Op.Keeps.ascends {cpuid : Nat} {op : Op} (h : op.Keeps cpuid o) :
    Ascends o.rank (fun _ => false) (op.path cpuid) := by
  cases op with
  | mySchedulerRound pick => exact ascends_my_scheduler h pick
  | yield => exact (keeps_yield h.1 h.2).ascends
  | fork => exact (keeps_fork h).ascends
  | wakeup => exact (keeps_wakeup h).ascends
  | kill => exact (keeps_kill h).ascends
  | fcfsmode => exact (keeps_sys_fcfsmode h).ascends
  | mlfqmode => exact ascends_sys_mlfqmode h
  | clockintr => exact (keeps_clockintr h).ascends

end Order

/-! ## Deadlock -/

/-- What every run keeps: a CPU takes its locks in every order that suits the functions it is
inside; and one order suits all CPUs, or all but one are outside. -/
structure Ordered {n : Nat} (s : Parallel n) : Prop where
  cpu : ∀ c o, (∀ op ∈ s.inside c, op.Keeps c o) → Locks.InOrder o.rank s.cpus c
  common : (∃ o, ∀ c, s.cpus.todo c ≠ [] → ∀ op ∈ s.inside c, op.Keeps c o) ∨
    ∃ c, ∀ d, d ≠ c → s.cpus.todo d = []

variable {n : Nat} {s : Parallel n} {c : Fin n}

theorem Ordered.not_deadlocked (h : Ordered s) : ¬ Deadlocked s.cpus := by
  rcases h.common with ⟨o, ho⟩ | ⟨c, halone⟩
  · refine Locks.not_deadlocked (show ∀ c, Locks.InOrder o.rank s.cpus c from fun c => ?_)
    by_cases hbusy : s.cpus.todo c = []
    · exact Locks.in_order_idle hbusy
    · exact h.cpu c o (ho c hbusy)
  · exact Locks.not_deadlocked_alone halone

theorem Ordered.advance (h : Ordered s) (c : Fin n) :
    Ordered { s with cpus := Locks.advance c s.cpus } where
  cpu d o ho := (h.cpu d o ho).advance c
  common := by
    rcases h.common with ⟨o, ho⟩ | ⟨a, halone⟩
    · refine Or.inl ⟨o, fun d hbusy => ho d fun hidle => ?_⟩
      exact hbusy (Locks.advance_todo_nil hidle c)
    · exact Or.inr ⟨a, fun d hd => Locks.advance_todo_nil (halone d hd) c⟩

theorem Ordered.enter {op : Op} (h : Ordered s) (hguard : Orderly n s (.enter c op))
    (hturn : s.cpus.todo c = [] ∨ op.interrupts = true) (hfree : ∀ l, s.cpus.holder l ≠ some c) :
    Ordered (s.enter c op) where
  cpu d o ho := by
    by_cases hd : d = c
    · subst hd
      have hheld : Locks.heldBy (s.enter d op).cpus d = fun _ => false :=
        funext fun l => decide_eq_false (hfree l)
      have hinside : (s.enter d op).inside d = _ := Function.update_self ..
      rw [hinside] at ho
      rw [Locks.InOrder, hheld, show (s.enter d op).cpus.todo d = _ from Locks.enter_todo_self]
      by_cases hidle : s.cpus.todo d = []
      · rw [if_pos hidle] at ho
        rw [hidle, List.append_nil]
        exact (ho op (List.mem_singleton_self op)).ascends
      · -- a tick in the middle of another function, which goes on in order
        rw [if_neg hidle] at ho
        have hrest := h.cpu d o fun op' hop => ho op' (List.mem_cons_of_mem _ hop)
        rw [Locks.InOrder, show Locks.heldBy s.cpus d = fun _ => false from
          funext fun l => decide_eq_false (hfree l)] at hrest
        have hop := ho op List.mem_cons_self
        cases op with
        | clockintr => exact keeps_clockintr hop _ hrest
        | _ => exact absurd (hturn.resolve_left hidle) (by simp [Op.interrupts])
    · have hinside : (s.enter c op).inside d = s.inside d := Function.update_of_ne hd _ _
      rw [hinside] at ho
      rw [Locks.InOrder, show (s.enter c op).cpus.todo d = _ from Locks.enter_todo_ne hd]
      exact h.cpu d o ho
  common := by
    rcases hguard with halone | ⟨o, hop, hothers⟩
    · exact Or.inr ⟨c, fun d hd => (Locks.enter_todo_ne hd).trans (halone d hd)⟩
    refine Or.inl ⟨o, fun d hbusy => ?_⟩
    by_cases hd : d = c
    · subst hd
      rw [show (s.enter d op).inside d = _ from Function.update_self ..]
      split
      next => simpa using hop
      next hinside => exact List.forall_mem_cons.mpr ⟨hop, hothers d hinside⟩
    · rw [show (s.enter c op).inside d = _ from Function.update_of_ne hd _ _]
      refine hothers d ?_
      rwa [show (s.enter c op).cpus.todo d = _ from Locks.enter_todo_ne hd] at hbusy

/-- Deadlock freedom of the scheduler locks, for any number of CPUs and any interleaving, as long
as the functions that CPUs are inside at the same time go with one order of the locks. -/
theorem no_deadlock_in_order (n : Nat) (s : Parallel n)
    (h : Reachable (· = Parallel.idle n) (Orderly n) (cpuStep n) s) : ¬ Deadlocked s.cpus := by
  have hordered : Ordered s := by
    refine h.induct (E := Fault.any) Ordered ?_ ?_
    · rintro _ rfl
      exact ⟨fun c _ _ => Locks.in_order_idle rfl,
        Or.inl ⟨.switching, fun _ hbusy => absurd rfl hbusy⟩⟩
    · intro s e hs hguard
      cases e with
      | advance c => exact hs.advance c
      | enter c op =>
        simp only [cpuStep, wp_modify]
        split
        next henter => exact hs.enter hguard henter.2.1 henter.2.2
        next => exact hs
  exact hordered.not_deadlocked

theorem enter_step (op : Op) (hrun : s.cpus.stopped c = false) (htodo : s.cpus.todo c = [])
    (hfree : ∀ l, s.cpus.holder l ≠ some c) :
    cpuStep n (.enter c op) s = .ok ((), s.enter c op) :=
  congrArg (fun s' => Except.ok ((), s')) (if_pos ⟨hrun, Or.inl htodo, hfree⟩)

/-- The scheduler selects on CPU 0 while CPU 1 waits to switch to MLFQ mode. -/
theorem no_deadlock_in_order_waiting :
    ∃ s : Parallel 2, Reachable (· = Parallel.idle 2) (Orderly 2) (cpuStep 2) s ∧
      SpinsOn s.cpus 1 .schedule 0 ∧ ¬ Deadlocked s.cpus := by
  let select : Op := .mySchedulerRound (.fcfs ⟨[], none⟩)
  have h0 : Reachable (· = Parallel.idle 2) (Orderly 2) (cpuStep 2) (Parallel.idle 2) := .start rfl
  have h1 := h0.next (e := (.enter 0 select : CpuEvent 2)) (r := ()) (Or.inl fun _ _ => rfl)
    (enter_step _ rfl rfl (by simp [Parallel.idle, Locks.idle]))
  have h2 := h1.next (e := (.enter 1 (.mlfqmode false) : CpuEvent 2)) (r := ()) ?_
    (enter_step _ rfl rfl (by simp [Parallel.enter, Parallel.idle, Locks.idle, Locks.enter]))
  · have h3 := h2.next (e := (.advance 0 : CpuEvent 2)) (r := ()) trivial rfl
    exact ⟨_, h3, by decide +kernel, no_deadlock_in_order 2 _ h3⟩
  · -- the order of the mode switches suits both
    refine Or.inr ⟨.switching, fun _ => rfl, fun d hbusy op hop => ?_⟩
    fin_cases d
    · obtain rfl := List.mem_singleton.mp hop
      show LockOrder.switching ≠ .enqueueing
      decide
    · exact absurd rfl hbusy

/-- CPU 1 is switching to MLFQ mode and holds `schedule_lock` when the clock interrupts CPU 0,
which takes `tickslock`: now each waits for the other's lock. -/
theorem clock_and_mode_switch_deadlock :
    let s := lastState unguarded (cpuStep 2) [.enter 1 (.mlfqmode false), .advance 1,
      .enter 0 (.clockintr false none fun _ => none), .advance 0] (Parallel.idle 2)
    Reachable (· = Parallel.idle 2) unguarded (cpuStep 2) s ∧ Deadlocked s.cpus := by
  intro s
  have hidle : Reachable (· = Parallel.idle 2) unguarded (cpuStep 2) (Parallel.idle 2) :=
    .start rfl
  refine ⟨hidle.last_state _, Finset.univ, ⟨0, Finset.mem_univ _⟩, ?_⟩
  intro c _
  fin_cases c
  · exact ⟨.schedule, 1, Finset.mem_univ _, by decide +kernel⟩
  · exact ⟨.ticks, 0, Finset.mem_univ _, by decide +kernel⟩

end Xv6.Sched
