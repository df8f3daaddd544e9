import Xv6.Lib.Spin
import Xv6.Lib.Run
import Xv6.Sched.Machine

/-!
# `sys_setpriority` and its locks

`Xv6.Sched.Machine` leaves spinlocks out. Here the search loop of `sys_setpriority` is written with
the locks it takes: it locks one slot after another, and returns from the middle of the loop when
it finds the pid. `set_priority_data` says that it finds and changes what the call of the machine
does; what differs is the lock of the slot it has found.
-/

namespace Xv6.Sched

open Spin

variable {m : Machine} {p t : Slot} {pid priority : Int} {E : Fault → Prop}

/-- The machine with the locks `p->lock` that the CPU holds. -/
abbrev LockedCode (α : Type) := Kernel (Spun Slot Machine) α

/-- The loop of `sys_setpriority` over the rest of the process table. -/
def setpriorityLoop (now : Slot) (pid priority : Int) : List Slot → LockedCode Int
  | [] => pure (-1)
  | p :: rest =>
    if p = now then setpriorityLoop now pid priority rest
    else do
      acquire p
      let s ← get
      if (s.data.proc p).pid = pid then
        lift (setProc p fun t => { t with priority := priority })
        pure 0
      else
        release p
        setpriorityLoop now pid priority rest

/-- `sys_setpriority` by process `p`, with its locks. -/
def setpriorityLocked (p : Slot) (pid priority : Int) : LockedCode Int :=
  if priority < 0 ∨ priority > 3 then pure (-2)
  else do
    let s ← get
    if (s.data.proc p).pid = pid then
      lift (setProc p fun t => { t with priority := priority })
      pure 0
    else setpriorityLoop p pid priority (List.finRange NPROC)

/-- The next time that `p` gives up the CPU: `yield` up to the switch. -/
def yieldLocked (p : Slot) : LockedCode Unit := do
  acquire p
  lift (setProc p fun t => { t with state := .runnable })
  sched p

/-- The machine with a new priority for one slot. -/
def withPriority (m : Machine) (t : Slot) (priority : Int) : Machine :=
  { m with proc := Function.update m.proc t { m.proc t with priority := priority } }

/-- The loop stops at the first other slot with that pid, and keeps its lock. -/
theorem wp_setpriority_loop {now : Slot} (slots : List Slot) {Q : Int → Spun Slot Machine → Prop}
    (hnone : (∀ t ∈ slots, t ≠ now → (m.proc t).pid ≠ pid) → Q (-1) ⟨[], m⟩)
    (hsome : ∀ t, slots.find? (fun t => decide (t ≠ now ∧ (m.proc t).pid = pid)) = some t →
      Q 0 ⟨[t], withPriority m t priority⟩) :
    wp (setpriorityLoop now pid priority slots) E Q ⟨[], m⟩ := by
  induction slots with
  | nil => exact hnone fun t ht => by cases ht
  | cons t rest ih =>
    unfold setpriorityLoop
    by_cases hnow : t = now
    · rw [if_pos hnow]
      refine ih (fun hrest => hnone fun q hq hne => ?_) fun q hq => hsome q ?_
      · rcases List.mem_cons.mp hq with rfl | hq
        · exact absurd hnow hne
        · exact hrest q hq hne
      · rw [List.find?_cons_of_neg (by simp [hnow]), hq]
    · rw [if_neg hnow, wp_bind, wp_acquire (by simp), wp_bind, wp_get]
      split
      next hpid =>
        rw [wp_bind, wp_lift]
        refine hsome t (List.find?_cons_of_pos ?_)
        simp only [decide_eq_true_eq]
        exact ⟨hnow, hpid⟩
      next hpid =>
        rw [wp_bind, wp_release_head]
        refine ih (fun hrest => hnone fun q hq hne => ?_) fun q hq => hsome q ?_
        · rcases List.mem_cons.mp hq with rfl | hq
          · exact hpid
          · exact hrest q hq hne
        · rw [List.find?_cons_of_neg ?_, hq]
          simp only [decide_eq_true_eq]
          exact fun hand => hpid hand.2

theorem wp_setpriority_locked {Q : Int → Spun Slot Machine → Prop}
    (hrange : priority < 0 ∨ priority > 3 → Q (-2) ⟨[], m⟩)
    (hself : ¬ (priority < 0 ∨ priority > 3) → (m.proc p).pid = pid →
      Q 0 ⟨[], withPriority m p priority⟩)
    (hnone : ¬ (priority < 0 ∨ priority > 3) → (m.proc p).pid ≠ pid →
      findSlot m (·.pid = pid) = none → Q (-1) ⟨[], m⟩)
    (hsome : ∀ t, ¬ (priority < 0 ∨ priority > 3) → (m.proc p).pid ≠ pid →
      findSlot m (·.pid = pid) = some t → Q 0 ⟨[t], withPriority m t priority⟩) :
    wp (setpriorityLocked p pid priority) E Q ⟨[], m⟩ := by
  unfold setpriorityLocked
  by_cases hr : priority < 0 ∨ priority > 3
  · rw [if_pos hr]
    exact hrange hr
  rw [if_neg hr, wp_bind, wp_get]
  by_cases hp : (m.proc p).pid = pid
  · rw [if_pos hp, wp_bind, wp_lift]
    exact hself hr hp
  rw [if_neg hp]
  -- Skipping the caller's own slot changes nothing: it has another pid.
  have htest : (fun t => decide (t ≠ p ∧ (m.proc t).pid = pid)) =
      fun t => decide ((m.proc t).pid = pid) := by
    funext t
    by_cases ht : t = p
    · simp [ht, hp]
    · simp [ht]
  refine wp_setpriority_loop _ (fun h => hnone hr hp ?_) fun t ht => hsome t hr hp ?_
  · refine List.find?_eq_none.mpr fun t ht hpid => h t ht ?_ (by simpa using hpid)
    intro heq
    exact hp (heq ▸ by simpa using hpid)
  · rw [htest] at ht
    exact ht

/-- The call of the machine answers the same and leaves the same table. -/
theorem set_priority_data :
    wp (setpriorityLocked p pid priority) E (fun r s => wp (sysSetpriority p pid priority) E
      (fun r' m' => r' = r ∧ m' = s.data) m) ⟨[], m⟩ := by
  refine wp_setpriority_locked (fun hr => ?_) (fun hr hp => ?_) (fun hr hp hfind => ?_)
    fun t hr hp hfind => ?_
  · simp [sysSetpriority, hr]
  · simp [sysSetpriority, hr, hp, setProc, withPriority]
  · simp [sysSetpriority, hr, hp, hfind]
  · simp [sysSetpriority, hr, hp, hfind, setProc, withPriority]

/-! ## What the call should do -/

/-- Some process, in a slot that is not free, has that pid. -/
def HasPid (m : Machine) (pid : Int) : Prop :=
  ∃ t, (m.proc t).state ≠ .unused ∧ (m.proc t).pid = pid

/-- The contract of `setpriority(pid, priority)` called by `p`. -/
structure SetsPriority (m : Machine) (p : Slot) (pid priority r : Int)
    (s : Spun Slot Machine) : Prop where
  invalid : priority < 0 ∨ priority > 3 → r = -2 ∧ s.data = m
  found : ¬ (priority < 0 ∨ priority > 3) → HasPid m pid → r = 0 ∧
    ∃ t, (m.proc t).state ≠ .unused ∧ (m.proc t).pid = pid ∧ s.data = withPriority m t priority
  missing : ¬ (priority < 0 ∨ priority > 3) → ¬ HasPid m pid → r = -1 ∧ s.data = m
  /-- The caller holds the locks it held before: none. -/
  locks : s.held = []
  /-- It can give up the CPU. -/
  yields : wp (yieldLocked p) Fault.never (fun _ _ => True) s

theorem wp_yield_locked : wp (yieldLocked p) E (fun _ _ => True) ⟨[], m⟩ := by
  unfold yieldLocked
  rw [wp_bind, wp_acquire (by simp), wp_bind, wp_lift]
  exact wp_sched.mpr trivial

/-- `setpriority` keeps its contract exactly if it does not find the pid in another slot: then it
returns from the loop with the lock of that slot held. -/
theorem setpriority_contract_iff (m : Machine) (p : Slot) (pid priority : Int)
    (hlive : (m.proc p).state ≠ .unused) :
    wp (setpriorityLocked p pid priority) Fault.never (SetsPriority m p pid priority) ⟨[], m⟩ ↔
      (priority < 0 ∨ priority > 3) ∨ (m.proc p).pid = pid ∨ ∀ t ≠ p, (m.proc t).pid ≠ pid := by
  constructor
  · intro hwp
    by_contra hbad
    simp only [not_or, not_forall, not_not] at hbad
    obtain ⟨hrange, hp, t, htp, ht⟩ := hbad
    have hlocked : wp (setpriorityLocked p pid priority) Fault.never
        (fun _ s => s.held ≠ []) ⟨[], m⟩ := by
      refine wp_setpriority_locked (fun hr => absurd hr (by omega)) (fun _ h => absurd h hp)
        (fun _ _ hfind => ?_) fun _ _ _ _ => List.cons_ne_nil _ _
      exact absurd (List.find?_eq_none.mp hfind t (List.mem_finRange t)) (by simp [ht])
    obtain ⟨r, s, hrun, hs⟩ := wp_returns hlocked
    exact hs (wp_ok hwp hrun).locks
  · intro hgood
    refine wp_setpriority_locked (fun hr => ?_) (fun hr hp => ?_) (fun hr hp hfind => ?_)
      fun t hr hp hfind => ?_
    · exact ⟨fun _ => ⟨rfl, rfl⟩, fun h => absurd hr h, fun h => absurd hr h, rfl, wp_yield_locked⟩
    · refine ⟨fun h => absurd h hr, fun _ _ => ⟨rfl, p, hlive, hp, rfl⟩, fun _ h => ?_, rfl,
        wp_yield_locked⟩
      exact absurd ⟨p, hlive, hp⟩ h
    · refine ⟨fun h => absurd h hr, fun _ h => ?_, fun _ _ => ⟨rfl, rfl⟩, rfl, wp_yield_locked⟩
      obtain ⟨t, -, ht⟩ := h
      exact absurd (List.find?_eq_none.mp hfind t (List.mem_finRange t)) (by simp [ht])
    · have ht : (m.proc t).pid = pid := by simpa using List.find?_some hfind
      have htp : t ≠ p := fun heq => hp (heq ▸ ht)
      rcases hgood with hbad | hbad | hbad
      · exact absurd hbad hr
      · exact absurd hbad hp
      · exact absurd ht (hbad t htp)

/-- The first process, after it has forked once. -/
def twoProcesses : Machine :=
  lastState unguarded step [.userinit true, .select, .fork true true] boot

/-- The first process sets its own priority. -/
theorem setpriority_self :
    let first : Slot := ⟨0, by decide⟩
    twoProcesses.current = some first ∧
    wp (setpriorityLocked first 1 3) Fault.never (SetsPriority twoProcesses first 1 3)
      ⟨[], twoProcesses⟩ := by
  refine ⟨by decide +kernel, (setpriority_contract_iff _ _ 1 3 ?_).mpr (.inr (.inl ?_))⟩
  · decide +kernel
  · decide +kernel

/-- It sets the priority of its child to 1, and then a timer interrupt makes it yield. -/
theorem setpriority_then_yield_panics :
    let first : Slot := ⟨0, by decide⟩
    Reached twoProcesses ∧ twoProcesses.current = some first ∧
    (twoProcesses.proc ⟨1, by decide⟩).pid = 2 ∧
    faultOf (do
      let r ← setpriorityLocked first 2 1
      if r = 0 then yieldLocked first) ⟨[], twoProcesses⟩ = some (.panic "sched locks") := by
  have hboot : Reached boot := .start rfl
  have hreached : Reached twoProcesses := hboot.last_state _
  exact ⟨hreached, by decide +kernel, by decide +kernel, by decide +kernel⟩

end Xv6.Sched
