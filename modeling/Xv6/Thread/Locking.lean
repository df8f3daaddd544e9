import Xv6.Lib.Spin
import Xv6.Thread.Consistency

/-!
# Locks of the thread kernel

`Xv6.Thread.Calls` takes one call for one step and has no `p->lock`; where a call takes a lock
twice, or gives one back that it does not hold, the model says so without showing why. Here
`wakeup`, `reparent`, `freethread`, `cleanAllThreads`, `exit`, `paull04_join` and `growproc` are
written with every `acquire` and `release` of `wait_lock` and `p->lock`, with one loop for each loop
of the source. The theorems that end in `_does` say that the code with its locks does what the call
without them does, and which locks it holds in the end.

Closing files takes locks of other kinds only, and gives them back.
-/

namespace Xv6.Thread.Calls

open Function

open Spin (Spun Does lift acquire_run)

variable {s' : System} {k main : Slot} {f : Slot → Task} {sz : Nat} {α : Type}

/-- The spinlocks of the process table. -/
inductive Lock where
  | wait
  | proc (p : Slot)
  deriving DecidableEq, Repr

/-- Code with the locks that its CPU holds. -/
abbrev LockedCode (α : Type) := Kernel (Spun Lock System) α

variable {s : System} {self p np q : Slot} {chan : Chan} {H : List Lock}

/-- `acquire(&wait_lock)` by `p`. -/
def acquireWait (p : Slot) : LockedCode Unit := do
  lift (acquireWaitLock p)
  Spin.acquire .wait

/-- `release(&wait_lock)`. -/
def releaseWait : LockedCode Unit := do
  Spin.release .wait
  lift releaseWaitLock

/-- The critical section of `wakeup`. -/
def wakeSlot (chan : Chan) (q : Slot) : Code Unit := do
  let s ← get
  if (s.proc q).state = .sleeping ∧ (s.proc q).chan = chan then
    setProc q fun t => { t with state := .runnable }
  else pure ()

/-- `wakeup(chan)` by the current process `self`. -/
def wakeupLocked (self : Slot) (chan : Chan) : LockedCode Unit :=
  forEach NPROC fun q =>
    if q ≠ self then do
      Spin.acquire (.proc q)
      lift (wakeSlot chan q)
      Spin.release (.proc q)
    else pure ()

/-- `reparent(p)` by the current process `self`. -/
def reparentLocked (self p : Slot) : LockedCode Unit :=
  forEach NPROC fun q => do
    let s ← lift get
    if (s.proc q).parent = some p then do
      lift (setProc q fun t => { t with parent := s.initproc })
      wakeupLocked self (.ofPtr s.initproc)
    else pure ()

/-- `freethread(p)` by the current process `self`. -/
def freethreadLocked (self p : Slot) : LockedCode Unit := do
  reparentLocked self p
  let s ← lift get
  lift (clearThread p (s.proc p))

/-- `cleanAllThreads(t)` by the current process `self`. -/
def cleanAllThreadsLocked (self t : Slot) : LockedCode Unit := do
  acquireWait self
  forEach NPROC fun np => do
    let s ← lift get
    if (s.proc np).mainPid = (s.proc t).pid ∧ (s.proc np).isThread then do
      Spin.acquire (.proc np)
      freethreadLocked self np
      Spin.release (.proc np)
    else pure ()
  releaseWait

/-- The part of `exit` that follows `cleanAllThreads`, up to the switch in `sched`. -/
def exitRestLocked (p : Slot) (status : Int) : LockedCode Unit := do
  lift (closeFiles p)
  let s ← lift get
  let cwd ← lift (deref (s.proc p).cwd)
  lift (iput cwd)
  lift (setProc p fun t => { t with cwd := none })
  acquireWait p
  reparentLocked p p
  let s ← lift get
  wakeupLocked p (.ofPtr (s.proc p).parent)
  Spin.acquire (.proc p)
  lift (setProc p fun t => { t with xstate := status, state := .zombie })
  releaseWait
  Spin.sched (.proc p)

/-- `exit` by `p`, up to the switch in `sched`. -/
def exitLocked (p : Slot) (status : Int) : LockedCode Unit := do
  let s ← lift get
  if s.initproc = some p then kpanic "init exiting"
  else
    if (s.proc p).isThread = false then cleanAllThreadsLocked p p
    exitRestLocked p status

/-- `sleep(p, &wait_lock)` by `p` in call `call`, up to the scheduler's release of `p->lock`. -/
def sleepLocked (p : Slot) (call : Blocked) : LockedCode Unit := do
  Spin.acquire (.proc p)
  releaseWait
  lift (setProc p fun t => { t with state := .sleeping, chan := .proc p })
  lift (modify fun s => { s with blocked := update s.blocked p (some call) })
  Spin.sched (.proc p)
  Spin.release (.proc p)

/-- The end of a scan of `paull04_join` that found nothing to reap. -/
def scanEndLocked (p : Slot) (havekids : Bool) (call : Blocked) : LockedCode (Option Int) := do
  let s ← lift get
  if !havekids || (s.proc p).killed then do
    releaseWait
    pure (some (-1))
  else do
    sleepLocked p call
    pure none

/-- The end of `paull04_join` once it has found the exited thread `np`. -/
def joinFreeLocked (p np : Slot) : LockedCode (Option Int) := do
  let s ← lift get
  freethreadLocked p np
  Spin.release (.proc np)
  releaseWait
  pure (some (s.proc np).pid)

/-- The loop of `paull04_join` over the rest of the process table. When `copyout` fails it gives
its locks back and runs on. -/
def joinLoop (p : Slot) (stack : Nat) : List Slot → Bool → LockedCode (Option Int)
  | [], havekids => scanEndLocked p havekids (.join stack)
  | np :: rest, havekids => do
    let s ← lift get
    if (s.proc np).mainPid = (s.proc p).mainPid ∧ (s.proc np).isThread = true then do
      Spin.acquire (.proc np)
      if (s.proc np).state = .zombie then do
        let t ← lift (deref (s.proc p).pagetable)
        if ← lift (onMem (copyout t stack (leBytes 8 (s.proc np).stackBase))) then
          joinFreeLocked p np
        else do
          Spin.release (.proc np)
          releaseWait
          joinFreeLocked p np
      else do
        Spin.release (.proc np)
        joinLoop p stack rest true
    else joinLoop p stack rest havekids

/-- One scan of `paull04_join` by `p`. -/
def joinLocked (p : Slot) (stack : Nat) : LockedCode (Option Int) := do
  acquireWait p
  lift (modify fun s => { s with blocked := update s.blocked p none })
  joinLoop p stack (List.finRange NPROC) false

/-- The loop of `growproc` that hands the new size to the members of the process `main`. -/
def setSizesLocked (main : Slot) (sz : Nat) : LockedCode Unit :=
  forEach NPROC fun np => do
    let s ← lift get
    if (s.proc np).mainPid = (s.proc main).pid then do
      Spin.acquire (.proc np)
      lift (setProc np fun t => { t with sz := sz })
      Spin.release (.proc np)
    else pure ()

/-- The end of `growproc`. -/
def setSizeLocked (main : Slot) (sz : Nat) : LockedCode Int := do
  lift (setProc main fun t => { t with sz := sz })
  setSizesLocked main sz
  releaseWait
  pure 0

/-- `growproc` by `p`. -/
def growprocLocked (p : Slot) (n : Int) : LockedCode Int := do
  acquireWait p
  let s ← lift get
  let main ← lift (deref (s.proc p).mainThread)
  let t ← lift (deref (s.proc main).pagetable)
  let sz := (s.proc main).sz
  let newsz := ((sz + n) % 2 ^ 64).toNat
  if 0 < n then do
    let sz ← lift (onMem (uvmalloc t sz newsz { w := true }))
    if sz = 0 then pure (-1) else setSizeLocked main sz
  else if n < 0 then do
    let sz ← lift (onMem (uvmdealloc t sz newsz))
    setSizeLocked main sz
  else setSizeLocked main sz

/-! ## `wait_lock` -/

theorem acquire_wait_does (hwait : Lock.wait ∉ H) :
    Does H (.wait :: H) (acquireWait p) (acquireWaitLock p) s := by
  unfold acquireWait
  unfold Does
  simp only [bind, StateT.bind, Except.bind]
  rw [Does.lift (acquireWaitLock p) s]
  cases acquireWaitLock p s with
  | error f => rfl
  | ok r => exact acquire_run hwait

theorem release_wait_does (hwait : Lock.wait ∈ H) :
    Does H (H.erase .wait) releaseWait releaseWaitLock s :=
  .release hwait (.lift releaseWaitLock s)

/-! ## Loops over the table -/

/-- The slots below `k` have become what `f` says; nothing else has changed. -/
def Below (f : Slot → Task) (s : System) (k : Nat) (s' : System) : Prop :=
  ∃ g, s' = { s with proc := g } ∧ ∀ q : Slot, g q = if q.val < k then f q else s.proc q

theorem Below.start (f : Slot → Task) (s : System) : Below f s 0 s :=
  ⟨s.proc, rfl, fun _ => rfl⟩

theorem Below.all (h : Below f s NPROC s') :
    s' = { s with proc := f } := by
  obtain ⟨g, rfl, hg⟩ := h
  have heq : g = f := funext fun q => by rw [hg, if_pos q.isLt]
  rw [heq]

theorem Below.here (h : Below f s k s') :
    s'.proc k = s.proc k := by
  obtain ⟨g, rfl, hg⟩ := h
  show g k = s.proc k
  rw [hg, if_neg (by omega)]

theorem Below.set (h : Below f s k s') :
    Below f s (k + 1) { s' with proc := update s'.proc k (f k) } := by
  obtain ⟨g, rfl, hg⟩ := h
  refine ⟨update g k (f k), rfl, fun q => ?_⟩
  by_cases hq : q = k
  · subst hq
    rw [update_self, if_pos (by omega)]
  · have hne : q.val ≠ k.val := fun heq => hq (Fin.ext heq)
    rw [update_of_ne hq, hg]
    by_cases hlt : q.val < k.val
    · rw [if_pos hlt, if_pos (by omega)]
    · rw [if_neg hlt, if_neg (by omega)]

theorem Below.skip (h : Below f s k s') (hk : f k = s.proc k) : Below f s (k + 1) s' := by
  have hset := h.set
  rwa [hk, ← h.here, update_eq_self] at hset

theorem for_each_run {body : Slot → Code Unit}
    (h : ∀ (k : Slot) s', Below f s k s' →
      wp (body k) Fault.never (fun _ => Below f s (k + 1)) s') :
    forEach NPROC body s = .ok ((), { s with proc := f }) := by
  have hloop : wp (forEach NPROC body) Fault.never (fun _ s' => s' = { s with proc := f }) s :=
    wp_mono (wp_for_each (Below f s) h (.start f s)) fun _ s' hs' => hs'.all
  obtain ⟨_, s', hrun, rfl⟩ := wp_returns hloop
  exact hrun

/-! ## `wakeup` -/

/-- `wakeup`, one slot after the other. -/
def wakeupEach (self : Slot) (chan : Chan) : Code Unit :=
  forEach NPROC fun q => if q ≠ self then wakeSlot chan q else pure ()

/-- The slot `q` after `wakeup`, when it is `x` before. -/
def woken (self : Slot) (chan : Chan) (q : Slot) (x : Task) : Task :=
  if q ≠ self ∧ x.state = .sleeping ∧ x.chan = chan then { x with state := .runnable } else x

theorem wakeup_each_run (self : Slot) (chan : Chan) (s : System) :
    wakeupEach self chan s = wakeup self chan s := by
  refine for_each_run (f := fun q => woken self chan q (s.proc q)) fun k s' hs' => ?_
  by_cases hself : k ≠ self
  · rw [if_pos hself]
    unfold wakeSlot
    rw [wp_bind, wp_get, hs'.here]
    split
    next hsleeps =>
      have hset := hs'.set
      rw [show woken self chan k (s.proc k) = { s.proc k with state := .runnable } from
        if_pos ⟨hself, hsleeps⟩, ← hs'.here] at hset
      exact hset
    next hsleeps => exact hs'.skip (if_neg fun hall => hsleeps hall.2)
  · rw [if_neg hself]
    exact hs'.skip (if_neg fun hall => hself hall.1)

theorem wakeup_does (hlocks : ∀ q, q ≠ self → Lock.proc q ∉ H) :
    Does H H (wakeupLocked self chan) (wakeup self chan) s := by
  have heach : Does H H (wakeupLocked self chan) (wakeupEach self chan) s := by
    refine Does.for_each (fun _ => True) trivial (fun _ _ _ => ?_) fun k s' _ => ?_
    · exact wp_any _
    · exact .ite (fun hk => .critical (hlocks k hk) (.lift _ s')) fun _ => .pure () s'
  exact heach.congr (wakeup_each_run self chan s)

theorem wp_wake_slot {E : Fault → Prop} : wp (wakeSlot chan q) E (fun _ _ => True) s := by
  simp only [wakeSlot, wp_bind, wp_get, wp_ite, wp_set_proc, wp_pure, implies_true, and_self]

theorem wakeup_locked_panics (hnp : np ≠ self) (hlock : Lock.proc np ∈ H) :
    wakeupLocked self chan ⟨H, s⟩ = .error (.panic "acquire") := by
  refine wp_stops ?_
  refine wp_mono (wp_for_each (fun k x => k ≤ np.val ∧ x.held = H) ?_ ⟨by omega, rfl⟩) ?_
  · rintro k ⟨held, s'⟩ ⟨hk, rfl⟩
    by_cases hheld : k ≠ self ∧ Lock.proc k ∈ held
    · rw [if_pos hheld.1, wp_bind, Spin.wp_acquire_held hheld.2]
    · have hlt : k.val < np.val := by
        refine lt_of_le_of_ne hk fun heq => hheld ?_
        rw [Fin.ext heq]
        exact ⟨hnp, hlock⟩
      by_cases hself : k ≠ self
      · rw [if_pos hself, wp_bind, Spin.wp_acquire fun h => hheld ⟨hself, h⟩, wp_bind,
          Spin.wp_lift]
        refine wp_mono wp_wake_slot fun _ _ _ => ?_
        rw [Spin.wp_release_head]
        exact ⟨by omega, rfl⟩
      · rw [if_neg hself]
        exact ⟨by omega, rfl⟩
  · intro _ x hx
    exact absurd np.isLt (by omega)

/-! ## `reparent` -/

/-- `reparent`, one slot after the other. -/
def reparentEach (self p : Slot) : Code Unit :=
  forEach NPROC fun q => do
    let s ← get
    if (s.proc q).parent = some p then do
      setProc q fun t => { t with parent := s.initproc }
      wakeup self (.ofPtr s.initproc)
    else pure ()

/-- A slot that `reparent(p)` has visited. -/
def adopted (initproc : Ptr) (p : Slot) (x : Task) : Task :=
  if x.parent = some p then { x with parent := initproc } else x

section

variable (self) (chan) (q) (x : Task)

include self chan q x

theorem woken_woken :
    woken self chan q (woken self chan q x) = woken self chan q x := by
  unfold woken
  by_cases hx : q ≠ self ∧ x.state = .sleeping ∧ x.chan = chan
  · simp [hx]
  · simp [hx]

theorem woken_parent :
    (woken self chan q x).parent = x.parent := by
  unfold woken
  split <;> rfl

theorem woken_set_parent (parent : Ptr) :
    woken self chan q { woken self chan q x with parent := parent } =
      woken self chan q { x with parent := parent } := by
  unfold woken
  by_cases hx : q ≠ self ∧ x.state = .sleeping ∧ x.chan = chan
  · simp [hx]
  · simp [hx]

end

/-- The loop of `reparent(p)` before it visits slot `k`: nothing has happened yet, or a child has
been found and the sleepers on `initproc` are awake. -/
def Adopting (self p : Slot) (s : System) (k : Nat) (s' : System) : Prop :=
  ∃ g, s' = { s with proc := g } ∧
    ((∀ q : Slot, q.val < k → (s.proc q).parent ≠ some p) ∧ g = s.proc ∨
      (∃ q : Slot, q.val < k ∧ (s.proc q).parent = some p) ∧
        ∀ q : Slot, g q = woken self (.ofPtr s.initproc) q
          (if q.val < k then adopted s.initproc p (s.proc q) else s.proc q))

theorem Adopting.skip (h : Adopting self p s k s') (hk : (s.proc k).parent ≠ some p) :
    Adopting self p s (k + 1) s' := by
  obtain ⟨g, rfl, hg⟩ := h
  refine ⟨g, rfl, ?_⟩
  rcases hg with ⟨hnone, hsame⟩ | ⟨⟨c, hc, hparent⟩, hg⟩
  · refine .inl ⟨fun q hq => ?_, hsame⟩
    by_cases heq : q = k
    · exact heq ▸ hk
    · have hne : q.val ≠ k.val := fun h => heq (Fin.ext h)
      exact hnone q (by omega)
  · refine .inr ⟨⟨c, by omega, hparent⟩, fun q => ?_⟩
    rw [hg]
    by_cases heq : q = k
    · subst heq
      rw [if_neg (by omega), if_pos (by omega), adopted, if_neg hk]
    · have hne : q.val ≠ k.val := fun h => heq (Fin.ext h)
      by_cases hlt : q.val < k.val
      · rw [if_pos hlt, if_pos (by omega)]
      · rw [if_neg hlt, if_neg (by omega)]

theorem Adopting.parent (h : Adopting self p s k s') :
    (s'.proc k).parent = (s.proc k).parent := by
  obtain ⟨g, rfl, hg⟩ := h
  show (g k).parent = _
  rcases hg with ⟨-, rfl⟩ | ⟨-, hg⟩
  · rfl
  · rw [hg, if_neg (by omega), woken_parent]

theorem Adopting.adopt (h : Adopting self p s k s') (hk : (s.proc k).parent = some p) :
    wp (do
      setProc k fun t => { t with parent := s.initproc }
      wakeup self (.ofPtr s.initproc)) Fault.never
      (fun _ => Adopting self p s (k + 1)) s' := by
  obtain ⟨g, rfl, hg⟩ := h
  rw [wp_bind, wp_set_proc]
  refine ⟨_, rfl, .inr ⟨⟨k, by omega, hk⟩, fun q => ?_⟩⟩
  show woken self (.ofPtr s.initproc) q (update g k _ q) = _
  have hold : woken self (.ofPtr s.initproc) q (g q) = woken self (.ofPtr s.initproc) q
      (if q.val < k then adopted s.initproc p (s.proc q) else s.proc q) := by
    rcases hg with ⟨hnone, rfl⟩ | ⟨-, hg⟩
    · by_cases hlt : q.val < k.val
      · rw [if_pos hlt, adopted, if_neg (hnone q hlt)]
      · rw [if_neg hlt]
    · rw [hg, woken_woken]
  by_cases heq : q = k
  · subst heq
    rw [if_neg (by omega)] at hold
    rw [update_self, if_pos (by omega), adopted, if_pos hk, ← woken_set_parent, hold,
      woken_set_parent]
  · have hne : q.val ≠ k.val := fun h => heq (Fin.ext h)
    rw [update_of_ne heq, hold]
    by_cases hlt : q.val < k.val
    · rw [if_pos hlt, if_pos (by omega)]
    · rw [if_neg hlt, if_neg (by omega)]

theorem Adopting.initproc {k : Nat} (h : Adopting self p s k s') :
    s'.initproc = s.initproc := by
  obtain ⟨g, rfl, -⟩ := h
  rfl

theorem Adopting.all (h : Adopting self p s NPROC s') :
    reparent self p s = .ok ((), s') := by
  obtain ⟨g, rfl, hg⟩ := h
  have hall : wp (reparent self p) Fault.never (fun _ s' => s' = { s with proc := g }) s := by
    simp only [reparent, wp_bind, wp_get]
    rcases hg with ⟨hnone, rfl⟩ | ⟨⟨c, -, hparent⟩, hg⟩
    · have hno : ¬ ∃ q, (s.proc q).parent = some p := by
        rintro ⟨q, hq⟩
        exact hnone q q.isLt hq
      rw [if_neg hno]
      rfl
    · have heq : g = fun q => woken self (.ofPtr s.initproc) q
          (adopted s.initproc p (s.proc q)) := funext fun q => by rw [hg, if_pos q.isLt]
      rw [if_pos ⟨c, hparent⟩, wp_bind, wp_set, heq]
      rfl
  obtain ⟨_, s', hrun, rfl⟩ := wp_returns hall
  exact hrun

theorem reparent_each_run (self p : Slot) (s : System) :
    reparentEach self p s = reparent self p s := by
  have hloop : wp (reparentEach self p) Fault.never
      (fun _ s' => reparent self p s = .ok ((), s')) s := by
    refine wp_mono (wp_for_each (Adopting self p s) ?_ ⟨s.proc, rfl, .inl ⟨?_, rfl⟩⟩)
      fun _ s' hs' => hs'.all
    · intro k s' hs'
      rw [wp_bind, wp_get, hs'.parent, hs'.initproc]
      split
      next hk => exact hs'.adopt hk
      next hk => exact hs'.skip hk
    · exact fun q hq => absurd hq (by omega)
  obtain ⟨_, s', hrun, hs'⟩ := wp_returns hloop
  exact hrun.trans hs'.symm

theorem reparent_does (hlocks : ∀ q, q ≠ self → Lock.proc q ∉ H) :
    Does H H (reparentLocked self p) (reparent self p) s := by
  have heach : Does H H (reparentLocked self p) (reparentEach self p) s := by
    refine Does.for_each (fun _ => True) trivial
      (fun _ _ _ => wp_mono (wp_any _) fun _ _ _ => trivial)
      fun k s' _ => .get (.ite (fun _ => ?_) fun _ => .pure () s')
    exact .bind (.lift _ s') fun _ s'' _ => wakeup_does hlocks
  exact heach.congr (reparent_each_run self p s)

/-- With the lock of another process `np`, when there is a child to hand on. -/
theorem reparent_locked_panics (hnp : np ≠ self) (hlock : Lock.proc np ∈ H)
    (hchild : ∃ q, (s.proc q).parent = some p) :
    reparentLocked self p ⟨H, s⟩ = .error (.panic "acquire") := by
  obtain ⟨c, hc⟩ := hchild
  refine wp_stops ?_
  refine wp_mono (wp_for_each (fun k x => k ≤ c.val ∧ x = ⟨H, s⟩) ?_ ⟨by omega, rfl⟩) ?_
  · rintro k _ ⟨hk, rfl⟩
    rw [wp_bind, Spin.wp_lift, wp_get]
    split
    next hparent =>
      rw [wp_bind, Spin.wp_lift, wp_set_proc]
      unfold wp
      rw [wakeup_locked_panics hnp hlock]
    next hparent =>
      refine ⟨?_, rfl⟩
      have hne : k ≠ c := fun heq => hparent (heq ▸ hc)
      have hval : k.val ≠ c.val := fun heq => hne (Fin.ext heq)
      omega
  · intro _ x hx
    exact absurd c.isLt (by omega)

theorem reparent_childless (hnone : ¬ ∃ q, (s.proc q).parent = some p) :
    reparentLocked self p ⟨H, s⟩ = .ok ((), ⟨H, s⟩) := by
  have hloop : wp (reparentLocked self p) Fault.never (fun _ x => x = ⟨H, s⟩) ⟨H, s⟩ := by
    refine wp_for_each (fun _ (x : Spun Lock System) => x = ⟨H, s⟩) ?_ rfl
    rintro k _ rfl
    rw [wp_bind, Spin.wp_lift, wp_get, if_neg fun hk => hnone ⟨k, hk⟩]
    rfl
  obtain ⟨_, x, hrun, rfl⟩ := wp_returns hloop
  exact hrun

/-! ## `freethread` and `cleanAllThreads` -/

/-- What `freethread(p)` reads of its slot is not touched by `reparent`. -/
theorem reparent_slot (hrun : reparent self p s = .ok ((), s')) :
    clearThread p (s'.proc p) = clearThread p (s.proc p) := by
  have hsame : wp (reparent self p) Fault.any (fun _ s' =>
      clearThread p (s'.proc p) = clearThread p (s.proc p)) s := by
    simp only [reparent, wp_bind, wp_get]
    split
    next =>
      rw [wp_bind, wp_set]
      show clearThread p (woken self _ p (adopted s.initproc p (s.proc p))) = _
      unfold woken adopted
      split <;> split <;> rfl
    next => rfl
  exact wp_ok (a := ()) hsame hrun

/-- `freethread` when no child makes it take a lock twice. -/
theorem freethread_eq (locked : Bool)
    (h : ¬ (locked = true ∧ ∃ q, (s.proc q).parent = some p)) :
    freethread self p locked s = (do
      reparent self p
      clearThread p (s.proc p)) s := by
  unfold freethread
  show (if locked = true ∧ ∃ q, (s.proc q).parent = some p then _ else _ : Code Unit) s = _
  rw [if_neg h]

/-- `freethread(np)` with no lock of another process held: the rest of a `paull04_join` that has
given its locks back. -/
theorem freethread_does_unlocked (hlocks : ∀ q, q ≠ self → Lock.proc q ∉ H) :
    Does H H (freethreadLocked self np) (freethread self np false) s := by
  refine Does.congr ?_ (freethread_eq false fun h => absurd h.1 (by simp)).symm
  refine .bind (reparent_does hlocks) fun _ s' hrun => ?_
  rw [← reparent_slot hrun]
  exact .get (.lift _ s')

/-- `freethread(np)` with `np->lock` held, when `np` has a child. -/
theorem freethread_child_panics (hchild : ∃ q, (s.proc q).parent = some np) :
    freethread self np true s = .error (.panic "acquire") := by
  unfold freethread
  show (if true = true ∧ ∃ q, (s.proc q).parent = some np then _ else _ : Code Unit) s = _
  rw [if_pos ⟨rfl, hchild⟩]
  rfl

theorem freethread_childless (hnone : ¬ ∃ q, (s.proc q).parent = some np) :
    freethread self np true s = clearThread np (s.proc np) s := by
  have hplain : reparent self np s = .ok ((), s) := by
    unfold reparent
    show (if ∃ q, (s.proc q).parent = some np then _ else _ : Code Unit) s = _
    rw [if_neg hnone]
    rfl
  rw [freethread_eq true fun h => hnone h.2]
  simp only [bind, StateT.bind, Except.bind]
  rw [hplain]

theorem freethread_does (hnp : np ≠ self) (hlock : Lock.proc np ∈ H) :
    Does H H (freethreadLocked self np) (freethread self np true) s := by
  by_cases hchild : ∃ q, (s.proc q).parent = some np
  · refine .of_fault ?_ (freethread_child_panics hchild)
    refine wp_stops ?_
    unfold freethreadLocked
    rw [wp_bind]
    unfold wp
    rw [reparent_locked_panics hnp hlock hchild]
  · refine Does.congr ?_ (freethread_childless hchild).symm
    have hdoes : Does H H (reparentLocked self np) (pure ()) s := reparent_childless hchild
    have hrest : Does H H (freethreadLocked self np)
        (pure () >>= fun _ => clearThread np (s.proc np)) s := by
      refine hdoes.bind fun _ s' hrun => ?_
      cases hrun
      exact .read (.lift _ s)
    exact hrest

theorem freethread_keeps_main (hnp : np ≠ q) (hq : (s.proc q).isThread = false) :
    wp (freethread self np true) Fault.any (fun _ s' => (s'.proc q).isThread = false) s := by
  refine wp_mono (wp_mono_fault (wp_freethread_members self np true) fun _ _ => trivial) ?_
  intro _ s' hs'
  show (members s' q).isThread = false
  rw [hs'.1, update_of_ne hnp.symm]
  exact hq

/-- `cleanAllThreads` by a process that is not a thread itself. -/
theorem clean_does {t : Slot} (hself : (s.proc self).isThread = false) :
    Does [] [] (cleanAllThreadsLocked self t) (cleanAllThreads self t) s := by
  refine .bind (acquire_wait_does (by simp)) fun _ s1 hrun1 => ?_
  have hacquire : wp (acquireWaitLock self) Fault.any
      (fun _ s' => (s'.proc self).isThread = false) s :=
    wp_acquire (fun _ => hself) trivial trivial
  have hself1 := wp_ok (a := ()) hacquire hrun1
  suffices hloop : Does [Lock.wait] [Lock.wait] _ _ s1 from
    hloop.bind fun _ s2 _ => release_wait_does (by simp)
  refine Does.for_each (fun s => (s.proc self).isThread = false) hself1 (fun k s hs => ?_)
    fun k s hs => .get (.ite (fun hmember => ?_) fun _ => .pure () s)
  · rw [wp_bind, wp_get]
    split
    next hmember =>
      refine freethread_keeps_main ?_ hs
      rintro rfl
      exact absurd hmember.2 (by simp [hs])
    next => exact hs
  · have hne : k ≠ self := by
      rintro rfl
      exact absurd hmember.2 (by simp [hs])
    exact .critical (by simp) (freethread_does hne (by simp))

/-! ## `exit` -/

theorem exit_rest_does (status : Int) :
    Does [] [.proc p] (exitRestLocked p status) (exitRest p status) s := by
  refine .bind (.lift _ s) fun _ s1 _ => .get (.bind (.lift _ s1) fun cwd s2 _ => ?_)
  refine .bind (.lift _ s2) fun _ s3 _ => .bind (.lift _ s3) fun _ s4 _ => ?_
  refine .bind (acquire_wait_does (by simp)) fun _ s5 _ => ?_
  refine .bind (reparent_does (by simp)) fun _ s6 _ => .get ?_
  refine .bind (wakeup_does (by simp)) fun _ s7 _ => .acquire (by simp) ?_
  refine .bind (.lift _ s7) fun _ s8 _ => ?_
  have hend : Does [.proc p, .wait] [.proc p] (do
      releaseWait
      Spin.sched (.proc p)) (releaseWaitLock >>= fun _ => pure ()) s8 :=
    .bind (release_wait_does (by simp)) fun _ s9 _ => .sched
  exact hend.congr rfl

theorem exit_does (status : Int) :
    Does [] [.proc p] (exitLocked p status) (exit p status) s := by
  refine .get (.ite (fun _ => .kpanic _ s) fun _ => ?_)
  cases hthread : (s.proc p).isThread with
  | true => exact exit_rest_does status
  | false => exact .bind (clean_does hthread) fun _ s1 _ => exit_rest_does status

/-! ## `paull04_join` -/

theorem sleep_does (call : Blocked) :
    Does [.wait] [] (sleepLocked p call) (do
      releaseWaitLock
      setProc p fun t => { t with state := .sleeping, chan := .proc p }
      modify fun s => { s with blocked := update s.blocked p (some call) }) s := by
  refine .acquire (by simp) ?_
  have hunlock : Does [.proc p, .wait] [.proc p] releaseWait releaseWaitLock s :=
    release_wait_does (by simp)
  refine hunlock.bind fun _ s1 _ => .bind (.lift _ s1) fun _ s2 _ => ?_
  have hend : Does [Lock.proc p] [] (do
      lift (modify fun s => { s with blocked := update s.blocked p (some call) })
      Spin.sched (.proc p)
      Spin.release (.proc p))
      ((modify fun s => { s with blocked := update s.blocked p (some call) }) >>= fun _ =>
        pure () >>= fun _ => pure ()) s2 := by
    refine .bind (.lift _ s2) fun _ s3 _ => .bind .sched fun _ s4 _ => ?_
    exact Spin.unlock_run
  exact hend.congr rfl

theorem scan_end_does (havekids : Bool) (call : Blocked) :
    Does [.wait] [] (scanEndLocked p havekids call) (scanEnd p havekids call) s := by
  refine .get ?_
  show Does _ _ _ (releaseWaitLock >>= fun _ => _) s
  by_cases hreturn : (!havekids || (s.proc p).killed) = true
  · rw [if_pos hreturn]
    refine .bind (release_wait_does (by simp)) fun _ s1 _ => ?_
    rw [if_pos hreturn]
    exact .pure _ s1
  · rw [if_neg hreturn]
    refine Does.congr ((sleep_does call).bind fun _ s1 _ => .pure none s1) ?_
    rw [if_neg hreturn]
    rfl

theorem join_free_does (hnp : np ≠ p) :
    Does [.proc np, .wait] [] (joinFreeLocked p np) (do
      freethread p np true
      releaseWaitLock
      pure (some (s.proc np).pid)) s := by
  have hfree : Does [.proc np, .wait] [.proc np, .wait] (freethreadLocked p np)
      (freethread p np true) s := freethread_does hnp (by simp)
  refine .read (hfree.bind fun _ s1 _ => .unlock ?_)
  exact .bind (release_wait_does (by simp)) fun _ s2 _ => .pure _ s2

theorem join_free_unlocked :
    Does [] [] (joinFreeLocked p np) (do
      freethread p np false
      kpanic "release") s := by
  have hfree : Does [] [] (freethreadLocked p np) (freethread p np false) s :=
    freethread_does_unlocked (by simp)
  refine .read (hfree.bind fun _ s1 _ => ?_)
  exact .of_fault (Spin.release_missing_run (by simp) _) rfl

/-- Code that does not look at `wait_lock`. -/
def Blind {α : Type} (code : Code α) : Prop :=
  ∀ s w, code { s with waitLock := w } =
    (code s).map fun r => (r.1, { r.2 with waitLock := w })

theorem Blind.bind {β : Type} {code : Code α} {next : α → Code β} (h : Blind code)
    (hnext : ∀ a, Blind (next a)) : Blind (code >>= next) := by
  intro s w
  simp only [Bind.bind, StateT.bind, Except.bind]
  rw [h s w]
  cases code s with
  | error f => rfl
  | ok r => exact hnext r.1 r.2 w

theorem blind_on_mem (code : MemCode α) : Blind (onMem code) := by
  intro s w
  simp only [onMem]
  cases code s.mem with
  | error f => rfl
  | ok r => rfl

theorem blind_reparent : Blind (reparent self p) := by
  intro s w
  unfold reparent
  show (if ∃ q, (s.proc q).parent = some p then _ else _ : Code Unit) _ =
    Except.map _ ((if ∃ q, (s.proc q).parent = some p then _ else _ : Code Unit) s)
  split
  · rfl
  · rfl

theorem blind_clear_thread {x : Task} : Blind (clearThread p x) := by
  have hend : Blind (freethreadEnd p x) := by
    unfold freethreadEnd
    cases x.trapframe with
    | none => exact fun _ _ => rfl
    | some page => exact (blind_on_mem _).bind fun _ _ _ => rfl
  unfold clearThread
  cases x.isThread with
  | false => exact hend
  | true =>
    cases x.pagetable with
    | none => exact fun _ _ => rfl
    | some t => exact (blind_on_mem _).bind fun _ => hend

theorem blind_freethread : Blind (freethread self np false) := by
  intro s w
  rw [freethread_eq false fun h => absurd h.1 (by simp),
    freethread_eq false fun h => absurd h.1 (by simp)]
  exact (blind_reparent.bind fun _ => blind_clear_thread) s w

/-- Such code may as well give `wait_lock` back first, if it stops in the end. -/
theorem Blind.unlocked {code : Code Unit} (h : Blind code) (s : System) :
    (releaseWaitLock >>= fun _ => code >>= fun _ => (kpanic "release" : Code (Option Int))) s =
      (code >>= fun _ => kpanic "release") s := by
  have hrun : releaseWaitLock s = .ok ((), { s with waitLock := none }) := rfl
  simp only [Bind.bind, StateT.bind, Except.bind]
  rw [hrun]
  dsimp only
  rw [h s none]
  cases code s with
  | error f => rfl
  | ok r => rfl

/-- Slot `q` is a thread of the process of `p`. -/
def joinMember (s : System) (p q : Slot) : Bool :=
  decide ((s.proc q).mainPid = (s.proc p).mainPid ∧ (s.proc q).isThread = true)

/-- Slot `q` is an exited thread of the process of `p`. -/
def joinable (s : System) (p q : Slot) : Bool :=
  joinMember s p q && decide ((s.proc q).state = .zombie)

/-- The scan of `paull04_join` over the slots that are left. -/
def joinRest (s : System) (p : Slot) (stack : Nat) (slots : List Slot) (havekids : Bool) :
    Code (Option Int) :=
  match slots.find? (joinable s p) with
  | some np => joinFound s p np stack
  | none => scanEnd p (havekids || (slots.find? (joinMember s p)).isSome) (.join stack)

theorem on_mem_slots {code : MemCode α} {a : α} (hrun : onMem code s = .ok (a, s')) :
    s'.proc = s.proc := by
  unfold onMem at hrun
  cases hcode : code s.mem with
  | error f => simp [hcode] at hrun
  | ok r =>
    rw [hcode] at hrun
    cases hrun
    rfl

theorem join_loop_does {stack : Nat} (hp : (s.proc p).state ≠ .zombie) (slots : List Slot)
    (havekids : Bool) :
    Does [.wait] [] (joinLoop p stack slots havekids) (joinRest s p stack slots havekids) s := by
  induction slots generalizing havekids with
  | nil =>
    have hend : Does [.wait] [] (joinLoop p stack [] havekids)
      (scanEnd p havekids (.join stack)) s := scan_end_does havekids _
    simpa [joinRest] using hend
  | cons np rest ih =>
    unfold joinLoop
    refine .read ?_
    by_cases hmember : (s.proc np).mainPid = (s.proc p).mainPid ∧ (s.proc np).isThread = true
    · have hin : joinMember s p np = true := decide_eq_true hmember
      rw [if_pos hmember]
      refine .acquire (by simp) ?_
      by_cases hzombie : (s.proc np).state = .zombie
      · -- the exited thread that the scan stops at
        have hfound : (np :: rest).find? (joinable s p) = some np :=
          List.find?_cons_of_pos (by simp [joinable, hin, hzombie])
        have hne : np ≠ p := fun heq => hp (heq ▸ hzombie)
        rw [if_pos hzombie]
        unfold joinRest
        rw [hfound]
        unfold joinFound
        refine .bind (.lift _ s) fun t s1 hrun1 => .bind (.lift _ s1) fun copied s2 hrun2 => ?_
        have hproc : s2.proc = s.proc := by
          rw [on_mem_slots hrun2]
          cases htable : (s.proc p).pagetable with
          | none => simp [htable, deref, fault] at hrun1
          | some t' =>
            rw [htable] at hrun1
            cases hrun1
            rfl
        cases copied with
        | true =>
          rw [← hproc]
          exact join_free_does hne
        | false =>
          -- `wait_lock` is given back too early, and `freethread` does not notice
          have hunlock : Does [Lock.wait] [] releaseWait releaseWaitLock s2 :=
            release_wait_does (by simp)
          refine .unlock (Does.congr (hunlock.bind fun _ s3 _ => join_free_unlocked) ?_)
          exact blind_freethread.unlocked s2
      · -- a thread that has not exited
        have hskip : (np :: rest).find? (joinable s p) = rest.find? (joinable s p) :=
          List.find?_cons_of_neg (by simp [joinable, hzombie])
        have hkid : (np :: rest).find? (joinMember s p) = some np :=
          List.find?_cons_of_pos hin
        rw [if_neg hzombie]
        refine .unlock ?_
        have hrest := ih true
        unfold joinRest at hrest ⊢
        rw [hskip, hkid]
        simpa using hrest
    · have hout : joinMember s p np = false := decide_eq_false hmember
      have hskip : (np :: rest).find? (joinable s p) = rest.find? (joinable s p) :=
        List.find?_cons_of_neg (by simp [joinable, hout])
      have hkid : (np :: rest).find? (joinMember s p) = rest.find? (joinMember s p) :=
        List.find?_cons_of_neg (by simp [hout])
      rw [if_neg hmember]
      have hrest := ih havekids
      unfold joinRest at hrest ⊢
      rwa [hskip, hkid]

theorem join_does {stack : Nat} (hp : (s.proc p).state ≠ .zombie) :
    Does [] [] (joinLocked p stack) (join p stack) s := by
  refine .bind (acquire_wait_does (by simp)) fun _ s1 hrun1 =>
    .bind (.lift _ s1) fun _ s2 hrun2 => ?_
  have hacquire : wp (acquireWaitLock p) Fault.any (fun _ s' => s'.proc = s.proc) s :=
    wp_acquire (fun _ => rfl) trivial trivial
  have hproc1 := wp_ok hacquire hrun1
  have hproc : s2.proc = s.proc := by
    cases hrun2
    exact hproc1
  have hloop : Does [.wait] [] (joinLoop p stack (List.finRange NPROC) false) _ s2 :=
    join_loop_does (by rwa [hproc]) _ false
  refine hloop.congr ?_
  unfold joinRest
  simp only [Bool.false_or]
  rfl

/-! ## `growproc` -/

theorem set_sizes_does :
    Does [.wait] [.wait] (setSizesLocked main sz) (setSizes main sz) s := by
  have hplain : forEach NPROC (fun np => do
      let s ← get
      if (s.proc np).mainPid = (s.proc main).pid then setProc np fun t => { t with sz := sz }
      else pure ()) s = setSizes main sz s := by
    refine for_each_run (f := fun q =>
      if (s.proc q).mainPid = (s.proc main).pid then { s.proc q with sz := sz } else s.proc q)
      fun k s' hs' => ?_
    have hpid : (s'.proc main).pid = (s.proc main).pid := by
      obtain ⟨g, rfl, hg⟩ := hs'
      show (g main).pid = _
      rw [hg]
      dsimp only
      split
      · split <;> rfl
      · rfl
    rw [wp_bind, wp_get, hpid, hs'.here]
    split
    next hmember =>
      have hset := hs'.set
      rw [if_pos hmember, ← hs'.here] at hset
      exact hset
    next hmember => exact hs'.skip (if_neg hmember)
  refine Does.congr ?_ hplain
  refine Does.for_each (fun _ => True) trivial (fun _ _ _ => ?_) fun k s' _ =>
    .get (.ite (fun _ => .critical (by simp) (.lift _ s')) fun _ => .pure () s')
  exact wp_mono (wp_any _) fun _ _ _ => trivial

theorem set_size_does :
    Does [.wait] [] (setSizeLocked main sz) (do
      setProc main fun t => { t with sz := sz }
      setSizes main sz
      releaseWaitLock
      pure (0 : Int)) s := by
  refine .bind (.lift _ s) fun _ s1 _ => .bind set_sizes_does fun _ s2 _ => ?_
  exact .bind (release_wait_does (by simp)) fun _ s3 _ => .pure 0 s3

/-- The locks held when `growproc` returns `r`. -/
def growLocks (r : Int) : List Lock := if r = -1 then [.wait] else []

theorem set_size_leaves :
    Spin.Leaves [.wait] growLocks (setSizeLocked main sz) (do
      setProc main fun t => { t with sz := sz }
      setSizes main sz
      releaseWaitLock
      pure (0 : Int)) s :=
  set_size_does.leaves_end rfl

/-- `growproc` gives `wait_lock` back unless there is no memory. -/
theorem growproc_leaves {n : Int} :
    Spin.Leaves [] growLocks (growprocLocked p n) (growproc p n) s := by
  refine Does.leaves (acquire_wait_does (by simp)) fun _ s1 _ => ?_
  refine Does.leaves (.lift _ s1) fun s1' s2 _ => Does.leaves (.lift _ s2) fun main s3 _ => ?_
  refine Does.leaves (.lift _ s3) fun t s4 _ => ?_
  by_cases hpos : 0 < n
  · rw [if_pos hpos]
    simp only [if_pos hpos]
    refine Does.leaves (.lift _ s4) fun sz s5 _ => ?_
    split
    next => exact rfl
    next => exact set_size_leaves
  · rw [if_neg hpos]
    simp only [if_neg hpos]
    by_cases hneg : n < 0
    · rw [if_pos hneg]
      simp only [if_pos hneg]
      exact Does.leaves (.lift _ s4) fun sz s5 _ => set_size_leaves
    · rw [if_neg hneg]
      simp only [if_neg hneg]
      exact set_size_leaves

end Xv6.Thread.Calls
