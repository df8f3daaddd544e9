import Xv6.Thread.Life

/-!
# `kill`

`kill` looks a slot up by its pid alone and follows its `main_thread`. A free slot has no main
thread, but it has a pid: 0, or the one that a failed `allocthread` has left in it. Between two
sections of `fork` a slot in use has a pid and no main thread either. `Bare` is what holds of every
table, also of those that another CPU is changing, and `kill_contract_iff` says what `kill` does
with it.
-/

namespace Xv6.Thread

variable {p : Slot} {l : Life} {f : Proc → Proc}

/-- A free slot has no main thread. -/
def Bare (g : Slot → Proc) : Prop := ∀ q, (g q).state = .unused → (g q).mainThread = none

/-- A slot is assigned a process that has no main thread if it is UNUSED. -/
theorem Bare.update {g : Slot → Proc} {t : Proc} (h : Bare g)
    (ht : t.state = .unused → t.mainThread = none) : Bare (Function.update g p t) := by
  intro q
  by_cases hq : q = p
  · subst hq
    rwa [Function.update_self]
  · rw [Function.update_of_ne hq]
    exact h q

/-- At boot no slot has a main thread. -/
theorem bare_boot : Bare fun _ => {} := fun _ _ => rfl

/-! ## One section of code after another -/

section Sections

variable {n : Nat} {m : Machine n} {c : Fin n} {α β : Type}

/-- Code that leaves free slots without a main thread. -/
def KeepsBare (code : Code n α) : Prop :=
  ∀ m, Bare m.proc → wp code Fault.any (fun _ m' => Bare m'.proc) m

namespace KeepsBare

/-- Code that assigns to no slot. -/
theorem of_same {code : Code n α}
    (h : ∀ m, wp code Fault.any (fun _ m' => m'.proc = m.proc) m) : KeepsBare code := by
  intro m hm
  refine wp_mono (h m) fun _ m' hm' => ?_
  rwa [hm']

theorem pure (a : α) : KeepsBare (n := n) (pure a) := fun _ hm => hm

theorem fault (f : Fault) : KeepsBare (n := n) (fault f : Code n α) := fun _ _ => trivial

theorem kpanic (message : String) : KeepsBare (n := n) (kpanic message : Code n α) :=
  fun _ _ => trivial

/-- One piece of code after another. -/
theorem bind {code : Code n α} {next : α → Code n β} (h : KeepsBare code)
    (hnext : ∀ a, KeepsBare (next a)) : KeepsBare (code >>= next) := by
  intro m hm
  exact wp_seq (h m hm) fun a m' hm' => hnext a m' hm'

/-- Code that reads the machine first. -/
theorem get {next : Machine n → Code n α}
    (h : ∀ m, Bare m.proc → wp (next m) Fault.any (fun _ m' => Bare m'.proc) m) :
    KeepsBare (get >>= next) := by
  intro m hm
  rw [wp_bind, wp_get]
  exact h m hm

theorem ite {p : Prop} [Decidable p] {yes no : Code n α} (hyes : KeepsBare yes)
    (hno : KeepsBare no) : KeepsBare (if p then yes else no) := by
  split
  · exact hyes
  · exact hno

/-- An assignment outside of the process table. -/
theorem modify {f : Machine n → Machine n} (h : ∀ m, (f m).proc = m.proc) :
    KeepsBare (modify f : Code n Unit) := of_same h

/-- A loop, by what one round keeps. -/
theorem for_each {k : Nat} {body : Fin k → Code n Unit} (h : ∀ i, KeepsBare (body i)) :
    KeepsBare (forEach k body) := by
  intro m hm
  exact wp_for_each (fun _ m' => Bare m'.proc) (fun i m' hm' => h i m' hm') hm

/-- An assignment to a slot, by what it does to one process. -/
theorem set_proc
    (h : ∀ t, (t.state = .unused → t.mainThread = none) →
      (f t).state = .unused → (f t).mainThread = none) : KeepsBare (n := n) (setProc p f) :=
  fun _ hm => hm.update (h _ (hm p))

/-- An assignment that gives a slot a state other than UNUSED. -/
theorem occupy (h : ∀ t, (f t).state ≠ .unused) :
    KeepsBare (n := n) (setProc p f) := set_proc fun t _ hunused => absurd hunused (h t)

/-- An assignment to fields other than the state and the main thread. -/
theorem adjust (hstate : ∀ t, (f t).state = t.state)
    (hmain : ∀ t, (f t).mainThread = t.mainThread) : KeepsBare (n := n) (setProc p f) :=
  set_proc fun t ht hunused => by
    rw [hmain]
    exact ht (hstate t ▸ hunused)

theorem set_pc (p : Slot) (pc : Pc) : KeepsBare (n := n) (setPc p pc) := modify fun _ => rfl

theorem set_cpu (c : Fin n) (p : Ptr) : KeepsBare (setCpu c p) := modify fun _ => rfl

/-- `release(&wait_lock)` assigns to no slot. -/
theorem unlock (p : Slot) (pc : Pc) : KeepsBare (n := n) (releaseWaitLock p pc) :=
  modify fun _ => rfl

/-- `acquire(&wait_lock)` waits, or assigns to no slot. -/
theorem lock (p : Slot) (pc : Pc) : KeepsBare (n := n) (acquireWaitLock p pc) :=
  of_same fun m => by simp [acquireWaitLock]

/-- A null pointer is followed into a fault. -/
theorem deref (p : Ptr) : KeepsBare (n := n) (deref p) := by
  cases p with
  | none => exact fault _
  | some p => exact pure p

/-- The first context of a slot is not among its fields here. -/
theorem init_context (p : Slot) : KeepsBare (n := n) (initContext p) := modify fun _ => rfl

/-- A process leaves its CPU in a state other than UNUSED. -/
theorem sched (h : ∀ t, (f t).state ≠ .unused) :
    KeepsBare (sched c p f) := bind (occupy h) fun _ => set_cpu c none

/-- A slot that is given back with all its fields cleared. -/
theorem free (p : Slot) (failed : Bool) : KeepsBare (n := n) (release p failed cleared) :=
  fun _ hm => hm.update fun _ => rfl

/-- `allocproc` leaves its slot USED, or cleared. -/
theorem allocproc (p : Slot) (memory : Bool) : KeepsBare (n := n) (allocproc p memory) := by
  refine bind (of_same fun m => by simp [allocpid]) fun pid => bind (occupy fun _ => ?_) fun _ => ?_
  · exact fun h => by cases h
  · exact ite (bind (init_context p) fun _ => pure true) (bind (free p true) fun _ => pure false)

/-- A failed `allocthread` leaves the main thread of the slot as it was. -/
theorem allocthread {memory : Bool} (hp : (m.proc p).state = .unused) (hm : Bare m.proc) :
    wp (allocthread p memory) Fault.any (fun _ m' => Bare m'.proc) m := by
  have hnone := hm p hp
  cases memory with
  | true =>
    simp only [Thread.allocthread, allocpid, setProc, initContext, wp_bind, wp_get, wp_set,
      wp_pure, wp_modify, if_true]
    refine hm.update fun h => ?_
    cases h
  | false =>
    simp only [Thread.allocthread, allocpid, setProc, release, wp_bind, wp_get, wp_set,
      wp_pure, wp_modify, Bool.false_eq_true, if_false]
    have hused : Bare (Function.update m.proc p { m.proc p with
        pid := m.nextpid, state := .used, killed := false }) := hm.update fun h => by cases h
    refine hused.update fun _ => ?_
    simpa using hnone

/-- Only a SLEEPING slot is woken, to RUNNABLE. -/
theorem wakeup_slot (self : Ptr) (chan : Chan) (p : Slot) :
    KeepsBare (n := n) (wakeupSlot self chan p) := by
  refine get fun m hm => ite (occupy ?_) (pure ()) m hm
  exact fun _ h => by cases h

/-- `freethread` gives the children of the slot away, and clears the slot. -/
theorem freethread (self p : Slot) (locked : Bool) :
    KeepsBare (n := n) (freethread self p locked) := by
  unfold Thread.freethread reparentFreed
  refine bind (get fun m hm => ?_) fun _ => free p false
  split
  · have hadopt : ∀ q, KeepsBare (n := n) (do
        let m ← MonadState.get
        if (m.proc q).parent = some p then
          setProc q fun t => { t with parent := m.initproc }
        else Pure.pure ()) := fun q => get fun m hm => by
      split
      · refine hm.update fun hunused => hm q ?_
        exact hunused
      · exact hm
    exact ite (kpanic _) (bind (for_each hadopt) fun _ => for_each (wakeup_slot _ _)) m hm
  · exact hm

/-- `userinit` makes its slot RUNNABLE, or writes through a null pointer. -/
theorem userinit (np : Ptr) (memory : Bool) : KeepsBare (n := n) (userinit np memory) := by
  refine bind (deref np) fun p => get fun m hm => ite ?_ (pure ()) m hm
  refine bind (allocproc p memory) fun allocated => ite ?_ (fault _)
  exact bind (modify fun _ => rfl) fun _ => occupy fun _ h => by cases h

/-- The first section of `fork`: the child is USED, without a main thread yet. -/
theorem fork (p : Slot) (np : Ptr) (memory copied : Bool) :
    KeepsBare (n := n) (fork p np memory copied) := by
  cases np with
  | none => exact pure ()
  | some np =>
    refine get fun m hm => ite ?_ (pure ()) m hm
    refine bind (allocproc np memory) fun allocated => ite (ite ?_ (free np true)) (pure ())
    exact get fun m hm => set_pc p _ m hm

/-- `clone` takes an UNUSED slot, and leaves it RUNNABLE, or as a failed `allocthread` does. -/
theorem clone (p : Slot) (np : Ptr) (memory mapped : Bool) :
    KeepsBare (n := n) (clone p np memory mapped) := by
  cases np with
  | none => exact pure ()
  | some np =>
    refine get fun m hm => ?_
    split
    next hunused =>
      refine wp_seq (allocthread hunused hm) fun allocated m' hm' => ?_
      refine ite (bind (deref _) fun main => ite (occupy fun _ h => ?_) (kpanic _)) (pure ()) m' hm'
      cases h
    next => exact hm

/-- A process that commits to a new image has a main thread, so its slot is in use. -/
theorem exec (p : Slot) : KeepsBare (n := n) (exec p) := by
  refine get fun m hm => ?_
  cases hmain : (m.proc p).mainThread with
  | none => exact trivial
  | some mt =>
    refine hm.update fun hunused => ?_
    have hnone := hm p hunused
    rw [hmain] at hnone
    cases hnone

/-- `exit` starts with a panic or a move of its program counter. -/
theorem exit (p : Slot) : KeepsBare (n := n) (exit p) :=
  get fun m hm => ite (kpanic _) (ite (set_pc p _) (set_pc p _)) m hm

/-- The first section of each call. -/
theorem enter (p : Slot) (call : Syscall) : KeepsBare (n := n) (enter p call) := by
  cases call with
  | fork np memory copied => exact fork p np memory copied
  | clone np memory mapped => exact clone p np memory mapped
  | exec => exact exec p
  | exit => exact exit p
  | kill pid => exact set_pc p _
  | join => exact set_pc p _
  | wait => exact set_pc p _

/-- `cleanAllThreads` looks for a thread, and gives up `wait_lock` when there is none left. -/
theorem clean (p t : Slot) (i : Nat) (caller : Cleaner) :
    KeepsBare (n := n) (clean p t i caller) := by
  refine get fun m hm => ?_
  split
  · exact ite (set_pc p _) (set_pc p _) m hm
  · cases caller with
    | exit => exact unlock p _ m hm
    | exec mp => exact unlock p _ m hm

/-- A child gets another parent, and keeps its state and its main thread. -/
theorem exit_reparent (p : Slot) (i : Nat) : KeepsBare (n := n) (exitReparent p i) := by
  refine get fun m hm => ?_
  split
  · refine ite (bind ?_ fun _ => set_pc p _) (set_pc p _) m hm
    exact adjust (fun _ => rfl) fun _ => rfl
  · exact set_pc p _ m hm

/-- One slot of `wakeup` after another. -/
theorem waking (p : Slot) (chan : Chan) (i : Nat) (next : Pc) :
    KeepsBare (n := n) (waking p chan i next) := by
  unfold Thread.waking
  split
  · exact bind (wakeup_slot _ _ _) fun _ => set_pc p _
  · exact set_pc p _

/-- A scan that finds nothing ends with -1 or with `sleep`. -/
theorem scan_end (c : Fin n) (p : Slot) (havekids : Bool) (again : Pc) :
    KeepsBare (scanEnd c p havekids again) := by
  refine get fun m hm => ite (unlock p _) (bind (unlock p _) fun _ => ?_) m hm
  exact sched fun _ h => by cases h

/-- `wait` clears the ZOMBIE that it finds. -/
theorem wait_scan (c : Fin n) (p : Slot) (i : Nat) (havekids copied : Bool) :
    KeepsBare (waitScan c p i havekids copied) := by
  refine get fun m hm => ?_
  split
  · refine ite (ite (ite ?_ (unlock p _)) (set_pc p _)) (set_pc p _) m hm
    exact bind (free _ false) fun _ => unlock p _
  · exact scan_end c p _ _ m hm

/-- `paull04_join` clears the ZOMBIE thread that it finds. -/
theorem join_scan (c : Fin n) (p : Slot) (i : Nat) (havekids copied : Bool) :
    KeepsBare (joinScan c p i havekids copied) := by
  refine get fun m hm => ?_
  split
  · refine ite (ite (ite ?_ (unlock p _)) (set_pc p _)) (set_pc p _) m hm
    exact bind (freethread p _ true) fun _ => unlock p _
  · exact scan_end c p _ _ m hm

/-- The search of `kill` follows `main_thread` of the slot with the pid, and assigns nothing. -/
theorem kill_scan (p : Slot) (pid : Int) (i : Nat) : KeepsBare (n := n) (killScan p pid i) := by
  refine get fun m hm => ?_
  split
  · exact ite (bind (deref _) fun main => set_pc p _) (set_pc p _) m hm
  · exact set_pc p _ m hm

/-- `kill` changes the state of the main thread from SLEEPING to RUNNABLE only. -/
theorem kill_main (p main : Slot) : KeepsBare (n := n) (killMain p main) := by
  refine bind (set_proc fun t ht hunused => ht ?_) fun _ => set_pc p _
  by_cases hsleeping : t.state = .sleeping
  · simp [hsleeping] at hunused
  · simpa [hsleeping] using hunused

/-- The next section of a call, for every place that a call can be at. -/
theorem advance (c : Fin n) (p : Slot) (ok : Bool) (pc : Pc) : KeepsBare (advance c p ok pc) := by
  cases pc with
  | user => exact pure ()
  | forkLock np pid =>
    refine get fun m hm => ite (bind ?_ fun _ => set_pc p _) (pure ()) m hm
    exact adjust (fun _ => rfl) fun _ => rfl
  | forkPublish np pid => exact bind (occupy fun _ h => by cases h) fun _ => set_pc p _
  | cleanLock t caller => exact lock p _
  | clean t i caller => exact clean p t i caller
  | cleanFree t np caller => exact bind (freethread p np true) fun _ => set_pc p _
  | execTail mt mp =>
    refine get fun m hm => ite (set_pc p _) (bind ?_ fun _ => set_pc p _) m hm
    exact adjust (fun _ => rfl) fun _ => rfl
  | exitClose => exact get fun m hm => ite (lock p _) (pure ()) m hm
  | exitReparent i => exact exit_reparent p i
  | exitZombie => exact bind (unlock p _) fun _ => sched fun _ h => by cases h
  | waking chan i next => exact waking p chan i next
  | waitLock => exact lock p _
  | waitScan i havekids => exact wait_scan c p i havekids ok
  | joinLock => exact lock p _
  | joinScan i havekids => exact join_scan c p i havekids ok
  | joinUnlocked np => exact bind (freethread p np false) fun _ => set_pc p _
  | joinRelease => exact kpanic _
  | killScan pid i => exact kill_scan p pid i
  | killMain main => exact kill_main p main

/-- Code of the process on a CPU, if there is one. -/
theorem current {code : Machine n → Slot → Code n Unit} (h : ∀ m p, KeepsBare (code m p)) :
    KeepsBare (current c code) := by
  refine get fun m hm => ?_
  cases m.cpu c with
  | none => exact hm
  | some p => exact h m p m hm

/-- Code of a process that is in the file system. -/
theorem in_files {code : Slot → Code n Unit} (h : ∀ p, KeepsBare (code p)) :
    KeepsBare (inFiles c code) := current fun _ p => ite (h p) (pure ())

/-- Every event, by the section of code that it runs. -/
theorem step (e : Event n) : KeepsBare (step e) := by
  cases e with
  | userinit np memory => exact userinit np memory
  | schedule c p =>
    refine get fun m hm => ite (bind ?_ fun _ => set_cpu c _) (pure ()) m hm
    exact occupy fun _ h => by cases h
  | call c call => exact current fun _ p => ite (enter p call) (pure ())
  | advance c ok => exact current fun m p => advance c p ok (m.pc p)
  | yield c => exact current fun _ p => ite (pure ()) (sched fun _ h => by cases h)
  | sleep c chan => exact in_files fun p => sched fun _ h => by cases h
  | wakeup c chan p => exact get fun m hm => wakeup_slot _ chan p m hm
  | acquiresleep c => exact in_files fun p => modify fun _ => rfl
  | releasesleep c => exact in_files fun p => modify fun _ => rfl
  | beginOp c => exact in_files fun p => modify fun _ => rfl
  | endOp c => exact in_files fun p => modify fun _ => rfl

end KeepsBare

/-- In every table that the CPUs reach, also between two sections of a call. -/
theorem bare_machine (h : Reachable (· = boot n) unguarded step m) : Bare m.proc := by
  refine h.induct (E := Fault.any) (fun m => Bare m.proc) ?_ fun m e hm _ => KeepsBare.step e m hm
  rintro _ rfl
  exact bare_boot

end Sections

namespace Calls

variable {s s' : System} {pid : Int}

/-! ## One call after another -/

/-- `Bare.update`, for the life cycle. -/
theorem Life.bare_set {x : Proc} (h : Bare l.proc) (hx : x.state = .unused → x.mainThread = none) :
    Bare (l.set p x).proc := h.update hx

/-- `wakeup` makes no slot UNUSED. -/
theorem Life.bare_wake {self : Slot} {chan : Chan} (h : Bare l.proc) :
    Bare (l.wake self chan).proc := by
  intro q
  obtain ⟨st, hproc, hwoken⟩ := l.wake_proc self chan q
  rw [hproc]
  exact fun hq => h q (hwoken.unused.mp hq)

/-- Nor does `reparent`. -/
theorem Life.bare_reparent {self : Slot} (h : Bare l.proc) :
    Bare (l.reparent self p).proc := by
  intro q
  obtain ⟨st, hproc, hwoken⟩ := l.reparent_proc self p q
  rw [hproc]
  exact fun hq => h q (hwoken.unused.mp hq)

/-- The threads that are swept out have all their fields cleared. -/
theorem Life.bare_sweep {pid : Int} (h : Bare l.proc) : Bare (l.sweep pid).proc := by
  intro q
  by_cases hq : l.InGroup pid q
  · simp [Life.sweep, hq]
  · simpa [Life.sweep, hq] using h q

/-- A process that has exited is a ZOMBIE. -/
theorem Life.bare_died (h : Bare l.proc) : Bare (l.died p).proc :=
  bare_set (bare_wake (bare_reparent h)) fun hzombie => by cases hzombie

/-- `exec` makes the caller its own main thread, and clears the rest of its group. -/
theorem Life.bare_execed {main : Slot} (hp : (l.proc p).state = .running) (h : Bare l.proc) :
    Bare (l.execed p main).proc := by
  have hlone : Bare (l.lone p).proc := by
    refine bare_set h fun hunused => ?_
    rw [show (l.proc p).state = .unused from hunused] at hp
    cases hp
  unfold Life.execed
  dsimp only
  split
  · exact bare_sweep hlone
  · exact bare_set (bare_sweep hlone) fun hunused => bare_sweep hlone main hunused

/-- Every outcome of a call keeps free slots without a main thread. -/
theorem CallEffect.bare {l' : Life} {call : Call} {r : Option Int}
    (hp : (l.proc p).state = .running) (heffect : CallEffect p l call r l') (h : Bare l.proc) :
    Bare l'.proc := by
  cases heffect with
  | plain | full | joinEnds | waitEnds => exact h
  | forkFailed => exact Life.bare_set h fun _ => rfl
  | fork => exact Life.bare_set h fun hstate => by cases hstate
  | @cloneFailed np _ hnp => exact Life.bare_set h fun _ => h np hnp
  | clone => exact Life.bare_set h fun hstate => by cases hstate
  | exec => exact Life.bare_execed hp h
  | exitMain => exact Life.bare_died (Life.bare_sweep h)
  | exitThread => exact Life.bare_died h
  | @kill q main pid hpid hmain =>
    refine Life.bare_set h fun hunused => h main ?_
    by_cases hsleeping : (l.proc main).state = .sleeping
    · simp [hsleeping] at hunused
    · simpa [hsleeping] using hunused
  | join => exact Life.bare_set h fun _ => rfl
  | joinSleeps => exact Life.bare_set h fun hstate => by cases hstate
  | wait => exact Life.bare_set h fun _ => rfl
  | waitSleeps => exact Life.bare_set h fun hstate => by cases hstate

/-- So does every event between two calls. -/
theorem LifeStep.bare {l' : Life} {e : Event} {r : Option Int} (hstep : LifeStep l e r l')
    (h : Bare l.proc) : Bare l'.proc := by
  cases hstep with
  | idle => exact h
  | userinit | schedule | yield | sleep => exact Life.bare_set h fun hstate => by cases hstate
  | wakeup => exact Life.bare_wake h
  | call hp _ heffect => exact heffect.bare hp h
  | resume hp _ heffect => exact heffect.bare hp h

/-- In every table between two calls. -/
theorem bare_calls {free : List Page} (h : Reachable (· = boot free) unguarded step s) :
    Bare (life s).proc := by
  suffices hinv : Grouped (members s) s.mem ∧ Bare (life s).proc from hinv.2
  refine Reachable.induct (E := Fault.any)
    (fun s => Grouped (members s) s.mem ∧ Bare (life s).proc) ?_ ?_ h
  · rintro _ rfl
    exact ⟨boot_grouped free, bare_boot⟩
  · rintro s e ⟨hgrouped, hbare⟩ -
    have hboth := wp_and (wp_mono_fault (step_grouped hgrouped e) fun _ _ => trivial)
      (life_step hgrouped e)
    exact wp_mono hboth fun _ _ hs' => ⟨hs'.1.1, hs'.2.bare hbare⟩

/-! ## What `kill` does -/

/-- The process table is one that the kernel reaches, between two calls or between two sections
of the calls that other CPUs are making. -/
def ReachableTable (g : Slot → Proc) : Prop :=
  (∃ free s, Reachable (· = boot free) unguarded step s ∧ g = (life s).proc) ∨
    ∃ n m, Reachable (· = Thread.boot n) unguarded Thread.step m ∧ g = m.proc

/-- In either kind of reachable table. -/
theorem ReachableTable.bare {g : Slot → Proc} (h : ReachableTable g) : Bare g := by
  rcases h with ⟨free, s, hs, rfl⟩ | ⟨n, m, hm, rfl⟩
  · exact bare_calls hs
  · exact bare_machine hm

/-- The process `main` has been killed. -/
def killedIn (s : System) (main : Slot) : System :=
  { s with
    proc := Function.update s.proc main { s.proc main with
      killed := true
      state := if (s.proc main).state = .sleeping then .runnable else (s.proc main).state } }

/-- The contract of `kill(pid)`. -/
structure Kills (s : System) (pid r : Int) (s' : System) : Prop where
  found : (∃ q, (s.proc q).state ≠ .unused ∧ (s.proc q).pid = pid) → r = 0 ∧
    ∃ q main, (s.proc q).state ≠ .unused ∧ (s.proc q).pid = pid ∧
      (s.proc q).mainThread = some main ∧ s' = killedIn s main
  missing : (¬ ∃ q, (s.proc q).state ≠ .unused ∧ (s.proc q).pid = pid) → r = -1 ∧ s' = s

/-- The first slot that has the pid, whatever its state. -/
def lookedUp (s : System) (pid : Int) : Ptr := firstSlot fun q => decide ((s.proc q).pid = pid)

/-- `kill` keeps its contract, and follows no null pointer, exactly if the slot that its search
stops at has a main thread. -/
theorem kill_contract_iff (s : System) (pid : Int) (h : ReachableTable (life s).proc) :
    wp (kill pid) Fault.never (Kills s pid) s ↔
      ∀ q, lookedUp s pid = some q → (s.proc q).mainThread ≠ none := by
  unfold kill
  rw [wp_bind, wp_get, ← lookedUp]
  cases hfirst : lookedUp s pid with
  | none =>
    have hnone : ∀ q, (s.proc q).pid ≠ pid := by
      intro q hq
      exact absurd (List.find?_eq_none.mp hfirst q (List.mem_finRange q)) (by simp [hq])
    refine ⟨fun _ q hq => (by cases hq), fun _ => ⟨fun hfound => ?_, fun _ => ⟨rfl, rfl⟩⟩⟩
    obtain ⟨q, -, hq⟩ := hfound
    exact absurd hq (hnone q)
  | some q =>
    have hpid : (s.proc q).pid = pid := by simpa using List.find?_some hfirst
    rw [wp_bind]
    cases hmain : (s.proc q).mainThread with
    | none =>
      refine ⟨fun hwild => (by cases hwild), fun hall => ?_⟩
      exact absurd hmain (hall q rfl)
    | some main =>
      have hused : (s.proc q).state ≠ .unused := by
        intro hunused
        have hnone := h.bare q hunused
        rw [show ((life s).proc q).mainThread = some main from hmain] at hnone
        cases hnone
      have hfound : ∃ q, (s.proc q).state ≠ .unused ∧ (s.proc q).pid = pid :=
        ⟨q, hused, hpid⟩
      refine ⟨fun _ q' hq' => ?_, fun _ => ⟨fun _ => ⟨rfl, q, main, hused, hpid, hmain, rfl⟩, ?_⟩⟩
      · rw [← Option.some.inj hq', hmain]
        exact Option.some_ne_none main
      · exact fun hmissing => absurd hfound hmissing

/-- The first process, which has forked once. -/
@[irreducible] def forkedOnce : System :=
  lastState unguarded step [.userinit, .schedule 0, .call 0 .fork] (boot (List.range' 1 40))

/-- Its table is reached by three events. -/
theorem forked_once_reachable : ReachableTable (life forkedOnce).proc := by
  have hboot : Reachable (· = boot (List.range' 1 40)) unguarded step (boot (List.range' 1 40)) :=
    .start rfl
  refine .inl ⟨_, _, hboot.last_state [.userinit, .schedule 0, .call 0 .fork], ?_⟩
  unfold forkedOnce
  rfl

/-- It kills its child. -/
theorem kill_contract_child :
    (forkedOnce.proc 1).pid = 2 ∧ wp (kill 2) Fault.never (Kills forkedOnce 2) forkedOnce := by
  refine ⟨by decide +kernel, (kill_contract_iff forkedOnce 2 forked_once_reachable).mpr ?_⟩
  decide +kernel

/-- `kill(0)` finds a free slot and follows its null `main_thread`. -/
theorem kill_zero_wild :
    ReachableTable (life forkedOnce).proc ∧ (forkedOnce.proc 0).state = .running ∧
      (∀ q, (forkedOnce.proc q).state ≠ .unused → (forkedOnce.proc q).pid ≠ 0) ∧
      faultOf (kill 0) forkedOnce = some .wild :=
  ⟨forked_once_reachable, by decide +kernel, by decide +kernel, by decide +kernel⟩

end Calls

end Xv6.Thread
