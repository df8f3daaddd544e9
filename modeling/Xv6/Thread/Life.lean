import Xv6.Thread.Consistency

/-!
# The life cycle of the slots

`Life` is what remains of the kernel when memory and files are left out: for each slot its state,
pids, parent and main thread, the stack it was cloned with, and the call it sleeps in. `LifeStep`
says, without any code, what an event may do to it and what a call may return, with one
constructor for each outcome. `life_step` connects the two levels: whatever an event of the kernel
does, and whether its allocations and copies succeed, is a step of the life cycle.
-/

namespace Xv6.Thread.Calls

open Function

variable {α : Type} {E : Fault → Prop} {s s' s'' : System} {p q r np main self : Slot}
  {Q : Unit → System → Prop} {st st' : ProcState}

/-- The slots without memory and files. -/
@[ext] structure Life where
  proc : Slot → Proc
  stackBase : Slot → Nat
  blocked : Slot → Option Blocked
  initproc : Ptr
  nextpid : Int

/-- The life cycle part of the kernel's state. -/
def life (s : System) : Life where
  proc := fun q => (s.proc q).toProc
  stackBase := fun q => (s.proc q).stackBase
  blocked := s.blocked
  initproc := s.initproc
  nextpid := s.nextpid

namespace Life

variable {l : Life}

/-- Slot `p` becomes `x`. -/
def set (l : Life) (p : Slot) (x : Proc) : Life :=
  { l with proc := update l.proc p x }

/-- Slot `p` is asleep in call `b`, or in none. -/
def block (l : Life) (p : Slot) (b : Option Blocked) : Life :=
  { l with blocked := update l.blocked p b }

/-- `allocpid`. -/
def spend (l : Life) : Life := { l with nextpid := wrap (l.nextpid + 1) }

/-- `wakeup`. -/
def wake (l : Life) (self : Slot) (chan : Chan) : Life :=
  { l with
    proc := fun q =>
      if q ≠ self ∧ (l.proc q).state = .sleeping ∧ (l.proc q).chan = chan then
        { l.proc q with state := .runnable }
      else l.proc q }

/-- `reparent`. -/
def reparent (l : Life) (self p : Slot) : Life :=
  if ∃ q, (l.proc q).parent = some p then
    wake { l with
      proc := fun q =>
        if (l.proc q).parent = some p then { l.proc q with parent := l.initproc }
        else l.proc q } self (.ofPtr l.initproc)
  else l

/-- Slot `q` is a thread of the process with main thread `pid`. -/
def InGroup (l : Life) (pid : Int) (q : Slot) : Prop :=
  (l.proc q).mainPid = pid ∧ (l.proc q).isThread = true

instance (l : Life) (pid : Int) (q : Slot) : Decidable (l.InGroup pid q) :=
  inferInstanceAs (Decidable (_ ∧ _))

/-- The threads of a process are freed. -/
def sweep (l : Life) (pid : Int) : Life :=
  { l with proc := fun q => if l.InGroup pid q then {} else l.proc q }

/-- No thread of the process has a child outside it; `freethread` would panic. -/
def Childless (l : Life) (pid : Int) : Prop :=
  ∀ q r, l.InGroup pid q → ¬ l.InGroup pid r → (l.proc r).parent ≠ some q

/-- The first exited thread that a `paull04_join` by `p` finds. -/
def exitedThread (l : Life) (p : Slot) : Ptr :=
  firstSlot fun q =>
    decide ((l.proc q).mainPid = (l.proc p).mainPid ∧ (l.proc q).isThread = true) &&
      decide ((l.proc q).state = .zombie)

/-- `p` has called `exec` and is the main thread of its own process. -/
def lone (l : Life) (p : Slot) : Life :=
  l.set p { l.proc p with
    mainPid := (l.proc p).pid, mainThread := some p, isThread := false }

/-- The commit of `exec` by `p`, whose main thread was `main`. -/
def execed (l : Life) (p main : Slot) : Life :=
  let l1 := (l.lone p).sweep ((l.lone p).proc main).pid
  if (l.proc p).pid = (l.proc p).mainPid then l1
  else l1.set main { l1.proc main with killed := true }

/-- `exit` by `p` when the threads are gone. -/
def died (l : Life) (p : Slot) : Life :=
  let l1 := l.reparent p p
  let l2 := l1.wake p (.ofPtr (l1.proc p).parent)
  l2.set p { l2.proc p with state := .zombie }

/-- A slot for a new process or thread, with a new pid. -/
def taken (l : Life) (np : Slot) (x : Proc) : Life := (l.spend.set np x).block np none

/-- A new process in slot `np`. -/
def born (l : Life) (np : Slot) (parent : Ptr) : Life :=
  l.taken np { l.proc np with
    pid := l.nextpid, state := .runnable, parent := parent, isThread := false,
    mainPid := l.nextpid, mainThread := some np }

/-- A new thread in slot `np`, cloned by `p`. -/
def cloned (l : Life) (p main np : Slot) (stack : Nat) : Life :=
  { l.taken np { l.proc np with
      pid := l.nextpid, state := .runnable, killed := false, mainPid := (l.proc p).mainPid,
      mainThread := some main, isThread := true, parent := some main } with
    stackBase := update l.stackBase np stack }

/-- `p` goes to sleep in call `b`. -/
def asleep (l : Life) (p : Slot) (b : Blocked) : Life :=
  (l.set p { l.proc p with state := .sleeping, chan := .proc p }).block p (some b)

end Life

/-- The calls that change the life of no slot. -/
def Call.plain : Call → Bool
  | .growproc _ | .open _ | .dup _ | .close _ | .exec .. | .kill _ => true
  | .fork | .clone _ | .exit _ | .join _ | .wait _ => false

/-- The calls that make a slot. -/
def Call.creates : Call → Bool
  | .fork | .clone _ => true
  | _ => false

/-- What a system call by `p` may do, and return. -/
inductive CallEffect (p : Slot) (l : Life) : Call → Option Int → Life → Prop where
  /-- A call that concerns memory or files, or fails. -/
  | plain {call : Call} {r : Option Int} (h : call.plain = true) : CallEffect p l call r l
  /-- There is no slot for a new process or thread. -/
  | full {call : Call} (h : call.creates = true) : CallEffect p l call (some (-1)) l
  /-- There is no memory for it; a pid is spent. -/
  | forkFailed {np : Slot} {b : Option Blocked} (h : (l.proc np).state = .unused)
      (hb : b = none ∨ b = l.blocked np) :
      CallEffect p l .fork (some (-1)) ((l.spend.set np {}).block np b)
  | fork {np : Slot} (h : (l.proc np).state = .unused) :
      CallEffect p l .fork (some l.nextpid) (l.born np (some p))
  | cloneFailed {np : Slot} {stack : Nat} (h : (l.proc np).state = .unused) :
      CallEffect p l (.clone stack) (some (-1))
        (l.spend.set np { l.proc np with pid := l.nextpid, killed := false })
  | clone {np main : Slot} {stack : Nat} (h : (l.proc np).state = .unused)
      (hmain : (l.proc p).mainThread = some main) :
      CallEffect p l (.clone stack) (some l.nextpid) (l.cloned p main np stack)
  | exec {main : Slot} {file : Option ElfFile} {argv : List (List Byte)} {argc : Nat}
      (hmain : (l.proc p).mainThread = some main)
      (hchildless : (l.lone p).Childless ((l.lone p).proc main).pid) :
      CallEffect p l (.exec file argv) (some (argc : Int)) (l.execed p main)
  /-- The main thread exits, and with it the threads. -/
  | exitMain {status : Int} (hinit : l.initproc ≠ some p) (hmain : (l.proc p).isThread = false)
      (hchildless : l.Childless (l.proc p).pid) :
      CallEffect p l (.exit status) none ((l.sweep (l.proc p).pid).died p)
  | exitThread {status : Int} (hinit : l.initproc ≠ some p)
      (hthread : (l.proc p).isThread = true) : CallEffect p l (.exit status) none (l.died p)
  | kill {q main : Slot} {pid : Int} (hpid : (l.proc q).pid = pid)
      (hmain : (l.proc q).mainThread = some main) :
      CallEffect p l (.kill pid) (some 0) (l.set main { l.proc main with
        killed := true
        state := if (l.proc main).state = .sleeping then .runnable else (l.proc main).state })
  /-- `paull04_join` finds no thread, or is killed. -/
  | joinEnds {stack : Nat} : CallEffect p l (.join stack) (some (-1)) (l.block p none)
  | join {np : Slot} {stack : Nat} (h : l.exitedThread p = some np)
      (hchildless : ∀ q, (l.proc q).parent ≠ some np) :
      CallEffect p l (.join stack) (some (l.proc np).pid) ((l.block p none).set np {})
  | joinSleeps {stack : Nat} (h : l.exitedThread p = none) :
      CallEffect p l (.join stack) none (l.asleep p (.join stack))
  /-- `wait` finds no child, is killed, or cannot copy the status. -/
  | waitEnds {addr : Nat} : CallEffect p l (.wait addr) (some (-1)) (l.block p none)
  | wait {pp : Slot} {addr : Nat} (hparent : (l.proc pp).parent = some p)
      (hthread : (l.proc pp).isThread = false) (hzombie : (l.proc pp).state = .zombie) :
      CallEffect p l (.wait addr) (some (l.proc pp).pid) ((l.block p none).set pp {})
  | waitSleeps {addr : Nat} : CallEffect p l (.wait addr) none (l.asleep p (.wait addr))

/-- The call that a process goes on with after its `sleep` returns. -/
def Blocked.call : Blocked → Call
  | .wait addr => .wait addr
  | .join stack => .join stack

/-- The call that is made for `p`: a killed process exits instead. -/
def Life.trapped (l : Life) (p : Slot) (call : Call) : Call :=
  if (l.proc p).killed then .exit (-1) else call

/-- What an event may do, and what its call returns. -/
inductive LifeStep (l : Life) : Event → Option Int → Life → Prop where
  | idle {e : Event} : LifeStep l e none l
  | userinit {np : Slot} (hinit : l.initproc = none) (h : (l.proc np).state = .unused) :
      LifeStep l .userinit none
        { l.born np (l.proc np).parent with initproc := some np }
  | schedule {p : Slot} (h : (l.proc p).state = .runnable) :
      LifeStep l (.schedule p) none (l.set p { l.proc p with state := .running, chan := .null })
  | yield {p : Slot} (h : (l.proc p).state = .running) :
      LifeStep l (.yield p) none (l.set p { l.proc p with state := .runnable })
  | sleep {p : Slot} {chan : Chan} (h : (l.proc p).state = .running)
      (hblocked : l.blocked p = none) :
      LifeStep l (.sleep p chan) none (l.set p { l.proc p with state := .sleeping, chan := chan })
  | wakeup {p : Slot} {chan : Chan} : LifeStep l (.wakeup p chan) none (l.wake p chan)
  | call {p : Slot} {call : Call} {r : Option Int} {l' : Life} (h : (l.proc p).state = .running)
      (hblocked : l.blocked p = none) (heffect : CallEffect p l (l.trapped p call) r l') :
      LifeStep l (.call p call) r l'
  | resume {p : Slot} {b : Blocked} {r : Option Int} {l' : Life}
      (h : (l.proc p).state = .running) (hblocked : l.blocked p = some b)
      (heffect : CallEffect p l b.call r l') : LifeStep l (.resume p) r l'

/-! ## What leaves the life of the slots alone -/

/-- The life of all slots is as before. -/
structure SameLife (s s' : System) : Prop where
  life : life s' = life s

instance : Std.Refl SameLife := ⟨fun _ => ⟨rfl⟩⟩

instance : IsTrans System SameLife := ⟨fun _ _ _ h h' => ⟨h'.life.trans h.life⟩⟩

/-- Code that the life cycle does not see, inside a longer piece. -/
theorem wp_unseen {code : Code α} {Q : α → System → Prop} (h : Respects SameLife E code)
    (hQ : ∀ a s', life s' = life s → Q a s') : wp code E Q s :=
  h.next fun a s' hs' => hQ a s' hs'.life

theorem unseen_on_mem (code : MemCode α) : Respects SameLife Fault.any (onMem code) := by
  intro s
  rw [wp_on_mem]
  exact wp_mono (wp_any code) fun _ _ _ => ⟨rfl⟩

theorem unseen_modify {f : System → System} (h : ∀ s, life (f s) = life s) :
    Respects SameLife E (modify f : Code Unit) := fun s => ⟨h s⟩

theorem life_set_proc {t : Task} (h : t.stackBase = (s.proc p).stackBase) :
    life { s with proc := update s.proc p t } = (life s).set p t.toProc := by
  refine Life.ext (funext fun q => ?_) (funext fun q => ?_) rfl rfl rfl
  · by_cases hq : q = p
    · subst hq
      simp [life, Life.set]
    · simp [life, Life.set, hq]
  · by_cases hq : q = p
    · subst hq
      simpa [life, Life.set] using h
    · simp [life, Life.set, hq]

theorem Life.set_same (l : Life) (p : Slot) : l.set p (l.proc p) = l := by
  unfold Life.set
  rw [update_eq_self]

theorem unseen_set_proc {f : Task → Task} (hproc : ∀ t, (f t).toProc = t.toProc)
    (hstack : ∀ t, (f t).stackBase = t.stackBase) : Respects SameLife E (setProc p f) := by
  intro s
  refine ⟨?_⟩
  rw [life_set_proc (hstack _), hproc]
  exact Life.set_same (life s) p

theorem unseen_of_files {code : Code α} (h : Respects FilesOnly F code) :
    Respects SameLife Fault.any code := by
  refine fun s => h.then (fun _ _ => trivial) fun _ s' hs' => ⟨Life.ext ?_ ?_ ?_ ?_ ?_⟩
  · exact funext fun q => (congrArg Task.toProc (hs'.proc q)).trans rfl
  · exact funext fun q => (congrArg Task.stackBase (hs'.proc q)).trans rfl
  all_goals
    rw [hs'.rest]
    rfl

theorem unseen_release : Respects SameLife E releaseWaitLock := unseen_modify fun _ => rfl

theorem unseen_acquire (p : Slot) : Respects SameLife Fault.any (acquireWaitLock p) :=
  fun _ => wp_acquire (fun _ => ⟨rfl⟩) trivial trivial

theorem unseen_proc_pagetable (p : Slot) : Respects SameLife Fault.any (procPagetable p) :=
  respects_proc_pagetable unseen_on_mem (unseen_set_proc (fun _ => rfl) fun _ => rfl)

theorem unseen_proc_freepagetable (owner : Ptr) (t : TableId) (sz : Nat) :
    Respects SameLife Fault.any (procFreepagetable owner t sz) :=
  respects_proc_freepagetable unseen_on_mem owner t sz

theorem unseen_build_image (p : Slot) (file : ElfFile) (argv : List (List Byte)) :
    Respects SameLife Fault.any (buildImage p file argv) := fun s =>
  wp_build_image_of (R := fun _ _ _ => True) (fun _ s1 => SameLife s s1) (Std.Refl.refl s)
    (wp_mono (unseen_proc_pagetable p s) fun _ _ h => ⟨fun _ => h, fun _ _ => h⟩)
    (fun _ _ _ _ => wp_any _) (fun _ _ _ _ => wp_any _) (fun _ _ _ h _ => ⟨h.life⟩)
    (fun t sz s1 h => wp_mono (unseen_proc_freepagetable none t sz s1) fun _ _ h' =>
      IsTrans.trans _ _ _ h h') fun _ _ _ _ h => h

theorem unseen_growproc (p : Slot) (n : Int) : Respects SameLife Fault.any (growproc p n) := by
  refine respects_growproc unseen_on_mem n (unseen_acquire p)
    (fun _ _ => unseen_set_proc (fun _ => rfl) fun _ => rfl) (fun main sz => ?_) unseen_release
  refine unseen_modify fun s => Life.ext (funext fun q => ?_) (funext fun q => ?_) rfl rfl rfl
  · show Task.toProc (if _ then _ else _) = _
    split <;> rfl
  · show Task.stackBase (if _ then _ else _) = _
    split <;> rfl

/-! ## Slots that come and go -/

theorem wp_life_set {f : Task → Task} (hstack : ∀ t, (f t).stackBase = t.stackBase)
    (hQ : ∀ s', life s' = (life s).set p (f (s.proc p)).toProc → Q () s') :
    wp (setProc p f) E Q s :=
  (wp_set_proc p f).mpr (hQ _ (life_set_proc (hstack _)))

theorem wp_freeproc_life (hQ : ∀ s', life s' = (life s).set p {} → Q () s') :
    wp (freeproc p) Fault.any Q s := by
  have hend : ∀ s1 : System, life s1 = life s → wp (setProc p Task.cleared) Fault.any Q s1 := by
    intro s1 h1
    refine wp_life_set (fun _ => rfl) fun s' hs' => hQ s' ?_
    rw [hs', h1]
    rfl
  have htable : ∀ s1 : System, life s1 = life s → wp (freeprocEnd p (s.proc p)) Fault.any Q s1 := by
    intro s1 h1
    unfold freeprocEnd
    cases (s.proc p).pagetable with
    | none => exact hend s1 h1
    | some t =>
      refine (wp_bind _ _).mpr (wp_unseen (unseen_proc_freepagetable _ _ _) fun _ s2 h2 => ?_)
      exact hend s2 (h2.trans h1)
  unfold freeproc
  rw [wp_bind, wp_get]
  cases (s.proc p).trapframe with
  | none => exact htable s rfl
  | some page =>
    refine (wp_bind _ _).mpr (wp_unseen (unseen_on_mem _) fun _ s1 h1 => ?_)
    exact htable s1 h1

theorem wp_allocproc_life {Q : Bool → System → Prop}
    (hfail : ∀ s', life s' = (life s).spend.set np {} → Q false s')
    (hdone : ∀ s', life s' = (life s).taken np
      { (life s).proc np with pid := s.nextpid, state := .used } → Q true s') :
    wp (allocproc np) Fault.any Q s := by
  unfold allocproc allocpid
  simp only [wp_bind, wp_get, wp_set, wp_pure]
  refine wp_life_set (fun _ => rfl) fun s1 h1 => ?_
  have hundo : ∀ s2 : System, life s2 = life s1 → wp (do
      freeproc np
      pure false : Code Bool) Fault.any Q s2 := by
    intro s2 h2
    refine (wp_bind _ _).mpr (wp_freeproc_life fun s3 h3 => hfail s3 ?_)
    rw [h3, h2, h1]
    unfold Life.set
    simp only [update_idem]
    rfl
  refine wp_unseen (unseen_on_mem _) fun page s2 h2 => ?_
  cases page with
  | none => exact hundo s2 h2
  | some page =>
    rw [wp_bind]
    refine wp_unseen (unseen_set_proc (fun _ => rfl) fun _ => rfl) fun _ s3 h3 => ?_
    rw [wp_bind]
    refine wp_unseen (unseen_proc_pagetable np) fun t s4 h4 => ?_
    have h24 : life s4 = life s1 := h4.trans (h3.trans h2)
    cases t with
    | none => exact hundo s4 h24
    | some t =>
      rw [wp_bind]
      refine wp_unseen (unseen_set_proc (fun _ => rfl) fun _ => rfl) fun _ s5 h5 => ?_
      refine hdone _ ?_
      show (life s5).block np none = _
      rw [h5, h24, h1]
      rfl

theorem wp_allocthread_life {Q : Bool → System → Prop} (hunused : (s.proc np).state = .unused)
    (hfail : ∀ s', life s' = (life s).spend.set np
      { (life s).proc np with pid := s.nextpid, killed := false } → Q false s')
    (hdone : ∀ s', life s' = (life s).taken np
      { (life s).proc np with pid := s.nextpid, state := .used, killed := false } → Q true s') :
    wp (allocthread np) Fault.any Q s := by
  unfold allocthread allocpid
  simp only [wp_bind, wp_get, wp_set, wp_pure]
  refine wp_life_set (fun _ => rfl) fun s1 h1 => ?_
  refine wp_unseen (unseen_on_mem _) fun page s2 h2 => ?_
  cases page with
  | none =>
    rw [wp_bind]
    refine wp_life_set (fun _ => rfl) fun s3 h3 => hfail s3 ?_
    have hproc : (s2.proc np).toProc = { (life s).proc np with
        pid := s.nextpid, state := .used, killed := false } := by
      show (life s2).proc np = _
      rw [h2, h1]
      exact update_self ..
    have hslot : ({ s2.proc np with state := .unused } : Task).toProc = { (life s).proc np with
        pid := s.nextpid, killed := false } := by
      show ({ (s2.proc np).toProc with state := .unused } : Proc) = _
      rw [hproc]
      show _ = ({ (life s).proc np with pid := s.nextpid, killed := false } : Proc)
      have hstate : ((life s).proc np).state = .unused := hunused
      rw [← hstate]
    rw [h3, hslot, h2, h1]
    unfold Life.set
    simp only [update_idem]
    rfl
  | some page =>
    rw [wp_bind]
    refine wp_unseen (unseen_set_proc (fun _ => rfl) fun _ => rfl) fun _ s3 h3 => ?_
    refine hdone _ ?_
    show (life s3).block np none = _
    rw [h3, h2, h1]
    rfl

theorem life_wakeup (self : Slot) (chan : Chan) :
    wp (wakeup self chan) E (fun _ s' => life s' = (life s).wake self chan) s := by
  refine Life.ext (funext fun q => ?_) (funext fun q => ?_) rfl rfl rfl
  · exact apply_ite Task.toProc _ _ _
  · show Task.stackBase (if _ then _ else _) = _
    split <;> rfl

theorem life_reparent (self p : Slot) :
    wp (reparent self p) E (fun _ s' => life s' = (life s).reparent self p) s := by
  unfold reparent
  rw [wp_bind, wp_get, wp_ite]
  constructor
  · intro hchild
    rw [wp_bind, wp_set]
    refine wp_mono (life_wakeup self _) fun _ s' hs' => ?_
    have hchild' : ∃ q, ((life s).proc q).parent = some p := hchild
    rw [hs', Life.reparent, if_pos hchild']
    congr 1
    refine Life.ext (funext fun q => ?_) (funext fun q => ?_) rfl rfl rfl
    · exact apply_ite Task.toProc _ _ _
    · show Task.stackBase (if _ then _ else _) = _
      split <;> rfl
  · intro hchild
    have hchild' : ¬ ∃ q, ((life s).proc q).parent = some p := hchild
    show life s = (life s).reparent self p
    rw [Life.reparent, if_neg hchild']

/-- `freethread` with the lock of the slot held frees the slot, and panics if it has children. -/
theorem wp_freethread_life
    (hQ : ∀ s', (∀ q, ((life s).proc q).parent ≠ some p) → life s' = (life s).set p {} → Q () s') :
    wp (freethread self p true) Fault.any Q s := by
  simp only [freethread, wp_bind, wp_get]
  split
  next => exact trivial
  next hlocked =>
    have hchild : ¬ ∃ q, ((life s).proc q).parent = some p := fun h => hlocked ⟨trivial, h⟩
    have hchildless : ∀ q, ((life s).proc q).parent ≠ some p := fun q hq => hchild ⟨q, hq⟩
    have hend : ∀ s1 : System, life s1 = life s →
        wp (freethreadEnd p (s.proc p)) Fault.any Q s1 := by
      intro s1 h1
      unfold freethreadEnd
      cases (s.proc p).trapframe with
      | none => exact trivial
      | some page =>
        refine (wp_bind _ _).mpr (wp_unseen (unseen_on_mem _) fun _ s2 h2 => ?_)
        refine wp_life_set (fun _ => rfl) fun s' hs' => hQ s' hchildless ?_
        rw [hs', h2, h1]
        rfl
    refine wp_seq (life_reparent self p) fun _ s1 h1 => ?_
    rw [Life.reparent, if_neg hchild] at h1
    unfold clearThread
    split
    next =>
      rw [wp_bind]
      refine wp_unseen (respects_deref _) fun t s2 h2 => ?_
      rw [wp_bind]
      refine wp_unseen (unseen_on_mem _) fun _ s3 h3 => ?_
      exact hend s3 (h3.trans (h2.trans h1))
    next => exact hend s1 h1

theorem Life.set_proc_self (l : Life) (p : Slot) (x : Proc) : (l.set p x).proc p = x :=
  update_self ..

theorem Life.set_proc_ne (l : Life) {p q : Slot} (x : Proc) (h : q ≠ p) :
    (l.set p x).proc q = l.proc q := update_of_ne h _ _

/-- The threads below slot `k` are freed. -/
def Life.sweptBelow (l : Life) (pid : Int) (k : Nat) : Life :=
  { l with proc := fun q => if q.val < k ∧ l.InGroup pid q then {} else l.proc q }

theorem Life.swept_below_succ (l : Life) (pid : Int) (k : Slot) :
    l.sweptBelow pid (k + 1) =
      if l.InGroup pid k then (l.sweptBelow pid k).set k {} else l.sweptBelow pid k := by
  have hproc : ∀ q : Slot, q ≠ k →
      (l.sweptBelow pid (k + 1)).proc q = (l.sweptBelow pid k).proc q := by
    intro q hq
    have hne : q.val ≠ k.val := fun heq => hq (Fin.ext heq)
    have hlt : q.val < k.val + 1 ∧ l.InGroup pid q ↔ q.val < k.val ∧ l.InGroup pid q :=
      and_congr_left fun _ => by omega
    exact if_congr hlt rfl rfl
  split
  next hk =>
    refine Life.ext (funext fun q => ?_) rfl rfl rfl rfl
    by_cases hq : q = k
    · subst hq
      rw [Life.set_proc_self]
      exact if_pos ⟨Nat.lt_succ_self _, hk⟩
    · rw [Life.set_proc_ne _ _ hq]
      exact hproc q hq
  next hk =>
    refine Life.ext (funext fun q => ?_) rfl rfl rfl rfl
    by_cases hq : q = k
    · subst hq
      exact (if_neg fun h => hk h.2).trans (if_neg fun h => hk h.2).symm
    · exact hproc q hq

/-- `cleanAllThreads` for a main thread frees the threads of its process. -/
theorem wp_clean_life (hmain : (s.proc main).isThread = false)
    (hQ : ∀ s', (life s).Childless (s.proc main).pid →
      life s' = (life s).sweep (s.proc main).pid → Q () s') :
    wp (cleanAllThreads self main) Fault.any Q s := by
  obtain ⟨pid, hpid⟩ : ∃ pid, pid = (s.proc main).pid := ⟨_, rfl⟩
  unfold cleanAllThreads
  rw [wp_bind]
  refine wp_unseen (unseen_acquire self) fun _ s1 h1 => ?_
  rw [wp_bind]
  -- before slot `k` is visited, the threads below `k` are gone, and had no children left outside
  refine wp_mono (wp_for_each (fun k s' => life s' = (life s).sweptBelow pid k ∧
    ∀ q r : Slot, q.val < k → (life s).InGroup pid q → ¬ (life s).InGroup pid r →
      ((life s).proc r).parent ≠ some q) ?_ ?_) ?_
  · intro k s2 hI
    obtain ⟨h2, hchildless⟩ := hI
    have hk : (s2.proc k).toProc = (life s).proc k := by
      show (life s2).proc k = _
      rw [h2]
      simp [Life.sweptBelow]
    have hmain2 : (s2.proc main).pid = pid := by
      have hnot : ¬ (life s).InGroup pid main := fun h => by
        have htrue : (s.proc main).isThread = true := h.2
        simp [hmain] at htrue
      have hproc : (s2.proc main).toProc = (life s).proc main := by
        show (life s2).proc main = _
        rw [h2]
        simp [Life.sweptBelow, hnot]
      have hsame : (s2.proc main).toProc.pid = ((life s).proc main).pid := by rw [hproc]
      exact hsame.trans hpid.symm
    have hcond : ((s2.proc k).mainPid = (s2.proc main).pid ∧ (s2.proc k).isThread = true) ↔
        (life s).InGroup pid k := by
      unfold Life.InGroup
      rw [hmain2, ← hk]
    rw [wp_bind, wp_get, wp_ite]
    constructor
    · intro hmember
      have hgroup := hcond.mp hmember
      refine wp_freethread_life fun s3 hno h3 => ⟨?_, fun q r hq hgq hgr => ?_⟩
      · rw [h3, h2, Life.swept_below_succ, if_pos hgroup]
      · by_cases hqk : q = k
        · subst hqk
          have hparent := hno r
          rw [h2] at hparent
          simpa [Life.sweptBelow, hgr] using hparent
        · have hne : q.val ≠ k.val := fun heq => hqk (Fin.ext heq)
          exact hchildless q r (by omega) hgq hgr
    · intro hmember
      have hgroup : ¬ (life s).InGroup pid k := mt hcond.mpr hmember
      refine ⟨?_, fun q r hq hgq hgr => ?_⟩
      · rw [h2, Life.swept_below_succ, if_neg hgroup]
      · by_cases hqk : q = k
        · exact absurd (hqk ▸ hgq) hgroup
        · have hne : q.val ≠ k.val := fun heq => hqk (Fin.ext heq)
          exact hchildless q r (by omega) hgq hgr
  · refine ⟨?_, fun q r hq => absurd hq (Nat.not_lt_zero _)⟩
    rw [h1]
    refine Life.ext (funext fun q => ?_) rfl rfl rfl rfl
    simp [Life.sweptBelow]
  · intro _ s2 hI
    obtain ⟨h2, hchildless⟩ := hI
    refine wp_unseen unseen_release fun _ s3 h3 => hQ s3 ?_ ?_
    · rw [← hpid]
      exact fun q r => hchildless q r q.isLt
    · rw [h3, h2, ← hpid]
      refine Life.ext (funext fun q => ?_) rfl rfl rfl rfl
      simp [Life.sweptBelow, Life.sweep]

/-! ## System calls -/

theorem unused_of_slot {s : System} {found : Slot → Bool} (h : firstSlot found = some np)
    (hfound : found np = true → (s.proc np).state = .unused) :
    ((life s).proc np).state = .unused := hfound (first_slot_some h)

theorem Life.taken_set (l : Life) (np : Slot) (x y : Proc) :
    (l.taken np x).set np y = l.taken np y := by
  unfold Life.taken Life.block Life.set
  simp only [update_idem]

theorem Life.taken_self (l : Life) (np : Slot) (x : Proc) : (l.taken np x).proc np = x :=
  update_self ..

theorem Life.taken_ne (l : Life) {np q : Slot} (x : Proc) (h : q ≠ np) :
    (l.taken np x).proc q = l.proc q := update_of_ne h _ _

/-- `startChild` makes the USED slot `np` a child of `p`. -/
theorem wp_start_child_life {l : Life} {x : Proc} {Q : Int → System → Prop}
    (hlife : life s = l.taken np x)
    (hQ : ∀ s', life s' = l.taken np { x with
      parent := some p, state := .runnable, isThread := false, mainPid := x.pid,
      mainThread := some np } → Q x.pid s') :
    wp (startChild p np) Fault.any Q s := by
  unfold startChild
  rw [wp_bind]
  refine wp_unseen (unseen_of_files (files_dup_files p np)) fun _ s1 h1 => ?_
  rw [wp_bind, wp_get, wp_bind]
  refine wp_unseen (respects_deref _) fun cwd s2 h2 => ?_
  rw [wp_bind]
  refine wp_unseen (unseen_of_files (F := Fault.never) (files_idup cwd)) fun _ s3 h3 => ?_
  rw [wp_bind]
  refine wp_unseen (unseen_set_proc (fun _ => rfl) fun _ => rfl) fun _ s4 h4 => ?_
  rw [wp_bind]
  refine wp_unseen (unseen_acquire p) fun _ s5 h5 => ?_
  have hlife1 : life s1 = l.taken np x := h1.trans hlife
  have hlife5 : life s5 = l.taken np x := by rw [h5, h4, h3, h2, hlife1]
  have hnp5 : (s5.proc np).toProc = x := by
    show (life s5).proc np = x
    rw [hlife5, Life.taken_self]
  rw [wp_bind]
  refine wp_life_set (fun _ => rfl) fun s6 h6 => ?_
  have hlife6 : life s6 = l.taken np { x with parent := some p } := by
    rw [h6, hlife5, Life.taken_set]
    show l.taken np { (s5.proc np).toProc with parent := some p } = _
    rw [hnp5]
  rw [wp_bind]
  refine wp_unseen unseen_release fun _ s7 h7 => ?_
  have hnp7 : (s7.proc np).toProc = { x with parent := some p } := by
    show (life s7).proc np = _
    rw [h7, hlife6, Life.taken_self]
  rw [wp_bind]
  refine wp_life_set (fun _ => rfl) fun s8 h8 => ?_
  have hpid : (s1.proc np).pid = x.pid := by
    show ((life s1).proc np).pid = x.pid
    rw [hlife1, Life.taken_self]
  rw [wp_pure, hpid]
  refine hQ s8 ?_
  rw [h8, h7, hlife6, Life.taken_set]
  show l.taken np { (s7.proc np).toProc with
    state := .runnable, isThread := false, mainPid := (s7.proc np).toProc.pid,
    mainThread := some np } = _
  rw [hnp7]

theorem fork_effect (p : Slot) :
    wp (fork p) Fault.any (fun r s' => CallEffect p (life s) .fork (some r) (life s')) s := by
  unfold fork unusedSlot
  rw [wp_bind, wp_bind, wp_get, wp_pure]
  split
  next => exact .full rfl
  next np hnp =>
    have hunused := unused_of_slot (s := s) hnp (by simp)
    rw [wp_bind]
    refine wp_allocproc_life (fun s1 h1 => ?_) fun s1 h1 => ?_
    · show CallEffect p (life s) .fork (some (-1)) (life s1)
      rw [h1]
      have hsame : (life s).spend.set np {} =
          ((life s).spend.set np {}).block np ((life s).blocked np) := by
        unfold Life.block
        refine Life.ext rfl rfl (update_eq_self ..).symm rfl rfl
      rw [hsame]
      exact .forkFailed hunused (Or.inr rfl)
    · simp only [if_true, wp_bind, wp_get]
      refine wp_unseen (respects_deref _) fun old s2 h2 => ?_
      refine wp_unseen (respects_deref _) fun new s3 h3 => ?_
      refine wp_unseen (unseen_on_mem _) fun copied s4 h4 => ?_
      have hlife4 : life s4 = life s1 := by rw [h4, h3, h2]
      cases copied with
      | false =>
        simp only [Bool.false_eq_true, if_false, wp_bind]
        refine wp_freeproc_life fun s5 h5 => ?_
        show CallEffect p (life s) .fork (some (-1)) (life s5)
        rw [h5, hlife4, h1, Life.taken_set]
        exact .forkFailed hunused (Or.inl rfl)
      | true =>
        simp only [if_true, wp_bind]
        refine wp_unseen (unseen_set_proc (fun _ => rfl) fun _ => rfl) fun _ s5 h5 => ?_
        refine wp_start_child_life ((h5.trans hlife4).trans h1) fun s6 h6 => ?_
        rw [h6]
        exact .fork hunused

/-- Slot `p` keeps its life but for the stack it was cloned with. -/
theorem life_set_stack {t : Task} (h : t.toProc = (s.proc p).toProc) :
    life { s with proc := update s.proc p t } =
      { life s with stackBase := update (life s).stackBase p t.stackBase } := by
  refine Life.ext (funext fun q => ?_) (funext fun q => ?_) rfl rfl rfl
  · by_cases hq : q = p
    · subst hq
      simpa [life] using h
    · simp [life, hq]
  · by_cases hq : q = p
    · subst hq
      simp [life]
    · simp [life, hq]

theorem wp_place_thread_life {stack : Nat}
    (hQ : ∀ s', life s' =
      { life s with stackBase := update (life s).stackBase np stack } → Q () s') :
    wp (placeThread p main np stack) E Q s := by
  unfold placeThread
  rw [wp_bind]
  refine wp_unseen (unseen_set_proc (fun _ => rfl) fun _ => rfl) fun _ s1 h1 => ?_
  rw [wp_bind, wp_get, wp_set_proc]
  refine hQ _ ?_
  rw [life_set_stack, h1]
  rfl

theorem unseen_map_trapframe (p np : Slot) : Respects SameLife Fault.any (mapTrapframe p np) :=
  .get fun s => Respects.bind (respects_deref _) (fun _ => unseen_on_mem _) s

/-- `startThread` makes slot `np` a thread of the process `main`. -/
theorem wp_start_thread_life {Q : Int → System → Prop}
    (hQ : ∀ s', life s' = (life s).set np { (life s).proc np with
      state := .runnable, mainPid := ((life s).proc p).mainPid, mainThread := some main,
      isThread := true, parent := some main } → Q ((life s).proc np).pid s') :
    wp (startThread p main np) Fault.any Q s := by
  unfold startThread
  rw [wp_bind]
  refine wp_unseen (unseen_of_files (files_dup_files p np)) fun _ s1 h1 => ?_
  rw [wp_bind, wp_get, wp_bind]
  refine wp_unseen (respects_deref _) fun cwd s2 h2 => ?_
  rw [wp_bind]
  refine wp_unseen (unseen_of_files (F := Fault.never) (files_idup cwd)) fun _ s3 h3 => ?_
  rw [wp_bind]
  refine wp_life_set (fun _ => rfl) fun s4 h4 => ?_
  have hlife3 : life s3 = life s := by rw [h3, h2, h1]
  have hpid : (s1.proc np).pid = ((life s).proc np).pid := by
    rw [← h1]
    rfl
  rw [wp_pure, hpid]
  refine hQ s4 ?_
  rw [h4, hlife3]
  show (life s).set np { (life s3).proc np with
    state := .runnable, mainPid := ((life s1).proc p).mainPid, mainThread := some main,
    isThread := true, parent := some main } = _
  rw [hlife3, h1]

theorem clone_effect (p : Slot) (stack : Nat) :
    wp (clone p stack) Fault.any
      (fun r s' => CallEffect p (life s) (.clone stack) (some r) (life s')) s := by
  unfold clone unusedSlot
  rw [wp_bind, wp_bind, wp_get, wp_pure]
  split
  next => exact .full rfl
  next np hnp =>
    have hunused := unused_of_slot (s := s) hnp (by simp)
    rw [wp_bind]
    refine wp_allocthread_life hunused (fun s1 h1 => ?_) fun s1 h1 => ?_
    · show CallEffect p (life s) (.clone stack) (some (-1)) (life s1)
      rw [h1]
      exact .cloneFailed hunused
    · have hmain1 : (s1.proc p).mainThread = ((life s).proc p).mainThread ∧
          (s1.proc p).mainPid = ((life s).proc p).mainPid := by
        show ((life s1).proc p).mainThread = _ ∧ ((life s1).proc p).mainPid = _
        rw [h1]
        by_cases hp : p = np
        · subst hp
          rw [Life.taken_self]
          exact ⟨rfl, rfl⟩
        · rw [Life.taken_ne _ _ hp]
          exact ⟨rfl, rfl⟩
      simp only [if_true, wp_bind, wp_get]
      refine wp_deref (fun main hmain => ?_) fun _ => trivial
      refine wp_place_thread_life fun s2 h2 => ?_
      refine wp_unseen (unseen_map_trapframe p np) fun mapped s3 h3 => ?_
      cases mapped with
      | false => exact trivial
      | true =>
        refine wp_start_thread_life fun s4 h4 => ?_
        have hproc3 : (life s3).proc = (life s1).proc := by rw [h3, h2]
        have hnp1 : (life s1).proc np = { (life s).proc np with
            pid := s.nextpid, state := .used, killed := false } := by rw [h1, Life.taken_self]
        have hp3 : ((life s3).proc p).mainPid = ((life s).proc p).mainPid := by
          rw [hproc3]
          exact hmain1.2
        have hlife4 : life s4 = (life s).cloned p main np stack := by
          rw [h4, hp3, hproc3, hnp1, h3, h2, h1]
          unfold Life.cloned Life.taken Life.block Life.set
          simp only [update_idem]
          rfl
        rw [hlife4, hproc3, hnp1]
        exact .clone hunused (hmain1.1.symm.trans hmain)

theorem wp_exec_end_life {argc : Nat} {x : Task} {l : Life} (hlife : life s = l.lone p)
    (hx : x.toProc = l.proc p) (hmain : (s.proc main).isThread = false)
    (hpointer : (l.proc p).mainThread = some main) (file : Option ElfFile)
    (argv : List (List Byte)) :
    wp (execEnd p main x argc) Fault.any
      (fun r s' => CallEffect p l (.exec file argv) (some r) (life s')) s := by
  unfold execEnd
  rw [wp_bind]
  refine wp_clean_life hmain fun s1 hchildless h1 => ?_
  have hpid : (s.proc main).pid = ((l.lone p).proc main).pid := by
    rw [← hlife]
    rfl
  rw [hlife, hpid] at hchildless h1
  have heffect : ∀ s' : System, life s' = l.execed p main →
      CallEffect p l (.exec file argv) (some (argc : Int)) (life s') := by
    intro s' hs'
    rw [hs']
    exact .exec hpointer hchildless
  rw [show x.pid = (l.proc p).pid from congrArg Proc.pid hx,
    show x.mainPid = (l.proc p).mainPid from congrArg Proc.mainPid hx]
  split
  next hown =>
    rw [wp_bind]
    refine wp_unseen (respects_deref _) fun t s2 h2 => ?_
    rw [wp_bind]
    refine wp_unseen (unseen_proc_freepagetable _ _ _) fun _ s3 h3 => heffect s3 ?_
    rw [h3, h2, h1, Life.execed, if_pos hown]
  next hown =>
    rw [wp_bind]
    refine wp_life_set (fun _ => rfl) fun s2 h2 => heffect s2 ?_
    rw [h2, Life.execed, if_neg hown, ← h1]
    rfl

theorem exec_effect (file : Option ElfFile) (argv : List (List Byte))
    (hmain : ∀ main, (s.proc p).mainThread = some main → (s.proc main).isThread = false) :
    wp (exec p file argv) Fault.any
      (fun r s' => CallEffect p (life s) (.exec file argv) (some r) (life s')) s := by
  have hplain : ∀ (r : Int) (s' : System), life s' = life s →
      CallEffect p (life s) (.exec file argv) (some r) (life s') := by
    intro r s' hs'
    rw [hs']
    exact .plain rfl
  -- what follows the removal of the caller's own trapframe
  have hrest : ∀ s1 : System, life s1 = life s →
      wp (execRest p (s.proc p) file argv) Fault.any
        (fun r s' => CallEffect p (life s) (.exec file argv) (some r) (life s')) s1 := by
    intro s1 h1
    unfold execRest
    cases file with
    | none => exact hplain _ s1 h1
    | some file =>
      rw [wp_bind]
      refine wp_unseen (unseen_build_image p file argv) fun image s2 h2 => ?_
      cases image with
      | none => exact hplain _ s2 (h2.trans h1)
      | some image =>
        obtain ⟨t, sz, argc⟩ := image
        rw [wp_bind]
        refine wp_deref (fun main hpointer => ?_) fun _ => trivial
        rw [wp_bind]
        refine wp_life_set (fun _ => rfl) fun s3 h3 => ?_
        have hlone : life s3 = (life s).lone p := by
          rw [h3, h2, h1]
          show (life s).set p { (life s2).proc p with
            mainPid := ((life s2).proc p).pid, mainThread := some p, isThread := false } = _
          rw [h2, h1]
          rfl
        refine wp_exec_end_life hlone rfl ?_ hpointer _ _
        show ((life s3).proc main).isThread = false
        rw [hlone]
        by_cases hp : main = p
        · subst hp
          rw [Life.lone, Life.set_proc_self]
        · rw [Life.lone, Life.set_proc_ne _ _ hp]
          exact hmain main hpointer
  simp only [exec, wp_bind, wp_get]
  split
  next =>
    rw [wp_bind]
    refine wp_unseen (respects_deref _) fun t s1 h1 => ?_
    rw [wp_bind]
    refine wp_unseen (unseen_on_mem _) fun _ s2 h2 => ?_
    exact hrest s2 (h2.trans h1)
  next => exact hrest s rfl

theorem wp_exit_rest_life (p : Slot) (status : Int) :
    wp (exitRest p status) Fault.any (fun _ s' => life s' = (life s).died p) s := by
  unfold exitRest
  rw [wp_bind]
  refine wp_unseen (unseen_of_files (files_close_files p)) fun _ s1 h1 => ?_
  rw [wp_bind, wp_get, wp_bind]
  refine wp_unseen (respects_deref _) fun cwd s2 h2 => ?_
  rw [wp_bind]
  refine wp_unseen (unseen_of_files (F := Fault.never) (files_iput cwd)) fun _ s3 h3 => ?_
  rw [wp_bind]
  refine wp_unseen (unseen_set_proc (fun _ => rfl) fun _ => rfl) fun _ s4 h4 => ?_
  rw [wp_bind]
  refine wp_unseen (unseen_acquire p) fun _ s5 h5 => ?_
  refine wp_seq (life_reparent p p) fun _ s6 h6 => ?_
  rw [wp_bind, wp_get]
  refine wp_seq (life_wakeup p _) fun _ s7 h7 => ?_
  rw [wp_bind]
  refine wp_life_set (fun _ => rfl) fun s8 h8 => ?_
  refine wp_unseen unseen_release fun _ s9 h9 => ?_
  have hlife6 : life s6 = (life s).reparent p p := by rw [h6, h5, h4, h3, h2, h1]
  have hlife7 : life s7 = ((life s).reparent p p).wake p
      (.ofPtr (((life s).reparent p p).proc p).parent) := by
    rw [h7, hlife6, ← hlife6]
    rfl
  rw [h9, h8, Life.died, ← hlife7]
  rfl

theorem exit_effect (p : Slot) (status : Int) :
    wp (exit p status) Fault.any
      (fun _ s' => CallEffect p (life s) (.exit status) none (life s')) s := by
  simp only [exit, wp_bind, wp_get]
  split
  next => exact trivial
  next hinit =>
    cases hthread : (s.proc p).isThread with
    | true =>
      simp only [Bool.true_eq_false, if_false]
      refine wp_mono (wp_exit_rest_life p status) fun _ s1 h1 => ?_
      rw [h1]
      exact .exitThread hinit hthread
    | false =>
      simp only [if_true, wp_bind]
      refine wp_clean_life hthread fun s1 hchildless h1 => ?_
      refine wp_mono (wp_exit_rest_life p status) fun _ s2 h2 => ?_
      rw [h2, h1]
      exact .exitMain hinit hthread hchildless

theorem kill_effect (p : Slot) (pid : Int) :
    wp (kill pid) Fault.any
      (fun r s' => CallEffect p (life s) (.kill pid) (some r) (life s')) s := by
  unfold kill
  rw [wp_bind, wp_get]
  split
  next => exact .plain rfl
  next q hq =>
    have hpid : (s.proc q).pid = pid := by simpa using first_slot_some hq
    rw [wp_bind]
    refine wp_deref (fun main hmain => ?_) fun _ => trivial
    rw [wp_bind]
    refine wp_life_set (fun _ => rfl) fun s1 h1 => ?_
    show CallEffect p (life s) (.kill pid) (some 0) (life s1)
    rw [h1]
    exact .kill hpid hmain

theorem wp_scan_end_life {havekids : Bool} {call : Blocked} {Q : Option Int → System → Prop}
    (hends : ∀ s', life s' = life s → Q (some (-1)) s')
    (hsleeps : ∀ s', life s' = (life s).asleep p call → Q none s') :
    wp (scanEnd p havekids call) E Q s := by
  unfold scanEnd
  rw [wp_bind, wp_get, wp_bind]
  refine wp_unseen unseen_release fun _ s1 h1 => ?_
  split
  next => exact hends s1 h1
  next =>
    rw [wp_bind]
    refine wp_life_set (fun _ => rfl) fun s2 h2 => ?_
    rw [wp_bind, wp_modify, wp_pure]
    refine hsleeps _ ?_
    show (life s2).block p (some call) = _
    rw [h2, ← h1]
    rfl

theorem Life.block_asleep (l : Life) (p : Slot) (b : Blocked) :
    (l.block p none).asleep p b = l.asleep p b := by
  unfold Life.asleep Life.block Life.set
  simp only [update_idem]

/-- A call that waits starts with `wait_lock`, and no longer blocked. -/
theorem wp_awake_life {α : Type} {next : System → Code α} {Q : α → System → Prop}
    (hnext : ∀ s2, life s2 = (life s).block p none → wp (next s2) Fault.any Q s2) :
    wp (do
      acquireWaitLock p
      modify fun s => { s with blocked := update s.blocked p none }
      let s ← get
      next s) Fault.any Q s := by
  rw [wp_bind]
  refine wp_unseen (unseen_acquire p) fun _ s1 h1 => hnext _ ?_
  rw [← h1]
  rfl

theorem join_effect (p : Slot) (stack : Nat) :
    wp (join p stack) Fault.any
      (fun r s' => CallEffect p (life s) (.join stack) r (life s')) s := by
  unfold join
  refine wp_awake_life fun s2 h2 => ?_
  have hscan : (life s).exitedThread p = firstSlot fun q =>
      decide ((s2.proc q).mainPid = (s2.proc p).mainPid ∧ (s2.proc q).isThread = true) &&
        decide ((s2.proc q).state = .zombie) := by
    have hproc : (life s).proc = (life s2).proc := by
      rw [h2]
      rfl
    unfold Life.exitedThread
    rw [hproc]
    rfl
  dsimp only
  split
  next np hnp =>
    rw [← hscan] at hnp
    have hpid : (s2.proc np).pid = ((life s).proc np).pid := by
      show ((life s2).proc np).pid = _
      rw [h2]
      rfl
    unfold joinFound
    rw [wp_bind]
    refine wp_unseen (respects_deref _) fun t s3 h3 => ?_
    rw [wp_bind]
    refine wp_unseen (unseen_on_mem _) fun copied s4 h4 => ?_
    have hlife4 : life s4 = (life s).block p none := by rw [h4, h3, h2]
    cases copied with
    | false =>
      refine wp_seq (wp_any _) fun _ _ _ => ?_
      exact trivial
    | true =>
      simp only [if_true, wp_bind]
      refine wp_freethread_life fun s5 hchildless h5 => ?_
      refine wp_unseen unseen_release fun _ s6 h6 => ?_
      rw [wp_pure, h6, h5, hlife4, hpid]
      rw [hlife4] at hchildless
      exact .join hnp hchildless
  next hnone =>
    rw [← hscan] at hnone
    refine wp_scan_end_life (fun s' hs' => ?_) fun s' hs' => ?_
    · rw [hs', h2]
      exact .joinEnds
    · rw [hs', h2, Life.block_asleep]
      exact .joinSleeps hnone

theorem wait_effect (p : Slot) (addr : Nat) :
    wp (wait p addr) Fault.any
      (fun r s' => CallEffect p (life s) (.wait addr) r (life s')) s := by
  unfold wait
  refine wp_awake_life fun s2 h2 => ?_
  dsimp only
  split
  next pp hpp =>
    have hfound := first_slot_some hpp
    simp only [Bool.and_eq_true, decide_eq_true_eq] at hfound
    have hproc : (s2.proc pp).toProc = (life s).proc pp := by
      show (life s2).proc pp = _
      rw [h2]
      rfl
    -- what follows the copy of the status
    have hend : ∀ (copied : Bool) (s3 : System), life s3 = (life s).block p none →
        wp (if copied = true then do
            freeproc pp
            releaseWaitLock
            pure (some (s2.proc pp).pid)
          else do
            releaseWaitLock
            pure (some (-1))) Fault.any
          (fun r s' => CallEffect p (life s) (.wait addr) r (life s')) s3 := by
      intro copied s3 h3
      cases copied with
      | false =>
        refine (wp_bind _ _).mpr (wp_unseen unseen_release fun _ s4 h4 => ?_)
        rw [wp_pure, h4, h3]
        exact .waitEnds
      | true =>
        refine (wp_bind _ _).mpr (wp_freeproc_life fun s4 h4 => ?_)
        rw [wp_bind]
        refine wp_unseen unseen_release fun _ s5 h5 => ?_
        have hpid : (s2.proc pp).pid = ((life s).proc pp).pid := congrArg Proc.pid hproc
        rw [wp_pure, h5, h4, h3, hpid]
        rw [hproc] at hfound
        exact .wait hfound.1.1 hfound.1.2 hfound.2
    rw [wp_bind]
    refine wp_unseen (respects_deref _) fun t s3 h3 => ?_
    split
    next => exact hend true s3 (h3.trans h2)
    next =>
      rw [wp_bind]
      refine wp_unseen (unseen_on_mem _) fun copied s4 h4 => ?_
      exact hend copied s4 (by rw [h4, h3, h2])
  next =>
    refine wp_scan_end_life (fun s' hs' => ?_) fun s' hs' => ?_
    · rw [hs', h2]
      exact .waitEnds
    · rw [hs', h2, Life.block_asleep]
      exact .waitSleeps

/-! ## Events -/

/-- The return of a call that the life cycle does not see. -/
theorem wp_plain {code : Code Int} {call : Call} (hcode : Respects SameLife Fault.any code)
    (hplain : call.plain = true) :
    wp (do return some (← code)) Fault.any
      (fun r s' => CallEffect p (life s) call r (life s')) s := by
  rw [wp_bind]
  refine wp_unseen hcode fun r s' hs' => ?_
  rw [wp_pure, hs']
  exact .plain hplain

theorem syscall_effect (call : Call)
    (hmain : ∀ main, (s.proc p).mainThread = some main → (s.proc main).isThread = false) :
    wp (syscall p call) Fault.any
      (fun r s' => CallEffect p (life s) call r (life s')) s := by
  cases call with
  | fork => exact (wp_bind _ _).mpr (fork_effect p)
  | clone stack => exact (wp_bind _ _).mpr (clone_effect p stack)
  | exec file argv => exact (wp_bind _ _).mpr (exec_effect file argv hmain)
  | exit status => exact (wp_bind _ _).mpr (exit_effect p status)
  | kill pid => exact (wp_bind _ _).mpr (kill_effect p pid)
  | join stack => exact join_effect p stack
  | wait addr => exact wait_effect p addr
  | growproc n => exact wp_plain (unseen_growproc p n) rfl
  | «open» ip => exact wp_plain (unseen_of_files (files_sys_open p ip)) rfl
  | dup fd => exact wp_plain (unseen_of_files (files_sys_dup p fd)) rfl
  | close fd => exact wp_plain (unseen_of_files (files_sys_close p fd)) rfl

theorem userinit_effect (hinit : s.initproc = none) :
    wp userinit Fault.any (fun _ s' => LifeStep (life s) .userinit none (life s')) s := by
  unfold userinit unusedSlot
  rw [wp_bind, wp_bind, wp_get, wp_pure, wp_bind]
  refine wp_deref (fun np hnp => ?_) fun _ => trivial
  have hunused := unused_of_slot (s := s) hnp (by simp)
  rw [wp_bind]
  refine wp_allocproc_life (fun _ _ => trivial) fun s1 h1 => ?_
  simp only [if_true, wp_bind, wp_modify, wp_get]
  obtain ⟨s2, hs2⟩ : ∃ s2 : System, s2 = { s1 with initproc := some np } := ⟨_, rfl⟩
  have h2 : life s2 = { (life s).taken np { (life s).proc np with
      pid := s.nextpid, state := .used } with initproc := some np } := by
    rw [hs2, ← h1]
    rfl
  rw [← hs2]
  refine wp_unseen (respects_deref _) fun t s3 h3 => ?_
  refine wp_unseen (unseen_on_mem _) fun _ s4 h4 => ?_
  refine wp_unseen (unseen_of_files (F := Fault.never) (files_idup 0)) fun _ s5 h5 => ?_
  refine wp_life_set (fun _ => rfl) fun s6 h6 => ?_
  have hlife5 : life s5 = life s2 := by rw [h5, h4, h3]
  have hnp5 : (s5.proc np).toProc = { (life s).proc np with
      pid := s.nextpid, state := .used } := by
    show (life s5).proc np = _
    rw [hlife5, h2]
    exact update_self ..
  have hlife6 : life s6 = { (life s).born np ((life s).proc np).parent with
      initproc := some np } := by
    rw [h6]
    show (life s5).set np { (s5.proc np).toProc with
      state := .runnable, isThread := false, mainPid := (s5.proc np).toProc.pid,
      mainThread := some np } = _
    rw [hnp5, hlife5, h2]
    unfold Life.born Life.taken Life.block Life.set
    simp only [update_idem]
    rfl
  rw [hlife6]
  exact .userinit hinit hunused

/-- Every event of the kernel, when the groups are in order, is a step of the life cycle. -/
theorem life_step (h : Grouped (members s) s.mem) (e : Event) :
    wp (step e) Fault.any (fun r s' => LifeStep (life s) e r (life s')) s := by
  have hmain : ∀ p main, (s.proc p).state = .running → (s.proc p).mainThread = some main →
      (s.proc main).isThread = false := by
    intro p main hp hpointer
    obtain ⟨r, hr⟩ := h.main p (by simp [phase_running hp])
    have hpointer' : (members s p).mainThread = some main := hpointer
    obtain rfl : r = main := Option.some.inj (hr.pointer.symm.trans hpointer')
    exact hr.main
  cases e with
  | userinit =>
    simp only [step, wp_bind, wp_get]
    split
    next hinit =>
      rw [wp_bind]
      exact userinit_effect hinit
    next => exact .idle
  | schedule p =>
    simp only [step, wp_bind, wp_get]
    split
    next hp =>
      rw [wp_bind]
      refine wp_life_set (fun _ => rfl) fun s' hs' => ?_
      rw [wp_pure, hs']
      exact .schedule hp
    next => exact .idle
  | yield p =>
    simp only [step, wp_bind, wp_get, sched]
    split
    next hp =>
      rw [wp_bind]
      split
      next => exact trivial
      next =>
        refine wp_life_set (fun _ => rfl) fun s' hs' => ?_
        rw [wp_pure, hs']
        exact .yield hp
    next => exact .idle
  | sleep p chan =>
    simp only [step, wp_bind, wp_get, sched]
    split
    next hp =>
      rw [wp_bind]
      split
      next => exact trivial
      next =>
        refine wp_life_set (fun _ => rfl) fun s' hs' => ?_
        rw [wp_pure, hs']
        exact .sleep hp.1 hp.2
    next => exact .idle
  | wakeup p chan =>
    simp only [step, wp_bind, wp_get]
    split
    next =>
      refine wp_seq (life_wakeup p chan) fun _ s' hs' => ?_
      rw [wp_pure, hs']
      exact .wakeup
    next => exact .idle
  | call p call =>
    simp only [step, wp_bind, wp_get]
    split
    next hp =>
      refine wp_mono (syscall_effect _ fun main => hmain p main hp.1) fun r s' hs' => ?_
      exact .call hp.1 hp.2 hs'
    next => exact .idle
  | resume p =>
    simp only [step, wp_bind, wp_get]
    split
    next b hb =>
      split
      next hp =>
        cases b with
        | wait addr => exact wp_mono (wait_effect p addr) fun r s' hs' => .resume hp hb hs'
        | join stack => exact wp_mono (join_effect p stack) fun r s' hs' => .resume hp hb hs'
      next => exact .idle
    next => exact .idle

/-! ## Groups -/

/-- What the life cycle sees of the groups: every slot in use belongs to a process whose main
thread is in use too. -/
structure Family (l : Life) : Prop where
  ready : ∀ q, (l.proc q).state ≠ .used
  idle : ∀ q, (l.proc q).state = .unused → (l.proc q).isThread = false
  main : ∀ q, (l.proc q).state ≠ .unused → ∃ r, (l.proc q).mainThread = some r ∧
    (l.proc r).state ≠ .unused ∧ (l.proc r).isThread = false ∧
    (l.proc r).pid = (l.proc q).mainPid
  self : ∀ q, (l.proc q).state ≠ .unused → (l.proc q).isThread = false →
    (l.proc q).mainThread = some q

theorem Grouped.family (h : Grouped (members s) s.mem) : Family (life s) := by
  have hphase : ∀ q, ((life s).proc q).state ≠ .unused → (members s q).phase ≠ .unused :=
    fun q hq hunused => hq (phase_unused.mp hunused)
  refine ⟨fun q hq => h.ready q ?_, fun q hq => ?_, fun q hq => ?_, fun q hq => ?_⟩
  · show phaseOf (s.proc q).state = .used
    have hstate : (s.proc q).state = .used := hq
    rw [hstate]
    rfl
  · exact (h.idle q (phase_unused.mpr hq)).isThread
  · obtain ⟨r, hr⟩ := h.main q (hphase q hq)
    exact ⟨r, hr.pointer, fun hunused => hr.used (phase_unused.mpr hunused), hr.main, hr.pid⟩
  · exact h.self q (hphase q hq)

theorem Family.main_pid {l : Life} (h : Family l) (hq : (l.proc q).state ≠ .unused)
    (hmain : (l.proc q).isThread = false) : (l.proc q).mainPid = (l.proc q).pid := by
  obtain ⟨r, hpointer, -, -, hpid⟩ := h.main q hq
  have hself := h.self q hq hmain
  obtain rfl : r = q := Option.some.inj (hpointer.symm.trans hself)
  exact hpid.symm

theorem Family.used_of_thread {l : Life} (h : Family l) (hq : (l.proc q).isThread = true) :
    (l.proc q).state ≠ .unused := by
  intro hunused
  rw [h.idle q hunused] at hq
  cases hq

/-- A state after `wakeup`. -/
def Woken (before after : ProcState) : Prop :=
  after = before ∨ before = .sleeping ∧ after = .runnable

theorem Woken.unused (h : Woken st st') : st' = .unused ↔ st = .unused := by
  rcases h with rfl | ⟨rfl, rfl⟩
  · exact Iff.rfl
  · simp

theorem Woken.zombie (h : Woken st st') : st' = .zombie ↔ st = .zombie := by
  rcases h with rfl | ⟨rfl, rfl⟩
  · exact Iff.rfl
  · simp

theorem Woken.sleeping (h : Woken st st') (hs : st' = .sleeping) :
    st = .sleeping := by
  rcases h with rfl | ⟨rfl, -⟩
  · exact hs
  · rfl

theorem Life.wake_proc (l : Life) (self : Slot) (chan : Chan) (q : Slot) :
    ∃ st, (l.wake self chan).proc q = { l.proc q with state := st } ∧
      Woken (l.proc q).state st := by
  by_cases hq : q ≠ self ∧ (l.proc q).state = .sleeping ∧ (l.proc q).chan = chan
  · exact ⟨.runnable, if_pos hq, Or.inr ⟨hq.2.1, rfl⟩⟩
  · exact ⟨(l.proc q).state, if_neg hq, Or.inl rfl⟩

theorem Life.reparent_proc (l : Life) (self p q : Slot) :
    ∃ st, (l.reparent self p).proc q = { l.proc q with
        state := st
        parent := if (l.proc q).parent = some p then l.initproc else (l.proc q).parent } ∧
      Woken (l.proc q).state st := by
  unfold Life.reparent
  split
  next =>
    obtain ⟨st, hproc, hwoken⟩ := Life.wake_proc { l with
      proc := fun q =>
        if (l.proc q).parent = some p then { l.proc q with parent := l.initproc }
        else l.proc q } self (.ofPtr l.initproc) q
    refine ⟨st, hproc.trans ?_, ?_⟩
    · dsimp only
      split <;> rfl
    · dsimp only at hwoken
      split at hwoken <;> exact hwoken
  next hnone =>
    refine ⟨(l.proc q).state, ?_, Or.inl rfl⟩
    rw [if_neg fun hparent => hnone ⟨q, hparent⟩]

theorem Life.reparent_parent (l : Life) (self : Slot) (hinit : l.initproc ≠ some p) (q : Slot) :
    ((l.reparent self p).proc q).parent ≠ some p := by
  obtain ⟨st, hproc, -⟩ := l.reparent_proc self p q
  rw [hproc]
  dsimp only
  split
  · exact hinit
  · assumption

theorem Life.reparent_rest (l : Life) (self p : Slot) :
    (l.reparent self p).blocked = l.blocked ∧ (l.reparent self p).stackBase = l.stackBase ∧
      (l.reparent self p).initproc = l.initproc ∧ (l.reparent self p).nextpid = l.nextpid := by
  unfold Life.reparent
  split
  · exact ⟨rfl, rfl, rfl, rfl⟩
  · exact ⟨rfl, rfl, rfl, rfl⟩

end Xv6.Thread.Calls
