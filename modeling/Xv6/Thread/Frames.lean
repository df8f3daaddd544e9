import Xv6.Thread.Calls

/-!
# What the parts of a call leave alone

The group of a slot (its main thread, page table and size) is changed in few places. `Task.core`
holds the fields concerned, and the lemmas here say of every other part of a call that it keeps
the core of each slot and the memory, and with which panics it may stop.
-/

namespace Xv6.Thread.Calls

open Function

variable {α : Type} {E : Fault → Prop} {s s' s'' : System} {p : Slot} {t : TableId}
  {Q : α → System → Prop} {stack : Nat}

/-! ## Rules -/

@[simp] theorem wp_on_mem (code : MemCode α) :
    wp (onMem code) E Q s ↔ wp code E (fun a mem => Q a { s with mem := mem }) s.mem := by
  unfold wp onMem
  cases code s.mem with
  | error f => rfl
  | ok r => rfl

@[simp] theorem wp_set_proc (p : Slot) (f : Task → Task) {Q : Unit → System → Prop} :
    wp (setProc p f) E Q s ↔
      Q () { s with proc := update s.proc p (f (s.proc p)) } := Iff.rfl

@[simp] theorem wp_set_file (f : FileId) (g : File → File) {Q : Unit → System → Prop} :
    wp (setFile f g) E Q s ↔
      Q () { s with file := update s.file f (g (s.file f)) } := Iff.rfl

@[simp] theorem wp_deref_some (a : α) :
    wp (deref (some a)) E Q s ↔ Q a s := Iff.rfl

theorem wp_deref {p : Option α} (hsome : ∀ a, p = some a → Q a s) (hnone : p = none → E .wild) :
    wp (deref p) E Q s := by
  cases p with
  | none => exact hnone rfl
  | some a => exact hsome a rfl

theorem wp_acquire {Q : Unit → System → Prop}
    (hfree : s.waitLock = none → Q () { s with waitLock := some p }) (hpanic : E (.panic "acquire"))
    (hhang : E .hang) : wp (acquireWaitLock p) E Q s := by
  simp only [acquireWaitLock, wp_bind, wp_get]
  cases h : s.waitLock with
  | none => simpa [h] using hfree h
  | some q =>
    simp only [wp_ite, wp_kpanic, wp_fault]
    exact ⟨fun _ => hpanic, fun _ => hhang⟩

/-! ## Cores -/

/-- What a process state says about the life of a slot. -/
inductive Phase where
  | unused
  | used
  | active
  | zombie
  deriving DecidableEq, Repr

/-- The phase of a state. -/
def phaseOf : ProcState → Phase
  | .unused => .unused
  | .used => .used
  | .sleeping | .runnable | .running => .active
  | .zombie => .zombie

/-- The fields of a slot that describe its group. -/
structure Core where
  phase : Phase
  pid : Int
  mainPid : Int
  mainThread : Ptr
  isThread : Bool
  pagetable : Option TableId
  sz : Nat
  trapframeVa : Nat
  cnt : Int
  deriving DecidableEq, Repr

/-- The core of a slot. -/
def Task.core (t : Task) : Core where
  phase := phaseOf t.state
  pid := t.pid
  mainPid := t.mainPid
  mainThread := t.mainThread
  isThread := t.isThread
  pagetable := t.pagetable
  sz := t.sz
  trapframeVa := t.trapframeVa
  cnt := t.cnt

/-- The cores of all slots. -/
def cores (s : System) : Slot → Core := fun q => (s.proc q).core

/-- The core of a cleared slot that had thread count `cnt`. -/
def Core.cleared (cnt : Int) : Core where
  phase := .unused
  pid := 0
  mainPid := 0
  mainThread := none
  isThread := false
  pagetable := none
  sz := 0
  trapframeVa := 0
  cnt := cnt

theorem core_cleared (t : Task) : t.cleared.core = .cleared t.cnt := rfl

/-- Cores and memory are as before. -/
structure Unmoved (s s' : System) : Prop where
  cores : cores s' = cores s
  mem : s'.mem = s.mem

theorem Unmoved.refl (s : System) : Unmoved s s := ⟨rfl, rfl⟩

theorem Unmoved.trans (h : Unmoved s s') (h' : Unmoved s' s'') : Unmoved s s'' :=
  ⟨h'.cores.trans h.cores, h'.mem.trans h.mem⟩

theorem cores_update (p : Slot) (t : Task) :
    cores { s with proc := update s.proc p t } = update (cores s) p t.core := by
  funext q
  by_cases hq : q = p
  · subst hq
    simp [cores]
  · simp [cores, hq]

theorem unmoved_set_proc {t : Task} (h : t.core = (s.proc p).core) :
    Unmoved s { s with proc := update s.proc p t } := by
  refine ⟨?_, rfl⟩
  rw [cores_update, h]
  exact update_eq_self p (cores s)

instance : Std.Refl Unmoved := ⟨Unmoved.refl⟩

instance : IsTrans System Unmoved := ⟨fun _ _ _ h h' => h.trans h'⟩

/-- Code that keeps cores and memory, or stops with a fault that `E` allows. -/
abbrev Still (E : Fault → Prop) (code : Code α) : Prop := Respects Unmoved E code

theorem still_modify {f : System → System} (hproc : ∀ s, (f s).proc = s.proc)
    (hmem : ∀ s, (f s).mem = s.mem) : Still E (modify f : Code Unit) := by
  intro s
  exact ⟨funext fun q => by simp [cores, hproc], hmem s⟩

/-! ## Files and inodes -/

/-- Only the file table, the counts of the inodes and the open files of the slots may differ. -/
structure FilesOnly (s s' : System) : Prop where
  proc : ∀ q, s'.proc q = { s.proc q with ofile := (s'.proc q).ofile }
  rest : s' = { s with proc := s'.proc, file := s'.file, iref := s'.iref }

instance : Std.Refl FilesOnly := ⟨fun _ => ⟨fun _ => rfl, rfl⟩⟩

instance : IsTrans System FilesOnly where
  trans _ _ _ h h' :=
    ⟨fun q => (h'.proc q).trans (by rw [h.proc q]), h'.rest.trans (by rw [h.rest])⟩

theorem still_of_files {code : Code α} (h : Respects FilesOnly E code) : Still E code := by
  refine fun s => h.next fun _ s' hs' => ⟨funext fun q => ?_, by rw [hs'.rest]⟩
  rw [cores, hs'.proc q]
  rfl

theorem files_idup (ip : Inode) : Respects FilesOnly E (idup ip) := fun _ => ⟨fun _ => rfl, rfl⟩

theorem files_iput (ip : Inode) : Respects FilesOnly E (iput ip) := fun _ => ⟨fun _ => rfl, rfl⟩

theorem files_set_file (f : FileId) (g : File → File) : Respects FilesOnly E (setFile f g) :=
  fun _ => ⟨fun _ => rfl, rfl⟩

theorem files_set_fd (p : Slot) (fd : Fd) (f : Option FileId) :
    Respects FilesOnly E (setFd p fd f) := by
  refine fun s => ⟨fun q => ?_, rfl⟩
  by_cases hq : q = p
  · subst hq
    simp
  · simp [hq]

theorem files_filedup (f : FileId) : Respects FilesOnly (panics ["filedup"]) (filedup f) :=
  .get fun s => Respects.ite (.kpanic (panics_of_mem (by simp))) (files_set_file f _) s

theorem files_fileclose (f : FileId) : Respects FilesOnly (panics ["fileclose"]) (fileclose f) := by
  refine .get fun s => Respects.ite (.kpanic (panics_of_mem (by simp)))
    (.ite (files_set_file f _) (.bind (files_set_file f _) fun _ => ?_)) s
  cases (s.file f).ip with
  | none => exact .pure ()
  | some ip => exact files_iput ip

theorem files_dup_files (p np : Slot) :
    Respects FilesOnly (panics ["filedup"]) (dupFiles p np) := by
  refine .loop fun fd => .get fun s => ?_
  cases (s.proc p).ofile fd with
  | none => exact Respects.pure () s
  | some f => exact Respects.bind (files_filedup f) (fun _ => files_set_fd np fd _) s

theorem files_close_files (p : Slot) :
    Respects FilesOnly (panics ["fileclose"]) (closeFiles p) := by
  refine .loop fun fd => .get fun s => ?_
  cases (s.proc p).ofile fd with
  | none => exact Respects.pure () s
  | some f => exact Respects.bind (files_fileclose f) (fun _ => files_set_fd p fd _) s

theorem files_filealloc : Respects FilesOnly E filealloc := by
  refine .get fun s => ?_
  cases (List.finRange NFILE).find? fun f => decide ((s.file f).ref = 0) with
  | none => exact Respects.pure none s
  | some f => exact Respects.bind (files_set_file f _) (fun _ => .pure _) s

theorem files_fdalloc (p : Slot) (f : FileId) : Respects FilesOnly E (fdalloc p f) := by
  refine .get fun s => ?_
  cases (List.finRange NOFILE).find? fun fd => ((s.proc p).ofile fd).isNone with
  | none => exact Respects.pure none s
  | some fd => exact Respects.bind (files_set_fd p fd _) (fun _ => .pure _) s

theorem files_argfd (p : Slot) (fd : Int) : Respects FilesOnly E (argfd p fd) := by
  refine .get fun s => ?_
  split
  · split
    · exact Respects.pure none s
    · exact Respects.pure _ s
  · exact Respects.pure none s

theorem files_sys_open (p : Slot) (ip : Option Inode) :
    Respects FilesOnly (panics ["fileclose"]) (sysOpen p ip) := by
  cases ip with
  | none => exact .pure (-1)
  | some ip =>
    refine .bind (files_idup ip) fun _ => .bind files_filealloc fun f => ?_
    cases f with
    | none => exact .bind (files_iput ip) fun _ => .pure (-1)
    | some f =>
      refine .bind (files_fdalloc p f) fun fd => ?_
      cases fd with
      | none =>
        exact .bind (files_fileclose f) fun _ =>
          .bind (files_iput ip) fun _ => .pure (-1)
      | some fd => exact .bind (files_set_file f _) fun _ => .pure _

theorem files_sys_dup (p : Slot) (fd : Int) :
    Respects FilesOnly (panics ["filedup"]) (sysDup p fd) := by
  refine .bind (files_argfd p fd) fun r => ?_
  cases r with
  | none => exact .pure (-1)
  | some r =>
    refine .bind (files_fdalloc p r.2) fun fd => ?_
    cases fd with
    | none => exact .pure (-1)
    | some fd => exact .bind (files_filedup r.2) fun _ => .pure _

theorem files_sys_close (p : Slot) (fd : Int) :
    Respects FilesOnly (panics ["fileclose"]) (sysClose p fd) := by
  refine .bind (files_argfd p fd) fun r => ?_
  cases r with
  | none => exact .pure (-1)
  | some r =>
    exact .bind (files_set_fd p r.1 none) fun _ =>
      .bind (files_fileclose r.2) fun _ => .pure 0

/-! ## Waking and parents -/

theorem still_wakeup (self : Slot) (chan : Chan) : Still E (wakeup self chan) := by
  intro s
  refine ⟨funext fun q => ?_, rfl⟩
  show Task.core (if _ then _ else _) = _
  split
  next h => simp [Task.core, cores, h.2.1, phaseOf]
  next => rfl

theorem still_reparent (self p : Slot) : Still E (reparent self p) := by
  refine .get fun s => ?_
  simp only [wp_ite]
  refine ⟨fun _ => ?_, fun _ => Respects.pure () s⟩
  rw [wp_bind, wp_set]
  refine (still_wakeup self _).next fun _ s' hs' => ?_
  refine Unmoved.trans ?_ hs'
  refine ⟨funext fun q => ?_, rfl⟩
  show Task.core (if _ then _ else _) = _
  split <;> rfl

theorem still_release : Still E releaseWaitLock := still_modify (fun _ => rfl) fun _ => rfl

theorem still_acquire (p : Slot) (hpanic : E (.panic "acquire")) (hhang : E .hang) :
    Still E (acquireWaitLock p) := by
  intro s
  exact wp_acquire (fun _ => ⟨rfl, rfl⟩) hpanic hhang

/-! ## Calls that change one group -/

/-- The panics of `freethread`. -/
def freePanics : Fault → Prop := fun f => unmapPanics f ∨ panics ["acquire", "kfree"] f

theorem cores_eq_update {t : Task} {c : Core} (hcores : cores s' = cores s) (ht : t.core = c) :
    cores { s' with proc := update s'.proc p t } = update (cores s) p c := by
  rw [cores_update, hcores, ht]

/-- `freethread` clears the slot of a thread and unmaps its trapframe. -/
theorem wp_freethread {self : Slot} {locked : Bool} (hthread : (s.proc p).isThread = true)
    (ht : (s.proc p).pagetable = some t) (hlive : s.mem.Live t) :
    wp (freethread self p locked) freePanics
      (fun _ s' => cores s' = update (cores s) p (.cleared (cores s p).cnt) ∧
        Wrote t ((s.proc p).trapframeVa / PGSIZE) none s.mem s'.mem) s := by
  simp only [freethread, wp_bind, wp_get]
  split
  next => exact .inr (panics_of_mem (by simp))
  next =>
    refine wp_seq (still_reparent self p s) fun _ s1 h1 => ?_
    unfold clearThread
    rw [ht]
    simp only [hthread, if_true, wp_bind, wp_deref_some, wp_on_mem, h1.mem]
    unfold freethreadEnd
    refine wp_mono (wp_mono_fault (wp_uvmunmap_one hlive) fun f hf => .inl hf) fun _ m2 h2 => ?_
    cases (s.proc p).trapframe with
    | none => exact .inr (panics_of_mem (by simp))
    | some page =>
      have hcnt : (s1.proc p).cnt = (cores s p).cnt :=
        congrArg Core.cnt (congrFun h1.cores p)
      refine ⟨cores_eq_update h1.cores ?_, ?_, h2.next, h2.leaf⟩
      · rw [core_cleared, hcnt]
      · exact h2.live

theorem wp_scan_end {havekids : Bool} {call : Blocked}
    (hactive : phaseOf (s.proc p).state = .active) :
    wp (scanEnd p havekids call) E (fun _ s' => Unmoved s s') s := by
  have hset : Unmoved s { s with
      waitLock := none
      proc := update s.proc p
        { s.proc p with state := .sleeping, chan := .proc p } } := by
    have hlock : Unmoved s { s with waitLock := none } := ⟨rfl, rfl⟩
    refine hlock.trans (unmoved_set_proc ?_)
    simp only [Task.core, hactive]
    rfl
  simp only [scanEnd, wp_bind, wp_get]
  split
  next => exact ⟨rfl, rfl⟩
  next => exact ⟨hset.cores, hset.mem⟩

/-- The faults of `paull04_join`. -/
def joinFaults : Fault → Prop := fun f => freePanics f ∨ f = .panic "release" ∨ f = .hang

/-- `np` has been reaped by a `paull04_join` of `p`. -/
structure Joined (p np : Slot) (s s' : System) : Prop where
  zombie : (cores s np).phase = .zombie
  thread : (cores s np).isThread = true
  mainPid : (cores s np).mainPid = (cores s p).mainPid
  cleared : cores s' = update (cores s) np (.cleared (cores s np).cnt)
  wrote : ∀ t, (cores s np).pagetable = some t →
    Wrote t ((cores s np).trapframeVa / PGSIZE) none s.mem s'.mem

theorem wp_copyout_from {m : Mem} (n v offset : Nat) (src : List Byte) (hlive : m.Live t)
    {Q : Bool → Mem → Prop} (h : ∀ copied stores, Q copied { m with stores := stores }) :
    wp (copyoutFrom t n v offset src) E Q m := by
  induction n generalizing m v offset src with
  | zero => exact h true m.stores
  | succ n ih =>
    have hstop : Q false m := h false m.stores
    unfold copyoutFrom
    split
    next => exact hstop
    next hva =>
      rw [wp_bind]
      refine wp_walk_read hlive (absurd · hva) fun found => ?_
      cases found with
      | false => exact hstop
      | true =>
        simp only [if_true, wp_bind]
        refine wp_read_leaf hlive ?_
        split
        next => exact hstop
        next l _ =>
          split
          next => exact (wp_bind _ _).mpr (ih _ _ _ hlive fun copied stores => h copied stores)
          next => exact hstop

/-- `copyout` writes nothing but user pages. -/
theorem wp_copyout {m : Mem} {dstva : Nat} {src : List Byte} (hlive : m.Live t)
    {Q : Bool → Mem → Prop} (h : ∀ copied stores, Q copied { m with stores := stores }) :
    wp (copyout t dstva src) E Q m := by
  unfold copyout
  split
  next => exact h true m.stores
  next => exact wp_copyout_from _ _ _ _ hlive h

theorem first_slot_some {found : Slot → Bool} {q : Slot} (h : firstSlot found = some q) :
    found q = true :=
  List.find?_some h

theorem wp_join (hactive : phaseOf (s.proc p).state = .active) (ht : (s.proc p).pagetable = some t)
    (hlive : s.mem.Live t)
    (htables : ∀ q, (s.proc q).isThread = true → (s.proc q).mainPid = (s.proc p).mainPid →
      ∃ t, (s.proc q).pagetable = some t ∧ s.mem.Live t) :
    wp (join p stack) joinFaults (fun _ s' => Unmoved s s' ∨ ∃ np, Joined p np s s') s := by
  unfold join
  rw [wp_bind]
  refine wp_acquire (fun _ => ?_) (.inl (.inr (panics_of_mem (by simp)))) (.inr (.inr rfl))
  simp only [wp_bind, wp_modify, wp_get]
  split
  next np hnp =>
    have hfound := first_slot_some hnp
    simp only [Bool.and_eq_true, decide_eq_true_eq] at hfound
    obtain ⟨⟨hmain, hthread⟩, hzombie⟩ := hfound
    obtain ⟨t', ht', hlive'⟩ := htables np hthread hmain
    unfold joinFound
    rw [ht]
    simp only [wp_bind, wp_deref_some, wp_on_mem]
    refine wp_copyout hlive fun copied stores => ?_
    cases copied with
    | true =>
      simp only [if_true, wp_bind]
      refine wp_mono (wp_mono_fault (wp_freethread hthread ht' hlive') fun f hf => .inl hf) ?_
      intro _ s' hs'
      refine .inr ⟨np, ?_, hthread, hmain, hs'.1, ?_⟩
      · simp [cores, Task.core, hzombie, phaseOf]
      · intro t'' ht''
        have heq : t' = t'' := Option.some.inj (ht'.symm.trans ht'')
        rw [← heq]
        exact ⟨hs'.2.live, hs'.2.next, hs'.2.leaf⟩
    | false =>
      simp only [Bool.false_eq_true, if_false, wp_bind]
      refine wp_mono (wp_mono_fault (wp_freethread hthread ht' hlive') fun f hf => .inl hf) ?_
      intro _ s' _
      exact .inr (.inl rfl)
  next =>
    refine wp_mono (wp_scan_end hactive) fun _ s' hs' => .inl ?_
    exact ⟨hs'.cores, hs'.mem⟩

/-- The faults of `exit` once the threads are gone. -/
def exitFaults : Fault → Prop := fun f =>
  panics ["fileclose", "acquire"] f ∨ f = .wild ∨ f = .hang

theorem wp_exit_rest (p : Slot) (status : Int) :
    wp (exitRest p status) exitFaults (fun _ s' => cores s' = update (cores s) p
      { cores s p with phase := .zombie } ∧ s'.mem = s.mem) s := by
  unfold exitRest
  rw [wp_bind]
  refine (still_of_files (files_close_files p)).then ?_ fun _ s1 h1 => ?_
  · rintro f ⟨msg, hmsg, rfl⟩
    exact .inl (panics_of_mem (by simp_all))
  simp only [wp_bind, wp_get]
  refine wp_deref (fun cwd _ => ?_) fun _ => .inr (.inl rfl)
  refine (still_of_files (files_iput cwd)).next fun _ s2 h2 => ?_
  rw [wp_set_proc]
  have h3 := (h1.trans h2).trans (unmoved_set_proc (s := s2) (p := p)
    (t := { s2.proc p with cwd := none }) rfl)
  refine (still_acquire p (.inl (panics_of_mem (by simp))) (.inr (.inr rfl))).next
    fun _ s4 h4 => ?_
  refine (still_reparent p p).next fun _ s5 h5 => ?_
  refine (still_wakeup p _).next fun _ s6 h6 => ?_
  have hall := ((h3.trans h4).trans h5).trans h6
  rw [wp_set_proc]
  refine ⟨cores_eq_update hall.cores ?_, hall.mem⟩
  have hp := congrFun hall.cores p
  simp only [cores] at hp ⊢
  rw [← hp]
  rfl

theorem wp_exit_thread {status : Int} (hthread : (s.proc p).isThread = true) :
    wp (exit p status) (fun f => exitFaults f ∨ f = .panic "init exiting")
      (fun _ s' => cores s' = update (cores s) p { cores s p with phase := .zombie } ∧
        s'.mem = s.mem) s := by
  simp only [exit, wp_bind, wp_get]
  split
  next => exact .inr rfl
  next =>
    rw [if_neg (by simp [hthread])]
    exact wp_mono_fault (wp_exit_rest p status) fun _ hf => .inl hf

/-- What a call of `paull04_clone` that returns -1 does to the cores: an UNUSED slot may be left
with a pid. It happens when there is no such slot or no memory. -/
structure Declined (s s' : System) : Prop where
  full : s.mem.free = [] ∨ ∀ q, (cores s q).phase ≠ .unused
  mem : s'.mem = s.mem
  cores : ∀ q, cores s' q = cores s q ∨
    (cores s q).phase = .unused ∧ cores s' q = { cores s q with pid := s.nextpid }

/-- The core of a new thread in slot `np`, cloned by `p` in the process `main`. -/
def threadCore (s : System) (p main np : Slot) : Core where
  phase := .active
  pid := s.nextpid
  mainPid := (cores s p).mainPid
  mainThread := some main
  isThread := true
  pagetable := (cores s p).pagetable
  sz := (cores s p).sz
  trapframeVa := threadTrapframe (wrap ((cores s main).cnt + 1))
  cnt := (cores s np).cnt

/-- Slot `np` has become a thread of the process `main`. -/
structure Cloned (p main np : Slot) (s s' : System) : Prop where
  unused : (cores s np).phase = .unused
  cores : cores s' = update (update (cores s) main
    { cores s main with cnt := wrap ((cores s main).cnt + 1) }) np (threadCore s p main np)

/-- The faults of `startThread`. -/
def startFaults : Fault → Prop := fun f => panics ["filedup"] f ∨ f = .wild

theorem phase_unused {st : ProcState} : phaseOf st = .unused ↔ st = .unused := by
  cases st <;> simp [phaseOf]

/-- `allocthread` of an UNUSED slot: the slot is USED and has a trapframe page, or nothing but
its pid has changed. -/
theorem wp_allocthread {np : Slot} (hunused : (s.proc np).state = .unused) :
    wp (allocthread np) E (fun done s' =>
      (done = false → Declined s s') ∧
      (done = true → SameLeaves s.mem s'.mem ∧ cores s' = update (cores s) np
        { cores s np with phase := .used, pid := s.nextpid })) s := by
  simp only [allocthread, allocpid, kalloc, newContext, wp_bind, wp_get, wp_set, wp_pure,
    wp_set_proc, wp_on_mem]
  cases hfree : s.mem.free with
  | nil =>
    refine ⟨fun _ => ⟨.inl hfree, rfl, fun q => ?_⟩, by simp⟩
    rw [cores_update]
    by_cases hq : q = np
    · subst hq
      refine .inr ⟨by simp [cores, Task.core, hunused, phaseOf], ?_⟩
      simp [cores, Task.core, hunused, phaseOf]
    · refine .inl ?_
      simp [cores, hq]
  | cons page rest =>
    refine ⟨by simp, fun _ => ⟨same_leaves_free rest, funext fun q => ?_⟩⟩
    by_cases hq : q = np
    · subst hq
      simp [cores, Task.core, phaseOf]
    · simp [cores, hq]

theorem wp_place_thread {main np : Slot} (hp : p ≠ np) (hmain : main ≠ np) :
    wp (placeThread p main np stack) E (fun _ s' => s'.mem = s.mem ∧
      cores s' = update (update (cores s) main
        { cores s main with cnt := wrap ((cores s main).cnt + 1) }) np
        { cores s np with
          pagetable := (cores s p).pagetable, sz := (cores s p).sz,
          trapframeVa := threadTrapframe (wrap ((cores s main).cnt + 1)) }) s := by
  simp only [placeThread, wp_bind, wp_get, wp_set_proc]
  refine ⟨trivial, funext fun q => ?_⟩
  by_cases hq : q = np
  · subst hq
    by_cases h : p = main
    · subst h
      simp [Task.core, cores, hp.symm]
    · simp [Task.core, cores, h, hmain.symm]
  · by_cases hq' : q = main
    · subst hq'
      simp [Task.core, cores, hq]
    · simp [cores, hq, hq']

theorem wp_start_thread (p main np : Slot) :
    wp (startThread p main np) startFaults
      (fun _ s' => s'.mem = s.mem ∧ cores s' = update (cores s) np
        { cores s np with
          phase := .active, mainPid := (cores s p).mainPid, mainThread := some main,
          isThread := true }) s := by
  unfold startThread
  rw [wp_bind]
  refine (still_of_files (files_dup_files p np)).then (fun f hf => .inl hf) fun _ s1 h1 => ?_
  simp only [wp_bind, wp_get]
  refine wp_deref (fun cwd _ => ?_) fun _ => .inr rfl
  refine (still_of_files (files_idup cwd)).next fun _ s2 h2 => ?_
  have hall := h1.trans h2
  simp only [wp_set_proc, wp_pure]
  refine ⟨hall.mem, cores_eq_update hall.cores ?_⟩
  have hnp : (s2.proc np).core = cores s np := congrFun hall.cores np
  have hp : (s1.proc p).core = cores s p := congrFun h1.cores p
  rw [← hnp, ← hp]
  rfl

/-- `paull04_clone` by a process whose main thread is in use, for a table that `mappages` turns
into one with `R`. -/
theorem wp_clone {main : Slot} {R : Mem → Prop} (hmain : (cores s p).mainThread = some main)
    (ht : (cores s p).pagetable = some t) (hp : (cores s p).phase ≠ .unused)
    (hused : (cores s main).phase ≠ .unused)
    (hmap : ∀ m pa, SameLeaves s.mem m →
      wp (mappages t (threadTrapframe (wrap ((cores s main).cnt + 1))) PGSIZE pa { w := true }) E
        (fun done m' => if done then R m' else E (.panic "paull04_clone: mappages failed")) m)
    (hstart : ∀ m f, R m → startFaults f → E f) :
    wp (clone p stack) E
      (fun _ s' => Declined s s' ∨ ∃ np, Cloned p main np s s' ∧ R s'.mem) s := by
  simp only [clone, unusedSlot, wp_bind, wp_get, wp_pure]
  split
  next hnone =>
    refine .inl ⟨.inr fun q hq => ?_, rfl, fun _ => .inl rfl⟩
    have hfull := List.find?_eq_none.mp hnone q (List.mem_finRange q)
    exact hfull (by simpa using phase_unused.mp hq)
  next np hnp =>
    have hunused : (s.proc np).state = .unused := by simpa using first_slot_some hnp
    have hphase : (cores s np).phase = .unused := phase_unused.mpr hunused
    have hne : p ≠ np := fun h => hp (h ▸ hphase)
    have hne' : main ≠ np := fun h => hused (h ▸ hphase)
    refine wp_seq (wp_allocthread hunused) fun done s1 h1 => ?_
    cases done with
    | false => exact .inl (h1.1 rfl)
    | true =>
      obtain ⟨hsame, hcores1⟩ := h1.2 rfl
      have hmain1 : (s1.proc p).mainThread = some main := by
        show (cores s1 p).mainThread = some main
        rw [hcores1, update_of_ne hne, hmain]
      simp only [if_true, wp_bind, wp_get, hmain1, wp_deref_some]
      refine wp_mono (wp_place_thread hne hne') fun _ s2 h2 => ?_
      obtain ⟨hmem2, hcores2⟩ := h2
      rw [hcores1, update_self, update_of_ne hne,
        update_of_ne hne'] at hcores2
      have hp2 : (cores s2 p).pagetable = (cores s p).pagetable ∧
          (cores s2 p).mainPid = (cores s p).mainPid := by
        rw [hcores2, update_of_ne hne]
        by_cases h : p = main
        · subst h
          simp
        · simp [h, hne]
      have ht2 : (s2.proc p).pagetable = some t := hp2.1.trans ht
      have hva2 : (s2.proc np).trapframeVa =
          threadTrapframe (wrap ((cores s main).cnt + 1)) := by
        show (cores s2 np).trapframeVa = _
        rw [hcores2, update_self]
      simp only [mapTrapframe, wp_bind, wp_get, ht2, hva2, wp_deref_some, wp_on_mem]
      rw [hmem2]
      refine wp_mono (hmap _ _ hsame) fun done m3 h3 => ?_
      cases done with
      | false => exact h3
      | true =>
        refine wp_mono (wp_mono_fault (wp_start_thread p main np) fun f => hstart m3 f h3)
          fun _ s4 h4 => ?_
        · obtain ⟨hmem4, hcores4⟩ := h4
          refine .inr ⟨np, ⟨hphase, ?_⟩, hmem4 ▸ h3⟩
          have hmem : cores { s2 with mem := m3 } = cores s2 := rfl
          rw [hcores4, hmem, hp2.2, hcores2]
          funext q
          by_cases hq : q = np
          · subst hq
            simp [threadCore]
          · by_cases hq' : q = main
            · subst hq'
              simp [hq]
            · simp [hq, hq']

/-! ## Events that are no calls -/

theorem still_schedule (p : Slot) : Still E (step (.schedule p)) := by
  refine .get fun s => ?_
  split
  next h =>
    refine unmoved_set_proc ?_
    simp [Task.core, h, phaseOf]
  next => exact Respects.pure none s

theorem unmoved_sched {f : Task → Task} (hcore : (f (s.proc p)).core = (s.proc p).core)
    (hpanic : E (.panic "sched locks")) :
    wp (sched s p f) E (fun _ s' => Unmoved s s') s := by
  unfold sched
  split
  next => exact hpanic
  next => exact unmoved_set_proc hcore

theorem still_yield (p : Slot) : Still (panics ["sched locks"]) (step (.yield p)) := by
  refine .get fun s => ?_
  split
  next h =>
    rw [wp_bind]
    refine unmoved_sched ?_ (panics_of_mem (by simp))
    simp [Task.core, h, phaseOf]
  next => exact Respects.pure none s

theorem still_sleep (p : Slot) (chan : Chan) :
    Still (panics ["sched locks"]) (step (.sleep p chan)) := by
  refine .get fun s => ?_
  split
  next h =>
    rw [wp_bind]
    refine unmoved_sched ?_ (panics_of_mem (by simp))
    simp [Task.core, h.1, phaseOf]
  next => exact Respects.pure none s

theorem still_wakeup_event (p : Slot) (chan : Chan) : Still E (step (.wakeup p chan)) := by
  refine .get fun s => ?_
  split
  next => exact Respects.bind (still_wakeup p chan) (fun _ => .pure none) s
  next => exact Respects.pure none s

end Xv6.Thread.Calls
