import Xv6.Thread.Exec

/-!
# The trapframe of a main thread, and what `exec` promises

`proc_pagetable` maps the trapframe of its process at `TRAPFRAME` and notes the address in the
slot. A main thread always has a table from `proc_pagetable`, and a slot becomes a main thread
only with the address noted, so in every run the trapframe of a main thread is at `TRAPFRAME`:
`reachable_at_top`.

So a failed `exec` of a main thread leaves no trace, although `proc_pagetable` writes to the slot.
But a thread takes its own trapframe out of the table before it looks at the file, and a failure
does not put it back: `exec_failure_clean_iff`. After a successful `exec` the parent of the caller
is whoever it was before: `exec_takes_over_iff`.
-/

namespace Xv6.Thread.Calls

open Function

variable {s s' s'' : System} {p q np : Slot} {E : Fault → Prop} {α : Type}

/-- The slot of a process that has started is the one of a thread, or has its trapframe at the
top. -/
def AtTop (c : Core) : Prop :=
  c.phase = .active ∨ c.phase = .zombie → c.isThread = false → c.trapframeVa = TRAPFRAME

/-- The slots that were in order are in order. -/
def StayAtTop (s s' : System) : Prop := ∀ q, AtTop (cores s q) → AtTop (cores s' q)

instance : Std.Refl StayAtTop := ⟨fun _ _ h => h⟩

instance : IsTrans System StayAtTop := ⟨fun _ _ _ h h' q hq => h' q (h q hq)⟩

/-- Code that leaves the slots in order, if it returns. -/
abbrev Tops (code : Code α) : Prop := Respects StayAtTop Fault.any code

theorem tops_of_still {code : Code α} (h : Still E code) : Tops code := fun s =>
  wp_mono (wp_mono_fault (h s) fun _ _ => trivial) fun _ _ hs' q hq => by rwa [hs'.cores]

theorem tops_on_mem (code : MemCode α) : Tops (onMem code) := fun s => by
  rw [wp_on_mem]
  exact wp_mono (wp_any code) fun _ _ _ q hq => hq

theorem stay_update {c : Core} (hcores : cores s' = update (cores s) p c)
    (h : AtTop (cores s p) → AtTop c) : StayAtTop s s' := by
  intro q hq
  rw [hcores]
  by_cases heq : q = p
  · subst heq
    rw [update_self]
    exact h hq
  · rw [update_of_ne heq]
    exact hq

theorem wp_set_core {f : Task → Task} {Q : Unit → System → Prop}
    (h : ∀ s', cores s' = update (cores s) p (f (s.proc p)).core → Q () s') :
    wp (setProc p f) E Q s :=
  (wp_set_proc p f).mpr (h _ (cores_update p _))

theorem tops_set_proc {f : Task → Task} (h : ∀ x, AtTop x.core → AtTop (f x).core) :
    Tops (setProc p f) := fun s => wp_set_core fun _ hs' => stay_update hs' (h (s.proc p))

theorem tops_acquire (p : Slot) : Tops (acquireWaitLock p) :=
  tops_of_still (still_acquire (E := Fault.any) p trivial trivial)

theorem tops_release : Tops releaseWaitLock := tops_of_still (still_release (E := Fault.any))

/-! ## Allocation and release of slots -/

theorem tops_proc_freepagetable (owner : Ptr) (t : TableId) (sz : Nat) :
    Tops (procFreepagetable owner t sz) := respects_proc_freepagetable tops_on_mem owner t sz

theorem at_top_cleared (x : Task) : AtTop x.cleared.core := by
  rintro (h | h)
  · cases h
  · cases h

theorem tops_freeproc (p : Slot) : Tops (freeproc p) := by
  refine .get fun s => ?_
  have hclear : Tops (setProc p Task.cleared) := tops_set_proc fun x _ => at_top_cleared x
  have hrest : Tops (freeprocEnd p (s.proc p)) := by
    unfold freeprocEnd
    cases (s.proc p).pagetable with
    | none => exact .bind (.pure ()) fun _ => hclear
    | some t => exact .bind (tops_proc_freepagetable _ _ _) fun _ => hclear
  cases (s.proc p).trapframe with
  | none => exact Respects.bind (.pure ()) (fun _ => hrest) s
  | some page => exact Respects.bind (tops_on_mem _) (fun _ => hrest) s

theorem tops_proc_pagetable (p : Slot) : Tops (procPagetable p) :=
  respects_proc_pagetable tops_on_mem (tops_set_proc fun _ _ _ _ => rfl)

theorem wp_proc_pagetable_top : wp (procPagetable p) Fault.any
    (fun made s' => made.isSome → (s'.proc p).trapframeVa = TRAPFRAME) s := by
  simp only [procPagetable, wp_bind, wp_on_mem]
  refine wp_mono (wp_any _) fun made m1 _ => ?_
  cases made with
  | none => exact fun h => by cases h
  | some t =>
    simp only [wp_bind, wp_on_mem]
    refine wp_mono (wp_any _) fun done m2 _ => ?_
    cases done with
    | false =>
      simp only [Bool.false_eq_true, if_false, wp_bind, wp_on_mem]
      exact wp_mono (wp_any _) fun _ m3 _ h => by cases h
    | true =>
      simp only [if_true, wp_bind, wp_set_proc, wp_get, wp_on_mem]
      refine wp_mono (wp_any _) fun done m3 _ => ?_
      cases done with
      | false =>
        simp only [Bool.false_eq_true, if_false, wp_bind, wp_on_mem]
        exact wp_mono (wp_any _) fun _ m4 _ => wp_mono (wp_any _) fun _ m5 _ h => by cases h
      | true => exact fun _ => by simp

theorem tops_allocpid : Tops allocpid := fun _ _ hq => hq

theorem not_at_top_used {c : Core} (h : c.phase = .used) : AtTop c := by
  rintro (h' | h')
  · cases h.symm.trans h'
  · cases h.symm.trans h'

theorem tops_allocproc (np : Slot) : Tops (allocproc np) := by
  refine .bind tops_allocpid fun pid => ?_
  refine .bind (tops_set_proc fun x _ => not_at_top_used rfl) fun _ => ?_
  refine .bind (tops_on_mem _) fun page => ?_
  cases page with
  | none => exact .bind (tops_freeproc np) fun _ => .pure false
  | some page =>
    refine .bind (tops_set_proc fun x h => h) fun _ => .bind (tops_proc_pagetable np) fun made => ?_
    cases made with
    | none => exact .bind (tops_freeproc np) fun _ => .pure false
    | some t =>
      refine .bind (tops_set_proc fun x h => h) fun _ => .bind (fun _ _ hq => hq) fun _ => ?_
      exact .pure true

theorem wp_allocproc_top : wp (allocproc np) Fault.any (fun done s' => StayAtTop s s' ∧
    (done = true → (s'.proc np).trapframeVa = TRAPFRAME)) s := by
  refine wp_and (tops_allocproc np s) ?_
  simp only [allocproc, wp_bind, wp_set_proc]
  refine wp_mono (wp_any _) fun pid s1 _ => ?_
  rw [wp_on_mem]
  refine wp_mono (wp_any _) fun page m2 _ => ?_
  cases page with
  | none =>
    exact wp_seq (wp_any _) fun _ s3 _ h => by cases h
  | some page =>
    simp only [wp_bind, wp_set_proc]
    refine wp_mono wp_proc_pagetable_top fun made s3 h3 => ?_
    cases made with
    | none =>
      exact wp_seq (wp_any _) fun _ s4 _ h => by cases h
    | some t =>
      simp only [wp_bind, wp_set_proc, newContext, wp_modify, wp_pure]
      intro _
      rw [update_self]
      exact h3 rfl

/-! ## The calls -/

theorem wp_start_child_top (hnp : (s.proc np).trapframeVa = TRAPFRAME) :
    wp (startChild p np) Fault.any (fun _ s' => StayAtTop s s') s := by
  unfold startChild
  rw [wp_bind]
  refine (still_of_files (files_dup_files p np)).then (fun _ _ => trivial) fun _ s1 h1 => ?_
  simp only [wp_bind, wp_get]
  refine wp_deref (fun cwd _ => ?_) fun _ => trivial
  refine (still_of_files (files_idup cwd)).next fun _ s2 h2 => ?_
  refine wp_set_core fun s3 h3 => ?_
  have h3 : cores s3 = cores s2 := h3.trans (update_eq_self np (cores s2))
  refine (still_acquire p trivial trivial).next fun _ s4 h4 => ?_
  refine wp_set_core fun s5 h5 => ?_
  have h5 : cores s5 = cores s4 := h5.trans (update_eq_self np (cores s4))
  refine still_release.next fun _ s6 h6 => ?_
  have hcores : cores s6 = cores s := by
    rw [h6.cores, h5, h4.cores, h3, h2.cores, h1.cores]
  have hva : (s6.proc np).trapframeVa = TRAPFRAME := by
    rw [← hnp]
    exact congrArg Core.trapframeVa (congrFun hcores np)
  refine wp_set_core fun s7 h7 => ?_
  rw [hcores] at h7
  exact stay_update h7 fun _ _ _ => hva

theorem tops_unused_slot : Tops unusedSlot := fun _ _ hq => hq

theorem tops_fork (p : Slot) : Tops (fork p) := by
  refine .bind tops_unused_slot fun np => ?_
  cases np with
  | none => exact .pure (-1)
  | some np =>
    intro s
    refine wp_seq wp_allocproc_top fun done s1 h1 => ?_
    obtain ⟨h1, hva⟩ := h1
    cases done with
    | false => exact h1
    | true =>
      simp only [if_true, wp_bind, wp_get]
      refine wp_deref (fun old _ => ?_) fun _ => trivial
      refine wp_deref (fun new _ => ?_) fun _ => trivial
      rw [wp_on_mem]
      refine wp_mono (wp_any _) fun copied m2 _ => ?_
      cases copied with
      | false =>
        rw [if_neg (by simp), wp_bind]
        exact (tops_freeproc np).next fun _ s3 h3 q hq => h3 q (h1 q hq)
      | true =>
        rw [if_pos rfl, wp_bind]
        refine wp_set_core fun s3 h3 => ?_
        have h3 : cores s3 = update (cores s1) np
          { cores s1 np with sz := (s1.proc p).sz } := h3
        refine wp_mono (wp_start_child_top ?_) fun _ s4 h4 q hq => h4 q ?_
        · rw [← hva rfl]
          show (cores s3 np).trapframeVa = _
          rw [h3, update_self]
          rfl
        · exact stay_update h3 (fun h => h) q (h1 q hq)

theorem tops_userinit : Tops userinit := by
  refine .bind tops_unused_slot fun np => .bind (respects_deref np) fun p => ?_
  intro s
  refine wp_seq wp_allocproc_top fun done s1 h1 => ?_
  obtain ⟨h1, hva⟩ := h1
  cases done with
  | false => exact trivial
  | true =>
    simp only [if_true, wp_bind, wp_modify, wp_get]
    refine wp_deref (fun t _ => ?_) fun _ => trivial
    rw [wp_on_mem]
    refine wp_mono (wp_any _) fun _ m2 _ => ?_
    refine (still_of_files (files_idup 0)).next fun _ s3 h3 => ?_
    have hcores : cores s3 = cores s1 := h3.cores
    refine wp_set_core fun s4 h4 => ?_
    refine fun q hq => stay_update h4 (fun _ _ _ => ?_) q (by rw [hcores]; exact h1 q hq)
    rw [← hva rfl]
    exact congrArg Core.trapframeVa (congrFun hcores p)

theorem tops_freethread (self p : Slot) (locked : Bool) : Tops (freethread self p locked) := by
  refine .get fun s => ?_
  have hend : Tops (freethreadEnd p (s.proc p)) := by
    have hclear : Tops (setProc p Task.cleared) := tops_set_proc fun x _ => at_top_cleared x
    unfold freethreadEnd
    cases (s.proc p).trapframe with
    | none => exact .bind (.kpanic trivial) fun _ => hclear
    | some page => exact .bind (tops_on_mem _) fun _ => hclear
  split
  next => exact trivial
  next =>
    have hreparent : Tops (reparent self p) :=
      tops_of_still (still_reparent (E := Fault.any) self p)
    refine Respects.bind hreparent (fun _ => ?_) s
    unfold clearThread
    exact .ite (.bind (respects_deref _) fun t => .bind (tops_on_mem _) fun _ => hend) hend

theorem tops_clean (self p : Slot) : Tops (cleanAllThreads self p) := by
  refine .bind (tops_acquire self) fun _ => .bind (.loop fun np => ?_) fun _ => tops_release
  refine .get fun s => ?_
  split
  next => exact tops_freethread self np true s
  next => exact Respects.pure () s

/-- The image that `exec` builds is mapped for a trapframe at the top. -/
theorem wp_build_image_top {file : ElfFile} {argv : List (List Byte)} :
    wp (buildImage p file argv) Fault.any (fun made s' => StayAtTop s s' ∧
      (made.isSome → (s'.proc p).trapframeVa = TRAPFRAME)) s := by
  refine wp_build_image_of (R := fun _ _ _ => True)
    (fun _ s1 => StayAtTop s s1 ∧ (s1.proc p).trapframeVa = TRAPFRAME)
    ⟨fun q hq => hq, fun h => by cases h⟩ ?_ (fun _ _ _ _ => wp_any _) (fun _ _ _ _ => wp_any _)
    (fun _ _ _ h _ => h) ?_ fun _ _ _ _ h => ⟨h.1, fun _ => h.2⟩
  · refine wp_mono (wp_and (tops_proc_pagetable p s) wp_proc_pagetable_top) ?_
    rintro made s1 ⟨h1, hva⟩
    exact ⟨fun _ => ⟨h1, fun h => by cases h⟩, fun t ht => ⟨h1, hva (by rw [ht]; rfl)⟩⟩
  · rintro t sz s1 ⟨h1, -⟩
    exact (tops_proc_freepagetable none t sz).next fun _ s2 h2 =>
      ⟨fun q hq => h2 q (h1 q hq), fun h => by cases h⟩

theorem tops_exec (p : Slot) (file : Option ElfFile) (argv : List (List Byte)) :
    Tops (exec p file argv) := by
  refine .get fun s => ?_
  have hrest : Tops (execRest p (s.proc p) file argv) := by
    unfold execRest
    cases file with
    | none => exact .pure (-1)
    | some file =>
      intro s1
      refine wp_seq wp_build_image_top fun made s2 h2 => ?_
      obtain ⟨h2, hva⟩ := h2
      cases made with
      | none => exact h2
      | some image =>
        obtain ⟨t, sz, argc⟩ := image
        rw [wp_bind]
        refine wp_deref (fun mt _ => ?_) fun _ => trivial
        rw [wp_bind]
        refine wp_set_core fun s3 h3 => ?_
        have hcommit : Tops (execEnd p mt (s.proc p) argc) := by
          refine .bind (tops_clean p mt) fun _ => ?_
          split
          next =>
            exact .bind (respects_deref _) fun old =>
              .bind (tops_proc_freepagetable _ _ _) fun _ => .pure _
          next => exact .bind (tops_set_proc fun x h => h) fun _ => .pure _
        refine hcommit.next fun _ s4 h4 q hq => h4 q ?_
        exact stay_update h3 (fun _ _ _ => hva rfl) q (h2 q hq)
  exact Respects.ite (.bind (respects_deref _) fun t => .bind (tops_on_mem _) fun _ => hrest)
    hrest s

theorem stay_died (hactive : (cores s p).phase = .active)
    (hcores : cores s' = update (cores s) p { cores s p with phase := .zombie }) :
    StayAtTop s s' :=
  stay_update hcores fun h _ => h (.inl hactive)

theorem wp_exit_top (hp : (s.proc p).state = .running) (status : Int) :
    wp (exit p status) Fault.any (fun _ s' => StayAtTop s s') s := by
  have hactive : (cores s p).phase = .active := phase_running hp
  cases hthread : (s.proc p).isThread with
  | true =>
    refine wp_mono (wp_mono_fault (wp_exit_thread hthread) fun _ _ => trivial) fun _ s' hs' => ?_
    exact stay_died hactive hs'.1
  | false =>
    simp only [exit, wp_bind, wp_get, hthread]
    split
    next => exact trivial
    next =>
      rw [if_pos trivial]
      refine wp_seq (wp_and (tops_clean p p s) (wp_mono_fault (wp_clean_members hthread)
        fun _ _ => trivial)) fun _ s1 h1 => ?_
      obtain ⟨hstay, hmembers, -⟩ := h1
      have hactive1 : (cores s1 p).phase = .active := by
        show (members s1 p).phase = .active
        have hmain : (members s p).isThread = false := hthread
        rw [hmembers]
        simp only [swept, hmain, Bool.false_eq_true, and_false, if_false]
        exact hactive
      refine wp_mono (wp_mono_fault (wp_exit_rest p status) fun _ _ => trivial) ?_
      exact fun _ s2 h2 q hq => stay_died hactive1 h2.1 q (hstay q hq)

theorem wp_wait_top (hp : (s.proc p).state = .running) (addr : Nat) :
    wp (wait p addr) Fault.any (fun _ s' => StayAtTop s s') s := by
  unfold wait
  rw [wp_bind]
  refine wp_acquire (fun _ => ?_) trivial trivial
  simp only [wp_bind, wp_modify, wp_get]
  split
  next pp _ =>
    have hreap : ∀ copied : Bool, Tops (do
        if copied then
          freeproc pp
          releaseWaitLock
          pure (some (s.proc pp).pid)
        else
          releaseWaitLock
          pure (some (-1))) := fun copied =>
      .ite (.bind (tops_freeproc pp) fun _ => .bind tops_release fun _ => .pure _)
        (.bind tops_release fun _ => .pure _)
    rw [wp_bind]
    refine wp_deref (fun t _ => ?_) fun _ => trivial
    exact Respects.ite (.bind (.pure true) hreap) (.bind (tops_on_mem _) hreap) _
  next => exact wp_mono (wp_scan_end (phase_running hp)) fun _ s' hs' q hq => by rwa [hs'.cores]

theorem wp_join_top (h : Grouped (members s) s.mem) (hp : (s.proc p).state = .running)
    (stack : Nat) : wp (join p stack) Fault.any (fun _ s' => StayAtTop s s') s := by
  have hactive := phase_running hp
  obtain ⟨t, hlive, ht⟩ := h.table p (by simp [hactive])
  refine wp_mono (wp_mono_fault (wp_join hactive ht hlive fun q hq _ => thread_table h q hq)
    fun _ _ => trivial) fun _ s' hs' => ?_
  rcases hs' with hs' | ⟨np, hs'⟩
  · exact fun q hq => by rwa [hs'.cores]
  · refine stay_update hs'.cleared fun _ => ?_
    rintro (h' | h')
    · cases h'
    · cases h'

theorem tops_growproc (p : Slot) (n : Int) : Tops (growproc p n) := by
  refine respects_growproc tops_on_mem n (tops_acquire p) (fun _ _ => tops_set_proc fun x h => h)
    (fun main sz s q hq => ?_) tops_release
  show AtTop (Task.core (if _ then _ else _))
  split
  next => exact hq
  next => exact hq

theorem wp_clone_top (h : Grouped (members s) s.mem) (hp : (s.proc p).state = .running)
    (stack : Nat) : wp (clone p stack) Fault.any (fun _ s' => StayAtTop s s') s := by
  have hactive := phase_running hp
  obtain ⟨r, hmain⟩ := h.main p (by simp [hactive])
  obtain ⟨t, -, ht⟩ := h.table p (by simp [hactive])
  refine wp_mono (wp_clone (R := fun _ => True) hmain.pointer ht
    (show (members s p).phase ≠ .unused by simp [hactive]) hmain.used ?_ ?_) ?_
  · intro m pa _
    refine wp_mono (wp_any _) fun done m' _ => ?_
    cases done with
    | false => exact trivial
    | true => exact trivial
  · exact fun _ _ _ _ => trivial
  · rintro _ s' (hs' | ⟨np, hs', -⟩)
    · intro q hq
      rcases hs'.cores q with heq | ⟨-, heq⟩
      · rwa [heq]
      · rw [heq]
        exact hq
    · intro q hq
      rw [hs'.cores]
      by_cases hnp : q = np
      · rw [hnp, update_self]
        exact fun _ h => by cases h
      · rw [update_of_ne hnp]
        by_cases hr : q = r
        · subst hr
          rw [update_self]
          exact hq
        · rwa [update_of_ne hr]

/-! ## Runs -/

theorem wp_syscall_top (h : Grouped (members s) s.mem) (hp : (s.proc p).state = .running)
    (call : Call) : wp (syscall p call) Fault.any (fun _ s' => StayAtTop s s') s := by
  cases call with
  | fork =>
    simp only [syscall, wp_bind]
    exact tops_fork p s
  | clone stack =>
    simp only [syscall, wp_bind]
    exact wp_clone_top h hp stack
  | exec file argv =>
    simp only [syscall, wp_bind]
    exact tops_exec p file argv s
  | exit status =>
    simp only [syscall, wp_bind]
    exact wp_exit_top hp status
  | kill pid =>
    simp only [syscall, wp_bind]
    exact tops_of_still (still_kill pid) s
  | join stack => exact wp_join_top h hp stack
  | wait addr => exact wp_wait_top hp addr
  | growproc n =>
    simp only [syscall, wp_bind]
    exact tops_growproc p n s
  | «open» ip =>
    simp only [syscall, wp_bind]
    exact tops_of_still (still_of_files (files_sys_open p ip)) s
  | dup fd =>
    simp only [syscall, wp_bind]
    exact tops_of_still (still_of_files (files_sys_dup p fd)) s
  | close fd =>
    simp only [syscall, wp_bind]
    exact tops_of_still (still_of_files (files_sys_close p fd)) s

theorem step_top (h : Grouped (members s) s.mem) (e : Event) :
    wp (step e) Fault.any (fun _ s' => StayAtTop s s') s := by
  cases e with
  | userinit =>
    simp only [step, wp_bind, wp_get]
    split
    next => exact Respects.bind tops_userinit (fun _ => .pure none) s
    next => exact fun q hq => hq
  | schedule p => exact tops_of_still (E := Fault.any) (still_schedule p) s
  | yield p => exact tops_of_still (still_yield p) s
  | sleep p chan => exact tops_of_still (still_sleep p chan) s
  | wakeup p chan => exact tops_of_still (E := Fault.any) (still_wakeup_event p chan) s
  | call p call =>
    simp only [step, wp_bind, wp_get]
    split
    next hp => exact wp_syscall_top h hp.1 _
    next => exact fun q hq => hq
  | resume p =>
    simp only [step, wp_bind, wp_get]
    cases s.blocked p with
    | none => exact fun q hq => hq
    | some call =>
      dsimp only
      split
      next hp =>
        cases call with
        | wait addr => exact wp_wait_top hp addr
        | join stack => exact wp_join_top h hp stack
      next => exact fun q hq => hq

/-- In every run the trapframe of a main thread is at the top. -/
theorem reachable_at_top {free : List Page} {guard : System → Event → Prop}
    (h : Reachable (fun s => s = boot free) guard step s) (q : Slot) : AtTop (cores s q) := by
  have hboth : Grouped (members s) s.mem ∧ ∀ q, AtTop (cores s q) := by
    refine Reachable.induct (E := Fault.any)
      (fun s => Grouped (members s) s.mem ∧ ∀ q, AtTop (cores s q)) ?_ ?_ h
    · rintro _ rfl
      refine ⟨boot_grouped free, fun q => ?_⟩
      rintro (hphase | hphase)
      · cases hphase
      · cases hphase
    · rintro s e ⟨hs, htop⟩ _
      refine wp_mono (wp_and (wp_mono_fault (step_grouped hs e) fun _ _ => trivial)
        (step_top hs e)) fun _ s' hs' => ⟨hs'.1.1, fun q => hs'.2 q (htop q)⟩
  exact hboth.2 q

/-! ## What a failed `exec` leaves behind -/

/-- The contract of an `exec` by `p` that returns -1. -/
structure FailsClean (s : System) (p : Slot) (s' : System) : Prop where
  /-- No field of the caller has changed. -/
  caller : s'.proc p = s.proc p
  /-- The page table of the caller maps what it mapped. -/
  mappings : ∀ t, (s.proc p).pagetable = some t → ∀ v, s'.mem.leaf t v = s.mem.leaf t v
  /-- The table built meanwhile is gone, and its pages are free again. -/
  tables : ∀ t, s'.mem.Live t ↔ s.mem.Live t
  free : s'.mem.free.Perm s.mem.free

/-- In every run, an `exec` that returns -1 leaves the caller, its mappings and the free pages as
they were exactly if the caller is a main thread. -/
theorem exec_failure_clean_iff {free : List Page} {guard : System → Event → Prop}
    {file : Option ElfFile} {argv : List (List Byte)}
    (hreach : Reachable (fun s => s = boot free) guard step s)
    (hrunning : (s.proc p).state = .running) (h : exec p file argv s = .ok (-1, s')) :
    FailsClean s p s' ↔ (s.proc p).isThread = false := by
  have hgroup := reachable_grouped hreach
  have hactive := phase_running hrunning
  obtain ⟨r, hmain⟩ := hgroup.main p (by simp [hactive])
  obtain ⟨m1, hdoes, hkept, hlost⟩ := wp_ok (wp_exec_exact hgroup hmain) h
  obtain ⟨hproc, hrecovered⟩ := hdoes.failed rfl
  cases hthread : (s.proc p).isThread with
  | true =>
    obtain ⟨old, hold, hmapped, hnone⟩ := hlost hthread
    refine ⟨fun hclean => absurd ?_ hmapped, fun h => by cases h⟩
    rw [← hclean.mappings old hold, ← hnone]
    simp only [Mem.leaf, hrecovered.tables]
  | false =>
    rw [hkept hthread] at hrecovered
    -- `proc_pagetable` writes the address that was there
    have hva : (s.proc p).trapframeVa = TRAPFRAME :=
      reachable_at_top hreach p (.inl hactive) hthread
    have hsame : topped s p = s.proc := by
      unfold topped
      rw [← hva]
      exact update_eq_self p s.proc
    rw [hsame, or_self] at hproc
    refine ⟨fun _ => rfl, fun _ => ⟨by rw [hproc], fun t _ v => ?_, fun t => ?_, hrecovered.free⟩⟩
    · simp only [Mem.leaf, hrecovered.tables]
    · simp only [Mem.Live, hrecovered.tables]

/-- The main thread of a process with a thread fails to read a program header. -/
theorem exec_failure_clean_main : ∃ s', exec 1 (some ⟨true, [none]⟩) [] oneThread = .ok (-1, s') ∧
    FailsClean oneThread 1 s' := by
  have hvalue : valueOf (exec 1 (some ⟨true, [none]⟩) []) oneThread = some (-1) := by decide +kernel
  obtain ⟨s', hs'⟩ := ok_of_value hvalue
  refine ⟨s', hs', (exec_failure_clean_iff reachable_one_thread (by decide +kernel) hs').mpr ?_⟩
  decide +kernel

/-- The thread of a process fails to find a file, and has lost its trapframe. -/
theorem exec_failure_unmaps : Reachable (· = boot (List.range' 1 40)) unguarded step oneThread ∧
    (oneThread.proc 2).state = .running ∧ (oneThread.proc 2).pagetable = some 1 ∧
    (oneThread.mem.leaf 1 ((oneThread.proc 2).trapframeVa / PGSIZE)).isSome = true ∧
    valueOf (do
      let r ← exec 2 none []
      let s ← get
      pure (r, s.mem.leaf 1 ((oneThread.proc 2).trapframeVa / PGSIZE))) oneThread =
        some (-1, none) :=
  ⟨reachable_one_thread, by decide +kernel, by decide +kernel, by decide +kernel, by decide +kernel⟩

/-! ## What a successful `exec` makes of the process -/

/-- What a successful `exec` by `p` in the process of `m` promises. -/
structure TakesOver (s : System) (p m : Slot) (s' : System) : Prop where
  /-- The other threads are gone, and their trapframes from the old table. -/
  threads : ∀ q, q ≠ p → (s.proc q).mainPid = (s.proc p).mainPid → (s.proc q).isThread = true →
    (s'.proc q).state = .unused ∧ ∀ old, (s.proc q).pagetable = some old →
      s'.mem.leaf old ((s.proc q).trapframeVa / PGSIZE) = none
  /-- The caller is the main thread of a process of its own. -/
  main : (s'.proc p).mainThread = some p ∧ (s'.proc p).mainPid = (s'.proc p).pid ∧
    (s'.proc p).isThread = false ∧ (s'.proc p).cnt = 0
  alone : ∀ q, (s'.proc q).state ≠ .unused → (s'.proc q).mainThread = some p → q = p
  /-- Its trapframe is mapped at the top of the new table. -/
  mapped : (s'.proc p).trapframeVa = TRAPFRAME ∧ ∃ t, (s'.proc p).pagetable = some t ∧
    ∃ l, s'.mem.leaf t (TRAPFRAME / PGSIZE) = some l ∧ l.page = (s'.proc p).trapframe.getD 0
  /-- The parent of the old main thread is its parent. -/
  parent : (s'.proc p).parent = (s.proc m).parent

/-- A successful `exec` by a thread of the process of `m` keeps all its promises exactly if the
thread has the parent of `m` already. -/
theorem exec_takes_over_iff {m : Slot} {file : Option ElfFile} {argv : List (List Byte)}
    {argc : Int}
    (hgroup : Grouped (members s) s.mem) (hrunning : (s.proc p).state = .running)
    (hm : (s.proc p).mainThread = some m) (h : exec p file argv s = .ok (argc, s'))
    (hargc : argc ≠ -1) :
    TakesOver s p m s' ↔ (s.proc p).parent = (s.proc m).parent := by
  have hactive := phase_running hrunning
  obtain ⟨r, hmain⟩ := hgroup.main p (by simp [hactive])
  obtain rfl : r = m := Option.some.inj (hmain.pointer.symm.trans hm)
  obtain ⟨m1, hdoes, -, -⟩ := wp_ok (wp_exec_exact hgroup hmain) h
  obtain ⟨t, hcommitted⟩ := hdoes.succeeded hargc
  have hpid : (s.proc p).mainPid = (s.proc r).pid := hmain.pid.symm
  refine ⟨fun htakes => ?_, fun hparent => ⟨fun q hq hq' hthread => ?_, hcommitted.main,
    fun q hused hpointer => ?_, ?_, ?_⟩⟩
  · rw [← htakes.parent, hcommitted.kept.2]
  · exact hcommitted.threads q hq ⟨hq'.trans hpid, hthread⟩
  · by_contra hq
    by_cases hin : InProcess s r q
    · exact hused (hcommitted.threads q hq hin).1
    · -- a member that is left over would be a thread of `p`, and `p` the main thread
      obtain ⟨hpointer', hstate⟩ := hcommitted.others q hq hin
      rw [hpointer'] at hpointer
      rw [hstate] at hused
      obtain ⟨r', hr'⟩ := hgroup.main q fun hphase => hused (phase_unused.mp hphase)
      obtain rfl : r' = p := Option.some.inj (hr'.pointer.symm.trans hpointer)
      obtain rfl : r = r' := Option.some.inj (hmain.pointer.symm.trans hr'.self)
      cases hthread : (s.proc q).isThread with
      | true => exact hin ⟨hr'.pid.symm, hthread⟩
      | false =>
        have hself := hgroup.self q (fun hphase => hused (phase_unused.mp hphase)) hthread
        exact hq (Option.some.inj (hself.symm.trans hr'.pointer))
  · obtain ⟨hpt, hva, l, hl, hpage⟩ := hcommitted.mapped
    exact ⟨hva, t, hpt, l, hl, by rw [hpage, hcommitted.kept.1]⟩
  · rw [hcommitted.kept.2, hparent]

/-- The main thread of a process with a thread. -/
theorem exec_takes_over_main : ∃ s', exec 1 (some ⟨true, []⟩) [] oneThread = .ok (0, s') ∧
    TakesOver oneThread 1 1 s' := by
  have hvalue : valueOf (exec 1 (some ⟨true, []⟩) []) oneThread = some 0 := by decide +kernel
  obtain ⟨s', hs'⟩ := ok_of_value hvalue
  refine ⟨s', hs', (exec_takes_over_iff (reachable_grouped reachable_one_thread)
    (by decide +kernel) (by decide +kernel) hs' (by decide)).mpr rfl⟩

/-- The thread of a process keeps its main thread for a parent. -/
theorem exec_keeps_parent : Reachable (· = boot (List.range' 1 40)) unguarded step oneThread ∧
    (oneThread.proc 2).state = .running ∧ (oneThread.proc 2).mainThread = some 1 ∧
    (oneThread.proc 1).parent = some 0 ∧
    valueOf (do
      let r ← exec 2 (some ⟨true, []⟩) []
      let s ← get
      pure (r, (s.proc 2).parent)) oneThread = some (0, some 1) :=
  ⟨reachable_one_thread, by decide +kernel, by decide +kernel, by decide +kernel, by decide +kernel⟩

end Xv6.Thread.Calls
