import Xv6.Thread.Group

/-!
# Thread groups stay consistent

Every call keeps `Grouped`, in every run. The one thing that can go wrong is `exec`: it takes a
caller whose pid equals its `main_pid` for the main thread and frees the page table of the group.
A thread has such a pid only when the pids have gone round, after `2 ^ 32` allocations, and then
its main thread is left with a freed table.
-/

namespace Xv6.Thread.Calls

open Function

variable {α : Type} {E : Fault → Prop} {s s' s'' : System} {p np : Slot} {t : TableId}
  {g : Slot → Member} {sz : Nat} {r : Slot} {f : Fault}

/-! ## What the parts of a call do to members and tables -/

theorem members_update (p : Slot) (x : Task) :
    members { s with proc := update s.proc p x } =
      update (members s) p x.core.member := by
  funext q
  by_cases hq : q = p
  · subst hq
    simp [members, cores]
  · simp [members, cores, hq]

theorem members_of_cores (h : cores s' = cores s) : members s' = members s := by
  funext q
  simp only [members, h]

theorem members_of_proc (h : s'.proc = s.proc) : members s' = members s := by
  funext q
  simp only [members, cores, h]

/-- The same members, and no table has come or gone. -/
structure Quiet (s s' : System) : Prop where
  members : members s' = members s
  mem : Settled s.mem s'.mem

instance : Std.Refl Quiet := ⟨fun _ => ⟨rfl, Std.Refl.refl _⟩⟩

theorem Unmoved.quiet (h : Unmoved s s') : Quiet s s' :=
  ⟨members_of_cores h.cores, h.mem ▸ Std.Refl.refl _⟩

/-- An assignment to a slot, as far as members and tables go. -/
theorem wp_set_member {f : Task → Task} {Q : Unit → System → Prop}
    (h : ∀ s', members s' = update (members s) p (f (s.proc p)).core.member →
      s'.mem = s.mem → Q () s') : wp (setProc p f) E Q s :=
  (wp_set_proc p f).mpr (h _ (members_update p _) rfl)

theorem members_trapframe_va (p : Slot) (m : Mem) (va : Nat) :
    members { s with
      proc := update s.proc p { s.proc p with trapframeVa := va }, mem := m } =
        members s := by
  have hmem : members { s with mem := m } = members s := members_of_proc rfl
  rw [members_update (s := { s with mem := m }), hmem]
  exact update_eq_self p (members s)

theorem wp_proc_pagetable (p : Slot) (hm : s.mem.Numbered) :
    wp (procPagetable p) undangled (fun r s' => members s' = members s ∧
      (r = none → Settled s.mem s'.mem) ∧ ∀ t, r = some t → Added t s.mem s'.mem) s := by
  simp only [procPagetable, wp_bind, wp_on_mem]
  refine wp_mono (wp_uvmcreate hm) fun r m1 h1 => ?_
  cases r with
  | none => exact ⟨rfl, fun _ => h1.1 rfl ▸ Std.Refl.refl _, by simp⟩
  | some t =>
    have hadded := h1.2 t rfl
    simp only [wp_bind, wp_on_mem]
    refine (settled_mappages _ _ _ _ _).next fun mapped m2 h2 => ?_
    cases mapped with
    | false =>
      simp only [Bool.false_eq_true, if_false, wp_bind, wp_on_mem]
      refine wp_mono (wp_uvmfree 0) fun _ m3 h3 => ?_
      exact ⟨rfl, fun _ => hadded.removed (h2.removed h3), by simp⟩
    | true =>
      simp only [if_true, wp_bind, wp_set_proc, wp_get, wp_on_mem]
      refine (settled_mappages _ _ _ _ _).next fun mapped m3 h3 => ?_
      have hmembers := fun m' => members_trapframe_va (s := s) p m' TRAPFRAME
      cases mapped with
      | true => exact ⟨hmembers m3, by simp, fun _ h => Option.some.inj h ▸
          (hadded.settled h2).settled h3⟩
      | false =>
        simp only [Bool.false_eq_true, if_false, wp_bind, wp_on_mem]
        refine (settled_uvmunmap _ _ _ _).next fun _ m4 h4 => ?_
        refine wp_mono (wp_uvmfree 0) fun _ m5 h5 => ?_
        refine ⟨hmembers m5, fun _ => ?_, by simp⟩
        exact ((hadded.settled h2).settled h3).removed (h4.removed h5)

theorem wp_proc_freepagetable {owner : Ptr} (h : Freeable s owner t) :
    wp (procFreepagetable owner t sz) undangled (fun _ s' =>
      members s' = members s ∧ Removed t s.mem s'.mem) s := by
  simp only [procFreepagetable, wp_bind, wp_get]
  rw [if_pos h]
  simp only [wp_bind, wp_on_mem]
  refine (settled_uvmunmap _ _ _ _).next fun _ m1 h1 => ?_
  refine (settled_uvmunmap _ _ _ _).next fun _ m2 h2 => ?_
  refine wp_mono (wp_uvmfree sz) fun _ m3 h3 => ?_
  exact ⟨rfl, (h1.trans h2).removed h3⟩

/-- What clearing a slot that points to `table` does to the tables. -/
def Dropped (table : Option TableId) (m m' : Mem) : Prop :=
  match table with
  | none => Settled m m'
  | some t => Removed t m m'

/-- `freeproc` of a slot that nobody shares a table with. -/
theorem wp_freeproc (h : ∀ t, (s.proc p).pagetable = some t → Freeable s (some p) t) :
    wp (freeproc p) undangled (fun _ s' =>
      members s' = update (members s) p .cleared ∧
        Dropped (s.proc p).pagetable s.mem s'.mem) s := by
  have hclear : ∀ s1, members s1 = members s → members { s1 with
      proc := update s1.proc p (s1.proc p).cleared } =
        update (members s) p .cleared := by
    intro s1 hs1
    rw [members_update, hs1]
    rfl
  have hrest : ∀ s1, s1.proc = s.proc → Settled s.mem s1.mem →
      wp (freeprocEnd p (s.proc p)) undangled (fun _ s' =>
        members s' = update (members s) p .cleared ∧
          Dropped (s.proc p).pagetable s.mem s'.mem) s1 := by
    intro s1 hproc hm1
    have hmembers : members s1 = members s := members_of_proc hproc
    unfold freeprocEnd
    cases ht : (s.proc p).pagetable with
    | none => exact ⟨hclear s1 hmembers, hm1⟩
    | some t =>
      have hfree : Freeable s1 (some p) t := by
        obtain ⟨hlive, hothers⟩ := h t ht
        have hmem : t ∈ s1.mem.live := by
          rw [hm1.live]
          exact hlive
        exact ⟨hmem, hproc ▸ hothers⟩
      refine wp_seq (wp_proc_freepagetable hfree) fun _ s2 h2 => ?_
      exact ⟨hclear s2 (h2.1.trans hmembers), hm1.removed h2.2⟩
  simp only [freeproc, wp_bind, wp_get]
  cases (s.proc p).trapframe with
  | none => exact hrest s rfl (Std.Refl.refl _)
  | some page =>
    rw [wp_bind, wp_on_mem]
    exact (settled_kfree page).next fun _ m1 h1 => hrest { s with mem := m1 } rfl h1

/-- `allocproc` of an idle slot: it is USED and has a new table, or is idle again. -/
theorem wp_allocproc (hidle : (members s np).Idle) (hm : s.mem.Numbered) :
    wp (allocproc np) undangled (fun done s' =>
      (done = false → members s' = update (members s) np .cleared ∧
        Settled s.mem s'.mem) ∧
      (done = true → ∃ t, Added t s.mem s'.mem ∧ members s' = update (members s) np
        { members s np with phase := .used, pid := s.nextpid, pagetable := some t })) s := by
  have hnone : (s.proc np).pagetable = none := hidle.pagetable
  -- `freeproc` of a slot that has no table yet
  have hundo : ∀ {x : Member} (s1 : System), members s1 = update (members s) np x →
      x.pagetable = none → Settled s.mem s1.mem →
      wp (freeproc np) undangled (fun _ s' =>
        members s' = update (members s) np .cleared ∧ Settled s.mem s'.mem) s1 := by
    intro x s1 h1 hx hm1
    have htable : (s1.proc np).pagetable = none := by
      show (members s1 np).pagetable = none
      rw [h1, update_self, hx]
    refine wp_mono (wp_freeproc (by simp [htable])) fun _ s2 h2 => ?_
    rw [htable] at h2
    refine ⟨?_, hm1.trans h2.2⟩
    rw [h2.1, h1, update_idem]
  simp only [allocproc, allocpid, wp_bind, wp_get, wp_set, wp_pure]
  refine wp_set_member fun s1 h1 hm1 => ?_
  have h1 : members s1 = update (members s) np
      { members s np with phase := .used, pid := s.nextpid } := h1
  rw [wp_on_mem, show s1.mem = s.mem from hm1]
  refine settled_kalloc.next fun page m2 h2 => ?_
  cases page with
  | none =>
    refine wp_seq (hundo { s1 with mem := m2 } h1 hnone h2) fun _ s3 h3 => ?_
    exact ⟨fun _ => h3, by simp⟩
  | some page =>
    simp only [wp_bind]
    refine wp_set_member fun s3 h3 hm3 => ?_
    have h3 : members s3 = members s1 := h3.trans (update_eq_self np (members s1))
    have hm3 : Settled s.mem s3.mem := hm3 ▸ h2
    refine wp_mono (wp_proc_pagetable np (hm3.numbered hm)) fun r s4 h4 => ?_
    obtain ⟨hmembers, hnew, hadded⟩ := h4
    have h4 := hmembers.trans (h3.trans h1)
    cases r with
    | none =>
      refine wp_seq (hundo s4 h4 hnone (hm3.trans (hnew rfl))) fun _ s5 h5 => ?_
      exact ⟨fun _ => h5, by simp⟩
    | some t =>
      simp only [wp_bind]
      refine wp_set_member fun s5 h5 hm5 => ?_
      refine ⟨by simp, fun _ => ⟨t, ?_, ?_⟩⟩
      · show Added t s.mem s5.mem
        rw [hm5]
        exact hm3.added (hadded t rfl)
      · show members s5 = _
        have hnp : (s4.proc np).core.member =
            { members s np with phase := .used, pid := s.nextpid } := by
          rw [show (s4.proc np).core.member = members s4 np from rfl, h4, update_self]
        have hset : ({ s4.proc np with pagetable := some t } : Task).core.member =
            { (s4.proc np).core.member with pagetable := some t } := rfl
        rw [h5, hset, hnp, h4, update_idem]

/-! ## Calls -/

/-- The threads of `g'` are threads of `g`, with the same pids. -/
def Kept (g g' : Slot → Member) : Prop :=
  ∀ q, (g' q).isThread = true →
    (g q).isThread = true ∧ (g' q).pid = (g q).pid ∧ (g' q).mainPid = (g q).mainPid

theorem kept_of_eq {g' : Slot → Member} (h : ∀ q, g' q = g q ∨ (g' q).isThread = false) :
    Kept g g' := by
  intro q hq
  rcases h q with heq | hthread
  · rw [heq] at hq ⊢
    exact ⟨hq, rfl, rfl⟩
  · rw [hthread] at hq
    exact absurd hq (by simp)

theorem kept_update {x : Member} (hx : x.isThread = false) :
    Kept g (update g p x) := by
  refine kept_of_eq fun q => ?_
  by_cases hq : q = p
  · rw [hq, update_self]
    exact .inr hx
  · exact .inl (update_of_ne hq _ _)

/-- What every call but `paull04_clone` does: the groups are in order and there is no new
thread. -/
structure Advances (s s' : System) : Prop where
  grouped : Grouped (members s') s'.mem
  kept : Kept (members s) (members s')

theorem advances_quiet (h : Grouped (members s) s.mem) (hs : Quiet s s') : Advances s s' := by
  refine ⟨h.retire hs.mem fun q => .inl ?_, kept_of_eq fun q => .inl ?_⟩
  · rw [hs.members]
  · rw [hs.members]

theorem Advances.refl (h : Grouped (members s) s.mem) : Advances s s :=
  advances_quiet h (Std.Refl.refl s)

theorem advances_idle (h : Grouped (members s) s.mem) (hnp : (members s np).phase = .unused)
    (hmembers : members s' = update (members s) np .cleared)
    (hmem : Settled s.mem s'.mem) : Advances s s' := by
  refine ⟨h.retire hmem fun q => ?_, hmembers ▸ kept_update rfl⟩
  rw [hmembers]
  by_cases hq : q = np
  · subst hq
    rw [update_self]
    exact .inr ⟨.inl hnp, Member.idle_cleared⟩
  · exact .inl (update_of_ne hq _ _)

/-- A free slot becomes the main thread of a new process. -/
theorem advances_born (t : TableId) (pid : Int) (sz : Nat) (h : Grouped (members s) s.mem)
    (hnp : (members s np).phase = .unused)
    (hmembers : members s' = update (members s) np (.main np pid t sz))
    (hmem : Added t s.mem s'.mem) : Advances s s' := by
  refine ⟨hmembers ▸ h.renew hmem fun q hq hpointer => ?_, hmembers ▸ kept_update rfl⟩
  obtain ⟨r, hr⟩ := h.main q hq
  have heq : r = np := Option.some.inj (hr.pointer.symm.trans hpointer)
  exact absurd hnp (heq ▸ hr.used)

theorem unused_of_first_slot {found : Slot → Bool} (h : firstSlot found = some np)
    (hfound : found np = true → (s.proc np).state = .unused) : (members s np).phase = .unused :=
  phase_unused.mpr (hfound (first_slot_some h))

theorem wp_start_child (p np : Slot) :
    wp (startChild p np) undangled (fun _ s' => s'.mem = s.mem ∧
      members s' = update (members s) np { members s np with
        phase := .active, isThread := false, mainPid := (members s np).pid,
        mainThread := some np }) s := by
  unfold startChild
  rw [wp_bind]
  refine (still_of_files (files_dup_files p np)).then (fun f hf => undangled_of_panics hf)
    fun _ s1 h1 => ?_
  simp only [wp_bind, wp_get]
  refine wp_deref (fun cwd _ => ?_) fun _ => undangled_wild
  refine (still_of_files (files_idup cwd)).next fun _ s2 h2 => ?_
  refine wp_set_member fun s3 h3 hm3 => ?_
  have h3 : members s3 = members s2 := h3.trans (update_eq_self np (members s2))
  refine (still_acquire p (undangled_panic _) undangled_hang).next fun _ s4 h4 => ?_
  refine wp_set_member fun s5 h5 hm5 => ?_
  have h5 : members s5 = members s4 := h5.trans (update_eq_self np (members s4))
  refine still_release.next fun _ s6 h6 => ?_
  refine wp_set_member fun s7 h7 hm7 => ?_
  have hmembers : members s6 = members s := by
    rw [h6.quiet.members, h5, h4.quiet.members, h3, h2.quiet.members, h1.quiet.members]
  refine ⟨by rw [hm7, h6.mem, hm5, h4.mem, hm3, h2.mem, h1.mem], ?_⟩
  rw [h7, ← hmembers]
  rfl

theorem wp_fork (h : Grouped (members s) s.mem) (p : Slot) :
    wp (fork p) undangled (fun _ s' => Advances s s') s := by
  simp only [fork, unusedSlot, wp_bind, wp_get, wp_pure]
  split
  next => exact Advances.refl h
  next np hnp =>
    have hunused := unused_of_first_slot (s := s) hnp (by simp)
    refine wp_seq (wp_allocproc (h.idle np hunused) h.numbered) fun done s1 h1 => ?_
    cases done with
    | false =>
      obtain ⟨hmembers, hmem⟩ := h1.1 rfl
      exact advances_idle h hunused hmembers hmem
    | true =>
      obtain ⟨t, hadded, hmembers⟩ := h1.2 rfl
      have htable : (s1.proc np).pagetable = some t := by
        show (members s1 np).pagetable = some t
        rw [hmembers, update_self]
      simp only [if_true, wp_bind, wp_get]
      refine wp_deref (fun old _ => ?_) fun _ => undangled_wild
      rw [htable, wp_deref_some, wp_on_mem]
      refine (settled_uvmcopy old t (s1.proc p).sz).next fun copied m2 h2 => ?_
      cases copied with
      | true =>
        simp only [if_true, wp_bind]
        refine wp_set_member fun s3 h3 hm3 => ?_
        refine wp_mono (wp_start_child p np) fun _ s4 h4 => ?_
        have h3 : members s3 = update (members s) np { members s np with
            phase := .used, pid := s.nextpid, pagetable := some t, sz := (s1.proc p).sz } := by
          have hnp : members s1 np = { members s np with
              phase := .used, pid := s.nextpid, pagetable := some t } := by
            rw [hmembers, update_self]
          have hset : members s3 = update (members s1) np
              { members s1 np with sz := (s1.proc p).sz } := h3
          rw [hset, hnp, hmembers, update_idem]
        have hm3 : s3.mem = m2 := hm3
        refine advances_born t s.nextpid (s1.proc p).sz h hunused ?_ ?_
        · rw [h4.2, h3, update_self, update_idem]
          rfl
        · rw [h4.1, hm3]
          exact hadded.settled h2
      | false =>
        have hfree : Freeable { s1 with mem := m2 } (some np) t := by
          refine ⟨?_, fun q hq hpointer => ?_⟩
          · have hlive : t ∈ m2.live := by
              rw [h2.live, hadded.live]
              exact Set.mem_insert t _
            exact hlive
          · have hne : q ≠ np := fun heq => hq (heq ▸ rfl)
            have hq : (members s1 q).pagetable = some t := hpointer
            rw [hmembers, update_of_ne hne] at hq
            exact hadded.fresh (h.live_of_table hq)
        simp only [Bool.false_eq_true, if_false, wp_bind]
        refine wp_mono (wp_freeproc fun t' ht' => ?_) fun _ s3 h3 => ?_
        · rw [Option.some.inj (htable.symm.trans ht')] at hfree
          exact hfree
        · have hmembers3 : members s3 = update (members s1) np .cleared := h3.1
          have hdropped : Dropped (s1.proc np).pagetable m2 s3.mem := h3.2
          rw [htable] at hdropped
          rw [hmembers, update_idem] at hmembers3
          exact advances_idle h hunused hmembers3 (hadded.removed (h2.removed hdropped))

theorem wp_userinit (h : Grouped (members s) s.mem) :
    wp userinit undangled (fun _ s' => Advances s s') s := by
  simp only [userinit, unusedSlot, wp_bind, wp_get, wp_pure]
  refine wp_deref (fun np hnp => ?_) fun _ => undangled_wild
  have hunused := unused_of_first_slot (s := s) hnp (by simp)
  refine wp_mono (wp_allocproc (h.idle np hunused) h.numbered) fun done s1 h1 => ?_
  cases done with
  | false => exact undangled_wild
  | true =>
    obtain ⟨t, hadded, hmembers⟩ := h1.2 rfl
    have htable : (s1.proc np).pagetable = some t := by
      show (members s1 np).pagetable = some t
      rw [hmembers, update_self]
    simp only [if_true, wp_bind, wp_modify, wp_get, htable, wp_deref_some, wp_on_mem]
    refine (settled_uvmfirst t).next fun _ m2 h2 => ?_
    refine (still_of_files (files_idup 0)).next fun _ s3 h3 => ?_
    refine wp_set_member fun s4 h4 hm4 => ?_
    have h3' : members s3 = members s1 := h3.quiet.members
    have hnp : members s3 np = { members s np with
        phase := .used, pid := s.nextpid, pagetable := some t } := by
      rw [h3', hmembers, update_self]
    refine advances_born t s.nextpid PGSIZE h hunused ?_ ?_
    · have hset : members s4 = update (members s3) np { members s3 np with
          phase := .active, sz := PGSIZE, isThread := false, mainPid := (members s3 np).pid,
          mainThread := some np } := h4
      rw [hset, hnp, h3', hmembers, update_idem]
      rfl
    · rw [hm4, h3.mem]
      exact hadded.settled h2

theorem phase_running (hp : (s.proc p).state = .running) : (members s p).phase = .active := by
  show phaseOf (s.proc p).state = .active
  rw [hp]
  rfl

/-- A zombie that is no thread is the only slot with its page table. -/
theorem freeable_zombie (h : Grouped (members s) s.mem) (hzombie : (members s p).phase = .zombie)
    (hthread : (members s p).isThread = false) (ht : (members s p).pagetable = some t) :
    Freeable s (some p) t := by
  refine ⟨h.live_of_table ht, fun q hq hpointer => hq ?_⟩
  have hmain := h.member_of_table hthread ht (q := q) hpointer
  rw [h.last q p (h.used_of_table (q := q) hpointer) hzombie hthread hmain.pointer]

theorem wp_wait (h : Grouped (members s) s.mem) (hp : (s.proc p).state = .running) (addr : Nat) :
    wp (wait p addr) undangled (fun _ s' => Advances s s') s := by
  unfold wait
  rw [wp_bind]
  refine wp_acquire (fun _ => ?_) (undangled_panic _) undangled_hang
  simp only [wp_bind, wp_modify, wp_get]
  split
  next pp hpp =>
    have hfound := first_slot_some hpp
    simp only [Bool.and_eq_true, decide_eq_true_eq] at hfound
    obtain ⟨⟨-, hthread⟩, hzombie⟩ := hfound
    have hphase : (members s pp).phase = .zombie := by
      show phaseOf (s.proc pp).state = .zombie
      rw [hzombie]
      rfl
    obtain ⟨t, hlive, ht⟩ := h.table pp (by simp [hphase])
    rw [wp_bind]
    refine wp_deref (fun t' _ => ?_) fun _ => undangled_wild
    have hreap : ∀ (copied : Bool) (s2 : System), s2.proc = s.proc → Settled s.mem s2.mem →
        wp (if copied = true then do
            freeproc pp
            releaseWaitLock
            pure (some (s.proc pp).pid)
          else do
            releaseWaitLock
            pure (some (-1))) undangled (fun _ s' => Advances s s') s2 := by
      intro copied s2 hproc h2
      have hmembers2 : members s2 = members s := members_of_proc hproc
      cases copied with
      | false => exact advances_quiet h ⟨hmembers2, h2⟩
      | true =>
        have hfree := freeable_zombie h hphase hthread ht
        have htable : (s2.proc pp).pagetable = some t := by
          rw [hproc]
          exact ht
        have hfree2 : Freeable s2 (some pp) t := by
          have hlive2 : t ∈ s2.mem.live := by
            rw [h2.live]
            exact hlive
          exact ⟨hlive2, hproc ▸ hfree.2⟩
        simp only [if_true, wp_bind]
        refine wp_mono (wp_freeproc fun t' ht' => ?_) fun _ s3 h3 => ?_
        · rwa [Option.some.inj (htable.symm.trans ht')] at hfree2
        · rw [hmembers2, htable] at h3
          obtain ⟨hmembers, hdropped⟩ := h3
          refine ⟨?_, hmembers ▸ kept_update rfl⟩
          show Grouped (members s3) s3.mem
          rw [hmembers]
          refine (h.reap hphase hthread).remove (h2.removed hdropped) fun q hq => ?_
          by_cases heq : q = pp
          · rw [heq, update_self] at hq
            exact absurd hq (by simp [Member.cleared])
          · rw [update_of_ne heq] at hq
            exact hfree.2 q (by simpa using heq) hq
    split
    next => exact hreap true _ rfl (Std.Refl.refl _)
    next =>
      rw [wp_bind, wp_on_mem]
      exact (settled_copyout _ _ _).next fun copied m2 h2 => hreap copied _ rfl h2
  next =>
    refine wp_mono (wp_scan_end ?_) fun _ s' hs' => advances_quiet h ?_
    · exact phase_running hp
    · exact ⟨hs'.quiet.members, hs'.quiet.mem⟩

theorem thread_table (h : Grouped (members s) s.mem) (q : Slot)
    (hq : (s.proc q).isThread = true) : ∃ t, (s.proc q).pagetable = some t ∧ s.mem.Live t := by
  have hused : (members s q).phase ≠ .unused := by
    intro hphase
    have hthread := (h.idle q hphase).isThread
    exact absurd (hq.symm.trans hthread) (by simp)
  obtain ⟨t, hlive, ht⟩ := h.table q hused
  exact ⟨t, ht, hlive⟩

theorem undangled_free (hf : freePanics f) : undangled f := by
  rcases hf with hf | hf
  · exact undangled_of_panics hf
  · exact undangled_of_panics hf

theorem undangled_exit (hf : exitFaults f) : undangled f := by
  rcases hf with hf | rfl | rfl
  · exact undangled_of_panics hf
  · exact undangled_wild
  · exact undangled_hang

theorem wp_join_group (h : Grouped (members s) s.mem) (hp : (s.proc p).state = .running)
    (stack : Nat) : wp (join p stack) undangled (fun _ s' => Advances s s') s := by
  have hactive := phase_running hp
  obtain ⟨t, hlive, ht⟩ := h.table p (by simp [hactive])
  refine wp_mono (wp_mono_fault (wp_join hactive ht hlive fun q hq _ => thread_table h q hq) ?_) ?_
  · rintro f (hf | rfl | rfl)
    · exact undangled_free hf
    · exact undangled_panic _
    · exact undangled_hang
  · rintro _ s' (hs' | ⟨np, hs'⟩)
    · exact advances_quiet h hs'.quiet
    · have hmembers : members s' = update (members s) np .cleared := by
        funext q
        simp only [members, hs'.cleared]
        by_cases hq : q = np
        · rw [hq, update_self, update_self]
          rfl
        · rw [update_of_ne hq, update_of_ne hq]
          rfl
      obtain ⟨t', ht', -⟩ := thread_table h np hs'.thread
      refine ⟨h.retire (hs'.wrote t' ht').settled fun q => ?_, hmembers ▸ kept_update rfl⟩
      rw [hmembers]
      by_cases hq : q = np
      · subst hq
        rw [update_self]
        exact .inr ⟨.inr hs'.thread, Member.idle_cleared⟩
      · exact .inl (update_of_ne hq _ _)

/-- The members once the threads of the processes with pid `pid` are gone. -/
def swept (pid : Int) (g : Slot → Member) : Slot → Member := fun q =>
  if (g q).mainPid = pid ∧ (g q).isThread = true then .cleared else g q

/-- `freethread` clears its slot, whatever the slot holds. -/
theorem wp_freethread_members (self p : Slot) (locked : Bool) :
    wp (freethread self p locked) undangled (fun _ s' =>
      members s' = update (members s) p .cleared ∧ Settled s.mem s'.mem) s := by
  -- the end of `freethread`, once the trapframe is unmapped
  have hend : ∀ s1, members s1 = members s → Settled s.mem s1.mem →
      wp (freethreadEnd p (s.proc p)) undangled (fun _ s' =>
        members s' = update (members s) p .cleared ∧ Settled s.mem s'.mem) s1 := by
    intro s1 h1 hm1
    unfold freethreadEnd
    cases (s.proc p).trapframe with
    | none => exact undangled_panic _
    | some page =>
      rw [wp_bind, wp_on_mem]
      refine (settled_kfree page).next fun _ m2 h2 => wp_set_member fun s3 h3 hm3 => ?_
      have hmembers : members { s1 with mem := m2 } = members s := h1
      rw [hmembers] at h3
      exact ⟨h3, hm1.trans (hm3 ▸ h2)⟩
  simp only [freethread, wp_bind, wp_get]
  split
  next => exact undangled_panic _
  next =>
    rw [wp_bind]
    refine (still_reparent self p).next fun _ s1 h1 => ?_
    unfold clearThread
    split
    next =>
      rw [wp_bind]
      refine wp_deref (fun t _ => ?_) fun _ => undangled_wild
      rw [wp_bind, wp_on_mem]
      refine (settled_uvmunmap _ _ _ _).next fun _ m2 h2 => ?_
      exact hend { s1 with mem := m2 } h1.quiet.members (h1.quiet.mem.trans h2)
    next => exact hend s1 h1.quiet.members h1.quiet.mem

/-- `cleanAllThreads` clears the slots of the threads. `R` is whatever else `freethread` is known
to keep. -/
theorem wp_clean_all_threads {R : System → System → Prop} [Std.Refl R] [IsTrans System R]
    {self main : Slot} (hmain : (s.proc main).isThread = false)
    (hE : ∀ f, undangled f → E f) (hlock : Respects R E (acquireWaitLock self))
    (hunlock : Respects R E releaseWaitLock)
    (hfree : ∀ q, (s.proc q).isThread = true → (s.proc q).mainPid = (s.proc main).pid →
      Respects R E (freethread self q true)) :
    wp (cleanAllThreads self main) E (fun _ s' =>
      members s' = swept (s.proc main).pid (members s) ∧ Settled s.mem s'.mem ∧ R s s') s := by
  unfold cleanAllThreads
  rw [wp_bind]
  have hacquire : wp (acquireWaitLock self) E (fun _ s' => Unmoved s s') s :=
    still_acquire self (hE _ (undangled_panic _)) (hE _ undangled_hang) s
  refine wp_mono (wp_and hacquire (hlock s)) ?_
  rintro _ s1 ⟨h1, hR1⟩
  rw [wp_bind]
  -- before slot `k` is visited, the threads below `k` are gone
  refine wp_mono (wp_for_each (fun k s' => Settled s.mem s'.mem ∧ R s s' ∧
    ∀ q : Slot, members s' q =
      if q.val < k then swept (s.proc main).pid (members s) q else members s q) ?_ ?_) ?_
  · intro k s2 h2
    obtain ⟨hm2, hR2, h2⟩ := h2
    have hk : members s2 k = members s k := by simpa using h2 k
    have hpid : (s2.proc main).pid = (s.proc main).pid := by
      show (members s2 main).pid = (members s main).pid
      rw [h2]
      split
      next =>
        have hthread : (members s main).isThread = false := hmain
        simp [swept, hthread]
      next => rfl
    have hnext : ∀ s3 : System, members s3 k = swept (s.proc main).pid (members s) k →
        (∀ q, q ≠ k → members s3 q = members s2 q) → ∀ q : Slot, members s3 q =
          if q.val < k.val + 1 then swept (s.proc main).pid (members s) q else members s q := by
      intro s3 hself hothers q
      by_cases hq : q = k
      · subst hq
        rw [hself, if_pos (by omega)]
      · have hne : q.val ≠ k.val := fun heq => hq (Fin.ext heq)
        rw [hothers q hq, h2]
        by_cases hlt : q.val < k.val
        · rw [if_pos hlt, if_pos (by omega)]
        · rw [if_neg hlt, if_neg (by omega)]
    have hcond : ((s2.proc k).mainPid = (s2.proc main).pid ∧ (s2.proc k).isThread = true) ↔
        (members s k).mainPid = (s.proc main).pid ∧ (members s k).isThread = true := by
      rw [hpid, ← hk]
      rfl
    rw [wp_bind, wp_get]
    split
    next hmember =>
      obtain ⟨hpid', hthread⟩ := hcond.mp hmember
      refine wp_mono (wp_and (wp_mono_fault (wp_freethread_members self k true) hE)
        (hfree k hthread hpid' s2)) ?_
      rintro _ s3 ⟨⟨hmembers, hm3⟩, hR3⟩
      refine ⟨hm2.trans hm3, IsTrans.trans _ _ _ hR2 hR3, hnext s3 ?_ fun q hq => ?_⟩
      · rw [hmembers, update_self, swept, if_pos (hcond.mp hmember)]
      · rw [hmembers, update_of_ne hq]
    next hmember =>
      refine ⟨hm2, hR2, hnext s2 ?_ fun q _ => rfl⟩
      rw [hk, swept, if_neg (mt hcond.mpr hmember)]
  · exact ⟨h1.quiet.mem, hR1, fun q => by simp [h1.quiet.members]⟩
  · rintro _ s2 ⟨hm2, hR2, h2⟩
    have hrelease : wp releaseWaitLock E (fun _ s' => Unmoved s2 s') s2 := still_release s2
    refine wp_mono (wp_and hrelease (hunlock s2)) ?_
    rintro _ s3 ⟨h3, hR3⟩
    refine ⟨?_, hm2.trans h3.quiet.mem, IsTrans.trans _ _ _ hR2 hR3⟩
    rw [h3.quiet.members]
    funext q
    rw [h2, if_pos q.isLt]

theorem wp_clean_members {self main : Slot} (hmain : (s.proc main).isThread = false) :
    wp (cleanAllThreads self main) undangled (fun _ s' =>
      members s' = swept (s.proc main).pid (members s) ∧ Settled s.mem s'.mem) s := by
  refine wp_mono (wp_clean_all_threads (R := Anything) hmain (fun _ hf => hf) ?_ ?_ ?_)
    fun _ s' hs' => ⟨hs'.1, hs'.2.1⟩
  · exact .anything fun s => wp_mono (still_acquire self (undangled_panic _) undangled_hang s)
      fun _ _ _ => trivial
  · exact .anything fun s => trivial
  · exact fun q _ _ => .anything fun s =>
      wp_mono (wp_freethread_members self q true) fun _ _ _ => trivial

theorem grouped_swept {m m' : Mem} (h : Grouped g m) (hm : Settled m m') (pid : Int) :
    Grouped (swept pid g) m' := by
  refine h.retire hm fun q => ?_
  unfold swept
  split
  next hq => exact .inr ⟨.inr hq.2, Member.idle_cleared⟩
  next => exact .inl rfl

/-- Once the threads of a process are gone, none of its members has another member for its main
thread. -/
theorem alone_swept {m : Mem} {q : Slot} (h : Grouped g m) (hmain : MainOf g p r)
    (hq : (swept (g r).pid g q).phase ≠ .unused)
    (hpointer : (swept (g r).pid g q).mainThread = some p) : q = p := by
  unfold swept at hq hpointer
  split at hq
  next => exact absurd rfl hq
  next hmember =>
    rw [if_neg hmember] at hpointer
    cases hthread : (g q).isThread with
    | false =>
      have hself := h.self q hq hthread
      exact Option.some.inj (hself.symm.trans hpointer)
    | true =>
      -- a thread whose main thread is `p` has the pid of `p` for its `main_pid`
      obtain ⟨r', hr'⟩ := h.main q hq
      obtain rfl : r' = p := Option.some.inj (hr'.pointer.symm.trans hpointer)
      have heq : r = r' := Option.some.inj (hmain.pointer.symm.trans hr'.self)
      rw [heq] at hmember
      exact absurd ⟨hr'.pid.symm, hthread⟩ hmember

/-- `exit` of a member that no other member has for its main thread. -/
theorem advances_died (h : Grouped (members s) s.mem) (hp : (members s p).phase = .active)
    (halone : ∀ q, (members s q).phase ≠ .unused → (members s q).mainThread = some p → q = p)
    (hcores : cores s' = update (cores s) p { cores s p with phase := .zombie })
    (hmem : s'.mem = s.mem) : Advances s s' := by
  have hmembers : members s' = update (members s) p
      { members s p with phase := .zombie } := by
    funext q
    simp only [members, hcores]
    by_cases hq : q = p
    · rw [hq, update_self, update_self]
      rfl
    · rw [update_of_ne hq, update_of_ne hq]
      rfl
  refine ⟨?_, fun q hq => ?_⟩
  · rw [hmembers, hmem]
    exact h.die hp halone
  · rw [hmembers] at hq ⊢
    by_cases heq : q = p
    · subst heq
      rw [update_self] at hq ⊢
      exact ⟨hq, rfl, rfl⟩
    · rw [update_of_ne heq] at hq ⊢
      exact ⟨hq, rfl, rfl⟩

theorem Advances.trans (h : Advances s s') (h' : Advances s' s'') : Advances s s'' := by
  refine ⟨h'.grouped, fun q hq => ?_⟩
  obtain ⟨hthread, hpid, hmain⟩ := h'.kept q hq
  obtain ⟨hthread', hpid', hmain'⟩ := h.kept q hthread
  exact ⟨hthread', hpid.trans hpid', hmain.trans hmain'⟩

theorem wp_exit (h : Grouped (members s) s.mem) (hp : (s.proc p).state = .running)
    (status : Int) : wp (exit p status) undangled (fun _ s' => Advances s s') s := by
  have hactive := phase_running hp
  obtain ⟨r, hr⟩ := h.main p (by simp [hactive])
  cases hthread : (s.proc p).isThread with
  | true =>
    refine wp_mono (wp_mono_fault (wp_exit_thread hthread) ?_) fun _ s' hs' => ?_
    · rintro f (hf | rfl)
      · exact undangled_exit hf
      · exact undangled_panic _
    · refine advances_died h hactive (fun q hq hpointer => ?_) hs'.1 hs'.2
      obtain ⟨r', hr'⟩ := h.main q hq
      obtain rfl : r' = p := Option.some.inj (hr'.pointer.symm.trans hpointer)
      exact absurd (hthread.symm.trans hr'.main) (by simp)
  | false =>
    obtain rfl : r = p := Option.some.inj
      (hr.pointer.symm.trans (h.self p (by simp [hactive]) hthread))
    simp only [exit, wp_bind, wp_get]
    split
    next => exact undangled_panic _
    next =>
      refine wp_seq (wp_clean_members hthread) fun _ s1 h1 => ?_
      obtain ⟨hmembers, hmem⟩ := h1
      have hgrouped : Grouped (members s1) s1.mem := hmembers ▸ grouped_swept h hmem _
      have hadvance : Advances s s1 := by
        refine ⟨hgrouped, hmembers ▸ kept_of_eq fun q => ?_⟩
        unfold swept
        split
        · exact .inr rfl
        · exact .inl rfl
      have hactive1 : (members s1 r).phase = .active := by
        have hmain : (members s r).isThread = false := hthread
        simp [hmembers, swept, hmain, hactive]
      refine wp_mono (wp_mono_fault (wp_exit_rest r status) fun f => undangled_exit) ?_
      intro _ s2 h2
      refine hadvance.trans (advances_died hgrouped hactive1 (fun q hq hpointer => ?_) h2.1 h2.2)
      rw [hmembers] at hq hpointer
      exact alone_swept h hr hq hpointer

/-! ## `exec` -/

section Image

/-! What the operations on a table keep, the parts of `exec` that build an image keep as well. -/

variable {R : Mem → Mem → Prop} [Std.Refl R] [IsTrans Mem R]

theorem respects_load_from (hwalk : ∀ va, Respects R E (walkaddr t va))
    (hpanic : ∀ msg, E (.panic msg)) (readable : Bool) (n va : Nat) :
    Respects R E (loadFrom t readable n va) := by
  induction n generalizing va with
  | zero => exact .pure true
  | succ n ih =>
    refine .bind (hwalk va) fun page => ?_
    cases page with
    | none => exact .kpanic (hpanic _)
    | some page => exact .ite (ih _) (.pure false)

theorem respects_load_segments (hwalk : ∀ va, Respects R E (walkaddr t va))
    (hpanic : ∀ msg, E (.panic msg))
    (halloc : ∀ oldsz newsz perm, Respects R E (uvmalloc t oldsz newsz perm))
    (segments : List (Option ProgHdr)) (sz : Nat) :
    Respects R E (loadSegments t segments sz) := by
  induction segments generalizing sz with
  | nil => exact .pure _
  | cons segment rest ih =>
    cases segment with
    | none => exact .pure _
    | some ph =>
      refine .ite (ih sz) (.ite (.pure _) (.bind (halloc _ _ _) fun sz1 => ?_))
      refine .ite (.pure _) (.bind (respects_load_from hwalk hpanic _ _ _) fun _ => ?_)
      exact .ite (ih sz1) (.pure _)

theorem respects_push_args (hcopy : ∀ va src, Respects R E (copyout t va src)) (stackbase : Nat)
    (args : List (List Byte)) (ustack : List Nat) (sp : Nat) :
    Respects R E (pushArgs t stackbase args ustack sp) := by
  induction args generalizing ustack sp with
  | nil => exact .pure _
  | cons arg rest ih =>
    refine .ite (.pure none) (.bind (hcopy _ _) fun _ => ?_)
    exact .ite (ih _ _) (.pure none)

theorem respects_build_stack
    (halloc : ∀ oldsz newsz perm, Respects R E (uvmalloc t oldsz newsz perm))
    (hclear : ∀ va, Respects R E (uvmclear t va))
    (hcopy : ∀ va src, Respects R E (copyout t va src)) (sz : Nat) (argv : List (List Byte)) :
    Respects R E (buildStack t sz argv) := by
  unfold buildStack
  -- the sizes of the stack do not matter, and the checker should not compute with them
  generalize (USERSTACK + 1) * PGSIZE = stack, USERSTACK * PGSIZE = user
  refine .bind (halloc _ _ _) fun sz1 => .ite (.pure _) (.bind (hclear _) fun _ => ?_)
  refine .bind (respects_push_args hcopy _ _ _ _) fun r => ?_
  cases r with
  | none => exact .pure _
  | some r =>
    exact .ite (.pure _) (.bind (hcopy _ _) fun _ => .ite (.pure _) (.pure _))

end Image

theorem settled_load_segments (t : TableId) (segments : List (Option ProgHdr)) (sz : Nat) :
    Respects Settled undangled (loadSegments t segments sz) :=
  respects_load_segments (settled_walkaddr t) undangled_panic (settled_uvmalloc t) segments sz

theorem settled_build_stack (t : TableId) (sz : Nat) (argv : List (List Byte)) :
    Respects Settled undangled (buildStack t sz argv) :=
  respects_build_stack (settled_uvmalloc t) (settled_uvmclear t) (settled_copyout t) sz argv

section Passing

variable {R : System → System → Prop} [Std.Refl R]

theorem respects_deref (a : Option α) : Respects R Fault.any (deref a) := by
  cases a with
  | none => exact .fault trivial
  | some a => exact .pure a

variable [IsTrans System R]
  (hmem : ∀ {α : Type} (code : MemCode α), Respects R Fault.any (onMem code))

include hmem

omit [Std.Refl R] in
/-- What any work on memory leaves alone, `proc_freepagetable` does. -/
theorem respects_proc_freepagetable (owner : Ptr) (t : TableId) (sz : Nat) :
    Respects R Fault.any (procFreepagetable owner t sz) := by
  refine .get fun s => Respects.ite ?_ (.fault trivial) s
  exact .bind (hmem _) fun _ => .bind (hmem _) fun _ => hmem _

theorem respects_proc_pagetable (hset : Respects R Fault.any
    (setProc p fun x => { x with trapframeVa := TRAPFRAME })) :
    Respects R Fault.any (procPagetable p) := by
  refine .bind (hmem _) fun made => ?_
  cases made with
  | none => exact .pure none
  | some t =>
    refine .bind (hmem _) fun _ => .ite ?_ (.bind (hmem _) fun _ => .pure none)
    refine .bind hset fun _ => .get fun s => ?_
    refine Respects.bind (hmem _) (fun _ => .ite (.pure _) ?_) s
    exact .bind (hmem _) fun _ => .bind (hmem _) fun _ => .pure none

theorem respects_growproc (n : Int) (hacquire : Respects R Fault.any (acquireWaitLock p))
    (hset : ∀ main sz, Respects R Fault.any (setProc main fun t => { t with sz := sz }))
    (hsizes : ∀ main sz, Respects R Fault.any (setSizes main sz))
    (hrelease : Respects R Fault.any releaseWaitLock) : Respects R Fault.any (growproc p n) := by
  have hend : ∀ (main : Slot) (sz : Nat), Respects R Fault.any (do
      setProc main fun t => { t with sz := sz }
      setSizes main sz
      releaseWaitLock
      pure (0 : Int)) := fun main sz =>
    .bind (hset main sz) fun _ => .bind (hsizes main sz) fun _ => .bind hrelease fun _ => .pure 0
  refine .bind hacquire fun _ => .get fun s => ?_
  refine Respects.bind (respects_deref _) (fun main => .bind (respects_deref _) fun t => ?_) s
  refine .ite (.bind (hmem _) fun sz => .ite (.pure _) (hend main sz)) ?_
  exact .ite (.bind (hmem _) fun sz => hend main sz) (.bind (.pure _) fun sz => hend main _)

end Passing

/-- What holds of the new table while `exec` fills it holds of the image, and a table that is given
up leaves what a failure at once leaves. -/
theorem wp_build_image_of {E : Fault → Prop} {R : TableId → Mem → Mem → Prop}
    {file : ElfFile} {argv : List (List Byte)} (I : TableId → System → Prop)
    {Q : Option (TableId × Nat × Nat) → System → Prop} (hnone : Q none s)
    (htable : wp (procPagetable p) E
      (fun r s1 => (r = none → Q none s1) ∧ ∀ t, r = some t → I t s1) s)
    (hload : ∀ t segments sz, Respects (R t) E (loadSegments t segments sz))
    (hstack : ∀ t sz argv, Respects (R t) E (buildStack t sz argv))
    (hkeep : ∀ t s1 m, I t s1 → R t s1.mem m → I t { s1 with mem := m })
    (hundo : ∀ t sz s1, I t s1 → wp (procFreepagetable none t sz) E (fun _ s' => Q none s') s1)
    (hdone : ∀ t sz argc s1, I t s1 → Q (some (t, sz, argc)) s1) :
    wp (buildImage p file argv) E Q s := by
  unfold buildImage
  split
  next =>
    refine wp_seq htable fun r s1 h1 => ?_
    cases r with
    | none => exact h1.1 rfl
    | some t =>
      simp only [wp_bind, wp_on_mem]
      refine (hload t _ _).next fun r m2 h2 => ?_
      have hI2 := hkeep t s1 m2 (h1.2 t rfl) h2
      split
      next =>
        simp only [wp_bind, wp_on_mem]
        refine (hstack t _ _).next fun r m3 h3 => ?_
        have hI3 := hkeep t _ m3 hI2 h3
        split
        next => exact hdone t _ _ _ hI3
        next => exact wp_seq (hundo t _ _ hI3) fun _ _ h => h
      next => exact wp_seq (hundo t _ _ hI2) fun _ _ h => h
  next => exact hnone

/-- `exec` up to the commit adds a table or changes nothing. -/
theorem wp_build_image (file : ElfFile) (argv : List (List Byte)) (hm : s.mem.Numbered)
    (htables : ∀ q t, (s.proc q).pagetable = some t → t ∈ s.mem.live) :
    wp (buildImage p file argv) undangled (fun r s' => members s' = members s ∧
      (r = none → Settled s.mem s'.mem) ∧
      ∀ t sz argc, r = some (t, sz, argc) → Added t s.mem s'.mem) s := by
  refine wp_build_image_of (fun t s1 => members s1 = members s ∧ Added t s.mem s1.mem)
    ⟨rfl, fun _ => Std.Refl.refl _, by simp⟩ ?_ settled_load_segments settled_build_stack
    (fun t s1 m h hsettled => ⟨h.1, h.2.settled hsettled⟩) ?_ ?_
  · refine wp_mono (wp_proc_pagetable p hm) fun r s1 h1 => ?_
    exact ⟨fun hr => ⟨h1.1, fun _ => h1.2.1 hr, by simp⟩, fun t ht => ⟨h1.1, h1.2.2 t ht⟩⟩
  · rintro t sz s1 ⟨hmembers, hadded⟩
    have hfree : Freeable s1 none t := by
      refine ⟨?_, fun q _ hq => ?_⟩
      · have hlive : t ∈ s1.mem.live := by
          rw [hadded.live]
          exact Set.mem_insert t _
        exact hlive
      · have hq' : (members s1 q).pagetable = some t := hq
        rw [hmembers] at hq'
        exact hadded.fresh (htables q t hq')
    refine wp_mono (wp_proc_freepagetable hfree) fun _ s2 h2 => ?_
    exact ⟨h2.1.trans hmembers, fun _ => hadded.removed h2.2, by simp⟩
  · rintro t sz argc s1 ⟨hmembers, hadded⟩
    refine ⟨hmembers, by simp, fun t' sz' argc' heq => ?_⟩
    cases heq
    exact hadded

/-- The faults of a step from `s`: a table is freed under a slot that uses it only when some
thread has the pid of its main thread. -/
def confused (s : System) : Fault → Prop := fun f =>
  f = .dangling → ∃ q, (s.proc q).isThread = true ∧ (s.proc q).pid = (s.proc q).mainPid

theorem confused_of_undangled (hf : undangled f) : confused s f :=
  fun h => absurd h hf

/-- The caller of `exec` is a main thread when `cleanAllThreads` looks at it, and stays. -/
theorem swept_update {x : Member} (hx : x.isThread = false) (pid : Int) :
    swept pid (update g p x) = update (swept pid g) p x := by
  funext q
  by_cases hq : q = p
  · rw [hq, update_self]
    simp [swept, hx]
  · rw [update_of_ne hq]
    simp [swept, hq]

section

variable (h : Grouped (members s) s.mem)

include h

/-- The commit of `exec` by `p`, which has the new table `t`. -/
theorem advances_commit (hmain : MainOf (members s) p r)
    (hadded : Added t s.mem s'.mem)
    (hmembers : members s' = update (swept (members s r).pid (members s)) p
      (.main p (members s p).pid t sz)) : Advances s s' := by
  refine ⟨?_, hmembers ▸ fun q hq => ?_⟩
  · rw [hmembers]
    exact (grouped_swept h (Std.Refl.refl _) _).renew hadded fun q hq hpointer =>
      alone_swept h hmain hq hpointer
  · have hne : q ≠ p := by
      rintro rfl
      simp [Member.main] at hq
    rw [update_of_ne hne] at hq ⊢
    unfold swept at hq ⊢
    split at hq
    next => exact absurd hq (by simp [Member.cleared])
    next hmember =>
      rw [if_neg hmember]
      exact ⟨hq, rfl, rfl⟩

/-- After the commit of a main thread nobody points to its old table. -/
theorem old_table_unused {q : Slot} {old : TableId}
    (hthread : (members s p).isThread = false) (hold : (members s p).pagetable = some old)
    (hfresh : t ∉ s.mem.live) :
    (update (swept (members s p).pid (members s)) p
      (.main p (members s p).pid t sz) q).pagetable ≠ some old := by
  intro hq
  by_cases heq : q = p
  · rw [heq, update_self] at hq
    have ht : t = old := Option.some.inj hq
    exact hfresh (ht ▸ h.live_of_table hold)
  · rw [update_of_ne heq] at hq
    unfold swept at hq
    split at hq
    next => exact absurd hq (by simp [Member.cleared])
    next hmember =>
      have hmain := h.member_of_table hthread hold hq
      cases hthread' : (members s q).isThread with
      | true => exact hmember ⟨hmain.pid.symm, hthread'⟩
      | false =>
        have hself := h.self q (h.used_of_table hq) hthread'
        exact heq (Option.some.inj (hself.symm.trans hmain.pointer))

theorem wp_exec_commit {argc : Nat} {s3 : System}
    (hactive : (members s p).phase = .active) (hmain : MainOf (members s) p r)
    (hadded : Added t s.mem s3.mem)
    (hset : members s3 = update (members s) p (.main p (members s p).pid t sz)) :
    wp (execEnd p r (s.proc p) argc) (confused s) (fun _ s' => Advances s s') s3 := by
  have hother : ∀ q, q ≠ p → members s3 q = members s q := by
    intro q hq
    rw [hset, update_of_ne hq]
  have hself : members s3 p = .main p (members s p).pid t sz := by
    rw [hset, update_self]
  have hmain3 : (s3.proc r).isThread = false ∧ (s3.proc r).pid = (members s r).pid := by
    show (members s3 r).isThread = false ∧ (members s3 r).pid = (members s r).pid
    by_cases hr : r = p
    · rw [hr, hself]
      exact ⟨rfl, rfl⟩
    · rw [hother r hr]
      exact ⟨hmain.main, rfl⟩
  unfold execEnd
  refine wp_seq (wp_mono_fault (wp_clean_members hmain3.1) fun f =>
    confused_of_undangled) fun _ s4 h4 => ?_
  obtain ⟨hmembers, hmem⟩ := h4
  rw [hmain3.2, hset, swept_update rfl] at hmembers
  have hadded4 := hadded.settled hmem
  have hadvance := advances_commit h hmain hadded4 hmembers
  split
  next hpid =>
    obtain ⟨old, hlive, hold⟩ := h.table p (by simp [hactive])
    rw [show (s.proc p).pagetable = some old from hold]
    simp only [wp_bind, wp_deref_some]
    by_cases hfree : Freeable s4 none old
    · refine wp_mono (wp_mono_fault (wp_proc_freepagetable hfree) fun f =>
        confused_of_undangled) fun _ s5 h5 => ?_
      refine hadvance.trans ⟨?_, kept_of_eq fun q => .inl ?_⟩
      · show Grouped (members s5) s5.mem
        rw [h5.1]
        exact hadvance.grouped.remove h5.2 fun q => hfree.2 q (by simp)
      · show members s5 q = members s4 q
        rw [h5.1]
    · -- a main thread is the last one to use its table
      have hthread : (s.proc p).isThread = true := by
        by_contra hne
        have hthread : (members s p).isThread = false := Bool.eq_false_iff.mpr hne
        obtain rfl : r = p := Option.some.inj
          (hmain.pointer.symm.trans (h.self p (by simp [hactive]) hthread))
        refine hfree ⟨?_, fun q _ hq => ?_⟩
        · have hlive4 : old ∈ s4.mem.live := by
            rw [hadded4.live]
            exact Set.mem_insert_of_mem t hlive
          exact hlive4
        · have hq : (members s4 q).pagetable = some old := hq
          rw [hmembers] at hq
          exact old_table_unused h hthread hold hadded4.fresh hq
      unfold procFreepagetable
      rw [wp_bind, wp_get, if_neg hfree]
      exact fun _ => ⟨p, hthread, hpid⟩
  next =>
    rw [wp_bind]
    refine wp_set_member fun s5 h5 hm5 => ?_
    refine hadvance.trans (advances_quiet hadvance.grouped ⟨?_, hm5 ▸ Std.Refl.refl _⟩)
    exact h5.trans (update_eq_self r (members s4))

theorem wp_exec (hp : (s.proc p).state = .running)
    (file : Option ElfFile) (argv : List (List Byte)) :
    wp (exec p file argv) (confused s) (fun _ s' => Advances s s') s := by
  have hactive := phase_running hp
  obtain ⟨r, hmain⟩ := h.main p (by simp [hactive])
  -- what follows the removal of the caller's own trapframe
  have hrest : ∀ s1 : System, s1.proc = s.proc → Settled s.mem s1.mem →
      wp (execRest p (s.proc p) file argv) (confused s) (fun _ s' => Advances s s') s1 := by
    intro s1 hproc hm1
    have hmembers1 : members s1 = members s := members_of_proc hproc
    unfold execRest
    cases file with
    | none => exact advances_quiet h ⟨hmembers1, hm1⟩
    | some file =>
      refine wp_seq (wp_mono_fault (wp_build_image file argv (hm1.numbered h.numbered)
        fun q t hq => ?_) fun f => confused_of_undangled) fun image s2 h2 => ?_
      · rw [hm1.live]
        rw [hproc] at hq
        exact h.live_of_table (q := q) hq
      obtain ⟨hmembers2, hnone, hsome⟩ := h2
      have hmembers2 := hmembers2.trans hmembers1
      cases image with
      | none => exact advances_quiet h ⟨hmembers2, hm1.trans (hnone rfl)⟩
      | some image =>
        obtain ⟨t, sz, argc⟩ := image
        have hadded2 := hm1.added (hsome t sz argc rfl)
        simp only [wp_bind]
        rw [show (s.proc p).mainThread = some r from hmain.pointer, wp_deref_some]
        refine wp_set_member fun s3 h3 hm3 => ?_
        have hset : members s3 = update (members s) p
            (.main p (members s p).pid t sz) := by
          have hfields : members s3 = update (members s2) p { members s2 p with
              pagetable := some t, sz := sz, mainPid := (members s2 p).pid,
              mainThread := some p, isThread := false } := h3
          rw [hfields, hmembers2]
          simp [Member.main, hactive]
        rw [← hm3] at hadded2
        exact wp_exec_commit h hactive hmain hadded2 hset
  simp only [exec, wp_bind, wp_get]
  split
  next =>
    rw [wp_bind]
    refine wp_deref (fun t _ => ?_) fun _ => confused_of_undangled undangled_wild
    rw [wp_bind, wp_on_mem]
    refine (settled_uvmunmap _ _ _ _).then (fun f => confused_of_undangled) fun _ m1 h1 => ?_
    exact hrest { s with mem := m1 } rfl h1
  next => exact hrest s rfl (Std.Refl.refl _)

end

/-! ## `growproc`, `kill` and `paull04_clone` -/

/-- The end of `growproc`: the main thread and all slots with its pid get the new size. -/
theorem wp_set_group_size (hr : (s.proc r).mainPid = (s.proc r).pid) :
    wp (do
      setProc r fun x => { x with sz := sz }
      setSizes r sz
      releaseWaitLock
      pure (0 : Int)) E (fun _ s' => s'.mem = s.mem ∧ ∀ q, members s' q =
        if (members s q).mainPid = (members s r).pid then { members s q with sz := sz }
        else members s q) s := by
  simp only [wp_bind, wp_set_proc, setSizes, wp_modify, releaseWaitLock, wp_pure]
  refine ⟨trivial, fun q => ?_⟩
  by_cases hq : q = r
  · subst hq
    simp [members, cores, Task.core, Core.member, hr]
  · simp only [members, cores, update_of_ne hq, update_self]
    split
    next heq => simp [Task.core, Core.member, heq]
    next hne => simp [Task.core, Core.member, hne]

theorem wp_growproc (h : Grouped (members s) s.mem) (hp : (s.proc p).state = .running) (n : Int) :
    wp (growproc p n) undangled (fun _ s' => Advances s s') s := by
  have hactive := phase_running hp
  obtain ⟨r, hmain⟩ := h.main p (by simp [hactive])
  obtain ⟨t, -, ht⟩ := h.table r hmain.used
  unfold growproc
  rw [wp_bind]
  refine wp_acquire (fun _ => ?_) (undangled_panic _) undangled_hang
  have hresize : ∀ (sz : Nat) (s1 : System), s1.proc = s.proc → Settled s.mem s1.mem →
      wp (do
        setProc r fun x => { x with sz := sz }
        setSizes r sz
        releaseWaitLock
        pure (0 : Int)) undangled (fun _ s' => Advances s s') s1 := by
    intro sz s1 hproc hm1
    have hmembers : members s1 = members s := members_of_proc hproc
    have hself : (s1.proc r).mainPid = (s1.proc r).pid := by
      rw [hproc]
      exact h.main_pid hmain
    refine wp_mono (wp_set_group_size hself) fun _ s2 h2 => ?_
    obtain ⟨hm2, h2⟩ := h2
    rw [hmembers] at h2
    refine ⟨h.resize (hm2 ▸ hm1) h2, fun q hq => ?_⟩
    rw [h2] at hq ⊢
    split at hq
    next heq =>
      rw [if_pos heq]
      exact ⟨hq, rfl, rfl⟩
    next hne =>
      rw [if_neg hne]
      exact ⟨hq, rfl, rfl⟩
  simp only [wp_bind, wp_get]
  rw [show (s.proc p).mainThread = some r from hmain.pointer, wp_deref_some,
    show (s.proc r).pagetable = some t from ht, wp_deref_some]
  split
  next =>
    rw [wp_bind, wp_on_mem]
    refine (settled_uvmalloc _ _ _ _).next fun sz m1 h1 => ?_
    split
    next => exact advances_quiet h ⟨rfl, h1⟩
    next => exact hresize sz _ rfl h1
  next =>
    split
    next =>
      rw [wp_bind, wp_on_mem]
      exact (settled_uvmdealloc _ _ _).next fun sz m1 h1 => hresize sz _ rfl h1
    next => exact hresize _ _ rfl (Std.Refl.refl _)

theorem still_kill (pid : Int) : Still undangled (kill pid) := by
  refine .get fun s => ?_
  split
  next => exact Unmoved.refl s
  next q _ =>
    rw [wp_bind]
    refine wp_deref (fun main _ => ?_) fun _ => undangled_wild
    rw [wp_bind, wp_set_proc, wp_pure]
    refine unmoved_set_proc ?_
    cases hstate : (s.proc main).state with
    | sleeping => simp [Task.core, hstate, phaseOf]
    | unused | used | runnable | running | zombie => simp [Task.core, hstate]

/-- No thread has the pid of its main thread. -/
def Distinct (s : System) : Prop :=
  ∀ q, (s.proc q).isThread = true → (s.proc q).pid ≠ (s.proc q).mainPid

theorem Advances.distinct (h : Advances s s') (hs : Distinct s) : Distinct s' := by
  intro q hq
  obtain ⟨hthread, hpid, hmain⟩ := h.kept q hq
  have hpid : (s'.proc q).pid = (s.proc q).pid := hpid
  have hmain : (s'.proc q).mainPid = (s.proc q).mainPid := hmain
  rw [hpid, hmain]
  exact hs q hthread

theorem wp_clone_group (h : Grouped (members s) s.mem) (hp : (s.proc p).state = .running)
    (stack : Nat) :
    wp (clone p stack) undangled (fun _ s' => Grouped (members s') s'.mem ∧
      (Distinct s → s.nextpid ≠ (s.proc p).mainPid → Distinct s')) s := by
  have hactive := phase_running hp
  obtain ⟨r, hmain⟩ := h.main p (by simp [hactive])
  obtain ⟨t, -, ht⟩ := h.table p (by simp [hactive])
  refine wp_mono (wp_clone (R := fun m => Settled s.mem m) hmain.pointer ht
    (show (members s p).phase ≠ .unused by simp [hactive]) hmain.used ?_ ?_) ?_
  · intro m pa hm
    have hm : Settled s.mem m := ⟨Set.ext hm.live, hm.next.ge⟩
    refine (settled_mappages _ _ _ _ _).next fun done m' h' => ?_
    cases done with
    | false => exact undangled_panic _
    | true => exact hm.trans h'
  · rintro m f - (hf | rfl)
    · exact undangled_of_panics hf
    · exact undangled_wild
  · rintro _ s' (hs' | ⟨np, hs', hmem⟩)
    · have hmembers : ∀ q, members s' q = members s q ∨
          (members s q).phase = .unused ∧ (members s' q).Idle := by
        intro q
        rcases hs'.cores q with heq | ⟨hunused, heq⟩
        · exact .inl (congrArg Core.member heq)
        · have hidle := h.idle q hunused
          refine .inr ⟨hunused, ?_⟩
          have hmember : members s' q = { members s q with pid := s.nextpid } :=
            congrArg Core.member heq
          rw [hmember]
          exact ⟨hunused, hidle.isThread, hidle.pagetable⟩
      have hadvance : Advances s s' := by
        refine ⟨h.retire (hs'.mem ▸ Std.Refl.refl _) fun q => ?_, kept_of_eq fun q => ?_⟩
        · exact (hmembers q).imp id fun hq => ⟨.inl hq.1, hq.2⟩
        · exact (hmembers q).imp id fun hq => hq.2.isThread
      exact ⟨hadvance.grouped, fun hdistinct _ => hadvance.distinct hdistinct⟩
    · have hmembers : members s' = update (members s) np
          { members s p with pid := s.nextpid, isThread := true } := by
        funext q
        simp only [members, hs'.cores]
        by_cases hq : q = np
        · rw [hq, update_self, update_self]
          have hphase : (cores s p).phase = .active := hactive
          have hpointer : (cores s p).mainThread = some r := hmain.pointer
          simp [threadCore, Core.member, hphase, hpointer]
        · rw [update_of_ne hq, update_of_ne hq]
          by_cases hr : q = r
          · rw [hr, update_self]
            rfl
          · rw [update_of_ne hr]
            rfl
      refine ⟨hmembers ▸ h.enroll hmem hactive hs'.unused, fun hdistinct hfresh q hq => ?_⟩
      have hq : (members s' q).isThread = true := hq
      show (members s' q).pid ≠ (members s' q).mainPid
      rw [hmembers] at hq ⊢
      by_cases heq : q = np
      · rw [heq, update_self]
        exact hfresh
      · rw [update_of_ne heq] at hq ⊢
        exact hdistinct q hq

/-! ## Runs -/

/-- Every slot in use belongs to a process whose main thread is in use too. -/
def Consistent (s : System) : Prop :=
  ∀ q, (s.proc q).state ∈ [ProcState.runnable, .running, .sleeping, .zombie] →
    ∃ m, (s.proc q).mainThread = some m ∧ (s.proc m).state ≠ .unused ∧
      (s.proc m).mainThread = some m ∧ (s.proc m).isThread = false ∧
      (s.proc m).pid = (s.proc q).mainPid ∧ (s.proc q).pagetable = (s.proc m).pagetable ∧
      (s.proc q).sz = (s.proc m).sz

/-- `paull04_clone` is not called when the next pid is the pid of the calling process. -/
def FreshPid (s : System) : Event → Prop
  | .call p (.clone _) => s.nextpid ≠ (s.proc p).mainPid
  | _ => True

instance (s : System) : (e : Event) → Decidable (FreshPid s e)
  | .call p (.clone _) => inferInstanceAs (Decidable (s.nextpid ≠ (s.proc p).mainPid))
  | .userinit | .schedule _ | .yield _ | .sleep _ _ | .wakeup _ _ | .resume _
  | .call _ .fork | .call _ (.exec _ _) | .call _ (.exit _) | .call _ (.kill _)
  | .call _ (.join _) | .call _ (.wait _) | .call _ (.growproc _) | .call _ (.open _)
  | .call _ (.dup _) | .call _ (.close _) => .isTrue trivial

theorem boot_grouped (free : List Page) : Grouped (members (boot free)) (boot free).mem := by
  have hunused : ∀ q, (members (boot free) q).phase = .unused := fun _ => rfl
  refine ⟨?_, ?_, ?_, ?_, ?_, ?_, ?_, ?_⟩
  · intro q
    simp [hunused]
  · intro q _
    exact ⟨rfl, rfl, rfl⟩
  · intro q hq
    exact absurd (hunused q) hq
  · intro q hq
    exact absurd (hunused q) hq
  · intro q hq
    exact absurd (hunused q) hq
  · intro q r hq
    exact absurd (hunused q) hq
  · intro q r hq
    exact absurd (hunused q) hq
  · intro t ht
    exact absurd ht (by simp [Mem.live, Mem.Live, boot])

theorem Grouped.consistent (h : Grouped (members s) s.mem) : Consistent s := by
  intro q hq
  have hused : (members s q).phase ≠ .unused := by
    show phaseOf (s.proc q).state ≠ .unused
    rw [ne_eq, phase_unused]
    intro hstate
    rw [hstate] at hq
    exact absurd hq (by decide)
  obtain ⟨m, hm⟩ := h.main q hused
  refine ⟨m, hm.pointer, fun hstate => hm.used (phase_unused.mpr hstate), hm.self, hm.main, hm.pid,
    hm.table, hm.sz⟩

theorem wp_advances {code : Code α} (e : Event)
    (h : wp code undangled (fun _ s' => Advances s s') s) :
    wp code (confused s) (fun _ s' => Grouped (members s') s'.mem ∧
      (Distinct s → FreshPid s e → Distinct s')) s := by
  refine wp_mono (wp_mono_fault h fun f => confused_of_undangled) fun _ s' hs' => ?_
  exact ⟨hs'.grouped, fun hdistinct _ => hs'.distinct hdistinct⟩

theorem wp_advances_still {code : Code α} (h : Grouped (members s) s.mem) (hcode : Still E code)
    (hE : ∀ f, E f → undangled f) : wp code undangled (fun _ s' => Advances s s') s :=
  hcode.then hE fun _ _ hs' => advances_quiet h hs'.quiet

theorem wp_syscall_group (h : Grouped (members s) s.mem) (hp : (s.proc p).state = .running)
    (call : Call) :
    wp (syscall p call) (confused s) (fun _ s' => Grouped (members s') s'.mem ∧
      (Distinct s → FreshPid s (.call p call) → Distinct s')) s := by
  cases call with
  | clone stack =>
    simp only [syscall, wp_bind]
    exact wp_mono_fault (wp_clone_group h hp stack) fun f => confused_of_undangled
  | exec file argv =>
    simp only [syscall, wp_bind]
    refine wp_mono (wp_exec h hp file argv) fun _ s' hs' => ?_
    exact ⟨hs'.grouped, fun hdistinct _ => hs'.distinct hdistinct⟩
  | fork =>
    refine wp_advances _ ?_
    simp only [syscall, wp_bind]
    exact wp_fork h p
  | exit status =>
    refine wp_advances _ ?_
    simp only [syscall, wp_bind]
    exact wp_exit h hp status
  | kill pid =>
    refine wp_advances _ ?_
    simp only [syscall, wp_bind]
    exact wp_advances_still h (still_kill pid) fun _ hf => hf
  | join stack => exact wp_advances _ (wp_join_group h hp stack)
  | wait addr => exact wp_advances _ (wp_wait h hp addr)
  | growproc n =>
    refine wp_advances _ ?_
    simp only [syscall, wp_bind]
    exact wp_growproc h hp n
  | «open» ip =>
    refine wp_advances _ ?_
    simp only [syscall, wp_bind]
    exact wp_advances_still h (still_of_files (files_sys_open p ip))
      fun _ hf => undangled_of_panics hf
  | dup fd =>
    refine wp_advances _ ?_
    simp only [syscall, wp_bind]
    exact wp_advances_still h (still_of_files (files_sys_dup p fd))
      fun _ hf => undangled_of_panics hf
  | close fd =>
    refine wp_advances _ ?_
    simp only [syscall, wp_bind]
    exact wp_advances_still h (still_of_files (files_sys_close p fd))
      fun _ hf => undangled_of_panics hf

theorem step_grouped (h : Grouped (members s) s.mem) (e : Event) :
    wp (step e) (confused s) (fun _ s' => Grouped (members s') s'.mem ∧
      (Distinct s → FreshPid s e → Distinct s')) s := by
  cases e with
  | userinit =>
    refine wp_advances _ ?_
    simp only [step, wp_bind, wp_get]
    split
    next =>
      exact wp_seq (wp_userinit h) fun _ s' hs' => hs'
    next => exact Advances.refl h
  | schedule p =>
    exact wp_advances _ (wp_advances_still (E := undangled) h (still_schedule p) fun _ hf => hf)
  | yield p =>
    exact wp_advances _ (wp_advances_still h (still_yield p) fun _ hf => undangled_of_panics hf)
  | sleep p chan =>
    exact wp_advances _
      (wp_advances_still h (still_sleep p chan) fun _ hf => undangled_of_panics hf)
  | wakeup p chan =>
    exact wp_advances _
      (wp_advances_still (E := undangled) h (still_wakeup_event p chan) fun _ hf => hf)
  | resume p =>
    refine wp_advances _ ?_
    simp only [step, wp_bind, wp_get]
    cases s.blocked p with
    | none => exact Advances.refl h
    | some call =>
      dsimp only
      split
      next hp =>
        cases call with
        | wait addr => exact wp_wait h hp addr
        | join stack => exact wp_join_group h hp stack
      next => exact Advances.refl h
  | call p call =>
    simp only [step, wp_bind, wp_get]
    split
    next hp =>
      obtain ⟨hp, -⟩ := hp
      cases hkilled : (s.proc p).killed with
      | true =>
        rw [show trapped s p call = .exit (-1) by simp [trapped, hkilled]]
        refine wp_advances _ ?_
        simp only [syscall, wp_bind]
        exact wp_mono (wp_exit h hp (-1)) fun _ s' hs' => hs'
      | false =>
        rw [show trapped s p call = call by simp [trapped, hkilled]]
        exact wp_syscall_group h hp call
    next => exact ⟨h, fun hdistinct _ => hdistinct⟩

theorem reachable_grouped {free : List Page} {guard : System → Event → Prop}
    (h : Reachable (fun s => s = boot free) guard step s) : Grouped (members s) s.mem := by
  refine Reachable.induct (E := Fault.any) (fun s => Grouped (members s) s.mem) ?_ ?_ h
  · rintro _ rfl
    exact boot_grouped free
  · intro s e hs _
    exact wp_mono (wp_mono_fault (step_grouped hs e) fun _ _ => trivial) fun _ _ hs' => hs'.1

/-- In every run in which no clone gets the pid of its own process, every slot in use belongs to
a process whose main thread is in use, with its pid, page table and size, and no step frees a
page table that is not in use or that another slot points to. -/
theorem thread_groups_consistent {free : List Page}
    (h : Reachable (fun s => s = boot free) FreshPid step s) :
    Consistent s ∧ ∀ e, step e s ≠ .error .dangling := by
  have hinv : Grouped (members s) s.mem ∧ Distinct s := by
    refine Reachable.induct (E := Fault.any)
      (fun s => Grouped (members s) s.mem ∧ Distinct s) ?_ ?_ h
    · rintro _ rfl
      refine ⟨boot_grouped free, fun q hq => ?_⟩
      exact absurd hq (by simp [boot])
    · rintro s e ⟨hs, hdistinct⟩ hfresh
      exact wp_mono (wp_mono_fault (step_grouped hs e) fun _ _ => trivial)
        fun _ _ hs' => ⟨hs'.1, hs'.2 hdistinct hfresh⟩
  refine ⟨hinv.1.consistent, fun e he => ?_⟩
  have hwp := step_grouped hinv.1 e
  unfold wp at hwp
  rw [he] at hwp
  obtain ⟨q, hthread, hpid⟩ := hwp rfl
  exact hinv.2 q hthread hpid

/-- The first process, with a thread. -/
def threaded : System :=
  lastState FreshPid step [.userinit, .schedule 0, .call 0 (.clone 0)] (boot (List.range' 1 15))

theorem thread_groups_consistent_threaded :
    (threaded.proc 1).state = .runnable ∧ (threaded.proc 1).isThread = true ∧
      Consistent threaded ∧ step (.call 0 (.exec none [])) threaded ≠ .error .dangling := by
  have hboot : Reachable (fun s => s = boot (List.range' 1 15)) FreshPid step
      (boot (List.range' 1 15)) := .start rfl
  have h := thread_groups_consistent (s := threaded) (hboot.last_state _)
  exact ⟨by decide +kernel, by decide +kernel, h.1, h.2 _⟩

/-! ## A run in which the pids go round

The first process uses up the memory, so that a `fork` takes a pid and fails. When the pids have
gone round it gives memory back and clones a thread, which gets pid 1 like the process itself. -/

/-- A `fork` that finds a clear slot and no memory changes the next pid only. -/
theorem fork_without_memory (hrunning : (s.proc p).state = .running) (hblocked : s.blocked p = none)
    (hkilled : (s.proc p).killed = false) (hfree : s.mem.free = [])
    (hslot : firstSlot (fun q => decide ((s.proc q).state = .unused)) = some np)
    (hclear : s.proc np = {}) :
    step (.call p .fork) s = .ok (some (-1), { s with nextpid := wrap (s.nextpid + 1) }) := by
  have hwp : wp (step (.call p .fork)) Fault.never (fun r s' => r = some (-1) ∧
      s' = { s with nextpid := wrap (s.nextpid + 1) }) s := by
    simp only [step, wp_bind, wp_get]
    rw [if_pos ⟨hrunning, hblocked⟩, show trapped s p .fork = .fork by simp [trapped, hkilled]]
    simp only [syscall, fork, unusedSlot, wp_bind, wp_get, wp_pure, hslot, allocproc, allocpid,
      wp_set, wp_set_proc, hclear, wp_on_mem, kalloc, hfree, freeproc, freeprocEnd,
      update_self, update_idem]
    simp only [Bool.false_eq_true, if_false, wp_pure]
    refine ⟨trivial, ?_⟩
    have hcleared : ∀ pid, ({ state := .used, pid := pid } : Task).cleared = s.proc np :=
      fun _ => hclear.symm
    rw [hcleared, update_eq_self]
  obtain ⟨r, s', hstep, rfl, rfl⟩ := wp_returns hwp
  exact hstep

theorem forks_without_memory {init : System → Prop} (p np : Slot)
    (h : Reachable init unguarded step s) (hrunning : (s.proc p).state = .running)
    (hblocked : s.blocked p = none) (hkilled : (s.proc p).killed = false)
    (hfree : s.mem.free = [])
    (hslot : firstSlot (fun q => decide ((s.proc q).state = .unused)) = some np)
    (hclear : s.proc np = {}) (hpid : wrap s.nextpid = s.nextpid) (n : Nat) :
    Reachable init unguarded step { s with nextpid := wrap (s.nextpid + n) } := by
  induction n with
  | zero =>
    rw [Nat.cast_zero, Int.add_zero, hpid]
    exact h
  | succ n ih =>
    have hnext : wrap (wrap (s.nextpid + n) + 1) = wrap (s.nextpid + (n + 1 : Nat)) := by
      unfold wrap
      rw [Int.bmod_add_bmod]
      congr 1
      push_cast
      ring
    have hfork := fork_without_memory (s := { s with nextpid := wrap (s.nextpid + n) })
      hrunning hblocked hkilled hfree hslot hclear
    rw [← hnext]
    exact ih.next trivial hfork

/-- The first process, with all memory in its heap. -/
def busy : System :=
  lastState unguarded step [.userinit, .schedule 0, .call 0 (.growproc (8 * PGSIZE))]
    (boot (List.range' 1 15))

/-- The process and its thread once the pids have gone round. -/
def wrapped : System :=
  lastState unguarded step
    [.call 0 (.growproc (-(8 * PGSIZE))), .call 0 (.clone 0), .schedule 1]
    { busy with nextpid := 1 }

/-- A thread with the pid of its main thread calls `exec`, which frees the page table that the
main thread still runs with. -/
theorem exec_frees_main_table :
    Reachable (fun s => s = boot (List.range' 1 15)) unguarded step wrapped ∧
      (wrapped.proc 0).state = .running ∧ (wrapped.proc 1).mainThread = some 0 ∧
      (wrapped.proc 1).isThread = true ∧
      (wrapped.proc 1).pagetable = (wrapped.proc 0).pagetable ∧
      step (.call 1 (.exec (some ⟨true, []⟩) [])) wrapped = .error .dangling := by
  have hboot : Reachable (fun s => s = boot (List.range' 1 15)) unguarded step
      (boot (List.range' 1 15)) := .start rfl
  have hstart : Reachable (fun s => s = boot (List.range' 1 15)) unguarded step busy :=
    hboot.last_state _
  have hforks := forks_without_memory 0 1 hstart (by decide +kernel)
    (by decide +kernel) (by decide +kernel) (by decide +kernel) (by decide +kernel)
    (by decide +kernel)
    (by decide +kernel) (2 ^ 32 - 1)
  have hpid : wrap (busy.nextpid + (2 ^ 32 - 1 : Nat)) = 1 := by decide +kernel
  rw [hpid] at hforks
  refine ⟨hforks.last_state _, by decide +kernel, by decide +kernel, by decide +kernel,
    by decide +kernel, fault_of_eq (by decide +kernel)⟩

end Xv6.Thread.Calls
