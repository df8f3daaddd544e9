import Xv6.Sched.Exactness

/-!
# The order of MLFQ selection

Which process `select_with_mlfq` takes. `Precedes m p q` is the order the scheduler is meant to
follow: the lower level first; within levels 0 and 1 the process that was enqueued first, where
every store into a queue counts, those of a boost and of a mode switch included; within level 2
the greater current priority, and the earlier one among equals. The queues keep their entries in
the order of arrival along every run, so taking the head of a ring, or the first entry of
greatest priority from the array of level 2, follows that order.
-/

namespace Xv6.Sched

variable {m : Machine}

/-- Process `p` is to be selected before process `q`. -/
def Precedes (m : Machine) (p q : Slot) : Prop :=
  (m.proc p).level < (m.proc q).level ∨
    (m.proc p).level = (m.proc q).level ∧
      if (m.proc p).level = 2 then
        (m.proc q).priority < (m.proc p).priority ∨
          (m.proc q).priority = (m.proc p).priority ∧ m.arrival (some p) < m.arrival (some q)
      else m.arrival (some p) < m.arrival (some q)

instance (p q : Slot) : Decidable (Precedes m p q) := by
  unfold Precedes
  infer_instance

theorem Inv.queued_at_level (h : Inv none m) (hmode : m.mode = .mlfq) {q : Slot}
    (hq : (m.proc q).state = .runnable) :
    ∃ j : Fin 3, some q ∈ entries m (.mlfq j) ∧ (m.proc q).level = (j : Nat) := by
  obtain ⟨i, hi, hmem⟩ := mem_queued.mp ((h.mem (some q)).mpr ⟨q, rfl, hq, by simp⟩)
  obtain ⟨j, rfl⟩ : ∃ j : Fin 3, i = .mlfq j := by
    rw [hmode] at hi
    simp only [activeQueues, List.mem_cons, List.not_mem_nil, or_false] at hi
    rcases hi with rfl | rfl | rfl
    · exact ⟨0, rfl⟩
    · exact ⟨1, rfl⟩
    · exact ⟨2, rfl⟩
  exact ⟨j, hmem, h.level hmode j q hmem⟩

/-- The entry that `pop` takes from a level precedes every other entry of that level. -/
theorem Choice.precedes {i : Fin 3} {p q : Slot} {before after : List Ptr} (h : Inv none m)
    (hmode : m.mode = .mlfq) (hchoice : Choice m (.mlfq i) p before after) (hqp : q ≠ p)
    (hq : some q ∈ entries m (.mlfq i)) : Precedes m p q := by
  have hlevel (r : Slot) (hr : some r ∈ entries m (.mlfq i)) : (m.proc r).level = (i : Nat) :=
    h.level hmode i r hr
  have hp : some p ∈ entries m (.mlfq i) := by
    rw [hchoice.split]
    simp
  have horder := (h.order hmode i).1
  rw [hchoice.split, List.pairwise_append, List.pairwise_cons] at horder
  obtain ⟨_, ⟨hafter, _⟩, _⟩ := horder
  refine Or.inr ⟨by rw [hlevel p hp, hlevel q hq], ?_⟩
  rw [hchoice.split, List.mem_append, List.mem_cons] at hq
  rw [hlevel p hp]
  by_cases hi : i = 2
  · subst hi
    rw [if_pos (by decide)]
    rcases hq with hq | hq | hq
    · exact Or.inl (hchoice.greater rfl _ hq)
    · exact absurd (Option.some.inj hq) hqp
    · have hle : (m.proc q).priority ≤ (m.proc p).priority := hchoice.greatest rfl _ hq
      rcases lt_or_eq_of_le hle with hlt | heq
      · exact Or.inl hlt
      · exact Or.inr ⟨heq, hafter _ hq⟩
  · have hring : QueueId.mlfq i ≠ .mlfq 2 := fun heq => hi (QueueId.mlfq.inj heq)
    rw [if_neg (by omega)]
    rw [hchoice.head hring] at hq
    rcases hq with hq | hq | hq
    · exact absurd hq List.not_mem_nil
    · exact absurd (Option.some.inj hq) hqp
    · exact hafter _ hq

theorem Popped.entries_filter {i : Fin 3} {p : Slot} {m' : Machine}
    (hmode : m.mode = .mlfq) (hpop : Popped m (.mlfq i) p m') (j : Fin 3) :
    entries m' (.mlfq j) = (entries m (.mlfq j)).filter (· ≠ some p) := by
  have hout : some p ∉ entries m' (.mlfq j) := by
    intro hmem
    have hmode' : m'.mode = .mlfq := hpop.cpu.2.1.trans hmode
    exact hpop.inv.not_mem_queued (Or.inr rfl)
      (mem_queued.mpr ⟨_, mlfq_mem_active hmode' j, hmem⟩)
  have hkeep {l : List Ptr} (hl : some p ∉ l) : l.filter (· ≠ some p) = l := by
    rw [List.filter_eq_self]
    intro t ht
    have hne : t ≠ some p := by
      rintro rfl
      exact hl ht
    simpa using hne
  by_cases hj : j = i
  · subst hj
    obtain ⟨before, after, hchoice, hrest⟩ := hpop.taken
    rw [hrest] at hout ⊢
    rw [List.mem_append, not_or] at hout
    rw [hchoice.split, List.filter_append, List.filter_cons_of_neg (by simp), hkeep hout.1,
      hkeep hout.2]
  · have hother := hpop.other (.mlfq j) fun heq => hj (QueueId.mlfq.inj heq)
    rw [hother] at hout ⊢
    exact (hkeep hout).symm

/-- MLFQ selection order. In every state reached in MLFQ mode `select_with_mlfq` returns; it
returns null exactly when no process is RUNNABLE, and otherwise a RUNNABLE process that precedes
every other one. The processes it does not take stay queued in the order they had. -/
theorem mlfq_selection_order (h : Reached m) (hmode : m.mode = .mlfq) :
    ∃ t m', selectWithMlfq m = .ok (t, m') ∧ m'.proc = m.proc ∧
      (t = none ↔ ∀ p, (m.proc p).state ≠ .runnable) ∧
      (∀ p, t = some p → (m.proc p).state = .runnable ∧
        ∀ q, q ≠ p → (m.proc q).state = .runnable → Precedes m p q) ∧
      ∀ i : Fin 3, entries m' (.mlfq i) = (entries m (.mlfq i)).filter (· ≠ t) := by
  have hinv := inv_reached h
  obtain ⟨t, m', hrun, hpost⟩ := wp_returns (wp_select_with_mlfq hinv hmode)
  refine ⟨t, m', hrun, ?_⟩
  rcases hpost with ⟨rfl, rfl, hnil⟩ | ⟨i, p, rfl, hpop, hbelow⟩
  · have hnone : ∀ p, (m'.proc p).state ≠ .runnable := by
      intro p hp
      have hmem := (hinv.mem (some p)).mpr ⟨p, rfl, hp, by simp⟩
      rw [hnil] at hmem
      exact absurd hmem List.not_mem_nil
    refine ⟨rfl, ⟨fun _ => hnone, fun _ => rfl⟩, by simp, fun i => ?_⟩
    refine (List.filter_eq_self.mpr fun t ht => ?_).symm
    have hmem := mem_queued.mpr ⟨_, mlfq_mem_active hmode i, ht⟩
    rw [hnil] at hmem
    exact absurd hmem List.not_mem_nil
  · refine ⟨hpop.proc, ⟨by simp, fun hnone => absurd hpop.state (hnone p)⟩, ?_,
      hpop.entries_filter hmode⟩
    rintro _ ⟨⟩
    refine ⟨hpop.state, fun q hqp hq => ?_⟩
    obtain ⟨before, after, hchoice, _⟩ := hpop.taken
    have hplevel : (m.proc p).level = (i : Nat) :=
      hinv.level hmode i p (by rw [hchoice.split]; simp)
    obtain ⟨j, hmem, hqlevel⟩ := hinv.queued_at_level hmode hq
    rcases lt_trichotomy i j with hlt | rfl | hgt
    · refine Or.inl ?_
      rw [hplevel, hqlevel]
      exact_mod_cast hlt
    · exact hchoice.precedes hinv hmode hqp hmem
    · rw [hbelow j hgt] at hmem
      exact absurd hmem List.not_mem_nil

/-- Two processes forked before the switch to MLFQ mode, the first of which has been demoted to
level 1 by a yield: the second is selected, and then the first. -/
theorem mlfq_selection_order_forked :
    let m := lastState unguarded step [.userinit true, .select, .fork true true, .fork true true,
      .mlfqmode, .yield, .select, .yield] boot
    let second : Slot := ⟨2, by decide⟩
    Reached m ∧ m.mode = .mlfq ∧ (m.proc second).state = .runnable ∧
      ∃ t m', selectWithMlfq m = .ok (t, m') ∧ t = some second ∧
        ∀ q, q ≠ second → (m.proc q).state = .runnable → Precedes m second q := by
  intro m second
  have hboot : Reached boot := .start rfl
  have hreached : Reached m := hboot.last_state _
  have hmode : m.mode = .mlfq := by decide +kernel
  have hrunnable : (m.proc second).state = .runnable := by decide +kernel
  refine ⟨hreached, hmode, hrunnable, ?_⟩
  obtain ⟨t, m', hrun, _, hnone, hsome, _⟩ := mlfq_selection_order hreached hmode
  cases t with
  | none => exact absurd hrunnable (hnone.mp rfl second)
  | some p =>
    obtain ⟨hp, hfirst⟩ := hsome p rfl
    -- the other two processes sit at level 1, so only the second can precede it
    have hother : ∀ q : Slot, q ≠ second → (m.proc q).state = .runnable →
        ¬ Precedes m q second := by decide +kernel
    have heq : p = second := by
      by_contra hne
      exact hother p hne hp (hfirst second (Ne.symm hne) hrunnable)
    exact ⟨some p, m', hrun, congrArg some heq, heq ▸ hfirst⟩

/-! ## Bookkeeping -/

/-- MLFQ bookkeeping. In every state reached in MLFQ mode the level, priority and quantum of
every RUNNABLE or RUNNING process are in range, and a process is queued at its own level. So a
running process has a quantum to charge and is queued again in one of the three queues,
`L2_pop` finds a process in a queue that is not empty, and no event leaves the queues. -/
theorem mlfq_fields_in_range (h : Reached m) (hmode : m.mode = .mlfq) :
    (∀ p, (m.proc p).state = .runnable ∨ (m.proc p).state = .running →
      (0 ≤ (m.proc p).level ∧ (m.proc p).level ≤ 2) ∧
      (0 ≤ (m.proc p).priority ∧ (m.proc p).priority ≤ 3) ∧
      1 ≤ (m.proc p).timeQuantum ∧ (m.proc p).timeQuantum ≤ 2 * (m.proc p).level + 1) ∧
    (∀ (i : Fin 3) p, some p ∈ entries m (.mlfq i) → (m.proc p).level = (i : Nat)) ∧
    (∀ p, (m.proc p).state = .running → 0 ≤ (m.proc p).timeQuantum - 1 ∧
      ∃ i : Fin 3, mlfqAt (charge (m.proc p)).level m = .ok (.mlfq i, m)) ∧
    (isEmpty (m.queue (.mlfq 2)) = false →
      (l2Pop (priorityOf m) none (m.queue (.mlfq 2))).1 ≠ none) ∧
    ∀ e, wp (step e) (faults e) (fun _ _ => True) m := by
  have hinv := inv_reached h
  have hrange : ∀ p, (m.proc p).state = .runnable ∨ (m.proc p).state = .running →
      InRange (m.proc p) := fun p hp => hinv.fields hmode p hp (by simp)
  refine ⟨fun p hp => ?_, hinv.level hmode, fun p hp => ⟨?_, ?_⟩, fun hne hnull => ?_, fun e => ?_⟩
  · exact ⟨(hrange p hp).level, (hrange p hp).priority, (hrange p hp).quantum⟩
  · have hquantum := (hrange p (.inr hp)).quantum.1
    omega
  · have hlevel := (hrange p (.inr hp)).charge.level
    obtain ⟨_, _, hrun, ⟨i, rfl⟩, rfl⟩ := wp_returns (wp_mlfq_at
      (Q := fun i m' => (∃ j : Fin 3, i = .mlfq j) ∧ m' = m) hlevel.1 hlevel.2
      fun j _ => ⟨⟨j, rfl⟩, rfl⟩)
    exact ⟨i, hrun⟩
  · -- `pop` of the same queue returns a process, and it returns what `L2_pop` does
    obtain ⟨_, m', hrun, p, rfl, _⟩ := wp_returns (wp_pop hinv (mlfq_mem_active hmode 2) hne)
    have hvalue : wp (pop (.mlfq 2)) Fault.any
        (fun t _ => t = (l2Pop (priorityOf m) none (m.queue (.mlfq 2))).1) m := by
      simp [pop, setQueue]
    have hsome := wp_ok hvalue hrun
    rw [hnull] at hsome
    exact absurd hsome (by simp)
  · exact wp_mono (step_inv hinv e) fun _ _ _ => trivial

/-- Two processes in MLFQ mode, the first of them demoted to level 1: its quantum there is 3. -/
theorem mlfq_fields_in_range_demoted :
    let m := lastState unguarded step [.userinit true, .select, .fork true true, .mlfqmode, .yield]
      boot
    let first : Slot := ⟨0, by decide⟩
    Reached m ∧ m.mode = .mlfq ∧ (m.proc first).state = .runnable ∧ (m.proc first).level = 1 ∧
      1 ≤ (m.proc first).timeQuantum ∧ (m.proc first).timeQuantum ≤ 3 := by
  intro m first
  have hboot : Reached boot := .start rfl
  have hreached : Reached m := hboot.last_state _
  have hmode : m.mode = .mlfq := by decide +kernel
  have hstate : (m.proc first).state = .runnable := by decide +kernel
  have hlevel : (m.proc first).level = 1 := by decide +kernel
  obtain ⟨_, _, hquantum⟩ := (mlfq_fields_in_range hreached hmode).1 first (.inl hstate)
  rw [hlevel] at hquantum
  exact ⟨hreached, hmode, hstate, hlevel, hquantum⟩

end Xv6.Sched
