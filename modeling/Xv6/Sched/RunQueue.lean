import Xv6.Sched.Machine

/-!
# Run-queue exactness

In every reachable state the active queues hold each RUNNABLE process exactly once and nothing
else. `Inv out m` is the invariant that carries it, where `out` names a process that has just
become RUNNABLE and is not queued yet. `Inv.set_proc` says when an assignment to one slot keeps
it and `inv_store` that queueing the missing process restores it; every operation is a short
sequence of the two. The main result is `run_queue_exact`.
-/

namespace Xv6.Sched

open Function

variable {out x : Ptr} {l : List Ptr} {Q : Unit → Machine → Prop}

/-- The queued entries of queue `i`: level 2 is a linear array, the others are rings. -/
def entries (m : Machine) (i : QueueId) : List Ptr :=
  if i = .mlfq 2 then (m.queue i).linear else (m.queue i).ring

/-- The queues that are in use in a mode. -/
def activeQueues : Mode → List QueueId
  | .fcfs => [.fcfs]
  | .mlfq => [.mlfq 0, .mlfq 1, .mlfq 2]

/-- All entries of the queues in use. -/
def queued (m : Machine) : List Ptr := (activeQueues m.mode).flatMap (entries m)

/-- The MLFQ fields of a process that takes part in scheduling. -/
structure InRange (t : Proc) : Prop where
  level : 0 ≤ t.level ∧ t.level ≤ 2
  priority : 0 ≤ t.priority ∧ t.priority ≤ 3
  quantum : 1 ≤ t.timeQuantum ∧ t.timeQuantum ≤ 2 * t.level + 1

/-- The indices of a queue lie inside its array and it holds at most `NPROC` entries. This is
kept for the queues that are not in use as well. -/
structure Shape (m : Machine) (i : QueueId) : Prop where
  ring : i ≠ .mlfq 2 → (m.queue i).InRing
  linear : i = .mlfq 2 → (m.queue i).s = 0
  length : (entries m i).length ≤ NPROC

/-- The entries of `l` have been stored in this order. -/
def InOrder (m : Machine) (l : List Ptr) : Prop :=
  l.Pairwise (fun a b => m.arrival a < m.arrival b) ∧ ∀ t ∈ l, m.arrival t < m.arrivals

/-- The scheduling invariant, with process `out` RUNNABLE but not queued yet. -/
structure Inv (out : Ptr) (m : Machine) : Prop where
  shape : ∀ i, Shape m i
  running : ∀ p, (m.proc p).state = .running ↔ m.current = some p
  nodup : (queued m).Nodup
  mem : ∀ t, t ∈ queued m ↔ ∃ p, t = some p ∧ (m.proc p).state = .runnable ∧ some p ≠ out
  fields : m.mode = .mlfq → ∀ p, (m.proc p).state = .runnable ∨ (m.proc p).state = .running →
    some p ≠ out → InRange (m.proc p)
  level : m.mode = .mlfq → ∀ (i : Fin 3) p, some p ∈ entries m (.mlfq i) →
    (m.proc p).level = (i : Nat)
  order : m.mode = .mlfq → ∀ i : Fin 3, InOrder m (entries m (.mlfq i))

/-! ## Consequences -/

theorem mem_queued {m : Machine} {t : Ptr} :
    t ∈ queued m ↔ ∃ i ∈ activeQueues m.mode, t ∈ entries m i := by
  simp [queued, List.mem_flatMap]

theorem mlfq_mem_active {m : Machine} (h : m.mode = .mlfq) (i : Fin 3) :
    QueueId.mlfq i ∈ activeQueues m.mode := by
  rw [h]
  fin_cases i <;> simp [activeQueues]

theorem Inv.not_mem_queued {m : Machine} (h : Inv out m) {p : Slot}
    (hp : (m.proc p).state ≠ .runnable ∨ some p = out) : some p ∉ queued m := by
  intro hmem
  obtain ⟨q, hq, hstate, hout⟩ := (h.mem _).mp hmem
  obtain rfl := Option.some.inj hq
  rcases hp with hp | hp
  · exact hp hstate
  · exact hout hp

/-- The queues in use hold at most one entry for each slot of the process table. -/
theorem Inv.queued_length {m : Machine} (h : Inv out m) :
    (queued m).length ≤ NPROC := by
  have hnone : (none : Ptr) ∉ queued m := by
    intro hmem
    obtain ⟨q, hq, _⟩ := (h.mem _).mp hmem
    simp at hq
  have hcard := (List.nodup_cons.mpr ⟨hnone, h.nodup⟩).length_le_card
  simp only [List.length_cons, Fintype.card_option, Fintype.card_fin] at hcard
  omega

/-- The index at which the next entry is stored lies inside the array. -/
theorem Shape.end_lt {m : Machine} {i : QueueId} (h : Shape m i) : (m.queue i).e < QNUM := by
  by_cases hi : i = .mlfq 2
  · have hlen := h.length
    simp only [entries, if_pos hi, linear_length] at hlen
    exact lt_of_le_of_lt hlen (by decide)
  · exact (h.ring hi).2

/-! ## An assignment to one process -/

section SetProc

variable {m : Machine} {p : Slot} {t : Proc} {c : Ptr}

/-- Machine `m` with slot `p` set to `t` and the CPU's process set to `c`. -/
def withProc (m : Machine) (p : Slot) (t : Proc) (c : Ptr) : Machine :=
  { m with proc := update m.proc p t, current := c }

@[simp] theorem with_proc_self : (withProc m p t c).proc p = t := update_self ..

@[simp] theorem wp_set_proc {E : Fault → Prop} {f : Proc → Proc} :
    wp (setProc p f) E Q m ↔ Q () (withProc m p (f (m.proc p)) m.current) := Iff.rfl

@[simp] theorem wp_set_current {E : Fault → Prop} :
    wp (setCurrent c) E Q m ↔ Q () { m with current := c } := Iff.rfl

@[simp] theorem queued_with_proc : queued (withProc m p t c) = queued m := rfl

/-- The invariant does not depend on the fields that scheduling never reads. -/
theorem Inv.congr {m' : Machine} (h : Inv out m) (hproc : m'.proc = m.proc)
    (hqueue : m'.queue = m.queue) (hmode : m'.mode = m.mode) (hcurrent : m'.current = m.current)
    (harrival : m'.arrival = m.arrival) (harrivals : m'.arrivals = m.arrivals) :
    Inv out m' := by
  obtain ⟨proc, queue, mode, current, _, _, _, arrival, arrivals⟩ := m
  obtain ⟨proc', queue', mode', current', _, _, _, arrival', arrivals'⟩ := m'
  subst hproc hqueue hmode hcurrent harrival harrivals
  exact ⟨fun i => ⟨(h.shape i).ring, (h.shape i).linear, (h.shape i).length⟩, h.running, h.nodup,
    h.mem, h.fields, h.level, h.order⟩

/-- When an assignment to slot `p` and to `c->proc` keeps the invariant. Whether `p` must be
queued may not change, where `out'` replaces `out` as the process allowed to be missing. -/
theorem Inv.set_proc {out' : Ptr} (h : Inv out m)
    (hout : ∀ q, q ≠ p → (some q = out ↔ some q = out'))
    (hqueued : ((m.proc p).state = .runnable ∧ some p ≠ out) ↔
      (t.state = .runnable ∧ some p ≠ out'))
    (hrunning : ∀ q, (update m.proc p t q).state = .running ↔ c = some q)
    (hfields : m.mode = .mlfq → t.state = .runnable ∨ t.state = .running → some p ≠ out' →
      InRange t)
    (hlevel : t.level = (m.proc p).level ∨ (m.proc p).state ≠ .runnable ∨ some p = out) :
    Inv out' (withProc m p t c) where
  shape i := ⟨(h.shape i).ring, (h.shape i).linear, (h.shape i).length⟩
  running := hrunning
  nodup := h.nodup
  mem := by
    intro x
    rw [queued_with_proc, h.mem]
    refine exists_congr fun q => and_congr_right fun _ => ?_
    by_cases hq : q = p
    · subst hq
      simpa [withProc] using hqueued
    · simp only [withProc, update_of_ne hq, ne_eq, hout q hq]
  fields := by
    intro hmode q
    by_cases hq : q = p
    · subst hq
      simpa [withProc] using hfields hmode
    · simp only [withProc, update_of_ne hq, ne_eq, ← hout q hq]
      exact h.fields hmode q
  level := by
    intro hmode i q hmem
    by_cases hq : q = p
    · subst hq
      simp only [withProc, update_self]
      rcases hlevel with hlevel | hlevel
      · rw [hlevel]
        exact h.level hmode i q hmem
      · exact absurd (mem_queued.mpr ⟨_, mlfq_mem_active hmode i, hmem⟩) (h.not_mem_queued hlevel)
    · simp only [withProc, update_of_ne hq]
      exact h.level hmode i q hmem
  order := h.order

/-- An assignment that leaves the process state, the level and the MLFQ ranges alone. -/
theorem Inv.set_same_state (h : Inv out m) (hstate : t.state = (m.proc p).state)
    (hlevel : t.level = (m.proc p).level) (hfields : InRange (m.proc p) → InRange t) :
    Inv out (withProc m p t m.current) := by
  refine h.set_proc (fun _ _ => Iff.rfl) (by rw [hstate]) ?_ ?_ (Or.inl hlevel)
  · intro q
    by_cases hq : q = p
    · subst hq
      simpa [hstate] using h.running q
    · simpa [update_of_ne hq] using h.running q
  · intro hmode hlive hne
    rw [hstate] at hlive
    exact hfields (h.fields hmode p hlive hne)

/-- An assignment to a process that neither runs nor is queued, before or after. -/
theorem Inv.set_idle (h : Inv out m)
    (hold : (m.proc p).state ≠ .runnable ∧ (m.proc p).state ≠ .running)
    (hnew : t.state ≠ .runnable ∧ t.state ≠ .running) :
    Inv out (withProc m p t m.current) := by
  refine h.set_proc (fun _ _ => Iff.rfl) (by simp [hold.1, hnew.1]) ?_ ?_ (Or.inr (Or.inl hold.1))
  · intro q
    by_cases hq : q = p
    · subst hq
      simpa [hnew.2, hold.2] using h.running q
    · simpa [update_of_ne hq] using h.running q
  · intro _ hlive
    rcases hlive with hlive | hlive
    · exact absurd hlive hnew.1
    · exact absurd hlive hnew.2

/-- A process that was neither running nor queued becomes RUNNABLE: it is the missing one. -/
theorem Inv.set_runnable (h : Inv none m)
    (hold : (m.proc p).state ≠ .runnable ∧ (m.proc p).state ≠ .running)
    (hnew : t.state = .runnable) : Inv (some p) (withProc m p t m.current) := by
  refine h.set_proc (fun q hq => by simp [hq]) (by simp [hold.1]) ?_ (by simp)
    (Or.inr (Or.inl hold.1))
  intro q
  by_cases hq : q = p
  · subst hq
    simpa [hnew, hold.2] using h.running q
  · simpa [update_of_ne hq] using h.running q

/-- The running process gives up the CPU. If it stays RUNNABLE it is the missing one. -/
theorem Inv.set_off_cpu (h : Inv none m) (hp : m.current = some p) (hnew : t.state ≠ .running)
    (hout : out = if t.state = .runnable then some p else none) :
    Inv out (withProc m p t none) := by
  have hstate : (m.proc p).state = .running := (h.running p).mpr hp
  refine h.set_proc ?_ ?_ ?_ ?_ (Or.inr (Or.inl (by simp [hstate])))
  · intro q hq
    subst hout
    split <;> simp [hq]
  · subst hout
    split <;> simp_all
  · intro q
    by_cases hq : q = p
    · subst hq
      simp [hnew]
    · have hrun := h.running q
      rw [hp] at hrun
      simp only [update_of_ne hq, reduceCtorEq, iff_false]
      intro hq'
      exact hq (Option.some.inj (hrun.mp hq')).symm
  · subst hout
    intro _ hlive
    split <;> simp_all

end SetProc

/-! ## Queueing the missing process -/

section Store

variable {m : Machine} {p : Slot} {i : QueueId}

@[simp] theorem entries_arrive (x : Ptr) : entries (m.arrive x) i = entries m i := rfl

@[simp] theorem queued_arrive (x : Ptr) : queued (m.arrive x) = queued m := rfl

theorem Shape.arrive (h : Shape m i) (x : Ptr) : Shape (m.arrive x) i :=
  ⟨h.ring, h.linear, h.length⟩

theorem arrival_of_ne {t : Ptr} (hx : x ∉ l) (ht : t ∈ l) :
    (m.arrive x).arrival t = m.arrival t := by
  have hne : t ≠ x := by
    rintro rfl
    exact hx ht
  exact update_of_ne hne _ _

/-- The order of entries does not change when another process arrives. -/
theorem InOrder.arrive (h : InOrder m l) (hx : x ∉ l) :
    InOrder (m.arrive x) l := by
  constructor
  · refine h.1.imp_of_mem ?_
    intro a b ha hb hab
    rwa [arrival_of_ne hx ha, arrival_of_ne hx hb]
  · intro t ht
    rw [arrival_of_ne hx ht]
    exact (h.2 t ht).trans (Nat.lt_succ_self _)

theorem InOrder.push (h : InOrder m l) (hx : x ∉ l) :
    InOrder (m.arrive x) (l ++ [x]) := by
  have hnew : (m.arrive x).arrival x = m.arrivals := update_self ..
  obtain ⟨hpair, hlt⟩ := h.arrive hx
  constructor
  · refine List.pairwise_append.mpr ⟨hpair, List.pairwise_singleton _ _, ?_⟩
    intro a ha b hb
    rw [List.mem_singleton.mp hb, hnew, arrival_of_ne hx ha]
    exact h.2 a ha
  · intro t ht
    rcases List.mem_append.mp ht with ht | ht
    · exact hlt t ht
    · rw [List.mem_singleton.mp ht, hnew]
      exact Nat.lt_succ_self _

theorem InOrder.sublist {l' : List Ptr} (h : InOrder m l) (hsub : l'.Sublist l) : InOrder m l' :=
  ⟨h.1.sublist hsub, fun t ht => h.2 t (hsub.subset ht)⟩

theorem InOrder.nil : InOrder m [] := ⟨List.Pairwise.nil, by simp⟩

/-- How `push` stores into queue `i`. -/
def storeOp (i : QueueId) : Queue Ptr → Ptr → Queue Ptr :=
  if i = .mlfq 2 then l2Push else queuePush

/-- Machine `m` with queue `i` set to `q`. -/
def withQueue (m : Machine) (i : QueueId) (q : Queue Ptr) : Machine :=
  { m with queue := update m.queue i q }

theorem entries_with_queue_ne {j : QueueId} {q : Queue Ptr} (hj : j ≠ i) :
    entries (withQueue m i q) j = entries m j := by
  simp [entries, withQueue, update_of_ne hj]

theorem shape_with_queue_ne {j : QueueId} {q : Queue Ptr} (hj : j ≠ i) (h : Shape m j) :
    Shape (withQueue m i q) j := by
  refine ⟨?_, ?_, ?_⟩
  · simpa [withQueue, update_of_ne hj] using h.ring
  · simpa [withQueue, update_of_ne hj] using h.linear
  · simpa [entries_with_queue_ne hj] using h.length

theorem entries_store (h : Shape m i) (x : Ptr) :
    entries (withQueue m i (storeOp i (m.queue i) x)) i = entries m i ++ [x] := by
  have hlen := h.length
  by_cases hi : i = .mlfq 2
  · simp only [entries, withQueue, storeOp, if_pos hi, update_self]
    exact linear_l2_push x
  · simp only [entries, withQueue, storeOp, if_neg hi, update_self] at hlen ⊢
    exact ring_queue_push (h.ring hi) (lt_of_le_of_lt (Nat.succ_le_succ hlen) (by decide)) x

theorem shape_store (h : Shape m i) (x : Ptr) (hlen : (entries m i).length < NPROC) :
    Shape (withQueue m i (storeOp i (m.queue i) x)) i := by
  refine ⟨?_, ?_, ?_⟩
  · intro hi
    simpa [withQueue, storeOp, hi] using queue_push_in_ring (h.ring hi) x
  · intro hi
    simpa [withQueue, storeOp, hi, l2Push] using h.linear hi
  · rw [entries_store h, List.length_append, List.length_singleton]
    exact hlen

/-- A change of one queue in use by one entry changes the queued entries by that entry. -/
theorem queued_perm_cons {m' : Machine} (hmode : m'.mode = m.mode) (hi : i ∈ activeQueues m.mode)
    (hentry : (entries m' i).Perm (x :: entries m i))
    (hother : ∀ j, j ≠ i → entries m' j = entries m j) :
    (queued m').Perm (x :: queued m) := by
  have hcount := List.perm_iff_count.mp hentry
  rw [List.perm_iff_count]
  intro a
  have ha := hcount a
  simp only [queued, hmode]
  cases hm : m.mode with
  | fcfs =>
    rw [hm] at hi
    obtain rfl : i = .fcfs := by simpa [activeQueues] using hi
    simpa [activeQueues] using ha
  | mlfq =>
    rw [hm] at hi
    simp only [activeQueues, List.mem_cons, List.not_mem_nil, or_false] at hi
    rcases hi with rfl | rfl | rfl
    · rw [List.count_cons] at ha
      simp only [activeQueues, List.flatMap_cons, List.flatMap_nil, List.append_nil,
        List.count_append, List.count_cons, hother (.mlfq 1) (by decide),
        hother (.mlfq 2) (by decide), ha]
      omega
    · rw [List.count_cons] at ha
      simp only [activeQueues, List.flatMap_cons, List.flatMap_nil, List.append_nil,
        List.count_append, List.count_cons, hother (.mlfq 0) (by decide),
        hother (.mlfq 2) (by decide), ha]
      omega
    · rw [List.count_cons] at ha
      simp only [activeQueues, List.flatMap_cons, List.flatMap_nil, List.append_nil,
        List.count_append, List.count_cons, hother (.mlfq 0) (by decide),
        hother (.mlfq 1) (by decide), ha]
      omega

/-- The queue in use has room for a process that is not queued. -/
theorem Inv.room (h : Inv (some p) m) (hi : i ∈ activeQueues m.mode) :
    (entries m i).length < NPROC := by
  have hsub : (entries m i).Sublist (queued m) := by
    rw [queued, List.flatMap_def]
    exact List.sublist_flatten_of_mem (List.mem_map_of_mem hi)
  have hnodup : (none :: some p :: entries m i).Nodup := by
    refine List.nodup_cons.mpr ⟨?_, List.nodup_cons.mpr ⟨?_, h.nodup.sublist hsub⟩⟩
    · rintro (_ | ⟨_, hmem⟩)
      obtain ⟨q, hq, _⟩ := (h.mem _).mp (hsub.subset hmem)
      simp at hq
    · intro hmem
      exact h.not_mem_queued (Or.inr rfl) (hsub.subset hmem)
  have hcard := hnodup.length_le_card
  simp only [List.length_cons, Fintype.card_option, Fintype.card_fin] at hcard
  omega

/-- Queueing the missing process in a queue that is in use and fits its level makes the
invariant whole. -/
theorem inv_store (h : Inv (some p) m) (hstate : (m.proc p).state = .runnable)
    (hi : i ∈ activeQueues m.mode)
    (hfields : m.mode = .mlfq → InRange (m.proc p))
    (hlevel : ∀ l : Fin 3, i = .mlfq l → (m.proc p).level = (l : Nat)) :
    Inv none ((withQueue m i (storeOp i (m.queue i) (some p))).arrive (some p)) := by
  have hentry := entries_store (h.shape i) (some p)
  have hperm : (queued (withQueue m i (storeOp i (m.queue i) (some p)))).Perm
      (some p :: queued m) :=
    queued_perm_cons rfl hi (by rw [hentry]; exact List.perm_append_singleton _ _)
      fun j hj => entries_with_queue_ne hj
  have hmissing : ∀ l : Fin 3, m.mode = .mlfq → some p ∉ entries m (.mlfq l) := by
    intro l hmode hmem
    exact h.not_mem_queued (Or.inr rfl) (mem_queued.mpr ⟨_, mlfq_mem_active hmode l, hmem⟩)
  refine ⟨?_, h.running, ?_, ?_, ?_, ?_, ?_⟩
  · intro j
    refine Shape.arrive ?_ _
    by_cases hj : j = i
    · subst hj
      exact shape_store (h.shape j) _ (h.room hi)
    · exact shape_with_queue_ne hj (h.shape j)
  · rw [queued_arrive, hperm.nodup_iff, List.nodup_cons]
    exact ⟨h.not_mem_queued (Or.inr rfl), h.nodup⟩
  · intro t
    rw [queued_arrive, hperm.mem_iff, List.mem_cons, h.mem]
    constructor
    · rintro (rfl | ⟨q, rfl, hq, _⟩)
      · exact ⟨p, rfl, hstate, by simp⟩
      · exact ⟨q, rfl, hq, by simp⟩
    · rintro ⟨q, rfl, hq, _⟩
      by_cases hqp : q = p
      · exact Or.inl (congrArg some hqp)
      · exact Or.inr ⟨q, rfl, hq, by simpa using hqp⟩
  · intro hmode q hlive _
    by_cases hqp : q = p
    · subst hqp
      exact hfields hmode
    · exact h.fields hmode q hlive (by simpa using hqp)
  · intro hmode l q hmem
    rw [entries_arrive] at hmem
    by_cases hj : QueueId.mlfq l = i
    · subst hj
      rw [hentry, List.mem_append, List.mem_singleton] at hmem
      rcases hmem with hmem | hmem
      · exact h.level hmode l q hmem
      · obtain rfl := Option.some.inj hmem
        exact hlevel l rfl
    · rw [entries_with_queue_ne hj] at hmem
      exact h.level hmode l q hmem
  · intro hmode l
    rw [entries_arrive]
    by_cases hj : QueueId.mlfq l = i
    · subst hj
      rw [hentry]
      exact (h.order hmode l).push (hmissing l hmode)
    · rw [entries_with_queue_ne hj]
      exact (h.order hmode l).arrive (hmissing l hmode)

end Store

/-! ## The operations that enqueue -/

section Enqueue

variable {E : Fault → Prop} {m : Machine} {p : Slot}

theorem wp_push {i : QueueId} (h : Shape m i)
    (hQ : Q () ((withQueue m i (storeOp i (m.queue i) (some p))).arrive (some p))) :
    wp (push i p) E Q m := by
  have hlt := h.end_lt
  by_cases hi : i = .mlfq 2
  · simpa [push, store, setQueue, hi, hi ▸ hlt, withQueue, storeOp] using hQ
  · simpa [push, store, setQueue, hi, hlt, withQueue, storeOp] using hQ

/-- An operation leaves the CPU's process, the mode and `initproc` alone. -/
def SameCpu (m m' : Machine) : Prop :=
  m'.current = m.current ∧ m'.mode = m.mode ∧ m'.initproc = m.initproc

theorem InRange.enter (t : Proc) : InRange (enter t) :=
  ⟨⟨le_refl 0, show (0 : Int) ≤ 2 by decide⟩, ⟨show (0 : Int) ≤ 3 by decide, le_refl 3⟩,
    ⟨le_refl 1, le_refl 1⟩⟩

/-- Assigning the MLFQ fields of the missing process keeps it missing. -/
theorem Inv.set_missing {f : Proc → Proc} (h : Inv (some p) m)
    (hstate : (f (m.proc p)).state = (m.proc p).state) :
    Inv (some p) (withProc m p (f (m.proc p)) m.current) := by
  refine h.set_proc (fun _ _ => Iff.rfl) (by simp) ?_ (by simp) (Or.inr (Or.inr rfl))
  intro q
  by_cases hq : q = p
  · subst hq
    simpa [hstate] using h.running q
  · simpa [update_of_ne hq] using h.running q

theorem wp_add_proc_to_queue (h : Inv (some p) m) (hstate : (m.proc p).state = .runnable) :
    wp (addProcToQueue p) E (fun _ m' => Inv none m' ∧ SameCpu m m') m := by
  unfold addProcToQueue
  simp only [wp_bind, wp_get, wp_ite]
  refine ⟨fun hmode => ?_, fun hmode => ?_⟩
  · refine wp_push (h.shape _) ⟨inv_store h hstate ?_ ?_ ?_, rfl, rfl, rfl⟩
    · simp [hmode, activeQueues]
    · simp [hmode]
    · simp
  · have hmlfq : m.mode = .mlfq := by cases hm : m.mode <;> simp_all
    have h' := h.set_missing (f := enter) rfl
    simp only [setProc, wp_modify, mlfqAt, if_pos, wp_pure]
    refine wp_push (h'.shape _) ⟨inv_store h' ?_ ?_ ?_ ?_, rfl, rfl, rfl⟩
    · simpa [withProc, enter] using hstate
    · exact mlfq_mem_active (m := withProc m p _ _) hmlfq 0
    · intro _
      simpa [withProc] using InRange.enter (m.proc p)
    · intro l hl
      obtain rfl := QueueId.mlfq.inj hl
      simp [enter]

theorem InRange.charge {t : Proc} (h : InRange t) : InRange (charge t) := by
  obtain ⟨⟨hl0, hl2⟩, ⟨hp0, hp3⟩, ⟨hq1, hq2⟩⟩ := h
  unfold Sched.charge
  dsimp only
  split_ifs with hq hl hp
  · exact ⟨⟨by dsimp only; omega, by dsimp only; omega⟩, ⟨hp0, hp3⟩,
      ⟨by dsimp only; omega, by dsimp only; omega⟩⟩
  · exact ⟨⟨hl0, hl2⟩, ⟨by dsimp only; omega, by dsimp only; omega⟩,
      ⟨by dsimp only; omega, by dsimp only; omega⟩⟩
  · exact ⟨⟨hl0, hl2⟩, ⟨hp0, hp3⟩, ⟨by dsimp only; omega, by dsimp only; omega⟩⟩
  · exact ⟨⟨hl0, hl2⟩, ⟨hp0, hp3⟩, ⟨by dsimp only; omega, by dsimp only; omega⟩⟩

theorem charge_state (t : Proc) : (charge t).state = t.state := by
  unfold charge
  dsimp only
  split_ifs <;> rfl

theorem wp_mlfq_at {level : Int} {Q : QueueId → Machine → Prop} (h0 : 0 ≤ level)
    (h2 : level ≤ 2) (hQ : ∀ l : Fin 3, level = (l : Nat) → Q (.mlfq l) m) :
    wp (mlfqAt level) E Q m := by
  unfold mlfqAt
  simp only [wp_ite, wp_pure, wp_fault]
  refine ⟨fun h => hQ 0 h, fun hne0 => ⟨fun h => hQ 1 h, fun hne1 => ⟨fun h => hQ 2 h, ?_⟩⟩⟩
  intro hne2
  omega

/-- `my_queueing` queues the missing process at the level that the accounting gives it. -/
theorem wp_my_queueing (h : Inv (some p) m) (hstate : (m.proc p).state = .runnable)
    (hrange : m.mode = .mlfq → InRange (m.proc p)) :
    wp (myQueueing p) E (fun _ m' => Inv none m' ∧ SameCpu m m') m := by
  unfold myQueueing
  simp only [wp_bind, wp_get, wp_ite]
  refine ⟨fun hmode => ?_, fun hmode => ?_⟩
  · refine wp_push (h.shape _) ⟨inv_store h hstate ?_ ?_ ?_, rfl, rfl, rfl⟩
    · simp [hmode, activeQueues]
    · simp [hmode]
    · simp
  · have hmlfq : m.mode = .mlfq := by cases hm : m.mode <;> simp_all
    have hcharged := (hrange hmlfq).charge
    have h' := h.set_missing (f := charge) (charge_state _)
    simp only [setProc, wp_modify]
    refine wp_mlfq_at hcharged.level.1 hcharged.level.2 (fun l hl => ?_)
    refine wp_push (h'.shape _) ⟨inv_store h' ?_ ?_ ?_ ?_, rfl, rfl, rfl⟩
    · simpa [withProc, charge_state] using hstate
    · exact mlfq_mem_active (m := withProc m p _ _) hmlfq l
    · intro _
      simpa [withProc] using hcharged
    · intro l' hl'
      obtain rfl := QueueId.mlfq.inj hl'
      simpa [withProc] using hl

end Enqueue

end Xv6.Sched
