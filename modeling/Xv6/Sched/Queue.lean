import Mathlib

/-!
# The scheduler's queues

`struct queue` of `scheduler/kernel/proc.h`: an array of 128 process pointers with a start and
an end index. The FCFS queue and levels 0 and 1 of the MLFQ use it as a ring, level 2 as a
linear array from which `L2_pop` takes the entry of greatest priority. `Queue.ring` and
`Queue.linear` are the two readings of the array as a sequence, and the lemmas say what each
operation does to that sequence.
-/

namespace Xv6.Sched

open Function

-- The levels of the MLFQ are indexed by `Fin 3`.
instance neZeroLevels : NeZero 3 := ⟨by decide⟩

/-- Slots of a queue's array. -/
def QNUM : Nat := 128

/-- The mask that wraps a ring index. -/
def QMOD : Nat := 127

/-- `struct queue`: the entries from `s` up to `e` are queued. -/
structure Queue (α : Type) where
  s : Nat
  e : Nat
  p : Nat → α

variable {α : Type}

/-- `queue_push`. -/
def queuePush (q : Queue α) (x : α) : Queue α :=
  { q with p := update q.p q.e x, e := (q.e + 1) &&& QMOD }

/-- `queue_pop`. -/
def queuePop (q : Queue α) : α × Queue α :=
  (q.p q.s, { q with s := (q.s + 1) &&& QMOD })

/-- `isEmpty`. -/
def isEmpty (q : Queue α) : Bool := q.s == q.e

/-- `L2_push`, which is also how the mode switches and the boost append to a queue they have
just emptied: the index is not wrapped. -/
def l2Push (q : Queue α) (x : α) : Queue α :=
  { q with p := update q.p q.e x, e := q.e + 1 }

/-- `my_swap` of two array entries. -/
def mySwap (p : Nat → α) (i j : Nat) : Nat → α :=
  update (update p i (p j)) j (p i)

/-- The second loop of `L2_pop`: `n` swaps of neighbours, the first at index `i`. -/
def l2Shift (p : Nat → α) : Nat → Nat → Nat → α
  | _, 0 => p
  | i, n + 1 => l2Shift (mySwap p i (i + 1)) (i + 1) n

/-- The first loop of `L2_pop`, over the indices `i, …, i + n - 1`: the candidate `r`, its
priority `pr` and its index `idx` change only when a strictly greater priority is met. -/
def l2Scan (priority : α → Int) (p : Nat → α) : Nat → Nat → α → Int → Nat → α × Nat
  | _, 0, r, _, idx => (r, idx)
  | i, n + 1, r, pr, idx =>
    if pr < priority (p i) then l2Scan priority p (i + 1) n (p i) (priority (p i)) i
    else l2Scan priority p (i + 1) n r pr idx

/-- `L2_pop`. `null` is the pointer it returns when no entry has a priority above `-1`. -/
def l2Pop (priority : α → Int) (null : α) (q : Queue α) : α × Queue α :=
  let (r, idx) := l2Scan priority q.p 0 q.e null (-1) q.e
  (r, { q with p := l2Shift q.p idx (q.e - 1 - idx), e := q.e - 1 })

namespace Queue

/-- The queued entries of a ring, from `s` to `e`. -/
def ring (q : Queue α) : List α :=
  (List.range ((q.e + QNUM - q.s) % QNUM)).map fun k => q.p ((q.s + k) % QNUM)

/-- The queued entries of a linear array. -/
def linear (q : Queue α) : List α := (List.range q.e).map q.p

/-- The indices of a ring lie inside its array. -/
def InRing (q : Queue α) : Prop := q.s < QNUM ∧ q.e < QNUM

end Queue

/-! ## The ring -/

theorem and_qmod (n : Nat) : n &&& QMOD = n % QNUM :=
  Nat.and_two_pow_sub_one_eq_mod n 7

variable {q : Queue α}

theorem ring_length : q.ring.length = (q.e + QNUM - q.s) % QNUM := by
  simp [Queue.ring]

theorem ring_eq_nil_iff (h : q.InRing) : q.ring = [] ↔ isEmpty q = true := by
  obtain ⟨hs, he⟩ := h
  rw [← List.length_eq_zero_iff, ring_length]
  simp only [isEmpty, beq_iff_eq, QNUM] at *
  omega

theorem queue_push_in_ring (h : q.InRing) (x : α) : (queuePush q x).InRing := by
  refine ⟨h.1, ?_⟩
  simp only [queuePush, and_qmod]
  exact Nat.mod_lt _ (by decide)

/-- A push that leaves a slot free appends to the sequence, wherever the ring has wrapped. -/
theorem ring_queue_push (h : q.InRing) (hlen : q.ring.length + 1 < QNUM) (x : α) :
    (queuePush q x).ring = q.ring ++ [x] := by
  obtain ⟨hs, he⟩ := h
  rw [ring_length] at hlen
  have hsucc : ((q.e + 1) % QNUM + QNUM - q.s) % QNUM = (q.e + QNUM - q.s) % QNUM + 1 := by
    simp only [QNUM] at *
    omega
  have hlast : (q.s + (q.e + QNUM - q.s) % QNUM) % QNUM = q.e := by
    simp only [QNUM] at *
    omega
  simp only [Queue.ring, queuePush, and_qmod, hsucc, List.range_succ, List.map_append,
    List.map_cons, List.map_nil, hlast, update_self]
  congr 1
  apply List.map_congr_left
  intro k hk
  rw [List.mem_range] at hk
  apply update_of_ne
  simp only [QNUM] at *
  omega

theorem queue_pop_in_ring (h : q.InRing) : (queuePop q).2.InRing := by
  refine ⟨?_, h.2⟩
  simp only [queuePop, and_qmod]
  exact Nat.mod_lt _ (by decide)

/-- A pop from a ring that is not empty takes the head of the sequence. -/
theorem ring_queue_pop (h : q.InRing) (hne : isEmpty q = false) :
    q.ring = (queuePop q).1 :: (queuePop q).2.ring := by
  obtain ⟨hs, he⟩ := h
  simp only [isEmpty, beq_eq_false_iff_ne, ne_eq] at hne
  have hlen : (q.e + QNUM - q.s) % QNUM = (q.e + QNUM - (q.s + 1) % QNUM) % QNUM + 1 := by
    simp only [QNUM] at *
    omega
  simp only [Queue.ring, queuePop, and_qmod, hlen, List.range_succ_eq_map, List.map_cons,
    List.map_map, Nat.add_zero, Nat.mod_eq_of_lt hs]
  congr 1
  apply List.map_congr_left
  intro k _
  simp only [Function.comp_apply]
  congr 1
  simp only [QNUM]
  omega

/-! ## The linear array -/

@[simp] theorem linear_length : q.linear.length = q.e := by simp [Queue.linear]

/-- Appending without wrapping appends to the linear reading. -/
theorem linear_l2_push (x : α) : (l2Push q x).linear = q.linear ++ [x] := by
  simp only [Queue.linear, l2Push, List.range_succ, List.map_append, List.map_cons, List.map_nil,
    update_self]
  congr 1
  apply List.map_congr_left
  intro k hk
  rw [List.mem_range] at hk
  exact update_of_ne (by omega) _ _

/-- While nothing has been popped, the two readings agree. -/
theorem ring_eq_linear (hs : q.s = 0) (he : q.e < QNUM) : q.ring = q.linear := by
  simp only [Queue.ring, Queue.linear, hs, Nat.sub_zero, Nat.add_mod_right, Nat.mod_eq_of_lt he]
  apply List.map_congr_left
  intro k hk
  rw [List.mem_range] at hk
  rw [Nat.zero_add, Nat.mod_eq_of_lt (by omega)]

/-- The swaps of `L2_pop` move the entry at `i` behind the `n` entries that follow it. -/
theorem l2_shift_apply (p : Nat → α) (i n k : Nat) :
    l2Shift p i n k =
      if i ≤ k ∧ k < i + n then p (k + 1) else if k = i + n then p i else p k := by
  induction n generalizing p i with
  | zero =>
    by_cases hk : k = i
    · simp [l2Shift, hk]
    · simp [l2Shift, hk]
  | succ n ih =>
    rw [l2Shift, ih]
    -- the first swap put `p (i + 1)` at `i` and carries `p i` on at `i + 1`
    have hswap (j : Nat) : mySwap p i (i + 1) j =
        if j = i + 1 then p i else if j = i then p (i + 1) else p j := by
      simp only [mySwap, update_apply]
    simp only [hswap]
    grind

/-- After the swaps the sequence has lost exactly the entry at `idx`. -/
theorem linear_l2_shift (p : Nat → α) {idx e : Nat} (h : idx < e) :
    (List.range (e - 1)).map (l2Shift p idx (e - 1 - idx)) =
      ((List.range e).map p).eraseIdx idx := by
  apply List.ext_getElem
  · simp [List.length_eraseIdx, h]
  · intro k hk hk'
    simp only [List.length_map, List.length_range] at hk
    simp only [List.getElem_map, List.getElem_range, List.getElem_eraseIdx, l2_shift_apply]
    grind

/-- What the scan of `L2_pop` has found after the indices below `i`: `pr` is the greatest
priority seen, or `-1`, and `idx` is its first index. -/
structure Best (priority : α → Int) (p : Nat → α) (i : Nat) (r : α) (pr : Int) (idx : Nat) :
    Prop where
  lt : idx < i
  entry : r = p idx
  value : pr = priority (p idx)
  greatest : ∀ k < i, priority (p k) ≤ pr
  first : ∀ k < idx, priority (p k) < pr

theorem Best.skip {priority : α → Int} {p : Nat → α} {i idx : Nat} {r : α} {pr : Int}
    (h : Best priority p i r pr idx) (hle : ¬ pr < priority (p i)) :
    Best priority p (i + 1) r pr idx where
  lt := by have := h.lt; omega
  entry := h.entry
  value := h.value
  greatest := by
    intro k hk
    rcases Nat.lt_succ_iff_lt_or_eq.mp hk with hk | rfl
    · exact h.greatest k hk
    · omega
  first := h.first

theorem Best.take {priority : α → Int} {p : Nat → α} {i : Nat} {pr : Int}
    (hgreatest : ∀ k < i, priority (p k) ≤ pr) (hlt : pr < priority (p i)) :
    Best priority p (i + 1) (p i) (priority (p i)) i where
  lt := by omega
  entry := rfl
  value := rfl
  greatest := by
    intro k hk
    rcases Nat.lt_succ_iff_lt_or_eq.mp hk with hk | rfl
    · have := hgreatest k hk; omega
    · exact le_refl _
  first := by
    intro k hk
    have := hgreatest k hk
    omega

/-- Once a candidate is held, the rest of the scan ends with the best of all. -/
theorem l2_scan_best (priority : α → Int) (p : Nat → α) {i n idx : Nat} {r : α} {pr : Int}
    (h : Best priority p i r pr idx) :
    ∃ pr', Best priority p (i + n) (l2Scan priority p i n r pr idx).1 pr'
      (l2Scan priority p i n r pr idx).2 := by
  induction n generalizing i r pr idx with
  | zero => exact ⟨pr, h⟩
  | succ n ih =>
    simp only [l2Scan]
    split
    next hlt =>
      obtain ⟨pr', h'⟩ := ih (Best.take h.greatest hlt)
      exact ⟨pr', by simpa [Nat.add_assoc, Nat.add_comm 1 n] using h'⟩
    next hle =>
      obtain ⟨pr', h'⟩ := ih (h.skip hle)
      exact ⟨pr', by simpa [Nat.add_assoc, Nat.add_comm 1 n] using h'⟩

/-- `L2_pop` on a queue that is not empty and whose priorities are not negative returns the
entry of greatest priority, the first among equals, and removes exactly that occurrence. -/
theorem l2_pop_spec (priority : α → Int) (null : α) (he : 0 < q.e)
    (hpr : ∀ k < q.e, 0 ≤ priority (q.p k)) :
    ∃ idx, idx < q.e ∧ (l2Pop priority null q).1 = q.p idx ∧
      (∀ k < q.e, priority (q.p k) ≤ priority (q.p idx)) ∧
      (∀ k < idx, priority (q.p k) < priority (q.p idx)) ∧
      (l2Pop priority null q).2.s = q.s ∧ (l2Pop priority null q).2.e = q.e - 1 ∧
      (l2Pop priority null q).2.linear = q.linear.eraseIdx idx := by
  obtain ⟨n, hn⟩ : ∃ n, q.e = n + 1 := ⟨q.e - 1, by omega⟩
  have hfirst : (-1 : Int) < priority (q.p 0) := by
    have := hpr 0 he
    omega
  -- the first entry always beats the initial `-1`, so a candidate is held from index 1 on
  have hscan : l2Scan priority q.p 0 q.e null (-1) q.e =
      l2Scan priority q.p 1 n (q.p 0) (priority (q.p 0)) 0 := by
    rw [hn, l2Scan, if_pos hfirst]
  have hone : Best priority q.p 1 (q.p 0) (priority (q.p 0)) 0 :=
    Best.take (by simp) hfirst
  obtain ⟨pr', h⟩ := l2_scan_best priority q.p (n := n) hone
  rw [← hscan] at h
  have hlt : (l2Scan priority q.p 0 q.e null (-1) q.e).2 < q.e := by
    have := h.lt
    omega
  refine ⟨(l2Scan priority q.p 0 q.e null (-1) q.e).2, hlt, h.entry, ?_, ?_, rfl, rfl, ?_⟩
  · intro k hk
    rw [← h.value]
    exact h.greatest k (by omega)
  · intro k hk
    rw [← h.value]
    exact h.first k hk
  · exact linear_l2_shift q.p hlt

/-- `L2_pop` takes the first entry of greatest priority out of the sequence and keeps the order of
the others. -/
theorem l2_pop_stable_maximum (priority : α → Int) (null : α) (q : Queue α) (he : 0 < q.e)
    (hpr : ∀ x ∈ q.linear, 0 ≤ priority x) :
    ∃ before after, q.linear = before ++ (l2Pop priority null q).1 :: after ∧
      (l2Pop priority null q).2.linear = before ++ after ∧
      (l2Pop priority null q).2.e = q.e - 1 ∧ (l2Pop priority null q).2.s = q.s ∧
      (∀ x ∈ before, priority x < priority (l2Pop priority null q).1) ∧
      ∀ x ∈ after, priority x ≤ priority (l2Pop priority null q).1 := by
  have hentry : ∀ k < q.e, q.p k ∈ q.linear := fun k hk =>
    List.mem_map.mpr ⟨k, List.mem_range.mpr hk, rfl⟩
  obtain ⟨idx, hidx, hr, hgreatest, hfirst, hs, hend, hlinear⟩ :=
    l2_pop_spec priority null he fun k hk => hpr _ (hentry k hk)
  have hlen : idx < q.linear.length := by rwa [linear_length]
  have hget : q.linear[idx] = q.p idx := by simp [Queue.linear]
  refine ⟨q.linear.take idx, q.linear.drop (idx + 1), ?_, ?_, hend, hs, ?_, ?_⟩
  · rw [hr, ← hget, List.getElem_cons_drop, List.take_append_drop]
  · rw [hlinear, List.eraseIdx_eq_take_drop_succ]
  · intro x hx
    obtain ⟨k, hk, rfl⟩ := List.mem_take_iff_getElem.mp hx
    rw [hr]
    simpa [Queue.linear] using hfirst k (by omega)
  · intro x hx
    obtain ⟨k, hk, rfl⟩ := List.mem_map.mp (List.mem_of_mem_drop hx)
    rw [hr]
    exact hgreatest k (List.mem_range.mp hk)

/-- Three entries, of which the second and the third have the same priority. -/
def threeQueue : Queue Nat where
  s := 0
  e := 3
  p k := k

/-- The priorities of these entries. -/
def threePriority (k : Nat) : Int := if k = 0 then 3 else 5

theorem l2_pop_stable_maximum_three :
    ∃ before after, threeQueue.linear = before ++ (l2Pop threePriority 9 threeQueue).1 :: after ∧
      (l2Pop threePriority 9 threeQueue).2.linear = before ++ after ∧
      (l2Pop threePriority 9 threeQueue).2.e = threeQueue.e - 1 ∧
      (l2Pop threePriority 9 threeQueue).2.s = threeQueue.s ∧
      (∀ x ∈ before, threePriority x < threePriority (l2Pop threePriority 9 threeQueue).1) ∧
      ∀ x ∈ after, threePriority x ≤ threePriority (l2Pop threePriority 9 threeQueue).1 :=
  l2_pop_stable_maximum threePriority 9 threeQueue (by decide) (by decide)

end Xv6.Sched
