import Xv6.Thread.Exit

/-!
# `paull04_join` and its result address

When `copyout` of the stack address fails, `paull04_join` gives back both its locks and then goes
on as if it had succeeded: it frees the thread and gives the locks back a second time. One scan of
the call, on any process table, is `joinLocked`; a call that sleeps starts again with a new scan.
`join_contract_iff` says when a scan keeps its promises.
-/

namespace Xv6.Thread.Calls

variable {s s' : System} {p np : Slot} {E : Fault → Prop} {m : Mem} {t : TableId} {src : List Byte}
  {stack : Nat}

/-! ## `copyout` -/

/-- Page `v` of table `t` can be written by the user. -/
structure WritablePage (m : Mem) (t : TableId) (v : Nat) : Prop where
  below : v * PGSIZE < MAXVA
  nodes : ∀ key ∈ [nodeKey 2 (v * PGSIZE), nodeKey 1 (v * PGSIZE)], m.Node t key
  leaf : ∃ l, m.leaf t v = some l ∧ l.perm.u = true ∧ l.perm.w = true

/-- The user can write the `len` bytes from `va` on. -/
def Writable (m : Mem) (t : TableId) (va len : Nat) : Prop :=
  ∀ v, va / PGSIZE ≤ v → v ≤ (va + len - 1) / PGSIZE → WritablePage m t v

theorem WritablePage.live {v : Nat} (h : WritablePage m t v) : m.Live t := by
  obtain ⟨l, hl, -⟩ := h.leaf
  unfold Mem.leaf at hl
  unfold Mem.Live
  cases htable : m.tables t with
  | none => simp [htable] at hl
  | some pt => rfl

theorem writable_page_stores (stores : List Store) {v : Nat} :
    WritablePage { m with stores := stores } t v ↔ WritablePage m t v :=
  ⟨fun h => ⟨h.below, h.nodes, h.leaf⟩, fun h => ⟨h.below, h.nodes, h.leaf⟩⟩

/-- `copyout` with `copied` as its result has stored `new`: all of `src` if it succeeded. -/
structure Copied (m : Mem) (src : List Byte) (copied : Bool) (new : List Store) (m' : Mem) :
    Prop where
  mem : m' = { m with stores := new ++ m.stores }
  bytes : copied = true → new.reverse.flatMap Store.bytes = src

theorem Copied.stored {copied : Bool} {new : List Store} {m' : Mem} (h : Copied m src copied new m')
    (hcopied : copied = true) : m.stored m' = src := by
  rw [← h.bytes hcopied, h.mem, Mem.stored]
  simp

/-- The loop of `copyout` stores `src` if it can write all pages, and returns whether it could. -/
theorem wp_copyout_from_any (n v offset : Nat) (src : List Byte)
    (hsrc : offset + src.length ≤ n * PGSIZE) (hoffset : offset ≤ PGSIZE) :
    wp (copyoutFrom t n v offset src) Fault.any (fun copied m' =>
      (∃ new, Copied m src copied new m') ∧
        (copied = true ↔ ∀ i < n, WritablePage m t (v + i))) m := by
  induction n generalizing m v offset src with
  | zero =>
    obtain rfl : src = [] := List.eq_nil_of_length_eq_zero (by omega)
    exact ⟨⟨[], rfl, fun _ => rfl⟩, fun _ i hi => absurd hi (by omega), fun _ => rfl⟩
  | succ n ih =>
    -- the first page cannot be written
    have hbad : ¬ WritablePage m t v → ((∃ new, Copied m src false new m) ∧
        (false = true ↔ ∀ i < n + 1, WritablePage m t (v + i))) := by
      intro hpage
      exact ⟨⟨[], rfl, fun h => (by cases h)⟩, fun h => (by cases h),
        fun h => absurd (h 0 (by omega)) hpage⟩
    have hsplit : WritablePage m t v → ((∀ i < n + 1, WritablePage m t (v + i)) ↔
        ∀ i < n, WritablePage m t (v + 1 + i)) := by
      intro hpage
      refine ⟨fun h i hi => ?_, fun h i hi => ?_⟩
      · have hi' := h (i + 1) (by omega)
        rwa [show v + (i + 1) = v + 1 + i by omega] at hi'
      · rcases i with - | i
        · exact hpage
        · rw [show v + (i + 1) = v + 1 + i by omega]
          exact h i (by omega)
    unfold copyoutFrom
    by_cases hva : MAXVA ≤ v * PGSIZE
    · rw [if_pos hva]
      exact hbad fun hpage => absurd hpage.below (by omega)
    rw [if_neg hva, wp_bind]
    by_cases hlive : m.Live t
    · refine wp_walk_look hlive (by omega) fun found hfound => ?_
      cases found with
      | false => exact hbad fun hpage => (by cases hfound.mpr hpage.nodes)
      | true =>
        simp only [if_true, wp_bind]
        refine wp_read_leaf hlive ?_
        rw [Nat.mul_div_cancel v (by decide : 0 < PGSIZE)]
        cases hleaf : m.leaf t v with
        | none =>
          refine hbad fun hpage => ?_
          obtain ⟨l, hl, -⟩ := hpage.leaf
          cases hleaf.symm.trans hl
        | some l =>
          dsimp only
          by_cases hperm : (l.perm.u && l.perm.w) = true
          · rw [if_pos hperm]
            rw [Bool.and_eq_true] at hperm
            have hpage : WritablePage m t v :=
              ⟨by omega, hfound.mp rfl, l, hleaf, hperm.1, hperm.2⟩
            refine (wp_bind _ _).mpr ((wp_modify _).mpr ?_)
            refine wp_mono (ih (v + 1) 0 _ ?_ (Nat.zero_le _)) ?_
            · rw [Nat.succ_mul] at hsrc
              rw [List.length_drop]
              omega
            rintro copied m' ⟨⟨new, hnew⟩, hm'⟩
            simp only [writable_page_stores] at hm'
            refine ⟨⟨new ++ [⟨l.page, offset, src.take (PGSIZE - offset)⟩], ?_, fun hc => ?_⟩, ?_⟩
            · rw [hnew.mem, List.append_assoc]
              rfl
            · rw [List.reverse_append, List.reverse_singleton, List.singleton_append,
                List.flatMap_cons, hnew.bytes hc]
              exact List.take_append_drop _ src
            · rw [hm', hsplit hpage]
          · rw [if_neg hperm]
            refine hbad fun hpage => hperm ?_
            obtain ⟨l', hl', hu, hw⟩ := hpage.leaf
            rw [hleaf] at hl'
            cases hl'
            rw [hu, hw]
            rfl
    · have hnone : m.tables t = none := by simpa [Mem.Live] using hlive
      simp [walk, walkLevel, table, hnone, hva]

/-- `copyout` writes nothing but user pages, and returns whether it could write them all. -/
theorem wp_copyout_any {va : Nat} (hsrc : 0 < src.length) :
    wp (copyout t va src) Fault.any (fun copied m' => (∃ new, Copied m src copied new m') ∧
      (copied = true ↔ Writable m t va src.length)) m := by
  unfold copyout
  rw [if_neg (List.length_pos_iff.mp hsrc)]
  have hmono : va / PGSIZE ≤ (va + src.length - 1) / PGSIZE := Nat.div_le_div_right (by omega)
  have hva := Nat.div_add_mod va PGSIZE
  have hlast := Nat.lt_mul_div_succ (va + src.length - 1) (by decide : 0 < PGSIZE)
  refine wp_mono (wp_copyout_from_any _ _ _ _ ?_ (Nat.mod_lt _ (by decide)).le)
    fun copied m' hm' => ⟨hm'.1, hm'.2.trans ?_⟩
  · rw [Nat.mul_comm, Nat.mul_sub]
    omega
  refine ⟨fun h v hlow hhigh => ?_, fun h i hi => h _ (by omega) (by omega)⟩
  have hv := h (v - va / PGSIZE) (by omega)
  rwa [show va / PGSIZE + (v - va / PGSIZE) = v by omega] at hv

theorem wp_copyout_returns {va : Nat} (hlive : m.Live t) (hsrc : 0 < src.length)
    {Q : Bool → Mem → Prop}
    (h : ∀ copied new m', Copied m src copied new m' →
      (copied = true ↔ Writable m t va src.length) → Q copied m') :
    wp (copyout t va src) E Q m := by
  have hreturns : wp (copyout t va src) Fault.never (fun _ _ => True) m :=
    wp_copyout hlive fun _ _ => trivial
  obtain ⟨copied, m', hrun, -⟩ := wp_returns hreturns
  obtain ⟨⟨new, hnew⟩, hcopied⟩ := wp_ok (wp_copyout_any hsrc) hrun
  exact wp_of_ok hrun (h copied new m' hnew hcopied)

/-! ## The contract -/

/-- The process of `p` can be told the stack of an exited thread. -/
def Copies (s : System) (p : Slot) (stack : Nat) : Prop :=
  ∃ t, (s.proc p).pagetable = some t ∧ Writable s.mem t stack 8

/-- The contract of one scan of `join(stack)` by `p`: `r` is what it returns, and none when it goes
to sleep. -/
structure JoinsRight (s : System) (p : Slot) (stack : Nat) (r : Option Int)
    (x : Spin.Spun Lock System) : Prop where
  /-- Neither `wait_lock` nor the lock of a process is held. -/
  locks : x.held = []
  /-- No thread has exited: it returns -1 or sleeps, and frees no slot. -/
  waiting : (∀ q, joinable s p q = false) → (r = some (-1) ∨ r = none) ∧
    ∀ q, q ≠ p → x.data.proc q = s.proc q
  /-- The stack cannot be copied: it returns -1 and leaves the exited thread in place. -/
  failed : (∃ q, joinable s p q = true) → ¬ Copies s p stack →
    r = some (-1) ∧ x.data.proc = s.proc
  /-- The stack of an exited thread is copied out, the thread freed, and its pid returned. -/
  reaped : (∃ q, joinable s p q = true) → Copies s p stack → ∃ np, joinable s p np = true ∧
    r = some (s.proc np).pid ∧ s.mem.stored x.data.mem = leBytes 8 (s.proc np).stackBase ∧
    x.data.proc = Function.update s.proc np (s.proc np).cleared

/-- The exited thread that a scan by `p` finds first. -/
def exited (s : System) (p : Slot) : Ptr := firstSlot (joinable s p)

theorem exited_none (h : exited s p = none) (q : Slot) : joinable s p q = false :=
  Bool.eq_false_iff.mpr (List.find?_eq_none.mp h q (List.mem_finRange q))

theorem wp_scan_end_waits {havekids : Bool} {call : Blocked} {Q : Option Int → System → Prop}
    (hreturn : Q (some (-1)) { s with waitLock := none })
    (hsleep : ∀ s', (∀ q, q ≠ p → s'.proc q = s.proc q) → Q none s') :
    wp (scanEnd p havekids call) E Q s := by
  simp only [scanEnd, wp_bind, wp_get, releaseWaitLock, wp_modify]
  split
  next => exact hreturn
  next => exact hsleep _ fun q hq => Function.update_of_ne hq _ _

theorem frees_stores (stores : List Store) :
    Frees { s with mem := { s.mem with stores := stores } } np ↔ Frees s np := by
  constructor
  · rintro ⟨hchild, htrapframe, hmapped⟩
    refine ⟨hchild, htrapframe, fun hthread => ?_⟩
    obtain ⟨t, ht, h⟩ := hmapped hthread
    exact ⟨t, ht, h.aligned, h.below, h.nodes, h.leaf⟩
  · rintro ⟨hchild, htrapframe, hmapped⟩
    refine ⟨hchild, htrapframe, fun hthread => ?_⟩
    obtain ⟨t, ht, h⟩ := hmapped hthread
    exact ⟨t, ht, h.aligned, h.below, h.nodes, h.leaf⟩

theorem stores_without (m : Mem) (x : Task) : (Mem.without m x).stores = m.stores := by
  unfold Mem.without
  dsimp only
  split <;> rfl

theorem word_bytes (n : Nat) : 0 < (leBytes 8 n).length := by
  rw [leBytes_length]
  decide

/-- It works if the stack can be copied and the thread freed. -/
theorem wp_join_found (hcopies : Copies s p stack) (hfrees : Frees s np)
    {Q : Option Int → System → Prop}
    (hQ : ∀ s', s'.waitLock = none → s'.proc = (freed s np).proc →
      s.mem.stored s'.mem = leBytes 8 (s.proc np).stackBase → Q (some (s.proc np).pid) s') :
    wp (joinFound s p np stack) E Q s := by
  obtain ⟨t, ht, hwritable⟩ := hcopies
  have hpage := hwritable (stack / PGSIZE) le_rfl (Nat.div_le_div_right (by omega))
  unfold joinFound
  simp only [ht, wp_bind, wp_deref_some, wp_on_mem]
  refine wp_copyout_returns hpage.live (word_bytes _) fun copied new m' hnew hcopied => ?_
  rw [leBytes_length] at hcopied
  rw [if_pos (hcopied.mpr hwritable), wp_bind]
  have hstored := hnew.stored (hcopied.mpr hwritable)
  obtain rfl := hnew.mem
  refine wp_freethread_frees ((frees_stores _).mpr hfrees) (hQ _ rfl rfl ?_)
  rw [← hstored, Mem.stored, Mem.stored]
  simp only [freed, stores_without]

theorem wp_join_found_any : wp (joinFound s p np stack) Fault.any (fun _ s' =>
    (Copies s p stack ∧ Frees s np) ∧
      s.mem.stored s'.mem = leBytes 8 (s.proc np).stackBase) s := by
  unfold joinFound
  rw [wp_bind]
  refine wp_deref (fun t ht => ?_) fun _ => trivial
  rw [wp_bind, wp_on_mem]
  refine wp_mono (wp_copyout_any (word_bytes _)) ?_
  rintro copied m' ⟨⟨new, hnew⟩, hcopied⟩
  rw [leBytes_length] at hcopied
  cases copied with
  | true =>
    have hstored := hnew.stored rfl
    obtain rfl := hnew.mem
    rw [if_pos rfl]
    refine wp_seq wp_freethread_any ?_
    rintro _ _ ⟨hfrees, rfl⟩
    refine ⟨⟨⟨t, ht, hcopied.mp rfl⟩, (frees_stores _).mp hfrees⟩, ?_⟩
    rw [← hstored, Mem.stored, Mem.stored]
    simp only [freed, stores_without]
  | false =>
    rw [if_neg (by simp)]
    exact wp_seq (wp_any _) fun _ _ _ => trivial

/-- The scan of `join`, with `wait_lock` held. -/
def joinScan (s : System) (p : Slot) (stack : Nat) : Code (Option Int) :=
  match exited s p with
  | some np => joinFound s p np stack
  | none => scanEnd p (firstSlot (joinMember s p)).isSome (.join stack)

/-- From the state `s1` in which `wait_lock` has been taken, the scan keeps the contract exactly if
the thread that it finds can be freed. -/
theorem join_scan_contract {s1 : System} (hproc : s1.proc = s.proc) (hmem : s1.mem = s.mem) :
    wp (joinScan s1 p stack) Fault.never (fun r s' => JoinsRight s p stack r ⟨[], s'⟩) s1 ↔
      ∀ np, exited s p = some np → Copies s p stack ∧ Frees s np := by
  have hjoinable : joinable s1 p = joinable s p := by
    unfold joinable joinMember
    rw [hproc]
  have hcopies : Copies s1 p stack ↔ Copies s p stack := by
    unfold Copies
    rw [hproc, hmem]
  have hfrees (np : Slot) : Frees s1 np ↔ Frees s np := by
    constructor
    · intro h
      exact ⟨hproc ▸ h.childless, hmem ▸ hproc ▸ h.clearable⟩
    · intro h
      exact ⟨hproc.symm ▸ h.childless, hmem.symm ▸ hproc.symm ▸ h.clearable⟩
  unfold joinScan
  rw [show exited s1 p = exited s p by unfold exited; rw [hjoinable]]
  cases hfirst : exited s p with
  | none =>
    have hempty : ¬ ∃ q, joinable s p q = true := by
      rintro ⟨q, hq⟩
      exact absurd hq (Bool.eq_false_iff.mp (exited_none hfirst q))
    refine ⟨fun _ np hnp => (by cases hnp), fun _ => wp_scan_end_waits ?_ fun s' hs' => ?_⟩
    · exact ⟨rfl, fun _ => ⟨.inl rfl, fun q _ => congrFun hproc q⟩,
        fun h => absurd h hempty, fun h => absurd h hempty⟩
    · exact ⟨rfl, fun _ => ⟨.inr rfl, fun q hq => (hs' q hq).trans (congrFun hproc q)⟩,
        fun h => absurd h hempty, fun h => absurd h hempty⟩
  | some np =>
    have hnp : joinable s p np = true := first_slot_some hfirst
    constructor
    · intro h np' hnp'
      obtain ⟨r, s', hrun, -⟩ := wp_returns h
      have hany : wp (joinFound s1 p np stack) Fault.any
        (fun _ _ => Copies s1 p stack ∧ Frees s1 np) s1 :=
        wp_mono wp_join_found_any fun _ _ h => h.1
      have hboth := wp_ok hany hrun
      rw [← Option.some.inj hnp', ← hcopies, ← hfrees]
      exact hboth
    · intro h
      obtain ⟨hcopy, hfree⟩ := h np rfl
      refine wp_join_found (hcopies.mpr hcopy) ((hfrees np).mpr hfree) fun s' _ hs' hstored =>
        ⟨rfl, fun hnone => ?_, fun _ hfail => absurd hcopy hfail, fun _ _ => ⟨np, hnp, ?_, ?_, ?_⟩⟩
      · exact absurd hnp (Bool.eq_false_iff.mp (hnone np))
      · rw [hproc]
      · rw [← hmem, hstored, hproc]
      · rw [hs', freed, hproc]

/-- One scan of `paull04_join`, on any process table, keeps its contract exactly if `wait_lock` is
free and, when a thread has exited, the stack address can be written and the thread freed with its
lock held. -/
theorem join_contract_iff (s : System) (p : Slot) (stack : Nat)
    (hrunning : (s.proc p).state = .running) :
    wp (joinLocked p stack) Fault.never (JoinsRight s p stack) ⟨[], s⟩ ↔
      s.waitLock = none ∧ ∀ np, exited s p = some np → Copies s p stack ∧ Frees s np := by
  have hp : (s.proc p).state ≠ .zombie := by simp [hrunning]
  rw [(join_does hp).wp]
  unfold join
  rw [wp_bind]
  simp only [acquireWaitLock, wp_bind, wp_get]
  cases hlock : s.waitLock with
  | some q =>
    refine ⟨fun h => ?_, fun h => (by cases h.1)⟩
    simp only [wp_ite, wp_kpanic, wp_fault, Fault.never_iff, imp_false, not_not] at h
    exact absurd h.2 h.1
  | none =>
    simp only [wp_set, wp_modify]
    rw [true_and]
    -- the rest is `joinScan` in the state with `wait_lock` taken
    have hproc : System.proc { s with
        waitLock := some p, blocked := Function.update s.blocked p none } = s.proc := rfl
    exact join_scan_contract hproc rfl

/-- A process whose only thread has exited. -/
@[irreducible] def oneThreadExited : System :=
  lastState unguarded step [.call 2 (.exit 0)] oneThread

/-- The stack is copied to address 0, where the process has a page. -/
theorem join_contract_address_zero : exited oneThreadExited 1 = some 2 ∧
    wp (joinLocked 1 0) Fault.never (JoinsRight oneThreadExited 1 0) ⟨[], oneThreadExited⟩ := by
  have hexited : exited oneThreadExited 1 = some 2 := by decide +kernel
  refine ⟨hexited, (join_contract_iff oneThreadExited 1 0 (by decide +kernel)).mpr ?_⟩
  refine ⟨by decide +kernel, fun np hnp => ?_⟩
  rw [hexited] at hnp
  cases hnp
  -- the found thread was freed, so it could be
  have hfound : wp (joinFound oneThreadExited 1 2 0) Fault.never
      (fun _ s' => s'.waitLock = none) oneThreadExited := wp_of_value (by decide +kernel)
  obtain ⟨r, s', hrun, -⟩ := wp_returns hfound
  exact (wp_ok wp_join_found_any hrun).1

/-- The stack cannot be copied to an address that is not mapped. -/
theorem join_panics_unmapped :
    Reachable (· = boot (List.range' 1 40)) unguarded step oneThreadExited ∧
    (oneThreadExited.proc 1).state = .running ∧
    faultOf (joinLocked 1 PGSIZE) ⟨[], oneThreadExited⟩ = some (.panic "release") := by
  refine ⟨?_, by decide +kernel, by decide +kernel⟩
  unfold oneThreadExited
  exact reachable_one_thread.last_state _

end Xv6.Thread.Calls
