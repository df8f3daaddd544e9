import Xv6.Fs.Log
import Xv6.Lib.Run

/-!
# Reservation of log space

`begin_op`, `log_write` and `end_op` of `log.c`, called by any number of processes in any
interleaving; a process that finds no room in `begin_op` sleeps and tries again. The last
`end_op` runs `commit` without the lock, so its steps interleave with the other processes too.

`begin_op` looks only at the counts `log.lh.n` and `log.outstanding`. What makes it enough is the
budget of each running operation: `Reserved` says that the log has room for the blocks it lists
and for all that the running operations may still add.
-/

namespace Xv6.Fs

open Function

variable {logged : Finset BlockNo}

/-- What a process is doing. `running logged` is an operation between `begin_op` and `end_op`
that has logged the blocks `logged`; the last three are the stages of the `end_op` that
commits. -/
inductive Activity where
  | idle
  | running (logged : Finset BlockNo)
  | commit
  | clear
  | finish
  deriving DecidableEq

/-- `struct log` and the processes. `lh` lists `log.lh.block[0..n-1]`. The last two fields are
history: the blocks of the operations that have ended since the last commit, and for every commit
the blocks it wrote together with those it should have written. -/
structure Log (n : Nat) where
  lh : List BlockNo
  outstanding : Int
  committing : Bool
  proc : Fin n → Activity
  ended : Finset BlockNo
  commits : List (List BlockNo × Finset BlockNo)

/-- After `initlog`. -/
def Log.init (n : Nat) : Log n := ⟨[], 0, false, fun _ => .idle, ∅, []⟩

variable {n : Nat}

/-- Process `p` changes what it does. -/
def Log.setProc (s : Log n) (p : Fin n) (a : Activity) : Log n :=
  { s with proc := update s.proc p a }

/-- One turn of the loop of `begin_op`: the process goes on, or sleeps. -/
def beginOp (p : Fin n) : Kernel (Log n) Unit := do
  let s ← get
  if s.committing then pure ()
  else if s.lh.length + (s.outstanding + 1) * MAXOPBLOCKS > LOGSIZE then pure ()
  else set { s.setProc p (.running ∅) with outstanding := s.outstanding + 1 }

/-- `log_write` of block `b` by the operation of process `p`, on a log of `size` blocks. -/
def logWrite (size : Int) (p : Fin n) (logged : Finset BlockNo) (b : BlockNo) :
    Kernel (Log n) Unit := do
  let s ← get
  if (s.lh.length : Int) ≥ LOGSIZE ∨ (s.lh.length : Int) ≥ size - 1 then
    kpanic "too big a transaction"
  else if s.outstanding < 1 then kpanic "log_write outside of trans"
  else
    -- a block that is already listed is absorbed
    set { s.setProc p (.running (insert b logged)) with
      lh := if b ∈ s.lh then s.lh else s.lh ++ [b] }

/-- The first critical section of `end_op`. -/
def endOp (p : Fin n) (logged : Finset BlockNo) : Kernel (Log n) Unit := do
  let s ← get
  if s.committing then kpanic "log.committing"
  else
    let last := s.outstanding - 1 = 0
    set { s.setProc p (if last then .commit else .idle) with
      outstanding := s.outstanding - 1
      committing := last
      ended := s.ended ∪ logged }

/-- What a process can do next. -/
inductive LogEvent (n : Nat) where
  | beginOp (p : Fin n)
  | logWrite (p : Fin n) (b : BlockNo)
  | endOp (p : Fin n)
  | commit (p : Fin n)

/-- One step of process `p`; nothing happens when the process is not there. The stages of
`commit` are the disk writes, `log.lh.n = 0` and the last critical section of `end_op`. -/
def logStep (size : Int) : LogEvent n → Kernel (Log n) Unit
  | .beginOp p => do
    let s ← get
    if s.proc p = .idle then beginOp p else pure ()
  | .logWrite p b => do
    let s ← get
    match s.proc p with
    | .running logged => logWrite size p logged b
    | _ => pure ()
  | .endOp p => do
    let s ← get
    match s.proc p with
    | .running logged => endOp p logged
    | _ => pure ()
  | .commit p => do
    let s ← get
    match s.proc p with
    | .commit => set { s.setProc p .clear with commits := (s.lh, s.ended) :: s.commits }
    | .clear => set { s.setProc p .finish with lh := [], ended := ∅ }
    | .finish => set { s.setProc p .idle with committing := false }
    | _ => pure ()

/-- Every operation logs at most `MAXOPBLOCKS` distinct blocks. -/
def WithinReservation (s : Log n) : LogEvent n → Prop
  | .logWrite p b => ∀ logged, s.proc p = .running logged → (insert b logged).card ≤ MAXOPBLOCKS
  | _ => True

/-- Besides, the header has a free slot, even if the block is listed already and needs none. -/
def WithinBudget (s : Log n) : LogEvent n → Prop
  | .logWrite p b => ∀ logged, s.proc p = .running logged →
    (insert b logged).card ≤ MAXOPBLOCKS ∧ s.lh.length < LOGSIZE
  | _ => True

/-! ## The invariant -/

/-- Whether a process counts in `log.outstanding`. -/
def Activity.live : Activity → Nat
  | .running _ => 1
  | _ => 0

/-- The blocks an operation may still add. -/
def Activity.reserve : Activity → Nat
  | .running logged => MAXOPBLOCKS - logged.card
  | _ => 0

/-- Whether a process is in `commit`. -/
def Activity.commits : Activity → Bool
  | .commit => true
  | .clear => true
  | .finish => true
  | _ => false

@[simp] theorem live_idle : Activity.idle.live = 0 := rfl

@[simp] theorem live_running (logged : Finset BlockNo) : (Activity.running logged).live = 1 := rfl

@[simp] theorem reserve_idle : Activity.idle.reserve = 0 := rfl

@[simp] theorem reserve_running (logged : Finset BlockNo) :
    (Activity.running logged).reserve = MAXOPBLOCKS - logged.card := rfl

/-- The invariant of the log. -/
structure Reserved (s : Log n) : Prop where
  nodup : s.lh.Nodup
  outstanding : s.outstanding = (∑ p, (s.proc p).live : Nat)
  room : s.lh.length + ∑ p, (s.proc p).reserve ≤ LOGSIZE
  listed : ∀ b, b ∈ s.lh ↔ b ∈ s.ended ∨ ∃ p logged, s.proc p = .running logged ∧ b ∈ logged
  committing : s.committing = true ↔ ∃ p, (s.proc p).commits = true
  alone : ∀ p q, (s.proc p).commits = true → (s.proc q).live = 0 ∧
    ((s.proc q).commits = true → q = p)
  exact : ∀ c ∈ s.commits, ∀ b, b ∈ c.1 ↔ b ∈ c.2

/-- How a sum over the processes changes when one of them changes. -/
theorem sum_update (f : Activity → Nat) (proc : Fin n → Activity) (p : Fin n) (a : Activity) :
    ∑ q, f (update proc p a q) + f (proc p) = ∑ q, f (proc q) + f a := by
  rw [← Finset.add_sum_erase _ _ (Finset.mem_univ p), ← Finset.add_sum_erase _ (fun q => f (proc q))
    (Finset.mem_univ p), update_self]
  have hrest : ∑ q ∈ Finset.univ.erase p, f (update proc p a q) =
      ∑ q ∈ Finset.univ.erase p, f (proc q) := by
    refine Finset.sum_congr rfl fun q hq => ?_
    rw [update_of_ne (Finset.ne_of_mem_erase hq)]
  rw [hrest]
  omega

theorem reserved_init : Reserved (Log.init n) where
  nodup := List.nodup_nil
  outstanding := by simp [Log.init, Activity.live]
  room := by simp [Log.init, Activity.reserve]
  listed := by simp [Log.init]
  committing := by simp [Log.init, Activity.commits]
  alone := by simp [Log.init, Activity.commits]
  exact := by simp [Log.init]

/-! ## The steps -/

section Steps

variable {s : Log n} {p : Fin n} {size : Int} {E : Fault → Prop}

theorem reserve_le (a : Activity) : a.reserve ≤ a.live * MAXOPBLOCKS := by
  cases a with
  | running logged => simp [Activity.reserve, Activity.live]
  | _ => simp [Activity.reserve]

theorem Reserved.not_committing (h : Reserved s) (hp : s.proc p = .running logged) :
    s.committing = false := by
  by_contra hcommitting
  obtain ⟨q, hq⟩ := h.committing.mp (by simpa using hcommitting)
  have hlive := (h.alone q p hq).1
  simp [hp, Activity.live] at hlive

theorem Reserved.no_committer (h : Reserved s) (hc : s.committing = false) (q : Fin n) :
    (s.proc q).commits = false := by
  by_contra hq
  rw [h.committing.mpr ⟨q, by simpa using hq⟩] at hc
  exact absurd hc (by simp)

/-- The members of the log, as process `p` changes from `a` to `a'`. -/
theorem listed_update {b : BlockNo} {a : Activity} :
    (∃ q logged, update s.proc p a q = .running logged ∧ b ∈ logged) ↔
      (∃ logged, a = .running logged ∧ b ∈ logged) ∨
        ∃ q logged, q ≠ p ∧ s.proc q = .running logged ∧ b ∈ logged := by
  constructor
  · rintro ⟨q, logged, hq, hb⟩
    by_cases hqp : q = p
    · subst hqp
      rw [update_self] at hq
      exact Or.inl ⟨logged, hq, hb⟩
    · rw [update_of_ne hqp] at hq
      exact Or.inr ⟨q, logged, hqp, hq, hb⟩
  · rintro (⟨logged, ha, hb⟩ | ⟨q, logged, hqp, hq, hb⟩)
    · exact ⟨p, logged, by rw [update_self, ha], hb⟩
    · exact ⟨q, logged, by rw [update_of_ne hqp, hq], hb⟩

theorem listed_split {b : BlockNo} :
    (∃ q logged, s.proc q = .running logged ∧ b ∈ logged) ↔
      (∃ logged, s.proc p = .running logged ∧ b ∈ logged) ∨
        ∃ q logged, q ≠ p ∧ s.proc q = .running logged ∧ b ∈ logged := by
  rw [← listed_update, update_eq_self]

section

variable (h : Reserved s)

include h

/-- `begin_op` lets an operation in only if the log has room for all it may log. -/
theorem wp_begin_op (hp : s.proc p = .idle) :
    wp (beginOp p) E (fun _ s' => Reserved s') s := by
  simp only [beginOp, wp_bind, wp_get, wp_ite, wp_pure, wp_set]
  refine ⟨fun _ => h, fun hcommitting => ⟨fun _ => h, fun hroom => ?_⟩⟩
  have hnone := h.no_committer (by simpa using hcommitting)
  have hlive := sum_update Activity.live s.proc p (.running ∅)
  have hreserve := sum_update Activity.reserve s.proc p (.running ∅)
  have hbound : ∑ q, (s.proc q).reserve ≤ (∑ q, (s.proc q).live) * MAXOPBLOCKS := by
    rw [Finset.sum_mul]
    exact Finset.sum_le_sum fun q _ => reserve_le _
  rw [hp, live_idle, live_running] at hlive
  rw [hp, reserve_idle, reserve_running, Finset.card_empty] at hreserve
  have houtstanding := h.outstanding
  refine ⟨h.nodup, ?_, ?_, fun b => ?_, ?_, ?_, h.exact⟩
  · simp only [Log.setProc]
    omega
  · simp only [Log.setProc, MAXOPBLOCKS, LOGSIZE] at *
    omega
  · simp only [Log.setProc]
    rw [h.listed b, listed_update, listed_split (p := p)]
    simp [hp]
  · refine ⟨fun hc => absurd hc hcommitting, ?_⟩
    rintro ⟨q, hq⟩
    simp only [Log.setProc, update_apply] at hq
    split at hq
    · simp [Activity.commits] at hq
    · simp [hnone q] at hq
  · intro q r hq
    simp only [Log.setProc, update_apply] at hq
    split at hq
    · simp [Activity.commits] at hq
    · simp [hnone q] at hq

/-- `log_write` with a free slot does not touch what the other operations may still add. -/
theorem wp_log_write (hp : s.proc p = .running logged) {b : BlockNo}
    (hbudget : (insert b logged).card ≤ MAXOPBLOCKS) (hslot : s.lh.length < LOGSIZE)
    (hsize : (LOGSIZE : Int) + 1 ≤ size) :
    wp (logWrite size p logged b) E (fun _ s' => Reserved s') s := by
  have hlive := sum_update Activity.live s.proc p (.running (insert b logged))
  have hreserve := sum_update Activity.reserve s.proc p (.running (insert b logged))
  have hcount : (s.proc p).live ≤ ∑ q, (s.proc q).live :=
    Finset.single_le_sum (f := fun q => (s.proc q).live) (fun _ _ => Nat.zero_le _)
      (Finset.mem_univ p)
  rw [hp, live_running, live_running] at hlive
  rw [hp, reserve_running, reserve_running] at hreserve
  rw [hp, live_running] at hcount
  have hroom := h.room
  have houtstanding := h.outstanding
  have hnone := h.no_committer (h.not_committing hp)
  simp only [logWrite, wp_bind, wp_get, wp_ite, wp_kpanic, wp_set]
  refine ⟨fun hfull => absurd hfull ?_, fun _ => ⟨fun hout => absurd hout ?_, fun _ => ?_⟩⟩
  · omega
  · omega
  have hmine : ∀ x ∈ logged, x ∈ s.lh := fun x hx => (h.listed x).mpr (Or.inr ⟨p, logged, hp, hx⟩)
  refine ⟨?_, ?_, ?_, fun x => ?_, ?_, ?_, h.exact⟩
  · split
    next => exact h.nodup
    next hnew => exact List.nodup_append.mpr ⟨h.nodup, List.nodup_singleton b, by grind⟩
  · simp only [Log.setProc]
    omega
  · simp only [Log.setProc]
    split
    next hold =>
      have hle : logged.card ≤ (insert b logged).card :=
        Finset.card_le_card (Finset.subset_insert ..)
      omega
    next hnew =>
      -- a block new to the log is new to the operation, whose budget shrinks by one
      have hcard : (insert b logged).card = logged.card + 1 :=
        Finset.card_insert_of_notMem fun hmem => hnew (hmine b hmem)
      rw [List.length_append, List.length_singleton]
      omega
  · have hlisted := h.listed x
    rw [listed_split (p := p)] at hlisted
    simp only [Log.setProc]
    rw [listed_update]
    simp only [hp, Activity.running.injEq, exists_eq_left', Finset.mem_insert] at hlisted ⊢
    split
    next hold => grind
    next hnew => grind
  · simp only [Log.setProc]
    rw [h.committing]
    refine iff_of_false (fun hex => ?_) fun hex => ?_
    · obtain ⟨q, hq⟩ := hex
      simp [hnone q] at hq
    obtain ⟨q, hq⟩ := hex
    rw [update_apply] at hq
    split at hq
    · simp [Activity.commits] at hq
    · simp [hnone q] at hq
  · intro q r hq
    simp only [Log.setProc, update_apply] at hq
    split at hq
    · simp [Activity.commits] at hq
    · simp [hnone q] at hq

/-- The books after the operation of process `p` has ended. -/
theorem Reserved.end_running {a : Activity} (hp : s.proc p = .running logged)
    (ha : a = .commit ∨ a = .idle) :
    s.outstanding - 1 = (∑ q, (update s.proc p a q).live : Nat) ∧
      s.lh.length + ∑ q, (update s.proc p a q).reserve ≤ LOGSIZE ∧
      ∀ b, b ∈ s.lh ↔ b ∈ s.ended ∪ logged ∨
        ∃ q logged, update s.proc p a q = .running logged ∧ b ∈ logged := by
  have hlive := sum_update Activity.live s.proc p a
  have hreserve := sum_update Activity.reserve s.proc p a
  have houtstanding := h.outstanding
  have hroom := h.room
  have hquiet : a.live = 0 ∧ a.reserve = 0 ∧ ∀ l, a ≠ .running l := by
    rcases ha with rfl | rfl <;> exact ⟨rfl, rfl, by simp⟩
  rw [hp, live_running, hquiet.1] at hlive
  rw [hp, hquiet.2.1] at hreserve
  refine ⟨by omega, by omega, fun b => ?_⟩
  have hlisted := h.listed b
  rw [listed_split (p := p)] at hlisted
  rw [listed_update]
  simp only [hp, Activity.running.injEq, exists_eq_left', Finset.mem_union, hquiet.2.2,
    false_and, exists_false, false_or] at hlisted ⊢
  rw [hlisted, or_assoc]

/-- `end_op` commits exactly when it ends the last running operation. -/
theorem wp_end_op (hp : s.proc p = .running logged) :
    wp (endOp p logged) E (fun _ s' => Reserved s') s := by
  have hidle := h.not_committing hp
  have hnone := h.no_committer hidle
  simp only [endOp, wp_bind, wp_get, wp_ite, wp_kpanic, wp_set]
  refine ⟨fun hc => absurd hc (by simp [hidle]), fun _ => ?_⟩
  by_cases hlast : s.outstanding - 1 = 0
  · obtain ⟨hcount, hroom, hlisted⟩ := h.end_running hp (Or.inl rfl : Activity.commit = _ ∨ _)
    have hzero : ∑ q, (update s.proc p .commit q).live = 0 := by omega
    have honly (q : Fin n) (hq : (update s.proc p .commit q).commits = true) : q = p := by
      by_contra hqp
      rw [update_of_ne hqp, hnone q] at hq
      exact absurd hq (by simp)
    simp only [hlast, if_true]
    refine ⟨h.nodup, hlast ▸ hcount, hroom, hlisted, ⟨fun _ => ⟨p, ?_⟩, fun _ => by simp⟩, ?_,
      h.exact⟩
    · simp [Log.setProc, Activity.commits]
    · intro q r hq
      refine ⟨Finset.sum_eq_zero_iff.mp hzero r (Finset.mem_univ r), fun hr => ?_⟩
      rw [honly q hq, honly r hr]
  · obtain ⟨hcount, hroom, hlisted⟩ := h.end_running hp (Or.inr rfl : Activity.idle = _ ∨ _)
    have hcommits (q : Fin n) : (update s.proc p .idle q).commits = false := by
      rw [update_apply]
      split
      · rfl
      · exact hnone q
    simp only [hlast, if_false]
    refine ⟨h.nodup, hcount, hroom, hlisted, by simp [Log.setProc, hcommits], ?_, h.exact⟩
    intro q r hq
    simp [Log.setProc, hcommits] at hq

/-- The process that commits goes on to its next stage `a`. -/
theorem Reserved.next_stage {a : Activity} (hp : (s.proc p).commits = true)
    (ha : a.live = 0) (hreserve : a.reserve = 0) (q : Fin n) :
    (update s.proc p a q).live = 0 ∧ (update s.proc p a q).reserve = 0 ∧
      ((update s.proc p a q).commits = true → q = p) := by
  rw [update_apply]
  split
  next hqp => exact ⟨ha, hreserve, fun _ => hqp⟩
  next hqp =>
    obtain ⟨hlive, honly⟩ := h.alone p q hp
    refine ⟨hlive, ?_, honly⟩
    have hle := reserve_le (s.proc q)
    rw [hlive, Nat.zero_mul] at hle
    omega

theorem Reserved.quiet (hp : (s.proc p).commits = true) :
    s.outstanding = 0 ∧ ∀ b, b ∈ s.lh ↔ b ∈ s.ended := by
  have hnone (q : Fin n) : (s.proc q).live = 0 := (h.alone p q hp).1
  refine ⟨by simp [h.outstanding, hnone], fun b => ?_⟩
  rw [h.listed b]
  refine ⟨?_, Or.inl⟩
  rintro (hb | ⟨q, logged, hq, _⟩)
  · exact hb
  · have := hnone q
    simp [hq] at this

theorem reserved_stage {a : Activity} (hp : (s.proc p).commits = true)
    (ha : a = .clear ∨ a = .finish ∨ a = .idle) {lh : List BlockNo} {ended : Finset BlockNo}
    {commits : List (List BlockNo × Finset BlockNo)}
    (hlh : lh = s.lh ∧ ended = s.ended ∨ lh = [] ∧ ended = ∅)
    (hcommits : ∀ c ∈ commits, ∀ b, b ∈ c.1 ↔ b ∈ c.2) :
    Reserved ⟨lh, s.outstanding, a.commits, update s.proc p a, ended, commits⟩ := by
  have hzero : a.live = 0 ∧ a.reserve = 0 := by
    rcases ha with rfl | rfl | rfl <;> exact ⟨rfl, rfl⟩
  have hstage := h.next_stage hp hzero.1 hzero.2
  obtain ⟨hout, hlisted⟩ := h.quiet hp
  refine ⟨?_, ?_, ?_, fun b => ?_, ?_, ?_, hcommits⟩
  · rcases hlh with ⟨rfl, -⟩ | ⟨rfl, -⟩
    · exact h.nodup
    · exact List.nodup_nil
  · simp [hout, fun q => (hstage q).1]
  · have hroom := h.room
    simp only [fun q => (hstage q).2.1, Finset.sum_const_zero]
    rcases hlh with ⟨rfl, -⟩ | ⟨rfl, -⟩
    · omega
    · simp
  · have hrun : ¬ ∃ q logged, update s.proc p a q = .running logged ∧ b ∈ logged := by
      rintro ⟨q, logged, hq, -⟩
      have := (hstage q).1
      simp [hq] at this
    rcases hlh with ⟨rfl, rfl⟩ | ⟨rfl, rfl⟩
    · simp [hlisted b, hrun]
    · simp [hrun]
  · refine ⟨fun ha => ⟨p, by simpa using ha⟩, ?_⟩
    rintro ⟨q, hq⟩
    obtain rfl := (hstage q).2.2 hq
    simpa using hq
  · intro q r hq
    refine ⟨(hstage r).1, fun hr => ?_⟩
    rw [(hstage q).2.2 hq, (hstage r).2.2 hr]

theorem wp_commit : wp (logStep size (.commit p)) E (fun _ s' => Reserved s') s := by
  simp only [logStep, wp_bind, wp_get]
  have hcommitting (a : Activity) (ha : s.proc p = a) (hc : a.commits = true) :
      (s.proc p).commits = true ∧ s.committing = true :=
    ⟨ha ▸ hc, h.committing.mpr ⟨p, ha ▸ hc⟩⟩
  cases hp : s.proc p with
  | idle => exact h
  | running logged => exact h
  | commit =>
    obtain ⟨hstage, hc⟩ := hcommitting _ hp rfl
    have hexact : ∀ c ∈ (s.lh, s.ended) :: s.commits, ∀ b, b ∈ c.1 ↔ b ∈ c.2 := by
      intro c hmem
      rcases List.mem_cons.mp hmem with rfl | hmem
      · exact (h.quiet hstage).2
      · exact h.exact c hmem
    have hnew := reserved_stage h hstage (Or.inl rfl) (Or.inl ⟨rfl, rfl⟩) hexact
    simpa [Log.setProc, hc, Activity.commits] using hnew
  | clear =>
    obtain ⟨hstage, hc⟩ := hcommitting _ hp rfl
    have hnew := reserved_stage h hstage (Or.inr (Or.inl rfl)) (Or.inr ⟨rfl, rfl⟩) h.exact
    simpa [Log.setProc, hc, Activity.commits] using hnew
  | finish =>
    obtain ⟨hstage, hc⟩ := hcommitting _ hp rfl
    have hnew := reserved_stage h hstage (Or.inr (Or.inr rfl)) (Or.inl ⟨rfl, rfl⟩) h.exact
    simpa [Log.setProc, hc, Activity.commits] using hnew

/-- No step within the budget panics, and each keeps the invariant. -/
theorem step_reserved (hsize : (LOGSIZE : Int) + 1 ≤ size) {e : LogEvent n}
    (hbudget : WithinBudget s e) : wp (logStep size e) E (fun _ s' => Reserved s') s := by
  cases e with
  | commit p => exact wp_commit h
  | beginOp p =>
    simp only [logStep, wp_bind, wp_get, wp_ite, wp_pure]
    exact ⟨fun hp => wp_begin_op h hp, fun _ => h⟩
  | logWrite p b =>
    simp only [logStep, wp_bind, wp_get]
    cases hp : s.proc p with
    | running logged => exact wp_log_write h hp (hbudget logged hp).1 (hbudget logged hp).2 hsize
    | _ => exact h
  | endOp p =>
    simp only [logStep, wp_bind, wp_get]
    cases hp : s.proc p with
    | running logged => exact wp_end_op h hp
    | _ => exact h

end

/-- `log_write` tests for a free slot before it looks for the block. -/
theorem within_budget_of_ok {s' : Log n} {e : LogEvent n} (hres : WithinReservation s e)
    (hrun : logStep size e s = .ok ((), s')) : WithinBudget s e := by
  cases e with
  | logWrite p b =>
    intro logged hp
    refine ⟨hres logged hp, ?_⟩
    have hslot : wp (logStep size (.logWrite p b)) Fault.any
        (fun _ _ => s.lh.length < LOGSIZE) s := by
      simp only [logStep, wp_bind, wp_get, hp, logWrite, wp_ite, wp_kpanic, wp_set]
      exact ⟨fun _ => trivial, fun hroom => ⟨fun _ => trivial, fun _ => by omega⟩⟩
    have hlt := wp_ok hslot hrun
    exact hlt
  | _ => exact trivial

end Steps

instance (s : Log n) (e : LogEvent n) : Decidable (WithinBudget s e) :=
  match e with
  | .logWrite p b =>
    match hp : s.proc p with
    | .running logged =>
      decidable_of_iff ((insert b logged).card ≤ MAXOPBLOCKS ∧ s.lh.length < LOGSIZE)
        (by simp [WithinBudget, hp])
    | .idle | .commit | .clear | .finish => .isTrue (by simp [WithinBudget, hp])
  | .beginOp _ | .endOp _ | .commit _ => .isTrue trivial

instance (s : Log n) (e : LogEvent n) : Decidable (WithinReservation s e) :=
  match e with
  | .logWrite p b =>
    match hp : s.proc p with
    | .running logged =>
      decidable_of_iff ((insert b logged).card ≤ MAXOPBLOCKS) (by simp [WithinReservation, hp])
    | .idle | .commit | .clear | .finish => .isTrue (by simp [WithinReservation, hp])
  | .beginOp _ | .endOp _ | .commit _ => .isTrue trivial

/-- The blocks that operation `p` of three logs. -/
def tenBlocks (p : Fin 3) : List (LogEvent 3) :=
  (List.range MAXOPBLOCKS).map fun i => .logWrite p (BitVec.ofNat 32 (100 * (p + 1) + i))

end Xv6.Fs
