import Xv6.Lib.Kernel

/-!
# The spinlocks of one CPU

`Spun κ σ` is a state `σ` together with the spinlocks that the CPU which runs the code holds.
`acquire` panics on a lock that this CPU holds already and `release` on one that it does not hold;
a lock that another CPU holds is waited for, and what the other CPU did is part of the state the
code then sees. `noff` is the number of locks held, since `push_off` and `pop_off` are paired
everywhere else.

`lift` runs code that takes no lock of `κ`. `Does H H' locked code s` relates the code with its
locks to code without them: from `s`, with the locks `H` held, `locked` does what `code` does and
ends with the locks `H'`.
-/

namespace Xv6.Spin

/-- A state, and the locks the CPU holds. -/
structure Spun (κ σ : Type) where
  held : List κ
  data : σ

variable {κ σ α : Type} [DecidableEq κ] {E : Fault → Prop} {H : List κ} {d : σ} {l : κ}

/-- `acquire`. -/
def acquire (l : κ) : Kernel (Spun κ σ) Unit := do
  let s ← get
  if l ∈ s.held then kpanic "acquire" else set { s with held := l :: s.held }

/-- `release`. -/
def release (l : κ) : Kernel (Spun κ σ) Unit := do
  let s ← get
  if l ∈ s.held then set { s with held := s.held.erase l } else kpanic "release"

/-- The checks of `sched` by the process whose lock is `l`, as far as they concern locks. -/
def sched (l : κ) : Kernel (Spun κ σ) Unit := do
  let s ← get
  if l ∉ s.held then kpanic "sched p->lock"
  else if s.held.length ≠ 1 then kpanic "sched locks"
  else pure ()

omit [DecidableEq κ] in
/-- Code that takes none of these locks. -/
def lift (code : Kernel σ α) : Kernel (Spun κ σ) α := fun s =>
  match code s.data with
  | .ok (a, data) => .ok (a, { s with data := data })
  | .error f => .error f

omit [DecidableEq κ] in
@[simp] theorem wp_lift {code : Kernel σ α} {Q : α → Spun κ σ → Prop} :
    wp (lift code) E Q ⟨H, d⟩ ↔ wp code E (fun a d' => Q a ⟨H, d'⟩) d := by
  unfold wp lift
  cases code d with
  | ok r => rfl
  | error f => rfl

theorem wp_acquire {Q : Unit → Spun κ σ → Prop} (h : l ∉ H) :
    wp (acquire l) E Q ⟨H, d⟩ ↔ Q () ⟨l :: H, d⟩ := by
  simp only [acquire, wp_bind, wp_get, if_neg h, wp_set]

/-- Acquiring a lock that is held panics. -/
theorem wp_acquire_held {Q : Unit → Spun κ σ → Prop} (h : l ∈ H) :
    wp (acquire l) E Q ⟨H, d⟩ ↔ E (.panic "acquire") := by
  simp only [acquire, wp_bind, wp_get, if_pos h, wp_kpanic]

theorem wp_release {Q : Unit → Spun κ σ → Prop} (h : l ∈ H) :
    wp (release l) E Q ⟨H, d⟩ ↔ Q () ⟨H.erase l, d⟩ := by
  simp only [release, wp_bind, wp_get, if_pos h, wp_set]

/-- Releasing a lock that is not held panics. -/
theorem wp_release_missing {Q : Unit → Spun κ σ → Prop} (h : l ∉ H) :
    wp (release l) E Q ⟨H, d⟩ ↔ E (.panic "release") := by
  simp only [release, wp_bind, wp_get, if_neg h, wp_kpanic]

theorem wp_release_head {Q : Unit → Spun κ σ → Prop} :
    wp (release l) E Q ⟨l :: H, d⟩ ↔ Q () ⟨H, d⟩ := by
  rw [wp_release List.mem_cons_self, List.erase_cons_head]

theorem wp_sched {Q : Unit → Spun κ σ → Prop} :
    wp (sched l) E Q ⟨[l], d⟩ ↔ Q () ⟨[l], d⟩ := by
  simp only [sched, wp_bind, wp_get]
  rw [if_neg (by simp), if_neg (by simp), wp_pure]

/-! ## Code with locks and code without -/

/-- With the locks `H` held, `locked` does from `s` what `code` does, and ends with `H'` held. -/
def Does (H H' : List κ) (locked : Kernel (Spun κ σ) α) (code : Kernel σ α) (s : σ) : Prop :=
  locked ⟨H, s⟩ = (code s).map fun r => (r.1, ⟨H', r.2⟩)

section Does

variable {β : Type} {H1 H' : List κ} {s s' : σ} {locked : Kernel (Spun κ σ) α} {code : Kernel σ α}

omit [DecidableEq κ]

/-- A postcondition of the locked code is one of the code without locks. -/
theorem Does.wp (h : Does H H' locked code s) {Q : α → Spun κ σ → Prop} :
    wp locked E Q ⟨H, s⟩ ↔ wp code E (fun a s' => Q a ⟨H', s'⟩) s := by
  unfold Xv6.wp
  rw [h]
  cases code s with
  | ok r => rfl
  | error f => rfl

theorem Does.congr {code' : Kernel σ α} (h : Does H H' locked code s) (heq : code s = code' s) :
    Does H H' locked code' s := by
  unfold Does at h ⊢
  rw [h, heq]

/-- Both codes stop with one fault. -/
theorem Does.of_fault {f : Fault} (hlocked : locked ⟨H, s⟩ = .error f) (hcode : code s = .error f) :
    Does H H' locked code s := by
  unfold Does
  rw [hlocked, hcode]
  rfl

theorem Does.lift (code : Kernel σ α) (s : σ) : Does H H (lift code) code s := by
  unfold Does Spin.lift
  cases code s with
  | ok r => rfl
  | error f => rfl

theorem Does.pure (a : α) (s : σ) :
    Does H H (pure a : Kernel (Spun κ σ) α) (pure a) s := rfl

theorem Does.kpanic (message : String) (s : σ) :
    Does H H' (kpanic message : Kernel (Spun κ σ) α) (kpanic message) s := rfl

/-- Codes that agree step by step agree in sequence. -/
theorem Does.bind {next : α → Kernel (Spun κ σ) β} {rest : α → Kernel σ β}
    (h : Does H H1 locked code s)
    (hnext : ∀ a s', code s = .ok (a, s') → Does H1 H' (next a) (rest a) s') :
    Does H H' (locked >>= next) (code >>= rest) s := by
  unfold Does at h ⊢
  simp only [Bind.bind, StateT.bind, Except.bind]
  rw [h]
  cases hcode : code s with
  | ok r => exact hnext r.1 r.2 hcode
  | error f => rfl

theorem Does.ite {p : Prop} [Decidable p] {locked' : Kernel (Spun κ σ) α} {code' : Kernel σ α}
    (hyes : p → Does H H' locked code s) (hno : ¬ p → Does H H' locked' code' s) :
    Does H H' (if p then locked else locked') (if p then code else code') s := by
  split
  next hp => exact hyes hp
  next hp => exact hno hp

/-- A read that only the locked code makes. -/
theorem Does.read {next : σ → Kernel (Spun κ σ) α} (h : Does H H' (next s) code s) :
    Does H H' (Spin.lift MonadState.get >>= next) code s := h

theorem Does.get {next : σ → Kernel (Spun κ σ) α} {rest : σ → Kernel σ α}
    (h : Does H H' (next s) (rest s) s) :
    Does H H' (Spin.lift MonadState.get >>= next) (MonadState.get >>= rest) s := h

/-- The same, when the locks that are held in the end depend on the result. -/
def Leaves (H : List κ) (F : α → List κ) (locked : Kernel (Spun κ σ) α) (code : Kernel σ α)
    (s : σ) : Prop :=
  locked ⟨H, s⟩ = (code s).map fun r => (r.1, ⟨F r.1, r.2⟩)

/-- `Does.wp`, with the locks that the result leaves. -/
theorem Leaves.wp {F : α → List κ} (h : Leaves H F locked code s) {Q : α → Spun κ σ → Prop} :
    wp locked E Q ⟨H, s⟩ ↔ wp code E (fun a s' => Q a ⟨F a, s'⟩) s := by
  unfold Xv6.wp
  rw [h]
  cases code s with
  | ok r => rfl
  | error f => rfl

/-- A step before code whose locks depend on its result. -/
theorem Does.leaves {F : β → List κ} {next : α → Kernel (Spun κ σ) β} {rest : α → Kernel σ β}
    (h : Does H H1 locked code s)
    (hnext : ∀ a s', code s = .ok (a, s') → Leaves H1 F (next a) (rest a) s') :
    Leaves H F (locked >>= next) (code >>= rest) s := by
  unfold Does at h
  unfold Leaves
  simp only [Bind.bind, StateT.bind, Except.bind]
  rw [h]
  cases hcode : code s with
  | ok r => exact hnext r.1 r.2 hcode
  | error f => rfl

/-- The locks are the ones that `F` gives for every result. -/
theorem Does.leaves_end {F : α → List κ} (h : Does H H' locked code s)
    (ha : Xv6.wp code Fault.any (fun a _ => F a = H') s) : Leaves H F locked code s := by
  unfold Does at h
  unfold Leaves
  rw [h]
  cases hcode : code s with
  | error f => rfl
  | ok r =>
    have hF := wp_ok ha hcode
    show Except.ok (r.1, Spun.mk H' r.2) = Except.ok (r.1, Spun.mk (F r.1) r.2)
    rw [hF]

/-- The loop over a table, where `I` is known to hold before each entry. -/
theorem Does.for_each {n : Nat} {body : Fin n → Kernel (Spun κ σ) Unit}
    {plain : Fin n → Kernel σ Unit} (I : σ → Prop) (hI : I s)
    (hkeeps : ∀ k s, I s → Xv6.wp (plain k) Fault.any (fun _ s' => I s') s)
    (hbody : ∀ k s, I s → Does H H (body k) (plain k) s) :
    Does H H (forEach n body) (forEach n plain) s := by
  suffices hfrom : ∀ k i s, I s → Does H H
      (loopFrom (fun i => if h : i < n then body ⟨i, h⟩ else Pure.pure ()) i k)
      (loopFrom (fun i => if h : i < n then plain ⟨i, h⟩ else Pure.pure ()) i k) s from
    hfrom n 0 s hI
  intro k
  induction k with
  | zero => exact fun i s _ => Does.pure () s
  | succ k ih =>
    intro i s hs
    by_cases hi : i < n
    · simp only [loopFrom, dif_pos hi]
      refine (hbody ⟨i, hi⟩ s hs).bind fun a s' hrun => ih (i + 1) s' ?_
      exact wp_ok (hkeeps ⟨i, hi⟩ s hs) hrun
    · simp only [loopFrom, dif_neg hi]
      exact ih (i + 1) s hs

end Does

section Locks

variable {β : Type} {H' : List κ} {s : σ} {next : Unit → Kernel (Spun κ σ) β} {code : Kernel σ β}

theorem acquire_run (hl : l ∉ H) : acquire l ⟨H, s⟩ = .ok ((), ⟨l :: H, s⟩) := by
  obtain ⟨a, x, hrun, rfl⟩ := wp_returns ((wp_acquire hl).mpr rfl :
    wp (acquire l) Fault.never (fun _ x => x = ⟨l :: H, s⟩) ⟨H, s⟩)
  exact hrun

theorem release_run (hl : l ∈ H) : release l ⟨H, s⟩ = .ok ((), ⟨H.erase l, s⟩) := by
  obtain ⟨a, x, hrun, rfl⟩ := wp_returns ((wp_release hl).mpr rfl :
    wp (release l) Fault.never (fun _ x => x = ⟨H.erase l, s⟩) ⟨H, s⟩)
  exact hrun

theorem unlock_run : release l ⟨l :: H, s⟩ = .ok ((), ⟨H, s⟩) := by
  rw [release_run List.mem_cons_self, List.erase_cons_head]

theorem Does.sched : Does [l] [l] (Spin.sched l) (Pure.pure ()) s := by
  obtain ⟨a, x, hrun, rfl⟩ := wp_returns (wp_sched.mpr rfl :
    Xv6.wp (Spin.sched l) Fault.never (fun _ x => x = ⟨[l], s⟩) ⟨[l], s⟩)
  exact hrun

theorem Does.acquire (hl : l ∉ H) (h : Does (l :: H) H' (next ()) code s) :
    Does H H' (acquire l >>= next) code s := by
  unfold Does at h ⊢
  simp only [Bind.bind, StateT.bind, Except.bind]
  rw [acquire_run hl]
  exact h

theorem Does.release (hl : l ∈ H) (h : Does (H.erase l) H' (next ()) code s) :
    Does H H' (release l >>= next) code s := by
  unfold Does at h ⊢
  simp only [Bind.bind, StateT.bind, Except.bind]
  rw [release_run hl]
  exact h

/-- The lock taken last is released. -/
theorem Does.unlock (h : Does H H' (next ()) code s) :
    Does (l :: H) H' (Spin.release l >>= next) code s := by
  refine .release List.mem_cons_self ?_
  rwa [List.erase_cons_head]

/-- A critical section does what its body does. -/
theorem Does.critical {locked : Kernel (Spun κ σ) Unit} {code : Kernel σ Unit} (hl : l ∉ H)
    (h : Does (l :: H) (l :: H) locked code s) :
    Does H H (do
      Spin.acquire l
      locked
      Spin.release l) code s := by
  refine .acquire hl ?_
  unfold Does at h ⊢
  simp only [Bind.bind, StateT.bind, Except.bind]
  rw [h]
  cases code s with
  | error f => rfl
  | ok r => exact unlock_run

theorem release_missing_run (hl : l ∉ H) (next : Unit → Kernel (Spun κ σ) β) :
    (Spin.release l >>= next) ⟨H, s⟩ = .error (.panic "release") := by
  refine wp_stops ?_
  rw [wp_bind, wp_release_missing hl]

end Locks

end Xv6.Spin
