import Mathlib

/-!
# Kernel code as state transformers that may stop the machine

`Kernel σ α` is code over a machine state `σ`: it returns a value and a new state, or stops
with a `Fault`. `wp code E Q s` is the weakest precondition: from `s` the code either returns
with `Q` of its value and final state, or stops with a fault that `E` allows. With
`E := Fault.never` it is total correctness. The rules below follow the shape of the code, so a
function is specified once and its callers use the specification by name.
-/

namespace Xv6

/-- Why kernel code stops instead of returning: a call of `panic`, an access through a null or
wild pointer, or a wait for a lock that nobody will ever release. `dangling` is the one fault
that does not stop the machine: an object is given back while a pointer to it is still in use,
and nothing can be said about what the memory holds from then on. -/
inductive Fault where
  | panic (message : String)
  | wild
  | hang
  | dangling
  deriving DecidableEq, Repr

namespace Fault

/-- No fault is allowed. -/
def never : Fault → Prop := fun _ => False

/-- Every fault is allowed: partial correctness. -/
def any : Fault → Prop := fun _ => True

@[simp] theorem never_iff (f : Fault) : never f ↔ False := Iff.rfl

@[simp] theorem any_iff (f : Fault) : any f ↔ True := Iff.rfl

end Fault

/-- One of these calls of `panic`. -/
def panics (messages : List String) : Fault → Prop := fun f => ∃ m ∈ messages, f = .panic m

theorem panics_of_mem {messages : List String} {m : String} (h : m ∈ messages) :
    panics messages (.panic m) := ⟨m, h, rfl⟩

/-- Code over a machine state `σ` that returns an `α` or stops with a fault. -/
abbrev Kernel (σ α : Type) := StateT σ (Except Fault) α

variable {σ α β : Type} {n : Nat} {a : α} {code : Kernel σ α}

/-- Stop the machine. -/
def fault (f : Fault) : Kernel σ α := fun _ => .error f

/-- The source's `panic`. -/
def kpanic (message : String) : Kernel σ α := fault (.panic message)

/-- From `s`, `code` returns with `Q`, or stops with a fault allowed by `E`. -/
def wp (code : Kernel σ α) (E : Fault → Prop) (Q : α → σ → Prop) (s : σ) : Prop :=
  match code s with
  | .ok (a, s') => Q a s'
  | .error f => E f

section Rules

variable {E : Fault → Prop} {Q R : α → σ → Prop} {s s' : σ}

@[simp] theorem wp_pure (a : α) : wp (pure a : Kernel σ α) E Q s ↔ Q a s := Iff.rfl

@[simp] theorem wp_bind (code : Kernel σ α) (next : α → Kernel σ β) {Q : β → σ → Prop} :
    wp (code >>= next) E Q s ↔ wp code E (fun a s' => wp (next a) E Q s') s := by
  simp only [wp, bind, StateT.bind, Except.bind]
  cases code s with
  | error f => rfl
  | ok r => rfl

@[simp] theorem wp_map (f : α → β) (code : Kernel σ α) {Q : β → σ → Prop} :
    wp (f <$> code) E Q s ↔ wp code E (fun a s' => Q (f a) s') s := by
  simp only [wp, Functor.map, StateT.map, bind, Except.bind, pure, Except.pure]
  cases code s with
  | error f => rfl
  | ok r => rfl

@[simp] theorem wp_get {Q : σ → σ → Prop} : wp (get : Kernel σ σ) E Q s ↔ Q s s := Iff.rfl

@[simp] theorem wp_set {Q : PUnit → σ → Prop} : wp (set s' : Kernel σ PUnit) E Q s ↔ Q ⟨⟩ s' :=
  Iff.rfl

@[simp] theorem wp_modify (f : σ → σ) {Q : PUnit → σ → Prop} :
    wp (modify f : Kernel σ PUnit) E Q s ↔ Q ⟨⟩ (f s) := Iff.rfl

@[simp] theorem wp_fault (f : Fault) : wp (fault f : Kernel σ α) E Q s ↔ E f := Iff.rfl

@[simp] theorem wp_kpanic (message : String) :
    wp (kpanic message : Kernel σ α) E Q s ↔ E (.panic message) := Iff.rfl

@[simp] theorem wp_ite (p : Prop) [Decidable p] (yes no : Kernel σ α) :
    wp (if p then yes else no) E Q s ↔ (p → wp yes E Q s) ∧ (¬ p → wp no E Q s) := by
  split <;> simp_all

theorem wp_mono (h : wp code E Q s) (hQ : ∀ a s', Q a s' → R a s') :
    wp code E R s := by
  unfold wp at h ⊢
  cases hc : code s with
  | error f => simpa [hc] using h
  | ok r =>
    rw [hc] at h
    exact hQ _ _ h

theorem wp_congr (hQ : ∀ a s', Q a s' ↔ R a s') :
    wp code E Q s ↔ wp code E R s :=
  ⟨fun h => wp_mono h fun a s' => (hQ a s').mp, fun h => wp_mono h fun a s' => (hQ a s').mpr⟩

/-- The rule of sequencing: `Q` holds between `code` and what follows it. -/
theorem wp_seq {next : α → Kernel σ β} {R : β → σ → Prop}
    (h : wp code E Q s) (hnext : ∀ a s', Q a s' → wp (next a) E R s') :
    wp (code >>= next) E R s :=
  (wp_bind code next).mpr (wp_mono h hnext)

theorem wp_mono_fault {E' : Fault → Prop} (h : wp code E Q s)
    (hE : ∀ f, E f → E' f) : wp code E' Q s := by
  unfold wp at h ⊢
  cases hc : code s with
  | ok r => simpa [hc] using h
  | error f =>
    rw [hc] at h
    exact hE _ h

/-- Partial correctness says nothing without a postcondition. -/
theorem wp_any (code : Kernel σ α) : wp code Fault.any (fun _ _ => True) s := by
  unfold wp
  cases code s with
  | error f => exact trivial
  | ok r => exact trivial

/-- A specification together with the fact that the code returned. -/
theorem wp_ok (h : wp code E Q s) (hc : code s = .ok (a, s')) :
    Q a s' := by
  simpa [wp, hc] using h

theorem wp_returns (h : wp code Fault.never Q s) :
    ∃ a s', code s = .ok (a, s') ∧ Q a s' := by
  unfold wp at h
  cases hc : code s with
  | error f => simp [hc] at h
  | ok r =>
    rw [hc] at h
    exact ⟨r.1, r.2, rfl, h⟩

theorem wp_stops {f : Fault} (h : wp code (· = f) (fun _ _ => False) s) :
    code s = .error f := by
  unfold wp at h
  cases hc : code s with
  | error g =>
    rw [hc] at h
    exact congrArg _ h
  | ok r => simp [hc] at h

/-- A returning run proves the specification of what it returned. -/
theorem wp_of_ok (hc : code s = .ok (a, s')) (hQ : Q a s') :
    wp code E Q s := by
  simpa [wp, hc] using hQ

theorem run_of_wp (h : wp code Fault.never (fun a' s'' => a' = a ∧ s'' = s') s) :
    code s = .ok (a, s') := by
  obtain ⟨_, _, hrun, rfl, rfl⟩ := wp_returns h
  exact hrun

theorem wp_iff_of_run (h : code s = .ok (a, s')) : wp code E Q s ↔ Q a s' := by
  simp only [wp, h]

/-- Code that returns only if `p`, and stops only if not. -/
theorem wp_iff_of_exact {p : Prop}
    (h : wp code (fun _ => ¬p) (fun a s' => p ∧ Q a s') s) : wp code Fault.never Q s ↔ p := by
  unfold wp at h ⊢
  cases hc : code s with
  | error f =>
    rw [hc] at h
    exact ⟨False.elim, h⟩
  | ok r =>
    rw [hc] at h
    exact ⟨fun _ => h.1, fun _ => h.2⟩

theorem wp_and (hQ : wp code E Q s) (hR : wp code E R s) :
    wp code E (fun a s' => Q a s' ∧ R a s') s := by
  unfold wp at hQ hR ⊢
  cases hc : code s with
  | error f => simpa [hc] using hQ
  | ok r =>
    rw [hc] at hQ hR
    exact ⟨hQ, hR⟩

end Rules

/-! ## Counting loops

`loop n body` is `for (i = 0; i < n; i++) body(i)` and `loopFrom` the same with the index
starting at `i`, which is what the induction needs. -/

/-- `n` more iterations of `body`, the next one at index `i`. -/
def loopFrom (body : Nat → Kernel σ Unit) : Nat → Nat → Kernel σ Unit
  | _, 0 => pure ()
  | i, n + 1 => do
    body i
    loopFrom body (i + 1) n

/-- `for (i = 0; i < n; i++) body(i)`. -/
def loop (n : Nat) (body : Nat → Kernel σ Unit) : Kernel σ Unit := loopFrom body 0 n

/-- The invariant rule for a counting loop that is already at index `i`. -/
theorem wp_loop_from {E : Fault → Prop} {body : Nat → Kernel σ Unit} (I : Nat → σ → Prop) {i : Nat}
    {s : σ} (hstep : ∀ k s, i ≤ k → k < i + n → I k s → wp (body k) E (fun _ s' => I (k + 1) s') s)
    (h : I i s) : wp (loopFrom body i n) E (fun _ s' => I (i + n) s') s := by
  induction n generalizing i s with
  | zero => simpa [loopFrom] using h
  | succ n ih =>
    simp only [loopFrom, wp_bind]
    refine wp_mono (hstep i s (le_refl i) (by omega) h) ?_
    intro _ s' hI
    have hrest := ih (i := i + 1) (s := s')
      (fun k s hle hlt => hstep k s (by omega) (by omega)) hI
    simpa [Nat.add_assoc, Nat.add_comm 1 n] using hrest

theorem wp_loop {E : Fault → Prop} {body : Nat → Kernel σ Unit} (I : Nat → σ → Prop) {s : σ}
    (hstep : ∀ k s, k < n → I k s → wp (body k) E (fun _ s' => I (k + 1) s') s) (h : I 0 s) :
    wp (loop n body) E (fun _ s' => I n s') s := by
  have hall := wp_loop_from I (n := n) (i := 0) (fun k s _ hlt => hstep k s (by omega)) h
  simpa [loop] using hall

/-- The loop over all entries of a table of `n`. -/
def forEach (n : Nat) (body : Fin n → Kernel σ Unit) : Kernel σ Unit :=
  loop n fun i => if h : i < n then body ⟨i, h⟩ else pure ()

/-- The invariant rule for a loop over a table: `I k` holds before entry `k` is visited. -/
theorem wp_for_each {E : Fault → Prop} {f : Fin n → Kernel σ Unit} (I : Nat → σ → Prop) {s : σ}
    (hstep : ∀ (k : Fin n) s, I k s → wp (f k) E (fun _ s' => I (k + 1) s') s) (h : I 0 s) :
    wp (forEach n f) E (fun _ s' => I n s') s := by
  refine wp_loop I (fun k s hk hI => ?_) h
  rw [dif_pos hk]
  exact hstep ⟨k, hk⟩ s hI

/-! ## Frames

`Respects R E code` says what `code` leaves alone: the states before and after are related by the
preorder `R`. -/

/-- From every state, `code` returns in a state related by `R`, or stops with a fault allowed
by `E`. -/
def Respects (R : σ → σ → Prop) (E : Fault → Prop) (code : Kernel σ α) : Prop :=
  ∀ s, wp code E (fun _ s' => R s s') s

/-- The frame that says nothing. -/
def Anything (_ _ : σ) : Prop := True

instance : Std.Refl (Anything (σ := σ)) := ⟨fun _ => trivial⟩

instance : IsTrans σ Anything := ⟨fun _ _ _ _ _ => trivial⟩

section Frames

variable {R : σ → σ → Prop} {E F : Fault → Prop} {s : σ}

theorem Respects.next {Q : α → σ → Prop} (h : Respects R E code)
    (hQ : ∀ a s', R s s' → Q a s') : wp code E Q s :=
  wp_mono (h s) hQ

/-- Framed code inside a longer piece that may stop for more reasons. -/
theorem Respects.then {Q : α → σ → Prop} (h : Respects R F code)
    (hF : ∀ f, F f → E f) (hQ : ∀ a s', R s s' → Q a s') : wp code E Q s :=
  wp_mono (wp_mono_fault (h s) hF) hQ

theorem Respects.get {next : σ → Kernel σ α} (h : ∀ s, wp (next s) E (fun _ s' => R s s') s) :
    Respects R E (get >>= next) := by
  intro s
  rw [wp_bind, wp_get]
  exact h s

theorem Respects.anything (h : ∀ s, wp code E (fun _ _ => True) s) :
    Respects Anything E code := h

theorem Respects.kpanic {message : String} (h : E (.panic message)) :
    Respects R E (kpanic message : Kernel σ α) := fun _ => h

theorem Respects.fault {f : Fault} (h : E f) : Respects R E (fault f : Kernel σ α) := fun _ => h

theorem Respects.ite {p : Prop} [Decidable p] {yes no : Kernel σ α} (hyes : Respects R E yes)
    (hno : Respects R E no) : Respects R E (if p then yes else no) := by
  split
  · exact hyes
  · exact hno

theorem Respects.pure [Std.Refl R] (a : α) : Respects R E (pure a : Kernel σ α) :=
  fun s => Std.Refl.refl s

theorem Respects.bind [IsTrans σ R] {next : α → Kernel σ β}
    (h : Respects R E code) (hnext : ∀ a, Respects R E (next a)) :
    Respects R E (code >>= next) := by
  intro s
  rw [wp_bind]
  refine wp_mono (h s) ?_
  intro a s' hs'
  exact wp_mono (hnext a s') fun _ _ hs'' => IsTrans.trans _ _ _ hs' hs''

theorem Respects.count [Std.Refl R] [IsTrans σ R] {body : Nat → Kernel σ Unit}
    (h : ∀ i, Respects R E (body i)) : Respects R E (Xv6.loop n body) := by
  intro s
  refine wp_loop (fun _ s' => R s s') ?_ (Std.Refl.refl s)
  intro k s' _ hs'
  exact wp_mono (h k s') fun _ _ hs'' => IsTrans.trans _ _ _ hs' hs''

theorem Respects.loop [Std.Refl R] [IsTrans σ R] {body : Fin n → Kernel σ Unit}
    (h : ∀ i, Respects R E (body i)) : Respects R E (forEach n body) := by
  intro s
  refine wp_for_each (fun _ s' => R s s') ?_ (Std.Refl.refl s)
  intro k s' hs'
  exact wp_mono (h k s') fun _ _ hs'' => IsTrans.trans _ _ _ hs' hs''

end Frames

/-! ## Part of the state -/

/-- Code over a part of the state. -/
def onPart {τ : Type} (read : σ → τ) (write : τ → σ → σ) (code : Kernel τ α) : Kernel σ α :=
  fun s => match code (read s) with
    | .ok (a, t) => .ok (a, write t s)
    | .error f => .error f

@[simp] theorem wp_onPart {τ : Type} {read : σ → τ} {write : τ → σ → σ} {code : Kernel τ α}
    {E : Fault → Prop} {Q : α → σ → Prop} {s : σ} :
    wp (onPart read write code) E Q s ↔ wp code E (fun a t => Q a (write t s)) (read s) := by
  simp only [wp, onPart]
  cases code (read s) with
  | error f => rfl
  | ok r => rfl

end Xv6
