import Xv6.Lib.Kernel

/-!
# Runs of a system

A system is a set of initial states and a `step` that performs one event. `Reachable init guard
step s` says that `s` is the last state of a run in which every event met `guard` in the state
it was performed in and every step returned. `Reachable.induct` is the invariant rule: what
holds initially and is kept by one step holds along every run.
-/

namespace Xv6

variable {σ ε ρ α : Type} {s : σ} {code : Kernel σ α}

/-- Every event is admitted in every state. -/
def unguarded : σ → ε → Prop := fun _ _ => True

/-- The last states of the runs whose events all meet `guard`. -/
inductive Reachable (init : σ → Prop) (guard : σ → ε → Prop) (step : ε → Kernel σ ρ) :
    σ → Prop where
  | start {s : σ} (h : init s) : Reachable init guard step s
  | next {s s' : σ} {e : ε} {r : ρ} (h : Reachable init guard step s) (hguard : guard s e)
      (hstep : step e s = .ok (r, s')) : Reachable init guard step s'

variable {init : σ → Prop} {guard : σ → ε → Prop} {step : ε → Kernel σ ρ}

/-- The invariant rule: a property of the initial states that every admitted step preserves
holds of every reachable state. -/
theorem Reachable.induct {E : Fault → Prop} (I : σ → Prop) (hinit : ∀ s, init s → I s)
    (hstep : ∀ s e, I s → guard s e → wp (step e) E (fun _ s' => I s') s)
    (h : Reachable init guard step s) : I s := by
  induction h with
  | start h => exact hinit _ h
  | next _ hguard hrun ih => exact wp_ok (hstep _ _ ih hguard) hrun

/-- A run under a stronger guard is a run under a weaker one. -/
theorem Reachable.mono {guard' : σ → ε → Prop} (hguard : ∀ s e, guard s e → guard' s e)
    (h : Reachable init guard step s) : Reachable init guard' step s := by
  induction h with
  | start h => exact .start h
  | next _ hg hrun ih => exact .next ih (hguard _ _ hg) hrun

instance (s : σ) (e : ε) : Decidable (unguarded s e) := .isTrue trivial

/-- Performs events in order, up to the first one that `guard` refuses or that faults. -/
def lastState (guard : σ → ε → Prop) [∀ s e, Decidable (guard s e)] (step : ε → Kernel σ ρ) :
    List ε → σ → σ
  | [], s => s
  | e :: rest, s =>
    if guard s e then
      match step e s with
      | .ok (_, s') => lastState guard step rest s'
      | .error _ => s
    else s

/-- Events performed from a reachable state end in a reachable state. -/
theorem Reachable.last_state [∀ s e, Decidable (guard s e)] (h : Reachable init guard step s)
    (events : List ε) :
    Reachable init guard step (lastState guard step events s) := by
  induction events generalizing s with
  | nil => exact h
  | cons e rest ih =>
    unfold lastState
    split
    next hguard =>
      split
      next hrun => exact ih (.next h hguard hrun)
      next => exact h
    next => exact h

/-- Events that are admitted in every state. -/
theorem Reachable.after (h : Reachable init guard step s) {events : List ε}
    (hguard : ∀ e ∈ events, ∀ s, guard s e) :
    Reachable init guard step (lastState unguarded step events s) := by
  induction events generalizing s with
  | nil => exact h
  | cons e rest ih =>
    rw [lastState, if_pos (show unguarded s e from trivial)]
    split
    next hrun =>
      exact ih (.next h (hguard e (by simp) s) hrun) fun e he => hguard e (by simp [he])
    next => exact h

/-- The fault that code stops with, if it stops. -/
def faultOf {α : Type} (code : Kernel σ α) (s : σ) : Option Fault :=
  match code s with
  | .ok _ => none
  | .error f => some f

theorem fault_of_eq {f : Fault} (h : faultOf code s = some f) : code s = .error f := by
  unfold faultOf at h
  cases hc : code s with
  | ok r => simp [hc] at h
  | error g =>
    rw [hc] at h
    exact congrArg _ (Option.some.inj h)

/-- The value that code returns, if it returns. -/
def valueOf {α : Type} (code : Kernel σ α) (s : σ) : Option α :=
  match code s with
  | .ok (a, _) => some a
  | .error _ => none

theorem ok_of_value {a : α} (h : valueOf code s = some a) :
    ∃ s', code s = .ok (a, s') := by
  unfold valueOf at h
  cases hcode : code s with
  | error f => simp [hcode] at h
  | ok out =>
    rw [hcode] at h
    cases h
    exact ⟨out.2, rfl⟩

/-- Code that returns, with what is read of the state afterwards. -/
theorem wp_of_value {β : Type} {read : σ → β} {b : β}
    (h : valueOf (code >>= fun _ => read <$> get) s = some b) :
    wp code Fault.never (fun _ s' => read s' = b) s := by
  unfold valueOf at h
  unfold wp
  simp only [bind, StateT.bind, Except.bind] at h
  cases hcode : code s with
  | error f => simp [hcode] at h
  | ok out =>
    rw [hcode] at h
    exact Option.some.inj h

theorem step_of_value_of {e : ε} {r : ρ} (h : valueOf (step e) s = some r) :
    step e s = .ok (r, lastState unguarded step [e] s) := by
  simp only [lastState, unguarded]
  unfold valueOf at h
  cases hstep : step e s with
  | error f => simp [hstep] at h
  | ok out =>
    rw [hstep] at h
    cases h
    rfl

end Xv6
