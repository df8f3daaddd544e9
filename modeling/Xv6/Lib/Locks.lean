import Xv6.Lib.Kernel

/-!
# Spinlocks shared by several CPUs

Each CPU performs a sequence of lock operations, and the sequences interleave. A CPU that asks
for a lock held by another one spins; one that asks for a lock it holds itself, or gives back a
lock it does not hold, stops. A state is deadlocked when the CPUs of some non-empty set each spin
on a lock held by another CPU of the set.

`Ascends rank held todo` says that a CPU that holds `held` takes the locks of `todo` in the order
of `rank`. `not_deadlocked` is the rule for lock orders: while every CPU ascends, no set of CPUs is
deadlocked. `Ascends` survives the steps of all CPUs (`InOrder.advance`), so an order need only be
checked where a CPU enters new code.
-/

namespace Xv6.Locks

open Function

/-- One lock operation. -/
inductive Action (κ : Type) where
  | acquire (l : κ)
  | release (l : κ)
  deriving DecidableEq

/-- The CPUs and the locks: what each CPU still has to do, and who holds each lock. -/
structure Cpus (n : Nat) (κ : Type) where
  todo : Fin n → List (Action κ)
  holder : κ → Option (Fin n)
  stopped : Fin n → Bool

variable {n : Nat} {κ : Type} [DecidableEq κ]

/-- No lock is held and nobody has anything to do. -/
def idle : Cpus n κ := ⟨fun _ => [], fun _ => none, fun _ => false⟩

/-- CPU `c` has stopped for good. It keeps the locks it holds. -/
def Cpus.stop (s : Cpus n κ) (c : Fin n) : Cpus n κ :=
  { s with todo := update s.todo c [], stopped := update s.stopped c true }

/-- CPU `c` has done its next operation, after which `owner` holds lock `l`. -/
def Cpus.done (s : Cpus n κ) (c : Fin n) (l : κ) (owner : Option (Fin n)) : Cpus n κ :=
  { s with
    todo := update s.todo c (s.todo c).tail
    holder := update s.holder l owner }

/-- CPU `c` performs its next operation, or spins. -/
def advance (c : Fin n) (s : Cpus n κ) : Cpus n κ :=
  match s.todo c with
  | [] => s
  | .acquire l :: _ =>
    match s.holder l with
    | none => s.done c l (some c)
    | some owner => if owner = c then s.stop c else s
  | .release l :: _ => if s.holder l = some c then s.done c l none else s.stop c

/-- CPU `c` enters `code` before it goes on with what it was doing. -/
def enter (c : Fin n) (code : List (Action κ)) (s : Cpus n κ) : Cpus n κ :=
  { s with todo := update s.todo c (code ++ s.todo c) }

/-- CPU `c` spins on lock `l`, which `owner` holds. -/
def SpinsOn (s : Cpus n κ) (c : Fin n) (l : κ) (owner : Fin n) : Prop :=
  (s.todo c).head? = some (.acquire l) ∧ s.holder l = some owner ∧ owner ≠ c

instance (s : Cpus n κ) (c : Fin n) (l : κ) (owner : Fin n) : Decidable (SpinsOn s c l owner) := by
  unfold SpinsOn
  infer_instance

/-- Every CPU of some non-empty set spins on a lock held by another CPU of the set. -/
def Deadlocked (s : Cpus n κ) : Prop :=
  ∃ D : Finset (Fin n), D.Nonempty ∧ ∀ c ∈ D, ∃ l, ∃ owner ∈ D, SpinsOn s c l owner

/-- Whether CPU `c` holds lock `l`. -/
def heldBy (s : Cpus n κ) (c : Fin n) (l : κ) : Bool := s.holder l = some c

/-- A CPU that holds `held` takes the locks of `todo` in the order of `rank`, at least until it asks
for a lock that it holds, which stops it. -/
def Ascends (rank : κ → Nat) : (κ → Bool) → List (Action κ) → Prop
  | _, [] => True
  | held, .acquire l :: todo => held l = true ∨
    (∀ h, held h = true → rank h < rank l) ∧ Ascends rank (update held l true) todo
  | held, .release l :: todo => Ascends rank (update held l false) todo

variable {rank : κ → Nat} {s : Cpus n κ} {c d : Fin n}

/-- CPU `c` takes its locks in order. -/
def InOrder (rank : κ → Nat) (s : Cpus n κ) (c : Fin n) : Prop :=
  Ascends rank (heldBy s c) (s.todo c)

theorem in_order_idle (h : s.todo c = []) : InOrder rank s c := by
  rw [InOrder, h]
  trivial

/-- The rule for lock orders. -/
theorem not_deadlocked (h : ∀ c, InOrder rank s c) : ¬ Deadlocked s := by
  rintro ⟨D, hne, hspin⟩
  have hsome : Nonempty κ := by
    obtain ⟨c, hc⟩ := hne
    obtain ⟨l, _⟩ := hspin c hc
    exact ⟨l⟩
  choose! wanted hwanted using hspin
  -- the CPU that waits for the highest lock
  obtain ⟨top, htop, hmax⟩ := D.exists_max_image (fun c => rank (wanted c)) hne
  obtain ⟨owner, howner, -, hheld, -⟩ := hwanted top htop
  obtain ⟨owner', -, hhead, hheld', hother⟩ := hwanted owner howner
  obtain ⟨rest, htodo⟩ : ∃ rest, s.todo owner = .acquire (wanted owner) :: rest :=
    List.head?_eq_some_iff.mp hhead
  have hascends := h owner
  rw [InOrder, htodo] at hascends
  rcases hascends with hown | ⟨hbelow, -⟩
  · simp only [heldBy, hheld', decide_eq_true_eq, Option.some.injEq] at hown
    exact hother hown
  · have hlt := hbelow (wanted top) (by simp [heldBy, hheld])
    have hle := hmax owner howner
    omega

omit [DecidableEq κ] in
/-- A CPU alone is not deadlocked, whatever it does. -/
theorem not_deadlocked_alone (h : ∀ d, d ≠ c → s.todo d = []) : ¬ Deadlocked s := by
  rintro ⟨D, ⟨a, ha⟩, hspin⟩
  have hbusy : ∀ d ∈ D, d = c := by
    intro d hd
    obtain ⟨l, owner, -, hhead, -⟩ := hspin d hd
    by_contra hne
    simp [h d hne] at hhead
  obtain ⟨l, owner, howner, -, -, hother⟩ := hspin a ha
  exact hother ((hbusy owner howner).trans (hbusy a ha).symm)

/-- Another CPU's next operation does not change what `other` holds. -/
theorem held_by_done {other : Fin n} {l : κ} {owner : Option (Fin n)} (hother : other ≠ c)
    (hfree : s.holder l = none ∨ s.holder l = some c) (howner : owner = none ∨ owner = some c) :
    heldBy (s.done c l owner) other = heldBy s other := by
  funext k
  simp only [heldBy, Cpus.done, update_apply]
  split
  next hk =>
    subst hk
    rcases hfree with hfree | hfree <;> rcases howner with rfl | rfl <;>
      simp [hfree, Ne.symm hother]
  next => rfl

theorem InOrder.done {l : κ} {owner : Option (Fin n)}
    (hfree : s.holder l = none ∨ s.holder l = some c) (howner : owner = none ∨ owner = some c)
    (hself : InOrder rank s c → Ascends rank (heldBy (s.done c l owner) c) (s.todo c).tail)
    (h : InOrder rank s d) : InOrder rank (s.done c l owner) d := by
  unfold InOrder
  by_cases hd : d = c
  · subst hd
    rw [show (s.done d l owner).todo d = (s.todo d).tail from update_self ..]
    exact hself h
  · rw [show (s.done c l owner).todo d = s.todo d from update_of_ne hd _ _,
      held_by_done hd hfree howner]
    exact h

theorem InOrder.stop (h : InOrder rank s d) : InOrder rank (s.stop c) d := by
  by_cases hd : d = c
  · subst hd
    exact in_order_idle (update_self ..)
  · rw [InOrder, show (s.stop c).todo d = s.todo d from update_of_ne hd _ _]
    exact h

/-- A step of any CPU keeps all CPUs in order. -/
theorem InOrder.advance (h : InOrder rank s d) (c : Fin n) : InOrder rank (advance c s) d := by
  unfold Locks.advance
  split
  next => exact h
  next l rest htodo =>
    split
    next hfree =>
      refine h.done (Or.inl hfree) (Or.inr rfl) ?_
      rw [InOrder, htodo]
      have hheld : heldBy (s.done c l (some c)) c = update (heldBy s c) l true := by
        funext k
        simp only [heldBy, Cpus.done, update_apply]
        split <;> simp
      rintro (hown | ⟨-, hrest⟩)
      · simp [heldBy, hfree] at hown
      · rwa [hheld]
    next owner howner =>
      split
      next => exact h.stop
      next => exact h
  next l rest htodo =>
    split
    next hheld =>
      refine h.done (Or.inr hheld) (Or.inl rfl) ?_
      rw [InOrder, htodo]
      intro hrest
      have hgone : heldBy (s.done c l none) c = update (heldBy s c) l false := by
        funext k
        simp only [heldBy, Cpus.done, update_apply]
        split <;> simp
      rwa [hgone]
    next => exact h.stop

theorem advance_todo_nil (h : s.todo d = []) (c : Fin n) : (advance c s).todo d = [] := by
  by_cases hd : d = c
  · subst hd
    simp [advance, h]
  have hdone : ∀ l owner, (s.done c l owner).todo d = [] :=
    fun _ _ => (update_of_ne hd _ _).trans h
  have hstop : (s.stop c).todo d = [] := (update_of_ne hd _ _).trans h
  unfold advance
  split
  next => exact h
  next =>
    split
    next => exact hdone ..
    next =>
      split
      next => exact hstop
      next => exact h
  next =>
    split
    next => exact hdone ..
    next => exact hstop

omit [DecidableEq κ] in
theorem enter_todo_ne {code : List (Action κ)} (h : d ≠ c) :
    (enter c code s).todo d = s.todo d := update_of_ne h _ _

omit [DecidableEq κ] in
theorem enter_todo_self {code : List (Action κ)} : (enter c code s).todo c = code ++ s.todo c :=
  update_self ..

/-! ## Code that keeps the order -/

/-- `code` runs while `l` is held: `acquire(l); code; release(l)`. -/
def locked (l : κ) (code : List (Action κ)) : List (Action κ) :=
  .acquire l :: code ++ [.release l]

/-- `code` takes its locks in order from `held`, and gives back what it takes. -/
def Keeps (rank : κ → Nat) (held : κ → Bool) (code : List (Action κ)) : Prop :=
  ∀ rest, Ascends rank held rest → Ascends rank held (code ++ rest)

section Keeps

variable {held : κ → Bool} {code code' : List (Action κ)}

theorem Keeps.ascends (h : Keeps rank held code) : Ascends rank held code := by
  simpa using h [] trivial

theorem keeps_nil : Keeps rank held [] := fun _ hrest => hrest

theorem Keeps.append (h : Keeps rank held code) (h' : Keeps rank held code') :
    Keeps rank held (code ++ code') := by
  intro rest hrest
  rw [List.append_assoc]
  exact h _ (h' _ hrest)

theorem keeps_flat_map {α : Type} {l : List α} {f : α → List (Action κ)}
    (h : ∀ x ∈ l, Keeps rank held (f x)) : Keeps rank held (l.flatMap f) := by
  induction l with
  | nil => exact keeps_nil
  | cons x xs ih =>
    rw [List.flatMap_cons]
    exact (h x (List.mem_cons_self ..)).append (ih fun y hy => h y (List.mem_cons_of_mem _ hy))

/-- A critical section whose lock comes after those already held. -/
theorem keeps_locked {l : κ} (hrank : ∀ h, held h = true → rank h < rank l)
    (hcode : Keeps rank (update held l true) code) : Keeps rank held (locked l code) := by
  intro rest hrest
  have hfree : held l = false := by
    by_contra hheld
    exact absurd (hrank l (by simpa using hheld)) (lt_irrefl _)
  refine Or.inr ⟨hrank, ?_⟩
  show Ascends rank (update held l true) ((code ++ [.release l]) ++ rest)
  rw [List.append_assoc]
  refine hcode _ ?_
  show Ascends rank (update (update held l true) l false) rest
  rwa [update_idem, ← hfree, update_eq_self]

/-- A CPU that asks for a lock it holds goes no further. -/
theorem keeps_held {l : κ} (hheld : held l = true) : Keeps rank held (locked l code) :=
  fun _ _ => Or.inl hheld

end Keeps

end Xv6.Locks
