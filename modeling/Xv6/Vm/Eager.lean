import Xv6.Vm.Accounting

/-!
# Copy-on-write against private memory

What users expect of `fork` is a copy: every process has memory of its own, in which a page keeps
the permissions it was allocated with. `Event.eager` is that system, on the views of the slots.
`shown` reads the views of the real system off its page tables and `View.private` forgets what is
shared. The two agree along every run in which no allocation fails and no process writes to pages
that were allocated read-only; and whatever fails, an event changes the memory of one slot only.
-/

namespace Xv6.Vm

open Function

variable {L : Layout} {g g' : Ghost} {s s' : State} {V V' : Slot → View}

/-! ## The views in memory -/

/-- The address space that table `r` describes. -/
def shownSpace (s : State) (r : Nat) : Space := fun v =>
  if v < UPAGES then
    (entryAt s r v).map fun pte =>
      ⟨⟨hasFlag pte PTE_W, hasFlag pte PTE_U, hasFlag pte PTE_COW, s.granted r v⟩,
        s.mem (PTE2PA pte)⟩
  else none

/-- What a slot shows, read from memory. -/
def shown (s : State) (p : Slot) : View :=
  if (s.proc p).state = .unused then .unused
  else ⟨(s.proc p).state, (s.proc p).sz, shownSpace s (s.proc p).pagetable⟩

theorem shown_space_eq (h : Books L g s) {r : Nat} (hr : g.IsRoot r) :
    shownSpace s r = space g s r := by
  funext v
  simp only [shownSpace, space]
  split
  next hv =>
    rw [entry_at_eq h.holds hr (page_va_lt hv), Option.map_map]
    cases hl : g.pt r v with
    | none => rfl
    | some l =>
      obtain ⟨haddr, hdata, -⟩ := h.leaf hv hl
      simp [haddr, h.holds.data l.pa hdata]
  next => rfl

theorem shown_eq (h : Sys L g s) : shown s = view g s := by
  funext p
  unfold shown
  split
  next hp => exact (h.view_unused hp).symm
  next hp => rw [shown_space_eq h.books (h.slot p hp).root, view]

/-! ## Private memory -/

/-- The page as its process was given it, shared with nobody. -/
def Cell.private (c : Cell) : Cell :=
  { c with perm := ⟨c.perm.grant.w, c.perm.grant.u, false, c.perm.grant⟩ }

def Space.private (sp : Space) : Space := fun v => (sp v).map Cell.private

def View.private (V : View) : View := { V with sp := V.sp.private }

def privately (V : Slot → View) : Slot → View := fun p => (V p).private

theorem private_update (sp : Space) (v : Nat) (o : Option Cell) :
    Space.private (update sp v o) = update sp.private v (o.map Cell.private) := by
  funext w
  by_cases hw : w = v
  · simp [Space.private, hw]
  · simp [Space.private, update_of_ne hw]

theorem private_views (V : Slot → View) (p : Slot) (W : View) :
    privately (update V p W) = update (privately V) p W.private := by
  funext q
  by_cases hq : q = p
  · simp [privately, hq]
  · simp [privately, update_of_ne hq]

/-- The permissions are lost in sharing, the page is not. -/
theorem private_share (sp : Space) (n : Nat) : (sp.share n).private = sp.private := by
  funext v
  simp only [Space.private, Space.share]
  split
  next => rw [Option.map_map]; rfl
  next => rfl

theorem private_extend (sp : Space) (a b : Nat) (w : Bool) :
    (sp.extend a b (zeroCell w)).private = sp.private.extend a b (zeroCell w) := by
  funext v
  simp only [Space.private, Space.extend]
  split
  next => rfl
  next => rfl

theorem private_without (sp : Space) (a b : Nat) :
    (sp.without a b).private = sp.private.without a b := by
  funext v
  simp only [Space.private, Space.without]
  split
  next => rfl
  next => rfl

theorem private_grow (V : View) (n : Int) : (V.grow n).private = V.private.grow n := by
  unfold View.grow View.private
  dsimp only
  split
  next => rw [private_extend]
  next =>
    split
    next => rw [private_without]
    next => rfl

/-- A page that a process may read, it reads in its private memory. -/
theorem private_load {sp : Space} (h : Kept sp) (va : Nat) : sp.private.load va = sp.load va := by
  unfold Space.load Space.private
  cases hc : sp (va / PGSIZE) with
  | none => rfl
  | some c => simp [Cell.private, (h _ c hc).1]

/-! ## Writing -/

/-- If the user reaches the page of `va` at all, it was allocated writable. -/
def Space.Allows (sp : Space) (va : Nat) : Prop :=
  ∀ c, sp (va / PGSIZE) = some c → c.perm.u = true → c.perm.w = true

instance (sp : Space) (va : Nat) : Decidable (sp.Allows va) :=
  inferInstanceAs (Decidable (∀ c ∈ sp (va / PGSIZE), c.perm.u = true → c.perm.w = true))

section Cell

variable {c : Cell} (h : c.perm.Kept) (hallows : c.private.perm.u = true → c.private.perm.w = true)

include h hallows

/-- The page is open to its process exactly if it is so in private. -/
theorem private_open : (c.private.perm.u && (c.private.perm.w || c.private.perm.cow)) =
    (c.perm.u && (c.perm.w || c.perm.cow)) := by
  obtain ⟨hu, hw⟩ := h
  simp only [Cell.private, Bool.or_false] at hallows ⊢
  rw [hu]
  cases hgrant : c.perm.grant.u with
  | false => rfl
  | true =>
    have hw' := hallows hgrant
    have hopen : (c.perm.w || c.perm.cow) = true := by simpa using hw hw'
    rw [hw', hopen]

theorem private_write (hopen : (c.perm.u && (c.perm.w || c.perm.cow)) = true) (o : Nat)
    (bytes : List Byte) : (c.own.write o bytes).private = c.private.own.write o bytes := by
  have hgrant : c.perm.grant.w = true := by
    refine hallows (h.1.symm.trans ?_)
    cases hu : c.perm.u with
    | false => simp [hu] at hopen
    | true => rfl
  simp [Cell.private, Cell.own, Cell.write, hgrant]

end Cell

theorem private_store {sp : Space} (h : Kept sp) {va : Nat} {b : Byte}
    (hallows : sp.private.Allows va) :
    (sp.store va b).1.private = (sp.private.store va b).1 := by
  unfold Space.store
  cases hc : sp (va / PGSIZE) with
  | none => simp [Space.private, hc]
  | some c =>
    have hprivate : sp.private (va / PGSIZE) = some c.private := by simp [Space.private, hc]
    have hcell := hallows _ hprivate
    rw [hprivate]
    dsimp only
    rw [private_open (h _ c hc) hcell]
    split
    next hopen => rw [private_update, Option.map_some, private_write (h _ c hc) hcell hopen]
    next =>
      rw [if_neg (show ¬ c.private.perm.cow = true by simp [Cell.private])]
      split
      next =>
        show Space.private (update sp _ _) = sp.private
        rw [private_update, ← update_eq_self (va / PGSIZE) sp.private, hprivate, update_idem]
        rfl
      next => rfl

theorem Kept.write {sp : Space} (h : Kept sp) {v o : Nat} {c : Cell} (hc : sp v = some c)
    (bytes : List Byte) : Kept (update sp v (some (c.own.write o bytes))) := by
  intro w d hd
  by_cases hw : w = v
  · rw [hw, update_self] at hd
    cases hd
    exact ⟨(h v c hc).1, fun _ => .inl rfl⟩
  · rw [update_of_ne hw] at hd
    exact h w d hd

theorem private_copyout {fuel : Nat} {sp : Space} (h : Kept sp) {dstva : Nat}
    {src : List Byte}
    (hallows : ∀ va, dstva ≤ va → va < dstva + src.length → sp.private.Allows va) :
    (Space.copyout fuel sp dstva src).1.private = (Space.copyout fuel sp.private dstva src).1 := by
  induction fuel generalizing sp dstva src with
  | zero => rfl
  | succ fuel ih =>
    rw [Space.copyout, Space.copyout]
    by_cases hsrc : src = []
    · rw [if_pos hsrc, if_pos hsrc]
    rw [if_neg hsrc, if_neg hsrc]
    cases hc : sp (dstva / PGSIZE) with
    | none => simp [Space.private, hc]
    | some c =>
      have hprivate : sp.private (dstva / PGSIZE) = some c.private := by simp [Space.private, hc]
      have hpos : 0 < src.length := List.length_pos_iff.mpr hsrc
      have hcell := hallows dstva le_rfl (by omega) _ hprivate
      rw [hprivate]
      dsimp only
      rw [private_open (h _ c hc) hcell]
      split
      next hopen =>
        have hwrite := private_write (h _ c hc) hcell hopen
        rw [ih (h.write hc _) ?_, private_update, Option.map_some, hwrite]
        -- the pages still to come are the same, and the one just written is writable
        intro va hlow hhigh d hd hdu
        rw [private_update] at hd
        by_cases hva : va / PGSIZE = dstva / PGSIZE
        · rw [hva, update_self, Option.map_some, hwrite] at hd
          cases hd
          rfl
        · rw [update_of_ne hva] at hd
          rw [List.length_drop] at hhigh
          refine hallows va ?_ ?_ d hd hdu
          all_goals
            unfold PGROUNDDOWN PGSIZE at *
            omega
      next => rfl

/-! ## The system with private memory -/

/-- One event among processes with private memory. What `exec` loads is given. -/
def Event.eager (loaded : Slot → View) (V : Slot → View) : Event → Slot → View
  | .kernelAlloc | .kernelFree _ | .copyin _ _ _ => V
  | .userinit p initcode => if (V p).state = .unused then update V p (initView initcode) else V
  | .fork p np =>
    if (V np).state = .unused ∧ (V p).state = .live then update V np (V p) else V
  | .exec p _ _ => if (V p).state = .live then update V p (loaded p) else V
  | .growproc p n => if (V p).state = .live then update V p ((V p).grow n) else V
  | .store p va b =>
    if (V p).state = .live then update V p { V p with sp := ((V p).sp.store va b).1 } else V
  | .copyout p dstva src =>
    if (V p).state = .live then
      update V p { V p with sp := (Space.copyout src.length (V p).sp dstva src).1 }
    else V
  | .exit p => if (V p).state = .live then update V p { V p with state := .zombie } else V
  | .freeproc p => if (V p).state = .zombie then update V p .unused else V

/-- Processes write to pages that were allocated writable. -/
def Event.Allowed (V : Slot → View) : Event → Prop
  | .store p va _ => (V p).sp.Allows va
  | .copyout p dstva src => ∀ va, dstva ≤ va → va < dstva + src.length → (V p).sp.Allows va
  | _ => True

/-- The kernel and the system with private memory, side by side along a run in which no
allocation fails. -/
inductive Lockstep (L : Layout) : State → (Slot → View) → Prop where
  | start {s : State} (h : Booted L s) : Lockstep L s fun _ => .unused
  | next {s s' : State} {V : Slot → View} {e : Event} (h : Lockstep L s V) (hadmits : Admits s e)
      (hallowed : e.Allowed V) (hstep : step L e s = .ok ((), s'))
      (hfailed : s'.failed = s.failed) : Lockstep L s' (e.eager (privately (shown s')) V)

theorem Lockstep.reachable (h : Lockstep L s V) : Reachable (Booted L) Admits (step L) s := by
  induction h with
  | start h => exact .start h
  | next _ hadmits _ hstep _ ih => exact .next ih hadmits hstep

theorem Sys.kept (h : Sys L g s) (p : Slot) : Kept (view g s p).sp := by
  by_cases hp : (s.proc p).state = .unused
  · rw [h.view_unused hp]
    intro v c hc
    cases hc
  · exact (h.slot p hp).kept

/-- An event that leaves everything alone unless a condition holds. -/
theorem privately_ite {c P : Prop} [Decidable c] {W : Slot → View} (h : if c then P else V' = V)
    (hpos : c → P → privately V' = W) : privately V' = if c then W else privately V := by
  split at h
  next hc => rw [if_pos hc, hpos hc h]
  next hc => rw [if_neg hc, h]

/-- One event moves both systems alike. -/
theorem Moves.eager {e : Event} (hmoves : Moves s V s' V' e) (hkept : ∀ p, Kept (V p).sp)
    (hallowed : e.Allowed (privately V)) (hfailed : s'.failed = s.failed) :
    privately V' = e.eager (privately V') (privately V) := by
  have hnot : ¬ s.failed < s'.failed := by omega
  cases e with
  | kernelAlloc | kernelFree | copyin => exact congrArg privately hmoves
  | userinit p initcode =>
    refine privately_ite hmoves fun hp hmoves => ?_
    rw [hmoves, private_views, View.private, initView, private_update]
    rfl
  | fork p np =>
    refine privately_ite hmoves fun hp hmoves => ?_
    obtain ⟨hless, -⟩ | ⟨-, rfl⟩ := hmoves
    · exact absurd hless hnot
    have hlive : { (V p).share (npages (V p).sz) with state := .live } =
        (V p).share (npages (V p).sz) := by
      rw [← hp.2]
      rfl
    have hsame : ((V p).share (npages (V p).sz)).private = privately V p := by
      simp only [privately, View.private, View.share, private_share]
    rw [hlive, private_views, private_views, hsame, update_eq_self]
  | exec p file argv =>
    refine privately_ite hmoves fun hp hmoves => ?_
    obtain rfl | ⟨sz, sp, -, rfl⟩ := hmoves
    · exact (update_eq_self p _).symm
    · rw [private_views, update_self]
  | growproc p n =>
    refine privately_ite hmoves fun hp hmoves => ?_
    obtain ⟨-, rfl⟩ | ⟨hless, -⟩ := hmoves
    · rw [private_views, private_grow]
      rfl
    · exact absurd hless hnot
  | store p va b =>
    refine privately_ite hmoves fun hp hmoves => ?_
    obtain ⟨sp, rfl, -, hsp⟩ := hmoves
    rw [private_views, hsp hfailed, View.private, private_store (hkept p) hallowed]
    rfl
  | copyout p dstva src =>
    refine privately_ite hmoves fun hp hmoves => ?_
    obtain ⟨sp, rfl, -, hsp⟩ := hmoves
    rw [private_views, hsp hfailed, View.private, private_copyout (hkept p) hallowed]
    rfl
  | exit p | freeproc p =>
    refine privately_ite hmoves fun hp hmoves => ?_
    rw [hmoves, private_views]
    rfl

theorem Lockstep.private_eq (h : Lockstep L s V) : privately (shown s) = V := by
  induction h with
  | start hboot =>
    obtain ⟨-, g, hsys, hviews, -⟩ := booted_sys hboot
    rw [shown_eq hsys]
    funext p
    rw [privately, hviews p]
    rfl
  | @next s s' V e h hadmits hallowed hstep hfailed ih =>
    obtain ⟨g, hsys⟩ := sys_of_reachable h.reachable
    obtain ⟨-, g', hsys', hmoves⟩ := wp_ok (wp_step hsys hadmits) hstep
    rw [shown_eq hsys] at ih
    rw [← ih] at hallowed
    have hboth := hmoves.eager hsys.kept hallowed hfailed
    rw [ih, ← shown_eq hsys'] at hboth
    exact hboth

/-- Copy-on-write refines private memory. Along every run in which no allocation fails and
processes write to pages that were allocated writable, every slot has the state and the size that
the system with private memory gives it, and a process reads at every address the byte it has
there. -/
theorem cow_refines_private (h : Lockstep L s V) (p : Slot) :
    (s.proc p).state = (V p).state ∧ ((s.proc p).state ≠ .unused → (s.proc p).sz = (V p).sz ∧
      ∀ va, loadByte (s.proc p).pagetable va s = .ok ((V p).sp.load va, s)) := by
  obtain ⟨g, hsys⟩ := sys_of_reachable h.reachable
  have heq := congrFun h.private_eq p
  rw [shown_eq hsys] at heq
  refine ⟨congrArg View.state heq, fun hp => ⟨congrArg View.sz heq, fun va => ?_⟩⟩
  have hslot := hsys.slot p hp
  rw [load_byte_eq hsys.books hslot.root hslot.top.safe, ← heq]
  show _ = Except.ok ((space g s (s.proc p).pagetable).private.load va, s)
  rw [private_load hslot.kept]

/-- The first process forks and the child stores to the page they share: the child reads what it
stored and the parent its program. -/
theorem cow_refines_private_forked : ∃ s V, Lockstep tightKernel s V ∧
    (s.proc 0).state = .live ∧ (s.proc 1).state = .live ∧
    loadByte (s.proc 0).pagetable 0 s = .ok (some 1, s) ∧
    loadByte (s.proc 1).pagetable 0 s = .ok (some 7, s) := by
  have hfirst := Lockstep.next (.start started_booted) started_admits trivial userinit_first
    (by decide +kernel)
  have hfork := hfirst.next (e := .fork 0 1) trivial trivial fork_first (by decide +kernel)
  have hstore := hfork.next (e := .store 1 0 7) trivial (show Space.Allows _ 0 by decide +kernel)
    (step_after (by decide +kernel)) (by decide +kernel)
  have hparent : ((after (.store 1 0 7) forked).proc 0).state = .live := by decide +kernel
  have hchild : ((after (.store 1 0 7) forked).proc 1).state = .live := by decide +kernel
  refine ⟨_, _, hstore, hparent, hchild, ?_, ?_⟩
  · exact ((cow_refines_private hstore 0).2 (by rw [hparent]; decide)).2 0
  · exact ((cow_refines_private hstore 1).2 (by rw [hchild]; decide)).2 0

/-! ## Isolation -/

/-- The slot whose memory an event is about. -/
def Event.subject : Event → Option Slot
  | .kernelAlloc | .kernelFree _ | .copyin _ _ _ => none
  | .userinit p _ | .fork _ p | .exec p _ _ | .growproc p _ | .store p _ _ | .copyout p _ _
  | .exit p | .freeproc p => some p

theorem Moves.others {e : Event} (hmoves : Moves s V s' V' e) {q : Slot}
    (hq : e.subject ≠ some q) : (V' q).private = (V q).private := by
  have hne : ∀ {p}, e.subject = some p → q ≠ p := by
    rintro p hp rfl
    exact hq hp
  cases e with
  | kernelAlloc | kernelFree | copyin => exact congrArg (fun V => View.private (V q)) hmoves
  | fork p np =>
    simp only [Moves] at hmoves
    split at hmoves
    next =>
      have hshare : ∀ n, (update V p ((V p).share n) q).private = (V q).private := by
        intro n
        by_cases hqp : q = p
        · rw [hqp, update_self]
          simp only [View.private, View.share, private_share]
        · rw [update_of_ne hqp]
      obtain ⟨-, m, rfl⟩ | ⟨-, rfl⟩ := hmoves
      · exact hshare m
      · rw [update_of_ne (hne rfl)]
        exact hshare _
    next => rw [hmoves]
  | exec p =>
    simp only [Moves] at hmoves
    split at hmoves
    next =>
      obtain rfl | ⟨sz, sp, -, rfl⟩ := hmoves
      · rfl
      · rw [update_of_ne (hne rfl)]
    next => rw [hmoves]
  | growproc p =>
    simp only [Moves] at hmoves
    split at hmoves
    next =>
      obtain ⟨-, rfl⟩ | ⟨-, rfl⟩ := hmoves
      · rw [update_of_ne (hne rfl)]
      · rfl
    next => rw [hmoves]
  | store p | copyout p =>
    simp only [Moves] at hmoves
    split at hmoves
    next =>
      obtain ⟨sp, rfl, -⟩ := hmoves
      rw [update_of_ne (hne rfl)]
    next => rw [hmoves]
  | userinit p | exit p | freeproc p =>
    simp only [Moves] at hmoves
    split at hmoves
    next => rw [hmoves, update_of_ne (hne rfl)]
    next => rw [hmoves]

/-- Isolation. In every reachable state, whatever an event does and whether or not an allocation
fails in it, every slot other than the one it is about keeps its state, its size and every byte
its process reads; for a `fork` that slot is the child's, so the parent too reads what it read. -/
theorem event_isolated (hrun : Reachable (Booted L) Admits (step L) s) {e : Event}
    (hadmits : Admits s e) (hstep : step L e s = .ok ((), s')) {q : Slot}
    (hq : e.subject ≠ some q) :
    (s'.proc q).state = (s.proc q).state ∧ ((s.proc q).state ≠ .unused →
      (s'.proc q).sz = (s.proc q).sz ∧ ∀ va, valueOf (loadByte (s'.proc q).pagetable va) s' =
        valueOf (loadByte (s.proc q).pagetable va) s) := by
  obtain ⟨g, hsys⟩ := sys_of_reachable hrun
  obtain ⟨-, g', hsys', hmoves⟩ := wp_ok (wp_step hsys hadmits) hstep
  have hsame := hmoves.others hq
  have hstate : (s'.proc q).state = (s.proc q).state := congrArg View.state hsame
  refine ⟨hstate, fun hp => ⟨congrArg View.sz hsame, fun va => ?_⟩⟩
  have hslot := hsys.slot q hp
  have hslot' := hsys'.slot q (by rwa [hstate])
  have hload : (space g' s' (s'.proc q).pagetable).private =
      (space g s (s.proc q).pagetable).private := congrArg View.sp hsame
  unfold valueOf
  rw [load_byte_eq hsys.books hslot.root hslot.top.safe,
    load_byte_eq hsys'.books hslot'.root hslot'.top.safe, ← private_load hslot.kept,
    ← private_load hslot'.kept, hload]

/-- The child of a fork stores to the page it shares with its parent. -/
theorem event_isolated_forked : ∃ s', step tightKernel (.store 1 0 7) forked = .ok ((), s') ∧
    valueOf (loadByte (s'.proc 1).pagetable 0) s' = some (some 7) ∧
    valueOf (loadByte (s'.proc 0).pagetable 0) s' = some (some 1) := by
  have hstep := step_after (e := .store 1 0 7) (s := forked) (by decide +kernel)
  have hkept := (event_isolated forked_reachable (e := .store 1 0 7) trivial hstep (q := 0)
    (by decide)).2 (by simp [forked_live])
  have hread : valueOf (loadByte (forked.proc 0).pagetable 0) forked = some (some 1) := by
    decide +kernel
  exact ⟨_, hstep, by decide +kernel, (hkept.2 0).trans hread⟩

end Xv6.Vm
