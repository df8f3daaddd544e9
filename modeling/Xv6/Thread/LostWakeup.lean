import Xv6.Thread.Life

/-!
# Sleeping in `paull04_join`

`paull04_join` sleeps on the caller's own slot when its scan finds threads but none that has
exited, and `exit` of a thread wakes only the slot recorded as its parent, which is the main
thread. A thread that is not the main thread counts itself in its scan and is never woken. While
only main threads join, no main thread sleeps in `paull04_join` beside an exited thread.
-/

namespace Xv6.Thread.Calls

open Function

variable {s s' : System} {l l' : Life} {p q r : Slot}

/-- Slot `p` is asleep inside `paull04_join`. -/
def Life.AsleepInJoin (l : Life) (p : Slot) : Prop :=
  (l.proc p).state = .sleeping ∧ ∃ stack, l.blocked p = some (.join stack)

/-- Slot `p` is inside `paull04_join` and awake: it is about to scan again. -/
def Life.AwakeInJoin (l : Life) (p : Slot) : Prop :=
  ((l.proc p).state = .runnable ∨ (l.proc p).state = .running) ∧
    ∃ stack, l.blocked p = some (.join stack)

/-- No thread sleeps in `paull04_join` beside an exited thread of its process that no other thread
is awake in `paull04_join` to reap, and none waits for itself alone. -/
structure NoLostWakeup (s : System) : Prop where
  reaped : ∀ p q, (life s).AsleepInJoin p → q ≠ p → (life s).InGroup (s.proc p).mainPid q →
    (s.proc q).state = .zombie →
    ∃ r, (s.proc r).mainPid = (s.proc p).mainPid ∧ (life s).AwakeInJoin r
  alone : ∀ p, (life s).AsleepInJoin p →
    ¬ ((life s).InGroup (s.proc p).mainPid p ∧
      ∀ q, (life s).InGroup (s.proc p).mainPid q → q = p)

/-- Only main threads join, and no process gets a pid that is in use for another one. -/
def MainJoins (s : System) : Event → Prop
  | .call p (.join _) => (s.proc p).isThread = false
  | .call _ .fork => ∀ q, (s.proc q).state ≠ .unused → (s.proc q).mainPid ≠ s.nextpid
  | .call p (.exec _ _) => (s.proc p).isThread = true →
      ∀ q, (s.proc q).state ≠ .unused → (s.proc q).mainPid ≠ (s.proc p).pid
  | _ => True

/-! ## The invariant -/

/-- What main threads and joiners look like. -/
structure JoinInv (l : Life) : Prop where
  started : l.initproc = none → ∀ q, (l.proc q).state = .unused
  parents : ∀ q, (l.proc q).isThread = true → (l.proc q).parent = (l.proc q).mainThread
  unique : ∀ q r, (l.proc q).state ≠ .unused → (l.proc r).state ≠ .unused →
    (l.proc q).isThread = false → (l.proc r).isThread = false →
    (l.proc q).mainPid = (l.proc r).mainPid → q = r
  joining : ∀ p stack, l.blocked p = some (.join stack) → (l.proc p).isThread = false ∧
    (l.proc p).state ≠ .unused ∧ (l.proc p).state ≠ .zombie
  asleep : ∀ p, l.AsleepInJoin p → (l.proc p).chan = .proc p ∧
    ∀ q, l.InGroup (l.proc p).mainPid q → (l.proc q).state ≠ .zombie

theorem JoinInv.no_lost_wakeup (h : JoinInv (life s)) : NoLostWakeup s := by
  refine ⟨fun p q hp _ hq hzombie => ?_, fun p hp hself => ?_⟩
  · exact absurd hzombie ((h.asleep p hp).2 q hq)
  · obtain ⟨stack, hblocked⟩ := hp.2
    have hmain := (h.joining p stack hblocked).1
    have hthread := hself.1.2
    rw [hmain] at hthread
    cases hthread

/-- A slot is free, or it is the same member of the same process as before and has not exited or
fallen asleep in `paull04_join` since. -/
def Fade (l l' : Life) (q : Slot) : Prop :=
  ((l'.proc q).state = .unused ∧ (l'.proc q).isThread = false ∧
    ∀ stack, l'.blocked q ≠ some (.join stack)) ∨
  ((l'.proc q).isThread = (l.proc q).isThread ∧ (l'.proc q).mainPid = (l.proc q).mainPid ∧
    (l'.proc q).mainThread = (l.proc q).mainThread ∧
    ((l.proc q).isThread = true → (l'.proc q).parent = (l.proc q).parent) ∧
    ((l'.proc q).state = .unused ↔ (l.proc q).state = .unused) ∧
    ((l'.proc q).state = .zombie → (l.proc q).state = .zombie) ∧
    ∀ stack, l'.blocked q = some (.join stack) → l.blocked q = some (.join stack) ∧
      ((l'.proc q).state = .sleeping →
        (l.proc q).state = .sleeping ∧ (l'.proc q).chan = (l.proc q).chan))

/-- Nothing new happens to any slot. -/
structure Fades (l l' : Life) : Prop where
  initproc : l'.initproc = l.initproc
  slot : ∀ q, Fade l l' q

theorem Fade.same (hproc : l'.proc q = l.proc q) (hblocked : l'.blocked q = l.blocked q) :
    Fade l l' q := by
  right
  rw [hproc, hblocked]
  exact ⟨rfl, rfl, rfl, fun _ => rfl, Iff.rfl, id, fun _ hb => ⟨hb, fun hs => ⟨hs, rfl⟩⟩⟩

theorem JoinInv.fades (h : JoinInv l) (hfades : Fades l l') : JoinInv l' := by
  have hused : ∀ q, (l'.proc q).state ≠ .unused → (l.proc q).state ≠ .unused ∧
      (l'.proc q).isThread = (l.proc q).isThread ∧ (l'.proc q).mainPid = (l.proc q).mainPid := by
    intro q hq
    rcases hfades.slot q with hfree | ⟨hthread, hpid, -, -, hunused, -⟩
    · exact absurd hfree.1 hq
    · exact ⟨mt hunused.mpr hq, hthread, hpid⟩
  refine ⟨fun hinit q => ?_, fun q hq => ?_, fun q r hq hr hq' hr' hpid => ?_,
    fun p stack hblocked => ?_, fun p hp => ?_⟩
  · have hall := h.started (hfades.initproc ▸ hinit) q
    rcases hfades.slot q with hfree | ⟨-, -, -, -, hunused, -⟩
    · exact hfree.1
    · exact hunused.mpr hall
  · rcases hfades.slot q with hfree | ⟨hthread, -, hmain, hparent, -⟩
    · rw [hfree.2.1] at hq
      cases hq
    · rw [hthread] at hq
      rw [hparent hq, hmain]
      exact h.parents q hq
  · obtain ⟨hqu, hqt, hqp⟩ := hused q hq
    obtain ⟨hru, hrt, hrp⟩ := hused r hr
    refine h.unique q r hqu hru (hqt.symm.trans hq') (hrt.symm.trans hr') ?_
    rw [← hqp, ← hrp]
    exact hpid
  · rcases hfades.slot p with hfree | ⟨hthread, -, -, -, hunused, hzombie, hjoin⟩
    · exact absurd hblocked (hfree.2.2 stack)
    · obtain ⟨hmain, hused', halive⟩ := h.joining p stack (hjoin stack hblocked).1
      exact ⟨hthread.trans hmain, mt hunused.mp hused', mt hzombie halive⟩
  · obtain ⟨hsleeping, stack, hblocked⟩ := hp
    rcases hfades.slot p with hfree | ⟨-, hpid, -, -, -, -, hjoin⟩
    · exact absurd hblocked (hfree.2.2 stack)
    · obtain ⟨hold, hsleep⟩ := hjoin stack hblocked
      obtain ⟨hwas, hchan⟩ := hsleep hsleeping
      obtain ⟨hchan', hnone⟩ := h.asleep p ⟨hwas, stack, hold⟩
      refine ⟨hchan.trans hchan', fun q hq hz => ?_⟩
      rcases hfades.slot q with hfree | ⟨hthread, hqpid, -, -, -, hzombie, -⟩
      · rw [hfree.1] at hz
        cases hz
      · refine hnone q ⟨?_, ?_⟩ (hzombie hz)
        · rw [← hqpid, ← hpid]
          exact hq.1
        · exact hthread.symm.trans hq.2

/-! ## Changes after which nothing new has happened -/

theorem Fades.of_slot (hinit : l'.initproc = l.initproc)
    (hothers : ∀ q, q ≠ p → l'.proc q = l.proc q ∧ l'.blocked q = l.blocked q)
    (hp : Fade l l' p) : Fades l l' := by
  refine ⟨hinit, fun q => ?_⟩
  by_cases hq : q = p
  · subst hq
    exact hp
  · exact Fade.same (hothers q hq).1 (hothers q hq).2

namespace JoinInv

section

variable (h : JoinInv l)

include h

theorem unblock (p : Slot) : JoinInv (l.block p none) := by
  refine h.fades (Fades.of_slot (p := p) rfl (fun q hq => ⟨rfl, update_of_ne hq _ _⟩) ?_)
  right
  refine ⟨rfl, rfl, rfl, fun _ => rfl, Iff.rfl, id, fun stack hb => ?_⟩
  have hnone : (l.block p none).blocked p = none := update_self ..
  rw [hnone] at hb
  cases hb

theorem clear (hp : ∀ stack, l.blocked p ≠ some (.join stack)) :
    JoinInv (l.set p {}) := by
  refine h.fades (Fades.of_slot (p := p) rfl (fun q hq => ⟨Life.set_proc_ne l _ hq, rfl⟩) ?_)
  left
  rw [Life.set_proc_self]
  exact ⟨rfl, rfl, hp⟩

/-- A slot in use is not inside `paull04_join` when it has exited. -/
theorem not_joining
    (hp : (l.proc p).isThread = true ∨ (l.proc p).state = .unused ∨ (l.proc p).state = .zombie)
    (stack : Nat) : l.blocked p ≠ some (.join stack) := by
  intro hblocked
  obtain ⟨hmain, hused, halive⟩ := h.joining p stack hblocked
  rcases hp with hp | hp | hp
  · rw [hmain] at hp
    cases hp
  · exact hused hp
  · exact halive hp

theorem spend : JoinInv l.spend :=
  h.fades ⟨rfl, fun _ => Fade.same rfl rfl⟩

theorem wake (self : Slot) (chan : Chan) : JoinInv (l.wake self chan) := by
  refine h.fades ⟨rfl, fun q => ?_⟩
  obtain ⟨st, hproc, hwoken⟩ := l.wake_proc self chan q
  right
  rw [hproc]
  refine ⟨rfl, rfl, rfl, fun _ => rfl, hwoken.unused, hwoken.zombie.mp, fun stack hb => ⟨hb, ?_⟩⟩
  exact fun hs => ⟨hwoken.sleeping hs, rfl⟩

/-- The threads of a process are freed; none of them is inside `paull04_join`. -/
theorem sweep (pid : Int) : JoinInv (l.sweep pid) := by
  refine h.fades ⟨rfl, fun q => ?_⟩
  by_cases hq : l.InGroup pid q
  · have hproc : (l.sweep pid).proc q = {} := if_pos hq
    left
    rw [hproc]
    exact ⟨rfl, rfl, h.not_joining (Or.inl hq.2)⟩
  · exact Fade.same (if_neg hq) rfl

theorem reparent (hchild : ∀ q, (l.proc q).isThread = true →
    (l.proc q).parent ≠ some p) (self : Slot) : JoinInv (l.reparent self p) := by
  obtain ⟨hblocked, -, hinit, -⟩ := l.reparent_rest self p
  refine h.fades ⟨hinit, fun q => ?_⟩
  obtain ⟨st, hproc, hwoken⟩ := l.reparent_proc self p q
  right
  rw [hproc, hblocked]
  refine ⟨rfl, rfl, rfl, fun hthread => if_neg (hchild q hthread), hwoken.unused, hwoken.zombie.mp,
    fun stack hb => ⟨hb, fun hs => ⟨hwoken.sleeping hs, rfl⟩⟩⟩

end

/-- An active slot that does not fall asleep in `paull04_join` changes its state. -/
theorem restate {st : ProcState} (chan : Chan) (killed : Bool) (h : JoinInv l)
    (hunused : st = .unused ↔ (l.proc p).state = .unused)
    (hzombie : st = .zombie → (l.proc p).state = .zombie)
    (hsleep : ∀ stack, l.blocked p = some (.join stack) → st = .sleeping →
      (l.proc p).state = .sleeping ∧ chan = (l.proc p).chan) :
    JoinInv (l.set p { l.proc p with state := st, chan := chan, killed := killed }) := by
  refine h.fades (Fades.of_slot (p := p) rfl (fun q hq => ⟨Life.set_proc_ne l _ hq, rfl⟩) ?_)
  right
  rw [Life.set_proc_self]
  exact ⟨rfl, rfl, rfl, fun _ => rfl, hunused, hzombie, fun stack hb => ⟨hb, hsleep stack hb⟩⟩

theorem start (h : JoinInv l) (np : Slot) : JoinInv { l with initproc := some np } :=
  ⟨fun hno => (by cases hno), h.parents, h.unique, h.joining, h.asleep⟩

/-! ## New members, exits and sleepers -/

/-- One slot changes, by which no pid gets a second main thread and no joiner an exited thread. -/
theorem of_slot (h : JoinInv l) (hinit : l'.initproc ≠ none)
    (hothers : ∀ q, q ≠ p → l'.proc q = l.proc q ∧ l'.blocked q = l.blocked q)
    (hparent : (l'.proc p).isThread = true → (l'.proc p).parent = (l'.proc p).mainThread)
    (hfresh : (l'.proc p).isThread = false → ∀ q, q ≠ p → (l.proc q).state ≠ .unused →
      (l.proc q).isThread = false → (l.proc q).mainPid ≠ (l'.proc p).mainPid)
    (hjoining : ∀ stack, l'.blocked p = some (.join stack) → (l'.proc p).isThread = false ∧
      (l'.proc p).state ≠ .unused ∧ (l'.proc p).state ≠ .zombie)
    (hasleep : l'.AsleepInJoin p → (l'.proc p).chan = .proc p ∧
      ∀ q, l.InGroup (l'.proc p).mainPid q → (l.proc q).state ≠ .zombie)
    (hexited : (l'.proc p).isThread = true → (l'.proc p).state = .zombie →
      ∀ q, l.AsleepInJoin q → (l.proc q).mainPid ≠ (l'.proc p).mainPid) : JoinInv l' := by
  refine ⟨fun hno => absurd hno hinit, fun q hq => ?_, fun q r hq hr hq' hr' hpid => ?_,
    fun q stack hb => ?_, fun q hq => ?_⟩
  · by_cases hqp : q = p
    · subst hqp
      exact hparent hq
    · rw [(hothers q hqp).1] at hq ⊢
      exact h.parents q hq
  · by_cases hqp : q = p
    · by_cases hrp : r = p
      · rw [hqp, hrp]
      · subst hqp
        rw [(hothers r hrp).1] at hr hr' hpid
        exact absurd hpid.symm (hfresh hq' r hrp hr hr')
    · rw [(hothers q hqp).1] at hq hq' hpid
      by_cases hrp : r = p
      · subst hrp
        exact absurd hpid (hfresh hr' q hqp hq hq')
      · rw [(hothers r hrp).1] at hr hr' hpid
        exact h.unique q r hq hr hq' hr' hpid
  · by_cases hqp : q = p
    · subst hqp
      exact hjoining stack hb
    · rw [(hothers q hqp).2] at hb
      rw [(hothers q hqp).1]
      exact h.joining q stack hb
  · by_cases hqp : q = p
    · subst hqp
      refine ⟨(hasleep hq).1, fun r hr => ?_⟩
      by_cases hrq : r = q
      · obtain ⟨stack, hb⟩ := hq.2
        subst hrq
        exact (hjoining stack hb).2.2
      · unfold Life.InGroup at hr
        rw [(hothers r hrq).1] at hr ⊢
        exact (hasleep hq).2 r hr
    · obtain ⟨hsleeping, stack, hb⟩ := hq
      rw [(hothers q hqp).1] at hsleeping ⊢
      rw [(hothers q hqp).2] at hb
      have hold : l.AsleepInJoin q := ⟨hsleeping, stack, hb⟩
      refine ⟨(h.asleep q hold).1, fun r hr hz => ?_⟩
      by_cases hrp : r = p
      · subst hrp
        exact hexited hr.2 hz q hold hr.1.symm
      · unfold Life.InGroup at hr
        rw [(hothers r hrp).1] at hr hz
        exact (h.asleep q hold).2 r hr hz

/-- A new main thread in a free slot, whose pid no other process has. -/
theorem born (h : JoinInv l) (parent : Ptr) (np : Slot) (hinit : l.initproc ≠ none)
    (hfresh : ∀ q, (l.proc q).state ≠ .unused → (l.proc q).mainPid ≠ l.nextpid) :
    JoinInv (l.born np parent) := by
  have hself : (l.born np parent).proc np = { l.proc np with
      pid := l.nextpid, state := .runnable, parent := parent, isThread := false,
      mainPid := l.nextpid, mainThread := some np } := Life.taken_self ..
  have hnone : ∀ stack, (l.born np parent).blocked np ≠ some (.join stack) := by
    intro stack hb
    rw [show (l.born np parent).blocked np = none from update_self ..] at hb
    cases hb
  refine h.of_slot (p := np) hinit (fun q hq => ⟨Life.taken_ne _ _ hq, update_of_ne hq _ _⟩) ?_ ?_
    (fun stack hb => absurd hb (hnone stack)) ?_ ?_
  · rw [hself]
    exact fun hno => by cases hno
  · rw [hself]
    exact fun _ q _ hq _ => hfresh q hq
  · rintro ⟨-, stack, hb⟩
    exact absurd hb (hnone stack)
  · rw [hself]
    exact fun hno => by cases hno

/-- A new thread, which has its main thread for a parent. -/
theorem cloned (h : JoinInv l) (p main np : Slot) (stack : Nat) (hinit : l.initproc ≠ none) :
    JoinInv (l.cloned p main np stack) := by
  have hself : (l.cloned p main np stack).proc np = { l.proc np with
      pid := l.nextpid, state := .runnable, killed := false, mainPid := (l.proc p).mainPid,
      mainThread := some main, isThread := true, parent := some main } := Life.taken_self ..
  have hnone : ∀ stack', (l.cloned p main np stack).blocked np ≠ some (.join stack') := by
    intro stack' hb
    rw [show (l.cloned p main np stack).blocked np = none from update_self ..] at hb
    cases hb
  refine h.of_slot (p := np) hinit (fun q hq => ⟨Life.taken_ne _ _ hq, update_of_ne hq _ _⟩) ?_ ?_
    (fun stack' hb => absurd hb (hnone stack')) ?_ ?_
  · rw [hself]
    exact fun _ => rfl
  · rw [hself]
    exact fun hno => by cases hno
  · rintro ⟨-, stack', hb⟩
    exact absurd hb (hnone stack')
  · rw [hself]
    exact fun _ hz => by cases hz

theorem lone (h : JoinInv l) (hused : (l.proc p).state ≠ .unused)
    (hblocked : l.blocked p = none)
    (hfresh : ∀ q, q ≠ p → (l.proc q).state ≠ .unused → (l.proc q).isThread = false →
      (l.proc q).mainPid ≠ (l.proc p).pid) : JoinInv (l.lone p) := by
  have hself : (l.lone p).proc p = { l.proc p with
      mainPid := (l.proc p).pid, mainThread := some p, isThread := false } :=
    Life.set_proc_self ..
  have hnone : ∀ stack, (l.lone p).blocked p ≠ some (.join stack) := by
    intro stack hb
    cases hblocked.symm.trans hb
  refine h.of_slot (p := p) (fun hno => hused (h.started hno p))
    (fun q hq => ⟨Life.set_proc_ne l _ hq, rfl⟩) ?_ ?_
    (fun stack hb => absurd hb (hnone stack)) ?_ ?_
  · rw [hself]
    exact fun hno => by cases hno
  · rw [hself]
    exact fun _ => hfresh
  · rintro ⟨-, stack, hb⟩
    exact absurd hb (hnone stack)
  · rw [hself]
    exact fun hno => by cases hno

/-- `p` exits, when no thread of its process sleeps in `paull04_join`. -/
theorem die (h : JoinInv l) (hused : (l.proc p).state ≠ .unused) (hblocked : l.blocked p = none)
    (hawake : (l.proc p).isThread = true → ∀ q, l.AsleepInJoin q →
      (l.proc q).mainPid ≠ (l.proc p).mainPid) :
    JoinInv (l.set p { l.proc p with state := .zombie }) := by
  have hself : (l.set p { l.proc p with state := .zombie }).proc p =
      { l.proc p with state := .zombie } := Life.set_proc_self ..
  have hnone : ∀ stack, l.blocked p ≠ some (.join stack) := by
    intro stack hb
    cases hblocked.symm.trans hb
  refine h.of_slot (p := p) (fun hno => hused (h.started hno p))
    (fun q hq => ⟨Life.set_proc_ne l _ hq, rfl⟩) ?_ ?_
    (fun stack hb => absurd hb (hnone stack)) ?_ ?_
  · rw [hself]
    exact h.parents p
  · rw [hself]
    exact fun hmain q hq hqused hqmain hpid => hq (h.unique q p hqused hused hqmain hmain hpid)
  · rintro ⟨-, stack, hb⟩
    exact absurd hb (hnone stack)
  · rw [hself]
    exact fun hthread _ => hawake hthread

/-- A main thread goes to sleep in `paull04_join` when no thread of its process has exited. -/
theorem sleep_in_join (h : JoinInv l) (stack : Nat) (hmain : (l.proc p).isThread = false)
    (hused : (l.proc p).state ≠ .unused) (hnone : l.exitedThread p = none) :
    JoinInv (l.asleep p (.join stack)) := by
  have hself : (l.asleep p (.join stack)).proc p =
      { l.proc p with state := .sleeping, chan := .proc p } := Life.set_proc_self ..
  refine h.of_slot (p := p) (fun hno => hused (h.started hno p))
    (fun q hq => ⟨Life.set_proc_ne l _ hq, update_of_ne hq _ _⟩) ?_ ?_ ?_ ?_ ?_
  · rw [hself]
    exact h.parents p
  · rw [hself]
    exact fun _ q hq hqused hqmain hpid => hq (h.unique q p hqused hused hqmain hmain hpid)
  · rw [hself]
    exact fun _ _ => ⟨hmain, by simp, by simp⟩
  · rw [hself]
    refine fun _ => ⟨rfl, fun q hq hz => ?_⟩
    have hfind := List.find?_eq_none.mp hnone q (List.mem_finRange q)
    exact hfind (by simp [hq.1, hq.2, hz])
  · rw [hself]
    exact fun _ hz => by cases hz

/-! ## Exit -/

/-- `reparent` and `wakeup` leave the members of the processes as they are. -/
structure SameMembers (l l' : Life) (q : Slot) : Prop where
  isThread : (l'.proc q).isThread = (l.proc q).isThread
  mainPid : (l'.proc q).mainPid = (l.proc q).mainPid
  mainThread : (l'.proc q).mainThread = (l.proc q).mainThread
  unused : (l'.proc q).state = .unused ↔ (l.proc q).state = .unused

theorem same_members_wake (l : Life) (self : Slot) (chan : Chan) (q : Slot) :
    SameMembers l (l.wake self chan) q := by
  obtain ⟨st, hproc, hwoken⟩ := l.wake_proc self chan q
  constructor <;> rw [hproc]
  exact hwoken.unused

theorem SameMembers.trans {l1 l2 l3 : Life} (h : SameMembers l1 l2 q) (h' : SameMembers l2 l3 q) :
    SameMembers l1 l3 q :=
  ⟨h'.isThread.trans h.isThread, h'.mainPid.trans h.mainPid, h'.mainThread.trans h.mainThread,
    h'.unused.trans h.unused⟩

theorem same_members_reparent (l : Life) (self p q : Slot) :
    SameMembers l (l.reparent self p) q := by
  obtain ⟨st, hproc, hwoken⟩ := l.reparent_proc self p q
  constructor <;> rw [hproc]
  exact hwoken.unused

theorem parent_reparent (self : Slot) (hq : (l.proc q).parent ≠ some p) :
    ((l.reparent self p).proc q).parent = (l.proc q).parent := by
  obtain ⟨st, hproc, -⟩ := l.reparent_proc self p q
  rw [hproc]
  exact if_neg hq

theorem die_main (h : JoinInv l) (hused : (l.proc p).state ≠ .unused)
    (hblocked : l.blocked p = none) (hmain : (l.proc p).isThread = false)
    (hchild : ∀ q, (l.proc q).isThread = true → (l.proc q).parent ≠ some p) :
    JoinInv (l.died p) := by
  have hreparent := same_members_reparent l p p p
  have hwake := same_members_wake (l.reparent p p) p (.ofPtr ((l.reparent p p).proc p).parent) p
  have hsame := hreparent.trans hwake
  refine die (wake (h.reparent hchild p) p _) (mt hsame.unused.mp hused) ?_ fun hthread => ?_
  · show (l.reparent p p).blocked p = none
    rw [(l.reparent_rest p p).1]
    exact hblocked
  · rw [hsame.isThread, hmain] at hthread
    cases hthread

theorem die_thread (h : JoinInv l) (hf : Family l) (hblocked : l.blocked p = none)
    (hthread : (l.proc p).isThread = true) : JoinInv (l.died p) := by
  have hused := hf.used_of_thread hthread
  have hchild : ∀ q, (l.proc q).isThread = true → (l.proc q).parent ≠ some p := by
    intro q hq hparent
    rw [h.parents q hq] at hparent
    obtain ⟨main, hmain, -, hself, -⟩ := hf.main q (hf.used_of_thread hq)
    obtain rfl : main = p := Option.some.inj (hmain.symm.trans hparent)
    rw [hself] at hthread
    cases hthread
  obtain ⟨main, hmain, hmainUsed, hmainSelf, hmainPid⟩ := hf.main p hused
  have hparent : ((l.reparent p p).proc p).parent = some main := by
    rw [parent_reparent p (hchild p hthread), h.parents p hthread]
    exact hmain
  have hl1 : JoinInv (l.reparent p p) := h.reparent hchild p
  have hsame := fun q => (same_members_reparent l p p q).trans
    (same_members_wake (l.reparent p p) p (.ofPtr ((l.reparent p p).proc p).parent) q)
  refine die (wake hl1 p _) (mt (hsame p).unused.mp hused) ?_ fun _ q hq hpid => ?_
  · show (l.reparent p p).blocked p = none
    rw [(l.reparent_rest p p).1]
    exact hblocked
  · -- A joiner of the process is its main thread, and that has just been woken.
    obtain ⟨hsleeping, stack, hb⟩ := hq
    have hold : (l.reparent p p).blocked q = some (.join stack) := hb
    obtain ⟨hqmain, hqused, -⟩ := hl1.joining q stack hold
    rw [(same_members_reparent l p p q).isThread] at hqmain
    rw [Ne, (same_members_reparent l p p q).unused] at hqused
    rw [(hsame q).mainPid, (hsame p).mainPid, ← hmainPid, ← hf.main_pid hmainUsed hmainSelf]
      at hpid
    obtain rfl := h.unique q main hqused hmainUsed hqmain hmainSelf hpid
    have hqp : q ≠ p := by
      rintro rfl
      rw [hthread] at hqmain
      cases hqmain
    by_cases hawake : q ≠ p ∧ ((l.reparent p p).proc q).state = .sleeping ∧
        ((l.reparent p p).proc q).chan = .ofPtr ((l.reparent p p).proc p).parent
    · have hproc : ((l.reparent p p).wake p (.ofPtr ((l.reparent p p).proc p).parent)).proc q =
          { (l.reparent p p).proc q with state := .runnable } := if_pos hawake
      rw [hproc] at hsleeping
      cases hsleeping
    · have hproc : ((l.reparent p p).wake p (.ofPtr ((l.reparent p p).proc p).parent)).proc q =
          (l.reparent p p).proc q := if_neg hawake
      rw [hproc] at hsleeping
      refine hawake ⟨hqp, hsleeping, ?_⟩
      rw [(hl1.asleep q ⟨hsleeping, stack, hold⟩).1, hparent]
      rfl

/-! ## Every step -/

theorem effect {call : Call} {r : Option Int} (h : JoinInv l) (hf : Family l)
    (hrunning : (l.proc p).state = .running)
    (hblocked : ∀ b, l.blocked p = some b → call = b.call)
    (hjoin : ∀ stack, call = .join stack → (l.proc p).isThread = false)
    (hfork : call = .fork → ∀ q, (l.proc q).state ≠ .unused → (l.proc q).mainPid ≠ l.nextpid)
    (hexec : ∀ file argv, call = .exec file argv → (l.proc p).isThread = true →
      ∀ q, (l.proc q).state ≠ .unused → (l.proc q).mainPid ≠ (l.proc p).pid)
    (heffect : CallEffect p l call r l') : JoinInv l' := by
  have hused : (l.proc p).state ≠ .unused := by
    rw [hrunning]
    decide
  have hinit : l.initproc ≠ none := fun hno => hused (h.started hno p)
  have hfree : (∀ b, call ≠ Blocked.call b) → l.blocked p = none := by
    intro hcall
    cases hb : l.blocked p with
    | none => rfl
    | some b => exact absurd (hblocked b hb) (hcall b)
  cases heffect with
  | plain => exact h
  | full => exact h
  | @forkFailed np b hnp hb =>
    have hclear := (h.spend).clear (p := np) (h.not_joining (Or.inr (Or.inl hnp)))
    rcases hb with rfl | rfl
    · exact hclear.unblock np
    · exact hclear.fades ⟨rfl, fun q => Fade.same rfl (by simp [Life.block, Life.set, Life.spend])⟩
  | fork => exact h.born _ _ hinit (hfork rfl)
  | @cloneFailed np stack hnp =>
    refine h.fades (Fades.of_slot (p := np) rfl (fun q hq => ⟨Life.set_proc_ne _ _ hq, rfl⟩) ?_)
    left
    refine ⟨?_, ?_, h.not_joining (Or.inr (Or.inl hnp))⟩
    · rw [Life.set_proc_self]
      exact hnp
    · rw [Life.set_proc_self]
      exact hf.idle np hnp
  | clone => exact h.cloned p _ _ _ hinit
  | @exec main file argv r hmain hchildless =>
    have hlone : JoinInv (l.lone p) := by
      refine h.lone hused (hfree fun b hb => by cases b <;> cases hb) fun q hq hqused hqmain => ?_
      cases hthread : (l.proc p).isThread with
      | true => exact hexec _ _ rfl hthread q hqused
      | false =>
        rw [← hf.main_pid hused hthread]
        exact fun hpid => hq (h.unique q p hqused hused hqmain hthread hpid)
    have hsweep := hlone.sweep ((l.lone p).proc main).pid
    unfold Life.execed
    dsimp only
    split
    · exact hsweep
    · exact hsweep.restate _ _ Iff.rfl id fun _ _ hs => ⟨hs, rfl⟩
  | exitMain _ hmain =>
    have hnone := hfree fun b hb => by cases b <;> cases hb
    have hgroup : ¬ l.InGroup (l.proc p).pid p := by
      intro hself
      have hthread := hself.2
      rw [hmain] at hthread
      cases hthread
    have hproc : (l.sweep (l.proc p).pid).proc p = l.proc p := if_neg hgroup
    refine (h.sweep (l.proc p).pid).die_main ?_ hnone ?_ fun q hq hparent => ?_
    · rw [hproc]
      exact hused
    · rw [hproc]
      exact hmain
    · by_cases hin : l.InGroup (l.proc p).pid q
      · have hswept : (l.sweep (l.proc p).pid).proc q = {} := if_pos hin
        rw [hswept] at hq
        cases hq
      · have hkept : (l.sweep (l.proc p).pid).proc q = l.proc q := if_neg hin
        rw [hkept] at hq hparent
        rw [h.parents q hq] at hparent
        obtain ⟨m, hm, -, -, hpid⟩ := hf.main q (hf.used_of_thread hq)
        obtain rfl : m = p := Option.some.inj (hm.symm.trans hparent)
        exact hin ⟨hpid.symm, hq⟩
  | exitThread _ hthread =>
    exact h.die_thread hf (hfree fun b hb => by cases b <;> cases hb) hthread
  | @kill q main pid _ _ =>
    refine h.restate _ _ ?_ ?_ fun stack _ hs => ?_
    · split
      next hsleeping => simp [hsleeping]
      next => exact Iff.rfl
    · split
      next => exact fun hz => by cases hz
      next => exact id
    · split at hs
      next => cases hs
      next hawake => exact absurd hs hawake
  | joinEnds => exact h.unblock p
  | @join np stack hnp _ =>
    have hzombie : (l.proc np).state = .zombie := by
      have hfound := List.find?_some hnp
      simp only [Bool.and_eq_true, decide_eq_true_eq] at hfound
      exact hfound.2
    refine (h.unblock p).clear ((h.unblock p).not_joining (Or.inr (Or.inr hzombie)))
  | joinSleeps hnone => exact h.sleep_in_join _ (hjoin _ rfl) hused hnone
  | waitEnds => exact h.unblock p
  | wait _ _ hzombie =>
    exact (h.unblock p).clear ((h.unblock p).not_joining (Or.inr (Or.inr hzombie)))
  | @waitSleeps addr =>
    have hself : (l.asleep p (.wait addr)).blocked p = some (.wait addr) :=
      update_self ..
    refine h.fades (Fades.of_slot (p := p) rfl
      (fun q hq => ⟨Life.set_proc_ne _ _ hq, update_of_ne hq _ _⟩) ?_)
    right
    have hproc : (l.asleep p (.wait addr)).proc p =
        { l.proc p with state := .sleeping, chan := .proc p } := Life.set_proc_self ..
    rw [hproc, hself]
    refine ⟨rfl, rfl, rfl, fun _ => rfl, ?_, fun hz => (by cases hz), fun stack hb => ?_⟩
    · simp [hused]
    · cases hb

theorem life_step {e : Event} {r : Option Int} (h : JoinInv (life s)) (hf : Family (life s))
    (hguard : MainJoins s e) (hstep : LifeStep (life s) e r l') : JoinInv l' := by
  cases hstep with
  | idle => exact h
  | @userinit np hinit hnp =>
    have hall := h.started hinit
    refine (h.start np).born _ np (fun hno => by cases hno) fun q hq => ?_
    exact absurd (hall q) hq
  | @schedule p hrunnable =>
    refine h.restate _ _ ?_ (fun hz => by cases hz) fun _ _ hs => by cases hs
    simp [hrunnable]
  | @yield p hrunning =>
    refine h.restate ((life s).proc p).chan ((life s).proc p).killed ?_
      (fun hz => by cases hz) fun _ _ hs => by cases hs
    simp [hrunning]
  | @sleep p chan hrunning hblocked =>
    refine h.restate _ ((life s).proc p).killed ?_ (fun hz => by cases hz)
      fun stack hb => ?_
    · simp [hrunning]
    · rw [hblocked] at hb
      cases hb
  | wakeup => exact h.wake _ _
  | @call p call r l' hrunning hblocked heffect =>
    have hnone : ∀ b, (life s).blocked p = some b → (life s).trapped p call = b.call := by
      intro b hb
      rw [hblocked] at hb
      cases hb
    unfold Life.trapped at heffect hnone
    split at heffect
    next hkilled =>
      rw [if_pos hkilled] at hnone
      exact h.effect hf hrunning hnone (fun _ hc => by cases hc) (fun hc => by cases hc)
        (fun _ _ hc => by cases hc) heffect
    next hkilled =>
      rw [if_neg hkilled] at hnone
      refine h.effect hf hrunning hnone ?_ ?_ ?_ heffect
      · rintro stack rfl
        exact hguard
      · rintro rfl
        exact hguard
      · rintro file argv rfl
        exact hguard
  | @resume p b r l' hrunning hblocked heffect =>
    refine h.effect hf hrunning ?_ ?_ ?_ ?_ heffect
    · intro b' hb
      rw [hblocked] at hb
      cases hb
      rfl
    · intro stack hc
      cases b with
      | wait addr => cases hc
      | join stack' => exact (h.joining p stack' hblocked).1
    · intro hc
      cases b <;> cases hc
    · intro file argv hc
      cases b <;> cases hc

theorem boot (free : List Page) : JoinInv (life (boot free)) := by
  refine ⟨fun _ _ => rfl, fun q hq => ?_, fun q r hq => ?_, fun p stack hb => ?_, fun p hp => ?_⟩
  · cases hq
  · exact absurd rfl hq
  · cases hb
  · cases hp.1

end JoinInv

/-! ## Every run -/

instance (s : System) : (e : Event) → Decidable (MainJoins s e)
  | .call p (.join _) => inferInstanceAs (Decidable ((s.proc p).isThread = false))
  | .call _ .fork => inferInstanceAs
      (Decidable (∀ q, (s.proc q).state ≠ .unused → (s.proc q).mainPid ≠ s.nextpid))
  | .call p (.exec _ _) => inferInstanceAs (Decidable ((s.proc p).isThread = true →
      ∀ q, (s.proc q).state ≠ .unused → (s.proc q).mainPid ≠ (s.proc p).pid))
  | .userinit | .schedule _ | .yield _ | .sleep _ _ | .wakeup _ _ | .resume _
  | .call _ (.clone _) | .call _ (.exit _) | .call _ (.kill _) | .call _ (.wait _)
  | .call _ (.growproc _) | .call _ (.open _) | .call _ (.dup _) | .call _ (.close _) =>
    .isTrue trivial

/-- In every run in which only main threads join, nobody sleeps in `paull04_join` beside a thread
that has exited, or waits for itself. -/
theorem join_never_loses_wakeup {free : List Page}
    (h : Reachable (fun s => s = boot free) MainJoins step s) : NoLostWakeup s := by
  have hinv : Grouped (members s) s.mem ∧ JoinInv (life s) := by
    refine Reachable.induct (E := Fault.any)
      (fun s => Grouped (members s) s.mem ∧ JoinInv (life s)) ?_ ?_ h
    · rintro _ rfl
      exact ⟨boot_grouped free, JoinInv.boot free⟩
    · rintro s e ⟨hgrouped, hjoin⟩ hguard
      have hboth := wp_and (wp_mono_fault (step_grouped hgrouped e) fun _ _ => trivial)
        (life_step hgrouped e)
      refine wp_mono hboth fun r s' hs' => ⟨hs'.1.1, ?_⟩
      exact hjoin.life_step hgrouped.family hguard hs'.2
  exact hinv.2.no_lost_wakeup

/-- The main thread sleeps in `paull04_join` until its thread exits. -/
def joiner : System :=
  lastState MainJoins step
    [.userinit, .schedule 0, .call 0 (.clone 0), .call 0 (.join 0), .schedule 1]
    (boot (List.range' 1 15))

theorem join_never_loses_wakeup_joiner :
    (life joiner).AsleepInJoin 0 ∧ (joiner.proc 1).state = .running ∧ NoLostWakeup joiner := by
  have hboot : Reachable (fun s => s = boot (List.range' 1 15)) MainJoins step
      (boot (List.range' 1 15)) := .start rfl
  refine ⟨⟨by decide +kernel, 0, by decide +kernel⟩, by decide +kernel, ?_⟩
  exact join_never_loses_wakeup (hboot.last_state _)

/-- The only thread of a process calls `paull04_join`. -/
def joinsItself : System :=
  lastState unguarded step
    [.userinit, .schedule 0, .call 0 (.clone 0), .schedule 1, .call 1 (.join 0)]
    (boot (List.range' 1 15))

theorem join_waits_for_itself :
    Reachable (fun s => s = boot (List.range' 1 15)) unguarded step joinsItself ∧
      ¬ NoLostWakeup joinsItself := by
  have hboot : Reachable (fun s => s = boot (List.range' 1 15)) unguarded step
      (boot (List.range' 1 15)) := .start rfl
  refine ⟨hboot.last_state _, fun h => ?_⟩
  refine h.alone 1 ⟨by decide +kernel, 0, by decide +kernel⟩ ⟨by decide +kernel, ?_⟩
  decide +kernel

end Xv6.Thread.Calls
