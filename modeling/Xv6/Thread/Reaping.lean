import Xv6.Thread.Join
import Xv6.Thread.Life

/-!
# Who reaps whom

`wait` and `paull04_join` share the process table and its ZOMBIE state. Here every run of the
kernel keeps a record of the pids that `fork`, `paull04_clone`, `wait` and `paull04_join` return
and of the calls of `exit` and `exec`, and the record is what the two calls promise: a pid is
reaped once, a thread by a join in its own process that hands back the stack it was cloned with,
a process by a wait of its parent.
-/

namespace Xv6.Thread.Calls

variable {s s' : System} {l l' : Life} {p q r np main : Slot}

/-- What has happened to a pid. -/
inductive Deed where
  /-- `paull04_clone` with this stack returned it to a thread of `process`. -/
  | cloned (pid process : Int) (stack : Nat)
  /-- `fork` returned it to `creator`. -/
  | forked (pid creator : Int)
  /-- It called `exit`. -/
  | exited (pid : Int)
  /-- It called `exec`, which succeeded. -/
  | execed (pid : Int)
  /-- `paull04_join` by a thread of `process` returned it and stored `value` for the caller. -/
  | joined (pid process : Int) (value : List Byte)
  /-- `wait` by `waiter`, which was `init` or not, returned it. -/
  | waited (pid waiter : Int) (byInit : Bool)
  deriving DecidableEq, Repr

/-- The pid that something has happened to. -/
def Deed.pid : Deed → Int
  | .cloned pid _ _ | .forked pid _ | .exited pid | .execed pid | .joined pid _ _
  | .waited pid _ _ => pid

/-- The pid is given out. -/
def Deed.makes : Deed → Bool
  | .cloned .. | .forked .. => true
  | .exited _ | .execed _ | .joined .. | .waited .. => false

/-- A join or wait that returns `pid`. -/
def Deed.reaps (pid : Int) : Deed → Bool
  | .joined pid' _ _ | .waited pid' _ _ => decide (pid' = pid)
  | .cloned .. | .forked .. | .exited _ | .execed _ => false

theorem Deed.pid_of_reaps {d : Deed} {pid : Int} (h : d.reaps pid = true) : d.pid = pid := by
  cases d with
  | joined | waited => exact of_decide_eq_true h
  | cloned | forked | exited | execed => cases h

/-- The call that an event makes for a slot. -/
def Life.madeCall (l : Life) : Event → Option (Slot × Call)
  | .call p call =>
    if (l.proc p).state = .running ∧ l.blocked p = none then some (p, l.trapped p call) else none
  | .resume p =>
    if (l.proc p).state = .running then (l.blocked p).map fun b => (p, b.call) else none
  | .userinit | .schedule _ | .yield _ | .sleep _ _ | .wakeup _ _ => none

theorem Life.made_running {e : Event} {call : Call} (l : Life)
    (h : l.madeCall e = some (p, call)) : (l.proc p).state = .running := by
  unfold Life.madeCall at h
  cases e with
  | call p' call' =>
    dsimp only at h
    split at h
    next hrunning =>
      cases h
      exact hrunning.1
    next => cases h
  | resume p' =>
    dsimp only at h
    split at h
    next hrunning =>
      obtain ⟨b, -, hb⟩ := Option.map_eq_some_iff.mp h
      cases hb
      exact hrunning
    next => cases h
  | userinit | schedule | yield | sleep | wakeup => cases h

/-- What a call by `p` that returns `r` and stores `value` in user memory adds to the record. -/
def Life.callDeed (l : Life) (p : Slot) (call : Call) (value : List Byte) (r : Option Int) :
    Option Deed :=
  match call, r with
  | .fork, some pid => if pid = -1 then none else some (.forked pid (l.proc p).pid)
  | .clone stack, some pid =>
    if pid = -1 then none else some (.cloned pid (l.proc p).mainPid stack)
  | .exec _ _, some argc => if argc = -1 then none else some (.execed (l.proc p).pid)
  | .exit _, _ => some (.exited (l.proc p).pid)
  | .join _, some pid =>
    if pid = -1 then none else some (.joined pid (l.proc p).mainPid value)
  | .wait _, some pid =>
    if pid = -1 then none
    else some (.waited pid (l.proc p).pid (decide (l.initproc = some p)))
  | _, _ => none

/-- What an event that returns `r` and stores `value` in user memory adds to the record. -/
def Life.deed (l : Life) (e : Event) (value : List Byte) (r : Option Int) : Option Deed :=
  (l.madeCall e).bind fun made => l.callDeed made.1 made.2 value r

/-- The kernel and the record of the run, newest first. -/
abbrev Recorded := System × List Deed

/-- One event, put on record. -/
def recordedStep (e : Event) : Kernel Recorded (Option Int) := fun t =>
  match step e t.1 with
  | .ok (r, s') => .ok (r, (s', ((life t.1).deed e (t.1.mem.stored s'.mem) r).toList ++ t.2))
  | .error f => .error f

/-- A pid is given out only while `nextpid` has not gone past the largest `int`: the pids given
out in a run are fewer than 2 ^ 31. -/
def FewPids (t : Recorded) (e : Event) : Prop :=
  match step e t.1 with
  | .ok (_, s') => s'.nextpid = t.1.nextpid ∨ 0 < t.1.nextpid
  | .error _ => True

instance (t : Recorded) (e : Event) : Decidable (FewPids t e) := by
  unfold FewPids
  split <;> infer_instance

/-- Every pid is reaped once, and by the right call. -/
structure ReapedRight (past : List Deed) : Prop where
  once : ∀ pid, past.countP (Deed.reaps pid) ≤ 1
  joined : ∀ pid process stack, .cloned pid process stack ∈ past →
    ∀ newer older process' value, past = newer ++ .joined pid process' value :: older →
      process' = process ∧ value = leBytes 8 stack ∧ .exited pid ∈ older
  execed : ∀ pid process stack, .cloned pid process stack ∈ past →
    ∀ newer older waiter byInit, past = newer ++ .waited pid waiter byInit :: older →
      .execed pid ∈ older
  notJoined : ∀ pid creator, .forked pid creator ∈ past →
    ∀ process value, .joined pid process value ∉ past
  waited : ∀ pid creator, .forked pid creator ∈ past →
    ∀ newer older waiter byInit, past = newer ++ .waited pid waiter byInit :: older →
      waiter = creator ∨ byInit = true ∧ .exited creator ∈ older

/-! ## The record by itself -/

/-- What must have happened before. -/
def Fits : Deed → List Deed → Prop
  | .cloned pid _ _, older | .forked pid _, older => ∀ d ∈ older, d.pid ≠ pid
  | .joined pid process value, older =>
    (∃ stack, .cloned pid process stack ∈ older ∧ value = leBytes 8 stack) ∧
      .exited pid ∈ older ∧ older.countP (Deed.reaps pid) = 0
  | .waited pid waiter byInit, older =>
    (∀ process stack, .cloned pid process stack ∈ older → .execed pid ∈ older) ∧
    (∀ creator, .forked pid creator ∈ older →
      waiter = creator ∨ byInit = true ∧ .exited creator ∈ older) ∧
    older.countP (Deed.reaps pid) = 0
  | .exited _, _ | .execed _, _ => True

/-- Every deed fits what was on record before. -/
def Fitting : List Deed → Prop
  | [] => True
  | d :: older => Fits d older ∧ Fitting older

namespace Fitting

variable {past newer older : List Deed} {d : Deed} {pid : Int}

theorem split (h : Fitting past) (hpast : past = newer ++ d :: older) : Fits d older := by
  subst hpast
  induction newer with
  | nil => exact h.1
  | cons d' newer ih => exact ih h.2

theorem fresh (hfits : Fits d older) (hd : d.makes = true) : ∀ d' ∈ older, d'.pid ≠ d.pid := by
  cases d with
  | cloned | forked => exact hfits
  | exited | execed | joined | waited => cases hd

/-- A pid is given out before anything else happens to it. -/
theorem made_before {made : Deed} (h : Fitting past) (hpast : past = newer ++ d :: older)
    (hmakes : made.makes = true) (hd : d.makes = false) (hmade : made ∈ past)
    (hpid : d.pid = made.pid) : made ∈ older := by
  rw [hpast, List.mem_append, List.mem_cons] at hmade
  rcases hmade with hnewer | rfl | holder
  · obtain ⟨newer', older', rfl⟩ := List.append_of_mem hnewer
    have hsplit : past = newer' ++ made :: (older' ++ d :: older) := by
      rw [hpast, List.append_assoc, List.cons_append]
    have hfits := h.split hsplit
    exact absurd hpid (fresh hfits hmakes d (by simp))
  · rw [hd] at hmakes
    cases hmakes
  · exact holder

theorem made_once {made made' : Deed} (h : Fitting past) (hmakes : made.makes = true)
    (hmakes' : made'.makes = true) (h1 : made ∈ past) (h2 : made' ∈ past)
    (hpid : made.pid = made'.pid) : made = made' := by
  induction past with
  | nil => cases h1
  | cons d older ih =>
    obtain ⟨hfits, hrest⟩ := h
    rcases List.mem_cons.mp h1 with rfl | hold1
    · rcases List.mem_cons.mp h2 with rfl | hold2
      · rfl
      · exact absurd hpid.symm (fresh hfits hmakes made' hold2)
    · rcases List.mem_cons.mp h2 with rfl | hold2
      · exact absurd hpid (fresh hfits hmakes' made hold1)
      · exact ih hrest hold1 hold2

theorem reaps_first (hfits : Fits d older) (hd : d.reaps pid = true) :
    older.countP (Deed.reaps pid) = 0 := by
  cases d with
  | joined pid' process value =>
    obtain rfl := of_decide_eq_true hd
    exact hfits.2.2
  | waited pid' waiter byInit =>
    obtain rfl := of_decide_eq_true hd
    exact hfits.2.2
  | cloned | forked | exited | execed => cases hd

theorem reaped_once (h : Fitting past) (pid : Int) : past.countP (Deed.reaps pid) ≤ 1 := by
  induction past with
  | nil => simp
  | cons d older ih =>
    cases hd : d.reaps pid with
    | false =>
      rw [List.countP_cons_of_neg (by simp [hd])]
      exact ih h.2
    | true =>
      rw [List.countP_cons_of_pos hd, reaps_first h.1 hd]

theorem reaped_right (h : Fitting past) : ReapedRight past := by
  refine ⟨h.reaped_once, ?_, ?_, ?_, ?_⟩
  · intro pid process stack hcloned newer older process' value hpast
    obtain ⟨⟨stack', hmade, hvalue⟩, hexited, -⟩ := h.split hpast
    have hmem : .cloned pid process' stack' ∈ past := by
      rw [hpast]
      simp [hmade]
    have hsame := h.made_once rfl rfl hmem hcloned rfl
    cases hsame
    exact ⟨rfl, hvalue, hexited⟩
  · intro pid process stack hcloned newer older waiter byInit hpast
    exact (h.split hpast).1 process stack (h.made_before hpast rfl rfl hcloned rfl)
  · intro pid creator hforked process value hjoined
    obtain ⟨newer, older, hpast⟩ := List.append_of_mem hjoined
    obtain ⟨⟨stack, hmade, -⟩, -⟩ := h.split hpast
    have hmem : .cloned pid process stack ∈ past := by
      rw [hpast]
      simp [hmade]
    have hsame := h.made_once rfl rfl hmem hforked rfl
    cases hsame
  · intro pid creator hforked newer older waiter byInit hpast
    exact (h.split hpast).2.1 creator (h.made_before hpast rfl rfl hforked rfl)

end Fitting

/-! ## The record and the slots -/

/-- A pid that has been given out. -/
def Issued (l : Life) (pid : Int) : Prop := 0 < pid ∧ (0 < l.nextpid → pid < l.nextpid)

/-- Slot `q` is in use and has not exited. -/
def Life.Alive (l : Life) (q : Slot) : Prop :=
  (l.proc q).state ≠ .unused ∧ (l.proc q).state ≠ .zombie

theorem alive_of_running (h : (l.proc p).state = .running) : l.Alive p := by
  unfold Life.Alive
  rw [h]
  decide

/-- What the record says about the slots in use. -/
structure Recording (l : Life) (past : List Deed) : Prop where
  range : l.nextpid < 2 ^ 31
  started : l.initproc = none → ∀ q, (l.proc q).state = .unused
  init : ∀ i, l.initproc = some i → l.Alive i ∧ (l.proc i).isThread = false
  idle : ∀ q, (l.proc q).state = .unused → (l.proc q).isThread = false
  issued : ∀ q, (l.proc q).state ≠ .unused → Issued l (l.proc q).pid
  recorded : ∀ d ∈ past, Issued l d.pid
  distinct : ∀ q r, (l.proc q).state ≠ .unused → (l.proc r).state ≠ .unused →
    (l.proc q).pid = (l.proc r).pid → q = r
  thread : ∀ q, (l.proc q).isThread = true →
    .cloned (l.proc q).pid (l.proc q).mainPid (l.stackBase q) ∈ past
  process : ∀ q, (l.proc q).state ≠ .unused → (l.proc q).isThread = false →
    ∀ process stack, .cloned (l.proc q).pid process stack ∈ past → .execed (l.proc q).pid ∈ past
  zombie : ∀ q, (l.proc q).state = .zombie → .exited (l.proc q).pid ∈ past
  gone : ∀ q, (l.proc q).state ≠ .unused → past.countP (Deed.reaps (l.proc q).pid) = 0
  child : ∀ q, (l.proc q).state ≠ .unused →
    ∀ creator, .forked (l.proc q).pid creator ∈ past → (l.proc q).isThread = false ∧
      ((∃ c, (l.proc q).parent = some c ∧ l.Alive c ∧ (l.proc c).pid = creator) ∨
        ((l.proc q).parent = l.initproc ∧ .exited creator ∈ past))

/-- Slot `q` holds the same process or thread as before. If it has exited or become a process of
its own, or lost its parent, that is on record. -/
structure SameSlot (past : List Deed) (l l' : Life) (q : Slot) : Prop where
  unused : (l'.proc q).state = .unused ↔ (l.proc q).state = .unused
  zombie : (l'.proc q).state = .zombie →
    (l.proc q).state = .zombie ∨ .exited (l.proc q).pid ∈ past
  pid : (l'.proc q).pid = (l.proc q).pid
  thread : (l'.proc q).isThread = true → (l.proc q).isThread = true ∧
    (l'.proc q).mainPid = (l.proc q).mainPid ∧ l'.stackBase q = l.stackBase q
  process : (l'.proc q).isThread = false →
    (l.proc q).isThread = false ∨ .execed (l.proc q).pid ∈ past
  parent : (l'.proc q).parent = (l.proc q).parent ∨ (l'.proc q).parent = l.initproc ∧
    ∃ c, (l.proc q).parent = some c ∧ l.initproc ≠ some c ∧ .exited (l.proc c).pid ∈ past

/-- Slots hold what they held or have been freed, and no process has lost its parent. -/
structure KeepsSlots (past : List Deed) (l l' : Life) : Prop where
  nextpid : l'.nextpid = l.nextpid
  initproc : l'.initproc = l.initproc
  slot : ∀ q, SameSlot past l l' q ∨
    (l'.proc q).state = .unused ∧ (l'.proc q).isThread = false
  alive : ∀ q, l.Alive q → l'.Alive q ∨
    l.initproc ≠ some q ∧ ∀ r, (l.proc r).isThread = false → (l'.proc r).parent ≠ some q

namespace Recording

variable {past : List Deed}

/-- What a change of the slots must be for the record to stay right. -/
theorem keep (h : Recording l past) (hk : KeepsSlots past l l') : Recording l' past := by
  have hissued : ∀ pid, Issued l pid → Issued l' pid := by
    intro pid hpid
    unfold Issued
    rw [hk.nextpid]
    exact hpid
  -- a slot in use is the one it was
  have hsame : ∀ q, (l'.proc q).state ≠ .unused → SameSlot past l l' q := fun q hq =>
    (hk.slot q).resolve_right fun hfree => hq hfree.1
  have hused : ∀ q, (l'.proc q).state ≠ .unused → (l.proc q).state ≠ .unused := fun q hq =>
    mt (hsame q hq).unused.mpr hq
  have hmain : ∀ q, (l.proc q).isThread = false → (l'.proc q).isThread = false := by
    intro q hq
    rcases hk.slot q with hslot | hfree
    · refine Bool.eq_false_iff.mpr fun hthread => ?_
      rw [(hslot.thread hthread).1] at hq
      cases hq
    · exact hfree.2
  refine ⟨?_, ?_, ?_, ?_, ?_, ?_, ?_, ?_, ?_, ?_, ?_, ?_⟩
  · rw [hk.nextpid]
    exact h.range
  · intro hinit q
    have hunused := h.started (hk.initproc ▸ hinit) q
    rcases hk.slot q with hslot | hfree
    · exact hslot.unused.mpr hunused
    · exact hfree.1
  · intro i hi
    rw [hk.initproc] at hi
    obtain ⟨halive, hprocess⟩ := h.init i hi
    exact ⟨(hk.alive i halive).resolve_right fun hlost => hlost.1 hi, hmain i hprocess⟩
  · intro q hq
    rcases hk.slot q with hslot | hfree
    · exact hmain q (h.idle q (hslot.unused.mp hq))
    · exact hfree.2
  · intro q hq
    rw [(hsame q hq).pid]
    exact hissued _ (h.issued q (hused q hq))
  · exact fun d hd => hissued _ (h.recorded d hd)
  · intro q r hq hr hpid
    rw [(hsame q hq).pid, (hsame r hr).pid] at hpid
    exact h.distinct q r (hused q hq) (hused r hr) hpid
  · intro q hq
    rcases hk.slot q with hslot | hfree
    · obtain ⟨hthread, hmainPid, hstack⟩ := hslot.thread hq
      rw [hslot.pid, hmainPid, hstack]
      exact h.thread q hthread
    · rw [hfree.2] at hq
      cases hq
  · intro q hq hprocess process stack hcloned
    rw [(hsame q hq).pid] at hcloned ⊢
    rcases (hsame q hq).process hprocess with hold | hexeced
    · exact h.process q (hused q hq) hold process stack hcloned
    · exact hexeced
  · intro q hz
    have hslot := hsame q (by rw [hz]; decide)
    rw [hslot.pid]
    exact (hslot.zombie hz).elim (h.zombie q) id
  · intro q hq
    rw [(hsame q hq).pid]
    exact h.gone q (hused q hq)
  · intro q hq creator hforked
    have hslot := hsame q hq
    rw [hslot.pid] at hforked
    obtain ⟨hprocess, hparent⟩ := h.child q (hused q hq) creator hforked
    refine ⟨hmain q hprocess, ?_⟩
    rw [hk.initproc]
    rcases hslot.parent with hsame' | ⟨hinit, c', hc', hne, hexited⟩
    · rw [hsame']
      refine hparent.imp_left fun hcreator => ?_
      obtain ⟨c, hc, halive, hpid⟩ := hcreator
      have halive' := (hk.alive c halive).resolve_right fun hlost =>
        hlost.2 q hprocess (hsame'.trans hc)
      exact ⟨c, hc, halive', (hsame c halive'.1).pid.trans hpid⟩
    · rcases hparent with ⟨c, hc, -, hpid⟩ | ⟨hc, -⟩
      · obtain rfl : c' = c := Option.some.inj (hc'.symm.trans hc)
        exact Or.inr ⟨hinit, hpid ▸ hexited⟩
      · exact absurd (hc.symm.trans hc') hne

/-! ## Changes of one kind -/

/-- A slot that has changed its state, but not to UNUSED, nor to ZOMBIE without an exit. -/
theorem same_slot {st : ProcState} {chan : Chan} {killed : Bool}
    (hproc : l'.proc q = { l.proc q with state := st, chan := chan, killed := killed })
    (hstack : l'.stackBase q = l.stackBase q)
    (hunused : st = .unused ↔ (l.proc q).state = .unused)
    (hzombie : st = .zombie → (l.proc q).state = .zombie ∨ .exited (l.proc q).pid ∈ past) :
    SameSlot past l l' q := by
  constructor
  · rw [hproc]
    exact hunused
  · rw [hproc]
    exact hzombie
  · rw [hproc]
  · rw [hproc]
    exact fun hthread => ⟨hthread, rfl, hstack⟩
  · rw [hproc]
    exact Or.inl
  · rw [hproc]
    exact Or.inl rfl

theorem unchanged_slot (hproc : l'.proc q = l.proc q) (hstack : l'.stackBase q = l.stackBase q) :
    SameSlot past l l' q := same_slot hproc hstack Iff.rfl Or.inl

/-- Slots have changed their states, and none has become UNUSED or ZOMBIE. -/
theorem keep_states (h : Recording l past) (hnext : l'.nextpid = l.nextpid)
    (hinit : l'.initproc = l.initproc) (hstack : l'.stackBase = l.stackBase)
    (hproc : ∀ q, ∃ st chan killed,
      l'.proc q = { l.proc q with state := st, chan := chan, killed := killed } ∧
        (st = .unused ↔ (l.proc q).state = .unused) ∧
        (st = .zombie ↔ (l.proc q).state = .zombie)) : Recording l' past := by
  refine h.keep ⟨hnext, hinit, fun q => ?_, fun q hq => ?_⟩
  · obtain ⟨st, chan, killed, hq, hunused, hzombie⟩ := hproc q
    exact Or.inl (same_slot hq (congrFun hstack q) hunused fun hz => Or.inl (hzombie.mp hz))
  · obtain ⟨st, chan, killed, hq', hunused, hzombie⟩ := hproc q
    left
    unfold Life.Alive
    rw [hq']
    exact ⟨mt hunused.mp hq.1, mt hzombie.mp hq.2⟩

theorem restate {st : ProcState} (chan : Chan) (killed : Bool) (h : Recording l past)
    (hunused : st = .unused ↔ (l.proc p).state = .unused)
    (hzombie : st = .zombie ↔ (l.proc p).state = .zombie) :
    Recording (l.set p { l.proc p with state := st, chan := chan, killed := killed }) past := by
  refine h.keep_states rfl rfl rfl fun q => ?_
  by_cases hq : q = p
  · subst hq
    exact ⟨st, chan, killed, Life.set_proc_self .., hunused, hzombie⟩
  · exact ⟨_, _, _, Life.set_proc_ne l _ hq, Iff.rfl, Iff.rfl⟩

theorem block (h : Recording l past) (p : Slot) (b : Option Blocked) :
    Recording (l.block p b) past :=
  h.keep_states rfl rfl rfl fun _ => ⟨_, _, _, rfl, Iff.rfl, Iff.rfl⟩

theorem wake (h : Recording l past) (self : Slot) (chan : Chan) :
    Recording (l.wake self chan) past := by
  refine h.keep_states rfl rfl rfl fun q => ?_
  obtain ⟨st, hproc, hwoken⟩ := l.wake_proc self chan q
  exact ⟨st, _, _, hproc, hwoken.unused, hwoken.zombie⟩

/-- Slots that nobody needs have been freed. -/
theorem free (gone : Slot → Prop) (h : Recording l past) (hnext : l'.nextpid = l.nextpid)
    (hinit : l'.initproc = l.initproc) (hstack : l'.stackBase = l.stackBase)
    (hgone : ∀ q, gone q → l'.proc q = {}) (hkept : ∀ q, ¬ gone q → l'.proc q = l.proc q)
    (hneedless : ∀ q, gone q → l.Alive q → (l.proc q).isThread = true ∧
      ∀ r, (l.proc r).isThread = false → (l.proc r).parent ≠ some q) : Recording l' past := by
  refine h.keep ⟨hnext, hinit, fun q => ?_, fun q hq => ?_⟩
  · by_cases hg : gone q
    · right
      rw [hgone q hg]
      exact ⟨rfl, rfl⟩
    · exact Or.inl (unchanged_slot (hkept q hg) (congrFun hstack q))
  · by_cases hg : gone q
    · obtain ⟨hthread, hchildless⟩ := hneedless q hg hq
      refine Or.inr ⟨fun hi => ?_, fun r hr => ?_⟩
      · rw [(h.init q hi).2] at hthread
        cases hthread
      · by_cases hr' : gone r
        · rw [hgone r hr']
          exact fun hnone => by cases hnone
        · rw [hkept r hr']
          exact hchildless r hr
    · left
      unfold Life.Alive
      rw [hkept q hg]
      exact hq

theorem clear (h : Recording l past) (hp : ¬ l.Alive p) : Recording (l.set p {}) past := by
  refine h.free (· = p) rfl rfl rfl ?_ (fun q => Life.set_proc_ne l _) ?_
  · rintro q rfl
    exact Life.set_proc_self ..
  · rintro q rfl halive
    exact absurd halive hp

theorem sweep (h : Recording l past) {pid : Int} (hchildless : l.Childless pid) :
    Recording (l.sweep pid) past := by
  refine h.free (l.InGroup pid) rfl rfl rfl (fun q hq => if_pos hq) (fun q hq => if_neg hq)
    fun q hq _ => ⟨hq.2, fun r hmain => hchildless q r hq fun hr => ?_⟩
  have hthread := hr.2
  rw [hmain] at hthread
  cases hthread

/-! ## Deeds and what comes with them -/

section

variable (h : Recording l past)

include h

theorem record {d : Deed} (hpid : Issued l d.pid)
    (hmakes : d.makes = false) (hreaps : ∀ q, (l.proc q).state ≠ .unused →
      d.reaps (l.proc q).pid = false) : Recording l (d :: past) := by
  have hnot : ∀ made : Deed, made.makes = true → made ∈ d :: past → made ∈ past := by
    intro made hmade hmem
    rcases List.mem_cons.mp hmem with rfl | hmem
    · rw [hmakes] at hmade
      cases hmade
    · exact hmem
  refine ⟨h.range, h.started, h.init, h.idle, h.issued, fun d' hd' => ?_, h.distinct,
    fun q hq => ?_, fun q hq hmain process stack hcloned => ?_, fun q hz => ?_, fun q hq => ?_,
    fun q hq creator hforked => ?_⟩
  · rcases List.mem_cons.mp hd' with rfl | hd'
    · exact hpid
    · exact h.recorded d' hd'
  · exact List.mem_cons_of_mem d (h.thread q hq)
  · exact List.mem_cons_of_mem d (h.process q hq hmain process stack (hnot _ rfl hcloned))
  · exact List.mem_cons_of_mem d (h.zombie q hz)
  · rw [List.countP_cons_of_neg (by simp [hreaps q hq])]
    exact h.gone q hq
  · obtain ⟨hmain, hparent⟩ := h.child q hq creator (hnot _ rfl hforked)
    refine ⟨hmain, hparent.imp_right fun hinit => ⟨hinit.1, ?_⟩⟩
    exact List.mem_cons_of_mem d hinit.2

/-- `p` calls `exec` and becomes the main thread of its own process. -/
theorem lone
    (hexeced : .execed (l.proc p).pid ∈ past) : Recording (l.lone p) past := by
  have hself : (l.lone p).proc p = { l.proc p with
      mainPid := (l.proc p).pid, mainThread := some p, isThread := false } :=
    Life.set_proc_self ..
  have hother : ∀ q, q ≠ p → (l.lone p).proc q = l.proc q := fun q hq => Life.set_proc_ne l _ hq
  refine h.keep ⟨rfl, rfl, fun q => Or.inl ?_, fun q hq => Or.inl ?_⟩
  · by_cases hq : q = p
    · subst hq
      constructor <;> rw [hself]
      · exact Or.inl
      · exact fun hthread => by cases hthread
      · exact fun _ => Or.inr hexeced
      · exact Or.inl rfl
    · exact unchanged_slot (hother q hq) rfl
  · unfold Life.Alive
    by_cases hqp : q = p
    · rw [hqp, hself]
      exact hqp ▸ hq
    · rw [hother q hqp]
      exact hq

/-- The children of `p`, which has called `exit`, go to the first process. -/
theorem reparent (self : Slot) (hinit : l.initproc ≠ some p)
    (hexited : .exited (l.proc p).pid ∈ past) : Recording (l.reparent self p) past := by
  obtain ⟨-, hstack, hinitproc, hnextpid⟩ := l.reparent_rest self p
  refine h.keep ⟨hnextpid, hinitproc, fun q => Or.inl ?_, fun q hq => Or.inl ?_⟩
  · obtain ⟨st, hproc, hwoken⟩ := l.reparent_proc self p q
    constructor <;> rw [hproc]
    · exact hwoken.unused
    · exact fun hz => Or.inl (hwoken.zombie.mp hz)
    · exact fun hthread => ⟨hthread, rfl, congrFun hstack q⟩
    · exact Or.inl
    · by_cases hchild : (l.proc q).parent = some p
      · exact Or.inr ⟨if_pos hchild, p, hchild, hinit, hexited⟩
      · exact Or.inl (if_neg hchild)
  · obtain ⟨st, hproc, hwoken⟩ := l.reparent_proc self p q
    unfold Life.Alive
    rw [hproc]
    exact ⟨mt hwoken.unused.mp hq.1, mt hwoken.zombie.mp hq.2⟩

/-- `p`, which has called `exit` and has no children left, becomes a ZOMBIE. -/
theorem die (hinit : l.initproc ≠ some p)
    (hused : (l.proc p).state ≠ .unused) (hchild : ∀ q, (l.proc q).parent ≠ some p)
    (hexited : .exited (l.proc p).pid ∈ past) :
    Recording (l.set p { l.proc p with state := .zombie }) past := by
  have hself : (l.set p { l.proc p with state := .zombie }).proc p =
      { l.proc p with state := .zombie } := Life.set_proc_self ..
  have hother : ∀ q, q ≠ p → (l.set p { l.proc p with state := .zombie }).proc q = l.proc q :=
    fun q hq => Life.set_proc_ne l _ hq
  refine h.keep ⟨rfl, rfl, fun q => Or.inl ?_, fun q hq => ?_⟩
  · by_cases hq : q = p
    · subst hq
      exact same_slot hself rfl (by simp [hused]) fun _ => Or.inr hexited
    · exact unchanged_slot (hother q hq) rfl
  · by_cases hqp : q = p
    · subst hqp
      refine Or.inr ⟨hinit, fun r _ => ?_⟩
      by_cases hr : r = q
      · rw [hr, hself]
        exact hchild q
      · rw [hother r hr]
        exact hchild r
    · left
      unfold Life.Alive
      rw [hother q hqp]
      exact hq

theorem died (hinit : l.initproc ≠ some p)
    (hused : (l.proc p).state ≠ .unused) (hexited : .exited (l.proc p).pid ∈ past) :
    Recording (l.died p) past := by
  obtain ⟨-, -, hinitproc, -⟩ := l.reparent_rest p p
  obtain ⟨st, hproc, hwoken⟩ := l.reparent_proc p p p
  obtain ⟨st', hproc', hwoken'⟩ :=
    (l.reparent p p).wake_proc p (.ofPtr ((l.reparent p p).proc p).parent) p
  refine die ((h.reparent p hinit hexited).wake p _) ?_ ?_ (fun q => ?_) ?_
  · exact fun hi => hinit (hinitproc.symm.trans hi)
  · rw [hproc']
    refine mt hwoken'.unused.mp ?_
    rw [hproc]
    exact mt hwoken.unused.mp hused
  · obtain ⟨st'', hproc'', -⟩ :=
      (l.reparent p p).wake_proc p (.ofPtr ((l.reparent p p).proc p).parent) q
    rw [hproc'']
    exact l.reparent_parent p hinit q
  · rw [hproc', hproc]
    exact hexited

end

/-! ## New pids -/

theorem wrap_lt (i : Int) : wrap i < 2 ^ 31 := by
  unfold wrap
  have h := Int.bmod_lt (x := i) (m := 2 ^ 32) (by decide)
  omega

/-- The pid after a positive one is the next, or negative. -/
theorem wrap_succ {n : Int} (hpos : 0 < n) (hrange : n < 2 ^ 31) :
    wrap (n + 1) = n + 1 ∨ wrap (n + 1) < 0 := by
  unfold wrap
  rcases lt_or_ge (n + 1) (2 ^ 31) with hlt | hge
  · left
    exact Int.bmod_eq_of_le (by omega) (by omega)
  · right
    have hn : n = 2 ^ 31 - 1 := by omega
    subst hn
    decide

theorem wrap_succ_ne (n : Int) : wrap (n + 1) ≠ n := by
  unfold wrap Int.bmod
  dsimp only
  split
  · omega
  · omega

theorem issued_spend {pid : Int} (hrange : l.nextpid < 2 ^ 31) (hpos : 0 < l.nextpid)
    (hnext : l'.nextpid = wrap (l.nextpid + 1)) (h : Issued l pid) : Issued l' pid := by
  refine ⟨h.1, fun hpos' => ?_⟩
  have hlt := h.2 hpos
  rw [hnext] at hpos' ⊢
  rcases wrap_succ hpos hrange with heq | hneg
  · omega
  · omega

theorem spend (h : Recording l past) (hpos : 0 < l.nextpid) : Recording l.spend past :=
  ⟨wrap_lt _, h.started, h.init, h.idle,
    fun q hq => issued_spend h.range hpos rfl (h.issued q hq),
    fun d hd => issued_spend h.range hpos rfl (h.recorded d hd), h.distinct, h.thread, h.process,
    h.zombie, h.gone, h.child⟩

theorem next_fresh (h : Recording l past) (hpos : 0 < l.nextpid) :
    (∀ q, (l.proc q).state ≠ .unused → (l.proc q).pid ≠ l.nextpid) ∧
      ∀ d ∈ past, d.pid ≠ l.nextpid :=
  ⟨fun q hq => Int.ne_of_lt ((h.issued q hq).2 hpos), fun d hd =>
    Int.ne_of_lt ((h.recorded d hd).2 hpos)⟩

end Recording

/-- What a new slot must be for the record. -/
structure Newborn (l l' : Life) (np : Slot) (made : Option Deed) : Prop where
  nextpid : l'.nextpid = wrap (l.nextpid + 1)
  proc : ∀ q, q ≠ np → l'.proc q = l.proc q
  stackBase : ∀ q, q ≠ np → l'.stackBase q = l.stackBase q
  state : (l'.proc np).state = .runnable
  pid : (l'.proc np).pid = l.nextpid
  init : l'.initproc = l.initproc ∧ l.initproc ≠ none ∨
    l.initproc = none ∧ l'.initproc = some np ∧ (l'.proc np).isThread = false
  /-- The deed is the one that fits the new slot. -/
  deed : match made with
    | some (.cloned pid process stack) => pid = l.nextpid ∧ process = (l'.proc np).mainPid ∧
        stack = l'.stackBase np ∧ (l'.proc np).isThread = true
    | some (.forked pid creator) => pid = l.nextpid ∧ (l'.proc np).isThread = false ∧
        ∃ c, (l'.proc np).parent = some c ∧ l.Alive c ∧ (l.proc c).pid = creator
    | none => (l'.proc np).isThread = false
    | some (.exited _) | some (.execed _) | some (.joined ..) | some (.waited ..) => False

theorem Newborn.deed_pid {made : Deed} (hb : Newborn l l' np (some made)) :
    made.pid = l.nextpid ∧ made.makes = true := by
  have hdeed := hb.deed
  cases made with
  | cloned | forked => exact ⟨hdeed.1, rfl⟩
  | exited | execed | joined | waited => exact hdeed.elim

namespace Recording

variable {past : List Deed}

theorem newborn {made : Option Deed} (h : Recording l past) (hpos : 0 < l.nextpid)
    (hnp : (l.proc np).state = .unused) (hb : Newborn l l' np made) :
    Recording l' (made.toList ++ past) := by
  obtain ⟨hfresh, hunrecorded⟩ := h.next_fresh hpos
  have hissued : ∀ pid, Issued l pid → Issued l' pid := fun pid =>
    issued_spend h.range hpos hb.nextpid
  have hissuedNew : Issued l' l.nextpid := by
    refine ⟨hpos, fun hpos' => ?_⟩
    rw [hb.nextpid] at hpos' ⊢
    rcases wrap_succ hpos h.range with heq | hneg
    · omega
    · omega
  have hnew : l'.Alive np := by
    unfold Life.Alive
    rw [hb.state]
    decide
  have hparents : ∀ c, l.Alive c → l'.proc c = l.proc c := by
    intro c hc
    refine hb.proc c ?_
    rintro rfl
    exact hc.1 hnp
  -- what is on record about another pid was on record before
  have hold : ∀ d : Deed, d.pid ≠ l.nextpid → d ∈ made.toList ++ past → d ∈ past := by
    intro d hd hmem
    rcases List.mem_append.mp hmem with hmade | hmem
    · cases made with
      | none => cases hmade
      | some made =>
        obtain rfl : d = made := List.mem_singleton.mp hmade
        exact absurd hb.deed_pid.1 hd
    · exact hmem
  -- and what is on record about the new one is the new deed
  have hmade : ∀ d : Deed, d.pid = l.nextpid → d ∈ made.toList ++ past → made = some d := by
    intro d hd hmem
    rcases List.mem_append.mp hmem with hmade | hmem
    · cases made with
      | none => cases hmade
      | some made => rw [List.mem_singleton.mp hmade]
    · exact absurd hd (hunrecorded d hmem)
  have hmem : ∀ d ∈ past, d ∈ made.toList ++ past := fun d hd => List.mem_append_right _ hd
  have hcount : ∀ pid, (made.toList ++ past).countP (Deed.reaps pid) =
      past.countP (Deed.reaps pid) := by
    intro pid
    cases made with
    | none => rfl
    | some made =>
      refine List.countP_cons_of_neg ?_
      have hmakes := hb.deed_pid.2
      cases made with
      | cloned | forked => exact fun hf => by cases hf
      | exited | execed | joined | waited => cases hmakes
  refine ⟨?_, fun hnone q => ?_, fun i hi => ?_, fun q hq => ?_, fun q hq => ?_, fun d hd => ?_,
    fun q r hq hr hpid => ?_, fun q hq => ?_, fun q hq hmain process stack hcloned => ?_,
    fun q hz => ?_, fun q hq => ?_, fun q hq creator hforked => ?_⟩
  · rw [hb.nextpid]
    exact wrap_lt _
  · rcases hb.init with ⟨hinit, hsome⟩ | ⟨-, hinit, -⟩
    · exact absurd (hinit.symm.trans hnone) hsome
    · rw [hinit] at hnone
      cases hnone
  · rcases hb.init with ⟨hinit, -⟩ | ⟨-, hinit, hmain⟩
    · have hslot := h.init i (hinit.symm.trans hi)
      unfold Life.Alive
      rw [hparents i hslot.1]
      exact hslot
    · obtain rfl : np = i := Option.some.inj (hinit.symm.trans hi)
      exact ⟨hnew, hmain⟩
  · by_cases hqn : q = np
    · subst hqn
      exact absurd hq hnew.1
    · rw [hb.proc q hqn] at hq ⊢
      exact h.idle q hq
  · by_cases hqn : q = np
    · rw [hqn, hb.pid]
      exact hissuedNew
    · rw [hb.proc q hqn] at hq ⊢
      exact hissued _ (h.issued q hq)
  · rcases List.mem_append.mp hd with hnewDeed | hd
    · cases made with
      | none => cases hnewDeed
      | some made =>
        rw [List.mem_singleton.mp hnewDeed, hb.deed_pid.1]
        exact hissuedNew
    · exact hissued _ (h.recorded d hd)
  · by_cases hqn : q = np
    · by_cases hrn : r = np
      · rw [hqn, hrn]
      · rw [hqn, hb.pid, hb.proc r hrn] at hpid
        rw [hb.proc r hrn] at hr
        exact absurd hpid.symm (hfresh r hr)
    · rw [hb.proc q hqn] at hq hpid
      by_cases hrn : r = np
      · rw [hrn, hb.pid] at hpid
        exact absurd hpid (hfresh q hq)
      · rw [hb.proc r hrn] at hr hpid
        exact h.distinct q r hq hr hpid
  · by_cases hqn : q = np
    · rw [hqn] at hq ⊢
      have hdeed := hb.deed
      cases made with
      | none =>
        rw [hdeed] at hq
        cases hq
      | some made =>
        cases made with
        | cloned pid process stack =>
          obtain ⟨rfl, rfl, rfl, -⟩ := hdeed
          rw [hb.pid]
          exact List.mem_cons_self
        | forked pid creator =>
          rw [hdeed.2.1] at hq
          cases hq
        | exited | execed | joined | waited => exact hdeed.elim
    · rw [hb.proc q hqn] at hq ⊢
      rw [hb.stackBase q hqn]
      exact hmem _ (h.thread q hq)
  · by_cases hqn : q = np
    · rw [hqn] at hmain hcloned
      have hdeed := hb.deed
      rw [hmade (.cloned (l'.proc np).pid process stack) hb.pid hcloned] at hdeed
      rw [hdeed.2.2.2] at hmain
      cases hmain
    · rw [hb.proc q hqn] at hq hmain hcloned ⊢
      refine hmem _ (h.process q hq hmain process stack (hold _ (hfresh q hq) hcloned))
  · by_cases hqn : q = np
    · rw [hqn, hb.state] at hz
      cases hz
    · rw [hb.proc q hqn] at hz ⊢
      exact hmem _ (h.zombie q hz)
  · rw [hcount]
    by_cases hqn : q = np
    · rw [hqn, hb.pid, List.countP_eq_zero]
      exact fun d hd hreaps => hunrecorded d hd (Deed.pid_of_reaps hreaps)
    · rw [hb.proc q hqn] at hq ⊢
      exact h.gone q hq
  · by_cases hqn : q = np
    · rw [hqn] at hforked ⊢
      have hdeed := hb.deed
      rw [hmade (.forked (l'.proc np).pid creator) hb.pid hforked] at hdeed
      obtain ⟨-, hmain, c, hc, halive, hcpid⟩ := hdeed
      refine ⟨hmain, Or.inl ⟨c, hc, ?_⟩⟩
      unfold Life.Alive
      rw [hparents c halive]
      exact ⟨halive, hcpid⟩
    · rw [hb.proc q hqn] at hq hforked ⊢
      obtain ⟨hmain, hparent⟩ := h.child q hq creator (hold _ (hfresh q hq) hforked)
      refine ⟨hmain, ?_⟩
      rcases hparent with ⟨c, hc, halive, hcpid⟩ | ⟨hc, hexited⟩
      · left
        refine ⟨c, hc, ?_⟩
        unfold Life.Alive
        rw [hparents c halive]
        exact ⟨halive, hcpid⟩
      · right
        rcases hb.init with ⟨hinit, -⟩ | ⟨hnone, -, -⟩
        · exact ⟨hc.trans hinit.symm, hmem _ hexited⟩
        · exact absurd (h.started hnone q) hq

/-! ## Every call -/

/-- The pid of a slot in use is a pid that can be returned. -/
theorem pid_ne (h : Recording l past) (hq : (l.proc q).state ≠ .unused) : (l.proc q).pid ≠ -1 := by
  have hpos := (h.issued q hq).1
  omega

/-- A call that succeeds or fails without any effect on the slots. -/
theorem plain_deed {call : Call} (value : List Byte) (r : Option Int)
    (hplain : call.plain = true) : l.callDeed p call value r = none ∨
      l.callDeed p call value r = some (.execed (l.proc p).pid) := by
  cases call with
  | growproc | «open» | dup | close | kill => exact Or.inl (by cases r <;> rfl)
  | exec file argv =>
    cases r with
    | none => exact Or.inl rfl
    | some argc =>
      by_cases hfailed : argc = -1
      · exact Or.inl (if_pos hfailed)
      · exact Or.inr (if_neg hfailed)
  | fork | clone | exit | join | wait => cases hplain

/-- An `exec` that has succeeded, or a call of `exit`, goes on record. -/
theorem record_call {d : Deed} (h : Recording l past) (hused : (l.proc p).state ≠ .unused)
    (hd : d = .execed (l.proc p).pid ∨ d = .exited (l.proc p).pid) : Recording l (d :: past) := by
  rcases hd with rfl | rfl
  · exact h.record (h.issued p hused) rfl fun _ _ => rfl
  · exact h.record (h.issued p hused) rfl fun _ _ => rfl

/-- A slot that has exited is freed, and its pid is on record as reaped. -/
theorem reap {d : Deed} (h : Recording l past) (hz : (l.proc np).state = .zombie)
    (hmakes : d.makes = false) (hpid : d.pid = (l.proc np).pid) :
    Recording (l.set np {}) (d :: past) := by
  have hused : (l.proc np).state ≠ .unused := by
    rw [hz]
    decide
  refine (h.clear fun halive => halive.2 hz).record ?_ hmakes fun q hq => ?_
  · rw [hpid]
    exact h.issued np hused
  · by_cases hqn : q = np
    · subst hqn
      rw [Life.set_proc_self] at hq
      exact absurd rfl hq
    · rw [Life.set_proc_ne l _ hqn] at hq ⊢
      refine Bool.eq_false_iff.mpr fun hreaps => hqn ?_
      exact h.distinct q np hq hused ((Deed.pid_of_reaps hreaps).symm.trans hpid)

theorem effect {call : Call} {value : List Byte} {r : Option Int} (h : Recording l past)
    (hfit : Fitting past) (hrunning : (l.proc p).state = .running)
    (hpids : l'.nextpid = l.nextpid ∨ 0 < l.nextpid) (heffect : CallEffect p l call r l')
    (hvalue : ∀ stack np, call = .join stack → l.exitedThread p = some np →
      value = leBytes 8 (l.stackBase np)) :
    Recording l' ((l.callDeed p call value r).toList ++ past) ∧
      Fitting ((l.callDeed p call value r).toList ++ past) := by
  have halive := alive_of_running hrunning
  have hused := halive.1
  have hinit : l.initproc ≠ none := fun hnone => hused (h.started hnone p)
  have hspent : l'.nextpid = wrap (l.nextpid + 1) → 0 < l.nextpid := fun hnext =>
    hpids.resolve_left fun hsame => wrap_succ_ne l.nextpid (hnext.symm.trans hsame)
  cases heffect with
  | plain hplain =>
    rcases plain_deed (l := l) (p := p) value r hplain with hdeed | hdeed
    · rw [hdeed]
      exact ⟨h, hfit⟩
    · rw [hdeed]
      exact ⟨h.record_call hused (Or.inl rfl), trivial, hfit⟩
  | full hcreates =>
    cases call with
    | fork | clone => exact ⟨h, hfit⟩
    | exec | exit | kill | join | wait | growproc | «open» | dup | close => cases hcreates
  | forkFailed hnp =>
    exact ⟨((h.spend (hspent rfl)).clear fun halive => halive.1 hnp).block _ _, hfit⟩
  | @fork np hnp =>
    have hpos := hspent rfl
    have hdeed : l.callDeed p .fork value (some l.nextpid) =
        some (.forked l.nextpid (l.proc p).pid) := if_neg (by omega)
    have hself : (l.born np (some p)).proc np = { l.proc np with
        pid := l.nextpid, state := .runnable, parent := some p, isThread := false,
        mainPid := l.nextpid, mainThread := some np } := Life.taken_self ..
    rw [hdeed]
    refine ⟨(h.newborn hpos hnp ?_ : Recording (l.born np (some p)) _), (h.next_fresh hpos).2, hfit⟩
    refine ⟨rfl, fun q hq => Life.taken_ne _ _ hq, fun _ _ => rfl, ?_, ?_,
      Or.inl ⟨rfl, hinit⟩, rfl, ?_, p, ?_, halive, rfl⟩ <;> rw [hself]
  | @cloneFailed np stack hnp =>
    refine ⟨(h.spend (hspent rfl)).keep ⟨rfl, rfl, fun q => ?_, fun q hq => Or.inl ?_⟩, hfit⟩
    · by_cases hq : q = np
      · right
        rw [hq, Life.set_proc_self]
        exact ⟨hnp, h.idle np hnp⟩
      · exact Or.inl (unchanged_slot (Life.set_proc_ne _ _ hq) rfl)
    · unfold Life.Alive
      rw [Life.set_proc_ne _ _ (by rintro rfl; exact hq.1 hnp)]
      exact hq
  | @clone np main stack hnp hmain =>
    have hpos := hspent rfl
    have hdeed : l.callDeed p (.clone stack) value (some l.nextpid) =
        some (.cloned l.nextpid (l.proc p).mainPid stack) := if_neg (by omega)
    have hself : (l.cloned p main np stack).proc np = { l.proc np with
        pid := l.nextpid, state := .runnable, killed := false, mainPid := (l.proc p).mainPid,
        mainThread := some main, isThread := true, parent := some main } := Life.taken_self ..
    rw [hdeed]
    refine ⟨(h.newborn hpos hnp ?_ : Recording (l.cloned p main np stack) _),
      (h.next_fresh hpos).2, hfit⟩
    refine ⟨rfl, fun q hq => Life.taken_ne _ _ hq, fun q hq => Function.update_of_ne hq _ _, ?_,
      ?_, Or.inl ⟨rfl, hinit⟩, rfl, ?_, ?_, ?_⟩
    · rw [hself]
    · rw [hself]
    · rw [hself]
    · exact (Function.update_self np stack l.stackBase).symm
    · rw [hself]
  | @exec main file argv argc hmain hchildless =>
    have hdeed : l.callDeed p (.exec file argv) value (some (argc : Int)) =
        some (.execed (l.proc p).pid) := by
      show (if (argc : Int) = -1 then none else some (Deed.execed (l.proc p).pid)) = _
      rw [if_neg (by omega)]
    rw [hdeed]
    refine ⟨?_, trivial, hfit⟩
    have hrecord := h.record_call (d := .execed (l.proc p).pid) hused (Or.inl rfl)
    have hlone := (hrecord.lone List.mem_cons_self).sweep hchildless
    show Recording (l.execed p main) _
    unfold Life.execed
    dsimp only
    split
    · exact hlone
    · exact hlone.restate _ _ Iff.rfl Iff.rfl
  | exitMain hfirst hmain hchildless =>
    have hgroup : ¬ l.InGroup (l.proc p).pid p := by
      intro hself
      have hthread := hself.2
      rw [hmain] at hthread
      cases hthread
    have hproc : (l.sweep (l.proc p).pid).proc p = l.proc p := if_neg hgroup
    have hrecord := h.record_call (d := .exited (l.proc p).pid) hused (Or.inr rfl)
    refine ⟨(hrecord.sweep hchildless).died hfirst ?_ ?_, trivial, hfit⟩
    · rw [hproc]
      exact hused
    · rw [hproc]
      exact List.mem_cons_self
  | exitThread hfirst =>
    have hrecord := h.record_call (d := .exited (l.proc p).pid) hused (Or.inr rfl)
    exact ⟨hrecord.died hfirst hused List.mem_cons_self, trivial, hfit⟩
  | @kill q main pid _ _ =>
    refine ⟨h.restate _ _ ?_ ?_, hfit⟩
    · split
      next hsleeping => simp [hsleeping]
      next => exact Iff.rfl
    · split
      next hsleeping => simp [hsleeping]
      next => exact Iff.rfl
  | joinEnds => exact ⟨h.block p none, hfit⟩
  | @join np stack hnp _ =>
    have hfound := List.find?_some hnp
    simp only [Bool.and_eq_true, decide_eq_true_eq] at hfound
    obtain ⟨⟨hgroup, hthread⟩, hz⟩ := hfound
    have hnpUsed : (l.proc np).state ≠ .unused := by
      rw [hz]
      decide
    have hdeed : l.callDeed p (.join stack) value (some (l.proc np).pid) =
        some (.joined (l.proc np).pid (l.proc p).mainPid value) := if_neg (h.pid_ne hnpUsed)
    rw [hdeed]
    refine ⟨(h.block p none).reap hz rfl rfl,
      ⟨⟨_, ?_, hvalue stack np rfl hnp⟩, h.zombie np hz, h.gone np hnpUsed⟩, hfit⟩
    rw [← hgroup]
    exact h.thread np hthread
  | joinSleeps =>
    refine ⟨(h.restate _ _ ?_ ?_).block p _, hfit⟩
    · simp [hrunning]
    · simp [hrunning]
  | waitEnds => exact ⟨h.block p none, hfit⟩
  | @wait pp addr hparent hthread hz =>
    have hppUsed : (l.proc pp).state ≠ .unused := by
      rw [hz]
      decide
    have hdeed : l.callDeed p (.wait addr) value (some (l.proc pp).pid) =
        some (.waited (l.proc pp).pid (l.proc p).pid (decide (l.initproc = some p))) :=
      if_neg (h.pid_ne hppUsed)
    rw [hdeed]
    refine ⟨(h.block p none).reap hz rfl rfl, ⟨h.process pp hppUsed hthread, ?_,
      h.gone pp hppUsed⟩, hfit⟩
    intro creator hforked
    rcases (h.child pp hppUsed creator hforked).2 with ⟨c, hc, -, hcpid⟩ | ⟨hc, hexited⟩
    · obtain rfl : c = p := Option.some.inj (hc.symm.trans hparent)
      exact Or.inl hcpid
    · exact Or.inr ⟨decide_eq_true (hc.symm.trans hparent), hexited⟩
  | waitSleeps =>
    refine ⟨(h.restate _ _ ?_ ?_).block p _, hfit⟩
    · simp [hrunning]
    · simp [hrunning]

/-- Of the calls that return nothing, only `exit` goes on record. -/
theorem idle_deed (l : Life) (e : Event) (value : List Byte) : l.deed e value none = none ∨
    ∃ p, (l.proc p).state = .running ∧ l.deed e value none = some (.exited (l.proc p).pid) := by
  unfold Life.deed
  cases hmade : l.madeCall e with
  | none => exact Or.inl rfl
  | some made =>
    obtain ⟨p, call⟩ := made
    have hrunning := l.made_running hmade
    cases call with
    | exit status => exact Or.inr ⟨p, hrunning, rfl⟩
    | fork | clone | exec | kill | join | wait | growproc | «open» | dup | close =>
      exact Or.inl rfl

theorem life_step {e : Event} {value : List Byte} {r : Option Int} (h : Recording l past)
    (hfit : Fitting past) (hpids : l'.nextpid = l.nextpid ∨ 0 < l.nextpid)
    (hstep : LifeStep l e r l') (hvalue : ∀ p stack np, l.madeCall e = some (p, .join stack) →
      l.exitedThread p = some np → value = leBytes 8 (l.stackBase np)) :
    Recording l' ((l.deed e value r).toList ++ past) ∧
      Fitting ((l.deed e value r).toList ++ past) := by
  cases hstep with
  | idle =>
    rcases idle_deed l e value with hdeed | ⟨p, hrunning, hdeed⟩
    · rw [hdeed]
      exact ⟨h, hfit⟩
    · rw [hdeed]
      exact ⟨h.record_call (alive_of_running hrunning).1 (Or.inr rfl), trivial, hfit⟩
  | @userinit np hinit hnp =>
    have hpos : 0 < l.nextpid := hpids.resolve_left (wrap_succ_ne l.nextpid)
    have hself : (l.born np (l.proc np).parent).proc np = { l.proc np with
        pid := l.nextpid, state := .runnable, isThread := false,
        mainPid := l.nextpid, mainThread := some np } := Life.taken_self ..
    refine ⟨h.newborn hpos hnp (?_ : Newborn _ _ _ none), hfit⟩
    refine ⟨rfl, fun q hq => Life.taken_ne _ _ hq, fun _ _ => rfl, ?_, ?_,
      Or.inr ⟨hinit, rfl, ?_⟩, ?_⟩
    · show ((l.born np (l.proc np).parent).proc np).state = .runnable
      rw [hself]
    · show ((l.born np (l.proc np).parent).proc np).pid = l.nextpid
      rw [hself]
    · show ((l.born np (l.proc np).parent).proc np).isThread = false
      rw [hself]
    · show ((l.born np (l.proc np).parent).proc np).isThread = false
      rw [hself]
  | @schedule p hrunnable =>
    refine ⟨h.restate _ _ ?_ ?_, hfit⟩
    · simp [hrunnable]
    · simp [hrunnable]
  | @yield p hrunning =>
    refine ⟨h.restate (l.proc p).chan (l.proc p).killed ?_ ?_, hfit⟩
    · simp [hrunning]
    · simp [hrunning]
  | @sleep p chan hrunning _ =>
    refine ⟨h.restate _ (l.proc p).killed ?_ ?_, hfit⟩
    · simp [hrunning]
    · simp [hrunning]
  | wakeup => exact ⟨h.wake _ _, hfit⟩
  | @call p call r l' hrunning hblocked heffect =>
    have hmade : l.madeCall (.call p call) = some (p, l.trapped p call) :=
      if_pos ⟨hrunning, hblocked⟩
    rw [Life.deed, hmade, Option.bind_some]
    exact h.effect hfit hrunning hpids heffect fun stack np hcall =>
      hvalue p stack np (hcall ▸ hmade)
  | @resume p b r l' hrunning hblocked heffect =>
    have hmade : l.madeCall (.resume p) = some (p, b.call) := by
      rw [Life.madeCall, if_pos hrunning, hblocked]
      rfl
    rw [Life.deed, hmade, Option.bind_some]
    exact h.effect hfit hrunning hpids heffect fun stack np hcall =>
      hvalue p stack np (hcall ▸ hmade)

theorem boot (free : List Page) : Recording (life (boot free)) [] := by
  have hunused : ∀ q, ((life (Calls.boot free)).proc q).state = .unused := fun _ => rfl
  refine ⟨by show (1 : Int) < 2 ^ 31; decide, fun _ => hunused, fun i hi => ?_, fun _ _ => rfl,
    fun q hq => ?_, ?_, fun q r hq => ?_, fun q hq => ?_, fun q hq => ?_, fun q hz => ?_,
    fun q hq => ?_, fun q hq => ?_⟩
  · cases hi
  · exact absurd (hunused q) hq
  · simp
  · exact absurd (hunused q) hq
  · cases hq
  · exact absurd (hunused q) hq
  · cases hz
  · exact absurd (hunused q) hq
  · exact absurd (hunused q) hq

end Recording

/-! ## What `paull04_join` stores -/

theorem join_stores (p : Slot) (stack : Nat) : wp (join p stack) Fault.any (fun _ s' => ∀ np,
    (life s).exitedThread p = some np →
      s.mem.stored s'.mem = leBytes 8 (s.proc np).stackBase) s := by
  unfold join
  rw [wp_bind]
  refine wp_acquire (fun _ => ?_) trivial trivial
  simp only [wp_bind, wp_modify, wp_get]
  split
  next np hnp =>
    refine wp_mono wp_join_found_any fun _ s' hs' np' hnp' => ?_
    obtain rfl : np = np' := Option.some.inj (hnp.symm.trans hnp')
    exact hs'.2
  next hnone =>
    exact wp_mono (wp_any _) fun _ _ _ np hnp => by cases hnone.symm.trans hnp

/-- A step of `paull04_join` that finds an exited thread stores the stack the thread has. -/
theorem step_stores (e : Event) : wp (step e) Fault.any (fun _ s' => ∀ p stack np,
    (life s).madeCall e = some (p, .join stack) → (life s).exitedThread p = some np →
      s.mem.stored s'.mem = leBytes 8 (s.proc np).stackBase) s := by
  cases e with
  | userinit | schedule | yield | sleep | wakeup =>
    exact wp_mono (wp_any _) fun _ _ _ p stack np hmade => by cases hmade
  | call p call =>
    simp only [step, wp_bind, wp_get]
    split
    next hrunning =>
      have hmade : (life s).madeCall (.call p call) = some (p, trapped s p call) := if_pos hrunning
      cases hcall : trapped s p call with
      | join stack =>
        refine wp_mono (join_stores p stack) fun _ s' hs' p' stack' np hmade' => ?_
        rw [hmade, hcall] at hmade'
        cases hmade'
        exact hs' np
      | fork | clone | exec | exit | kill | wait | growproc | «open» | dup | close =>
        refine wp_mono (wp_any _) fun _ _ _ p' stack' np hmade' => ?_
        rw [hmade, hcall] at hmade'
        cases hmade'
    next hidle =>
      intro p' stack np hmade
      cases (show (life s).madeCall (.call p call) = none from if_neg hidle).symm.trans hmade
  | resume p =>
    simp only [step, wp_bind, wp_get]
    cases hblocked : s.blocked p with
    | none =>
      intro p' stack np hmade
      rw [Life.madeCall, show (life s).blocked p = none from hblocked] at hmade
      split at hmade <;> cases hmade
    | some b =>
      dsimp only
      split
      next hrunning =>
        have hmade : (life s).madeCall (.resume p) = some (p, b.call) := by
          show (if (s.proc p).state = .running then _ else none) = _
          rw [if_pos hrunning, show (life s).blocked p = some b from hblocked]
          rfl
        cases b with
        | wait addr =>
          refine wp_mono (wp_any _) fun _ _ _ p' stack' np hmade' => ?_
          cases hmade.symm.trans hmade'
        | join stack =>
          refine wp_mono (join_stores p stack) fun _ s' hs' p' stack' np hmade' => ?_
          cases hmade.symm.trans hmade'
          exact hs' np
      next hidle =>
        intro p' stack np hmade
        cases (show (life s).madeCall (.resume p) = none from if_neg hidle).symm.trans hmade

/-! ## Every run -/

/-- What every run that gives out fewer than 2 ^ 31 pids keeps. -/
theorem recorded_of_reachable {free : List Page} {t : Recorded}
    (h : Reachable (fun t => t = (boot free, [])) FewPids recordedStep t) :
    Grouped (members t.1) t.1.mem ∧ Recording (life t.1) t.2 ∧ Fitting t.2 := by
  refine Reachable.induct (E := Fault.any) (fun t =>
    Grouped (members t.1) t.1.mem ∧ Recording (life t.1) t.2 ∧ Fitting t.2) ?_ ?_ h
  · rintro _ rfl
    exact ⟨boot_grouped free, Recording.boot free, trivial⟩
  · rintro ⟨s, past⟩ e ⟨hgrouped, hrecording, hfit⟩ hpids
    unfold wp recordedStep
    unfold FewPids at hpids
    dsimp only at hpids ⊢
    cases hstep : step e s with
    | error f => trivial
    | ok out =>
      obtain ⟨r, s'⟩ := out
      rw [hstep] at hpids
      have hgrouped' := wp_ok (step_grouped hgrouped e) hstep
      have hlife := wp_ok (life_step hgrouped e) hstep
      exact ⟨hgrouped'.1, hrecording.life_step hfit hpids hlife (wp_ok (step_stores e) hstep)⟩

/-- In every run that gives out fewer than 2 ^ 31 pids, every thread and process is reaped at most
once and by the right call. -/
theorem reaped_once_and_right {free : List Page} {t : Recorded}
    (h : Reachable (fun t => t = (boot free, [])) FewPids recordedStep t) : ReapedRight t.2 :=
  (recorded_of_reachable h).2.2.reaped_right

/-- A process that has cloned a thread with its stack at 2048, reaped it, and forked a child, which
has exited. -/
def childExited : Recorded :=
  lastState FewPids recordedStep
    [.userinit, .schedule 0, .call 0 (.clone 2048), .schedule 1, .call 1 (.exit 0),
      .call 0 (.join 0), .call 0 .fork, .schedule 1, .call 1 (.exit 0)]
    (boot (List.range' 1 40), [])

theorem reachable_child_exited : Reachable (fun t => t = (boot (List.range' 1 40), [])) FewPids
    recordedStep childExited := by
  have hboot : Reachable (fun t => t = (boot (List.range' 1 40), [])) FewPids recordedStep
      (boot (List.range' 1 40), []) := .start rfl
  exact hboot.last_state _

/-- The child has been reaped too. -/
def reapsTwo : Recorded := lastState FewPids recordedStep [.call 0 (.wait 0)] childExited

theorem reaped_once_and_right_two :
    reapsTwo.2 = [.waited 3 1 true, .exited 3, .forked 3 1, .joined 2 1 [0, 8, 0, 0, 0, 0, 0, 0],
      .exited 2, .cloned 2 1 2048] ∧ ReapedRight reapsTwo.2 :=
  ⟨by decide +kernel, reaped_once_and_right (reachable_child_exited.last_state _)⟩

/-! ## The process table -/

/-- In every run that gives out fewer than 2 ^ 31 pids: slots in use have different pids, and none
that `wait` or `join` has returned; the first process stays; a slot is a ZOMBIE only after its exit;
and a process that `fork` made can be waited for, since its parent is the creator, which has not
exited, or else the first process. -/
theorem table_agrees_with_history {free : List Page} {t : Recorded}
    (h : Reachable (fun t => t = (boot free, [])) FewPids recordedStep t) :
    (∀ q r, (t.1.proc q).state ≠ .unused → (t.1.proc r).state ≠ .unused →
      (t.1.proc q).pid = (t.1.proc r).pid → q = r) ∧
    (∀ q, (t.1.proc q).state ≠ .unused → t.2.countP (Deed.reaps (t.1.proc q).pid) = 0) ∧
    (∀ i, t.1.initproc = some i →
      (t.1.proc i).state ≠ .unused ∧ (t.1.proc i).state ≠ .zombie) ∧
    (∀ q, (t.1.proc q).state = .zombie → .exited (t.1.proc q).pid ∈ t.2) ∧
    ∀ q creator, (t.1.proc q).state ≠ .unused → .forked (t.1.proc q).pid creator ∈ t.2 →
      (∃ c, (t.1.proc q).parent = some c ∧ (t.1.proc c).state ≠ .unused ∧
        (t.1.proc c).state ≠ .zombie ∧ (t.1.proc c).pid = creator) ∨
      (t.1.proc q).parent = t.1.initproc ∧ .exited creator ∈ t.2 := by
  obtain ⟨-, hrec, -⟩ := recorded_of_reachable h
  refine ⟨hrec.distinct, hrec.gone, fun i hi => (hrec.init i hi).1, hrec.zombie,
    fun q creator hq hforked => (hrec.child q hq creator hforked).2.imp_left fun hcreator => ?_⟩
  obtain ⟨c, hc, halive, hpid⟩ := hcreator
  exact ⟨c, hc, halive.1, halive.2, hpid⟩

/-- The exited child, with pid 3, waits for its parent, which has pid 1. -/
theorem table_agrees_with_history_two :
    (childExited.1.proc 1).state = .zombie ∧ (childExited.1.proc 1).pid = 3 ∧
    .exited 3 ∈ childExited.2 ∧ childExited.2.countP (Deed.reaps 3) = 0 ∧
    ((∃ c, (childExited.1.proc 1).parent = some c ∧ (childExited.1.proc c).state ≠ .unused ∧
        (childExited.1.proc c).state ≠ .zombie ∧ (childExited.1.proc c).pid = 1) ∨
      (childExited.1.proc 1).parent = childExited.1.initproc ∧ .exited 1 ∈ childExited.2) := by
  have hz : (childExited.1.proc 1).state = .zombie := by decide +kernel
  have hpid : (childExited.1.proc 1).pid = 3 := by decide +kernel
  have hused : (childExited.1.proc 1).state ≠ .unused := by simp [hz]
  have hforked : .forked (childExited.1.proc 1).pid 1 ∈ childExited.2 := by decide +kernel
  obtain ⟨-, hgone, -, hzombie, hchild⟩ := table_agrees_with_history reachable_child_exited
  have hexited := hzombie 1 hz
  have hnone := hgone 1 hused
  rw [hpid] at hexited hnone
  exact ⟨hz, hpid, hexited, hnone, hchild 1 1 hused hforked⟩

end Xv6.Thread.Calls
