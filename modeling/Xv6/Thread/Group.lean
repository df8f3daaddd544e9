import Xv6.Thread.Frames
import Xv6.Thread.Tables

/-!
# Thread groups

A process is a main thread and the threads cloned from it. Which group a slot belongs to is
recorded in five fields at once, and the page table of a group belongs to its main thread.
`Grouped` is the invariant that ties the fields together. Each way in which a call changes the
members of a group keeps it, so every call does. It also says which slots point to a table, and
with that no call frees a table that is still in use, unless a thread has got the pid of its own
main thread.
-/

namespace Xv6.Thread.Calls

open Function

variable {α : Type} {E : Fault → Prop} {s s' s'' : System}

/-- The fields of a slot that say which process it belongs to. -/
structure Member where
  phase : Phase
  pid : Int
  mainPid : Int
  mainThread : Ptr
  isThread : Bool
  pagetable : Option TableId
  sz : Nat
  deriving DecidableEq, Repr

/-- The membership of a slot. -/
def Core.member (c : Core) : Member where
  phase := c.phase
  pid := c.pid
  mainPid := c.mainPid
  mainThread := c.mainThread
  isThread := c.isThread
  pagetable := c.pagetable
  sz := c.sz

/-- The membership of all slots. -/
def members (s : System) : Slot → Member := fun q => (cores s q).member

/-- The membership of a cleared slot. -/
def Member.cleared : Member where
  phase := .unused
  pid := 0
  mainPid := 0
  mainThread := none
  isThread := false
  pagetable := none
  sz := 0

/-- The membership of the main thread of a process. -/
def Member.main (p : Slot) (pid : Int) (t : TableId) (sz : Nat) : Member where
  phase := .active
  pid := pid
  mainPid := pid
  mainThread := some p
  isThread := false
  pagetable := some t
  sz := sz

/-- A slot that belongs to no process. -/
structure Member.Idle (x : Member) : Prop where
  phase : x.phase = .unused
  isThread : x.isThread = false
  pagetable : x.pagetable = none

theorem Member.idle_cleared : Member.cleared.Idle := ⟨rfl, rfl, rfl⟩

/-- Slot `q` belongs to the process with main thread `r`. -/
structure MainOf (g : Slot → Member) (q r : Slot) : Prop where
  pointer : (g q).mainThread = some r
  used : (g r).phase ≠ .unused
  self : (g r).mainThread = some r
  main : (g r).isThread = false
  pid : (g r).pid = (g q).mainPid
  table : (g q).pagetable = (g r).pagetable
  sz : (g q).sz = (g r).sz

/-- Every slot in use belongs to a process, and the page table of a process belongs to its main
thread alone. -/
structure Grouped (g : Slot → Member) (m : Mem) : Prop where
  ready : ∀ q, (g q).phase ≠ .used
  idle : ∀ q, (g q).phase = .unused → (g q).Idle
  main : ∀ q, (g q).phase ≠ .unused → ∃ r, MainOf g q r
  self : ∀ q, (g q).phase ≠ .unused → (g q).isThread = false → (g q).mainThread = some q
  table : ∀ q, (g q).phase ≠ .unused → ∃ t ∈ m.live, (g q).pagetable = some t
  apart : ∀ q r, (g q).phase ≠ .unused → (g r).phase ≠ .unused → (g q).isThread = false →
    (g r).isThread = false → (g q).pagetable = (g r).pagetable → q = r
  last : ∀ q r, (g q).phase ≠ .unused → (g r).phase = .zombie → (g r).isThread = false →
    (g q).mainThread = some r → q = r
  numbered : m.Numbered

section Changes

variable {g g' : Slot → Member} {m m' : Mem} {p q r np : Slot} {t : TableId}

theorem MainOf.congr (h : MainOf g q r) (hq : g' q = g q) (hr : g' r = g r) : MainOf g' q r := by
  obtain ⟨hpointer, hused, hself, hmain, hpid, htable, hsz⟩ := h
  constructor
  all_goals simpa only [hq, hr]

namespace Grouped

section

variable (h : Grouped g m)

include h

theorem used_of_table (ht : (g q).pagetable = some t) :
    (g q).phase ≠ .unused := by
  intro hphase
  rw [(h.idle q hphase).pagetable] at ht
  exact absurd ht (by simp)

theorem live_of_table (ht : (g q).pagetable = some t) : t ∈ m.live := by
  obtain ⟨t', hlive, ht'⟩ := h.table q (h.used_of_table ht)
  rw [ht] at ht'
  rwa [Option.some.inj ht']

/-- The slots that point to the table of a main thread are the members of its group. -/
theorem member_of_table (hr : (g r).isThread = false)
    (ht : (g r).pagetable = some t) (hq : (g q).pagetable = some t) : MainOf g q r := by
  obtain ⟨r', hmain⟩ := h.main q (h.used_of_table hq)
  have htable : (g r').pagetable = (g r).pagetable := by rw [← hmain.table, hq, ht]
  have heq := h.apart r' r hmain.used (h.used_of_table ht) hmain.main hr htable
  rwa [heq] at hmain

/-- Slots become idle that were idle or belonged to threads. -/
theorem retire (hm : Settled m m')
    (hg : ∀ q, g' q = g q ∨
      ((g q).phase = .unused ∨ (g q).isThread = true) ∧ (g' q).Idle) : Grouped g' m' := by
  have hold : ∀ q, (g' q).phase ≠ .unused → g' q = g q := by
    intro q hq
    rcases hg q with heq | ⟨-, hidle⟩
    · exact heq
    · exact absurd hidle.phase hq
  have hmain : ∀ q, (g q).phase ≠ .unused → (g q).isThread = false → g' q = g q := by
    intro q hq hthread
    rcases hg q with heq | ⟨hunused | hthread', -⟩
    · exact heq
    · exact absurd hunused hq
    · simp [hthread] at hthread'
  refine ⟨fun q hq => ?_, fun q hq => ?_, fun q hq => ?_, fun q hq => ?_, fun q hq => ?_,
    fun q r hq hr => ?_, fun q r hq hr => ?_, hm.numbered h.numbered⟩
  · have heq := hold q (by simp [hq])
    exact h.ready q (heq ▸ hq)
  · rcases hg q with heq | ⟨-, hidle⟩
    · rw [heq] at hq ⊢
      exact h.idle q hq
    · exact hidle
  · have heq := hold q hq
    obtain ⟨r, hr⟩ := h.main q (heq ▸ hq)
    exact ⟨r, hr.congr heq (hmain r hr.used hr.main)⟩
  · have heq := hold q hq
    rw [heq] at hq ⊢
    exact h.self q hq
  · have heq := hold q hq
    rw [heq] at hq ⊢
    rw [hm.live]
    exact h.table q hq
  · rw [hold q hq, hold r hr]
    rw [hold q hq] at hq
    rw [hold r hr] at hr
    exact h.apart q r hq hr
  · rw [hold q hq, hold r (by simp [hr])]
    rw [hold q hq] at hq
    rw [hold r (by simp [hr])] at hr
    exact h.last q r hq hr

theorem remove (hm : Removed t m m') (ht : ∀ q, (g q).pagetable ≠ some t) :
    Grouped g m' := by
  refine { h with table := fun q hq => ?_, numbered := hm.numbered h.numbered }
  obtain ⟨t', hlive, ht'⟩ := h.table q hq
  refine ⟨t', ?_, ht'⟩
  rw [hm.live]
  refine ⟨hlive, ?_⟩
  rintro rfl
  exact ht q ht'

/-- A slot that no other slot has as its main thread becomes the main thread of a process with a
new table: it was free, or has called `exec`. -/
theorem renew {pid : Int} {sz : Nat} (hm : Added t m m')
    (halone : ∀ q, (g q).phase ≠ .unused → (g q).mainThread = some p → q = p) :
    Grouped (update g p (.main p pid t sz)) m' := by
  have hfresh : ∀ q, (g q).pagetable ≠ some t := fun q hq => hm.fresh (h.live_of_table hq)
  have hsame : ∀ q, q ≠ p → update g p (.main p pid t sz) q = g q := fun q hq =>
    update_of_ne hq _ _
  have hself : update g p (.main p pid t sz) p = .main p pid t sz :=
    update_self _ _ _
  refine ⟨fun q => ?_, fun q hq => ?_, fun q hq => ?_, fun q hq hthread => ?_, fun q hq => ?_,
    fun q r hq hr hq' hr' htable => ?_, fun q r hq hr hr' hmain => ?_, hm.numbered⟩
  · by_cases heq : q = p
    · subst heq
      simp [Member.main]
    · rw [hsame q heq]
      exact h.ready q
  · by_cases heq : q = p
    · subst heq
      simp [Member.main] at hq
    · rw [hsame q heq] at hq ⊢
      exact h.idle q hq
  · by_cases heq : q = p
    · subst heq
      refine ⟨q, ?_⟩
      constructor
      all_goals simp [Member.main]
    · rw [hsame q heq] at hq
      obtain ⟨r, hr⟩ := h.main q hq
      have hne : r ≠ p := by
        rintro rfl
        exact heq (halone q hq hr.pointer)
      exact ⟨r, hr.congr (hsame q heq) (hsame r hne)⟩
  · by_cases heq : q = p
    · subst heq
      simp [Member.main]
    · rw [hsame q heq] at hq hthread ⊢
      exact h.self q hq hthread
  · rw [hm.live]
    by_cases heq : q = p
    · subst heq
      refine ⟨t, Set.mem_insert t _, ?_⟩
      simp [Member.main]
    · rw [hsame q heq] at hq ⊢
      obtain ⟨t', hlive, ht'⟩ := h.table q hq
      exact ⟨t', Set.mem_insert_of_mem t hlive, ht'⟩
  · by_cases hqp : q = p
    · by_cases hrp : r = p
      · rw [hqp, hrp]
      · subst hqp
        rw [hself, hsame r hrp] at htable
        exact absurd htable.symm (hfresh r)
    · by_cases hrp : r = p
      · subst hrp
        rw [hself, hsame q hqp] at htable
        exact absurd htable (hfresh q)
      · rw [hsame q hqp] at hq hq' htable
        rw [hsame r hrp] at hr hr' htable
        exact h.apart q r hq hr hq' hr' htable
  · by_cases hrp : r = p
    · subst hrp
      simp [Member.main] at hr
    · rw [hsame r hrp] at hr hr'
      by_cases hqp : q = p
      · subst hqp
        rw [hself] at hmain
        exact Option.some.inj hmain
      · rw [hsame q hqp] at hq hmain
        exact h.last q r hq hr hr' hmain

theorem enroll {pid : Int} (hm : Settled m m') (hp : (g p).phase = .active)
    (hnp : (g np).phase = .unused) :
    Grouped (update g np { g p with pid := pid, isThread := true }) m' := by
  have hsame : ∀ q, q ≠ np → update g np { g p with pid := pid, isThread := true } q =
      g q := fun q hq => update_of_ne hq _ _
  have hself : update g np { g p with pid := pid, isThread := true } np =
      { g p with pid := pid, isThread := true } := update_self _ _ _
  have hused : (g p).phase ≠ .unused := by simp [hp]
  obtain ⟨r, hr⟩ := h.main p hused
  have hmain : ∀ q r, MainOf g q r → r ≠ np := by
    rintro q r hqr rfl
    exact hqr.used hnp
  refine ⟨fun q => ?_, fun q hq => ?_, fun q hq => ?_, fun q hq hthread => ?_, fun q hq => ?_,
    fun q r hq hr hq' hr' htable => ?_, fun q r' hq hr' hthread hpointer => ?_,
    hm.numbered h.numbered⟩
  · by_cases heq : q = np
    · rw [heq, hself]
      exact h.ready p
    · rw [hsame q heq]
      exact h.ready q
  · by_cases heq : q = np
    · rw [heq, hself] at hq
      exact absurd hq hused
    · rw [hsame q heq] at hq ⊢
      exact h.idle q hq
  · by_cases heq : q = np
    · subst heq
      refine ⟨r, ?_, ?_, ?_, ?_, ?_, ?_, ?_⟩
      all_goals simp only [hself, hsame r (hmain p r hr)]
      · exact hr.pointer
      · exact hr.used
      · exact hr.self
      · exact hr.main
      · exact hr.pid
      · exact hr.table
      · exact hr.sz
    · rw [hsame q heq] at hq
      obtain ⟨r', hr'⟩ := h.main q hq
      exact ⟨r', hr'.congr (hsame q heq) (hsame r' (hmain q r' hr'))⟩
  · by_cases heq : q = np
    · rw [heq, hself] at hthread
      exact absurd hthread (by simp)
    · rw [hsame q heq] at hq hthread ⊢
      exact h.self q hq hthread
  · rw [hm.live]
    by_cases heq : q = np
    · rw [heq, hself]
      exact h.table p hused
    · rw [hsame q heq] at hq ⊢
      exact h.table q hq
  · have hqnp : q ≠ np := by
      rintro rfl
      simp at hq'
    have hrnp : r ≠ np := by
      rintro rfl
      simp at hr'
    rw [hsame q hqnp] at hq hq' htable
    rw [hsame r hrnp] at hr hr' htable
    exact h.apart q r hq hr hq' hr' htable
  · have hrnp : r' ≠ np := by
      rintro rfl
      simp at hthread
    rw [hsame r' hrnp] at hr' hthread
    by_cases heq : q = np
    · -- the process of `p` has no zombie for a main thread, or `p` would be that zombie
      rw [heq, hself] at hpointer
      have hlast := h.last p r' hused hr' hthread hpointer
      rw [← hlast, hp] at hr'
      exact absurd hr' (by simp)
    · rw [hsame q heq] at hq hpointer
      exact h.last q r' hq hr' hthread hpointer

/-- Phases and sizes change, alike for all members of a group. -/
theorem reshape (hm : Settled m m')
    (hg : ∀ q, ∃ phase sz, g' q = { g q with phase := phase, sz := sz } ∧
      (phase = .unused ↔ (g q).phase = .unused) ∧ phase ≠ .used)
    (hsz : ∀ q r, MainOf g q r → (g' q).sz = (g' r).sz)
    (hlast : ∀ q r, (g q).phase ≠ .unused → (g' r).phase = .zombie → (g r).isThread = false →
      (g q).mainThread = some r → q = r) : Grouped g' m' := by
  refine ⟨fun q => ?_, fun q hq => ?_, fun q hq => ?_, fun q hq hthread => ?_, fun q hq => ?_,
    fun q r hq hr hq' hr' htable => ?_, fun q r hq hr hthread hpointer => ?_,
    hm.numbered h.numbered⟩
  · obtain ⟨phase, sz, hq, -, hused⟩ := hg q
    rwa [hq]
  · obtain ⟨phase, sz, hupdate, hunused, -⟩ := hg q
    rw [hupdate] at hq ⊢
    have hidle := h.idle q (hunused.mp hq)
    exact ⟨hq, hidle.isThread, hidle.pagetable⟩
  · obtain ⟨phase, sz, hupdate, hunused, -⟩ := hg q
    have hused : (g q).phase ≠ .unused := by
      rw [hupdate] at hq
      exact mt hunused.mpr hq
    obtain ⟨r, hr⟩ := h.main q hused
    obtain ⟨phase', sz', hupdate', hunused', -⟩ := hg r
    refine ⟨r, ?_, ?_, ?_, ?_, ?_, ?_, hsz q r hr⟩
    all_goals simp only [hupdate, hupdate']
    · exact hr.pointer
    · exact mt hunused'.mp hr.used
    · exact hr.self
    · exact hr.main
    · exact hr.pid
    · exact hr.table
  · obtain ⟨phase, sz, hupdate, hunused, -⟩ := hg q
    rw [hupdate] at hq hthread ⊢
    exact h.self q (mt hunused.mpr hq) hthread
  · obtain ⟨phase, sz, hupdate, hunused, -⟩ := hg q
    rw [hupdate] at hq ⊢
    rw [hm.live]
    exact h.table q (mt hunused.mpr hq)
  · obtain ⟨phase, sz, hupdate, hunused, -⟩ := hg q
    obtain ⟨phase', sz', hupdate', hunused', -⟩ := hg r
    rw [hupdate] at hq hq' htable
    rw [hupdate'] at hr hr' htable
    exact h.apart q r (mt hunused.mpr hq) (mt hunused'.mpr hr) hq' hr' htable
  · obtain ⟨phase, sz, hupdate, hunused, -⟩ := hg q
    obtain ⟨phase', sz', hupdate', -, -⟩ := hg r
    rw [hupdate] at hq hpointer
    have hthread' : (g r).isThread = false := by rwa [hupdate'] at hthread
    exact hlast q r (mt hunused.mpr hq) hr hthread' hpointer

/-- A slot that no other slot has as its main thread becomes a zombie. -/
theorem die (hp : (g p).phase = .active)
    (halone : ∀ q, (g q).phase ≠ .unused → (g q).mainThread = some p → q = p) :
    Grouped (update g p { g p with phase := .zombie }) m := by
  have hsize : ∀ q, (update g p { g p with phase := .zombie } q).sz = (g q).sz := by
    intro q
    by_cases heq : q = p
    · simp [heq]
    · simp [heq]
  refine h.reshape (Std.Refl.refl m) (fun q => ?_) (fun q r hr => ?_) fun q r hq hr hthread => ?_
  · by_cases heq : q = p
    · subst heq
      exact ⟨.zombie, (g q).sz, by simp, by simp [hp], by simp⟩
    · exact ⟨(g q).phase, (g q).sz, by simp [heq], Iff.rfl, h.ready q⟩
  · rw [hsize, hsize]
    exact hr.sz
  · by_cases heq : r = p
    · rw [heq]
      exact halone q hq
    · rw [update_of_ne heq] at hr
      exact h.last q r hq hr hthread

theorem main_pid (hr : MainOf g q r) : (g r).mainPid = (g r).pid := by
  obtain ⟨r', hr'⟩ := h.main r hr.used
  have heq : r' = r := Option.some.inj (hr'.pointer.symm.trans hr.self)
  rw [← hr'.pid, heq]

/-- The processes whose main thread has pid `pid` get a new size. -/
theorem resize {pid : Int} {sz : Nat} (hm : Settled m m')
    (hg : ∀ q, g' q = if (g q).mainPid = pid then { g q with sz := sz } else g q) :
    Grouped g' m' := by
  have hphase : ∀ q, (g' q).phase = (g q).phase := by
    intro q
    rw [hg]
    split <;> rfl
  refine h.reshape hm (fun q => ?_) (fun q r hr => ?_) fun q r hq hr hthread => ?_
  · refine ⟨(g q).phase, (g' q).sz, ?_, Iff.rfl, h.ready q⟩
    rw [hg]
    split <;> rfl
  · rw [hg, hg, h.main_pid hr, hr.pid]
    split
    · rfl
    · exact hr.sz
  · rw [hphase] at hr
    exact h.last q r hq hr hthread

theorem reap (hp : (g p).phase = .zombie) (hthread : (g p).isThread = false) :
    Grouped (update g p .cleared) m := by
  have hsame : ∀ q, (update g p .cleared q).phase ≠ .unused → q ≠ p ∧
      update g p .cleared q = g q := by
    intro q hq
    have hne : q ≠ p := by
      rintro rfl
      simp [Member.cleared] at hq
    exact ⟨hne, update_of_ne hne _ _⟩
  refine ⟨fun q hq => ?_, fun q hq => ?_, fun q hq => ?_, fun q hq => ?_, fun q hq => ?_,
    fun q r hq hr => ?_, fun q r hq hr => ?_, h.numbered⟩
  · obtain ⟨-, heq⟩ := hsame q (by simp [hq])
    rw [heq] at hq
    exact h.ready q hq
  · by_cases heq : q = p
    · rw [heq, update_self]
      exact Member.idle_cleared
    · rw [update_of_ne heq] at hq ⊢
      exact h.idle q hq
  · obtain ⟨hne, heq⟩ := hsame q hq
    rw [heq] at hq
    obtain ⟨r, hr⟩ := h.main q hq
    have hrp : r ≠ p := by
      rintro rfl
      exact hne (h.last q r hq hp hthread hr.pointer)
    exact ⟨r, hr.congr heq (update_of_ne hrp _ _)⟩
  · obtain ⟨-, heq⟩ := hsame q hq
    rw [heq] at hq ⊢
    exact h.self q hq
  · obtain ⟨-, heq⟩ := hsame q hq
    rw [heq] at hq ⊢
    exact h.table q hq
  · obtain ⟨-, hq'⟩ := hsame q hq
    obtain ⟨-, hr'⟩ := hsame r hr
    rw [hq'] at hq ⊢
    rw [hr'] at hr ⊢
    exact h.apart q r hq hr
  · obtain ⟨-, hq'⟩ := hsame q hq
    obtain ⟨-, hr'⟩ := hsame r (by simp [hr])
    rw [hq'] at hq ⊢
    rw [hr'] at hr ⊢
    exact h.last q r hq hr

end

end Grouped

end Changes

end Xv6.Thread.Calls
