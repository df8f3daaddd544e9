import Xv6.Thread.Exit
import Xv6.Thread.Pages

/-!
# Starting a thread

`paull04_clone` takes a slot and a pid, a page for the trapframe, a number from the counter of the
main thread, a mapping in the shared page table and references to the open files, in this order.
`thread_create` relies on a failed call having taken nothing. The call gives up cleanly only when
it finds no slot: without a page for the trapframe the new pid stays in the slot, and when
`mappages` has no page for a lower table the kernel panics. `clone_contract_iff` says which calls
keep the contract.

The trapframes are part of the state here, since a new thread runs with what the call puts into
its registers.
-/

namespace Xv6.Thread.Calls

open Function

variable {α : Type} {E : Fault → Prop} {s s' : System} {p main np : Slot} {t : TableId}

/-! ## Trapframes -/

/-- The fields of `struct trapframe`. -/
inductive Reg where
  | kernelSatp | kernelSp | kernelTrap | epc | kernelHartid
  | ra | sp | gp | tp
  | t0 | t1 | t2
  | s0 | s1
  | a0 | a1 | a2 | a3 | a4 | a5 | a6 | a7
  | s2 | s3 | s4 | s5 | s6 | s7 | s8 | s9 | s10 | s11
  | t3 | t4 | t5 | t6
  deriving DecidableEq, Repr

/-- `struct trapframe`. -/
abbrev Trapframe := Reg → BitVec 64

/-- The kernel, and what the trapframe pages hold. -/
structure Loaded where
  sys : System
  frame : Page → Trapframe

/-- Code that touches no trapframe. -/
def onSys (code : Code α) : Kernel Loaded α := fun x =>
  match code x.sys with
  | .ok (a, s) => .ok (a, { x with sys := s })
  | .error f => .error f

/-- `PGROUNDUP` of a `uint64`. -/
def pgroundup64 (sz : BitVec 64) : BitVec 64 := (sz + 4095#64) &&& ~~~4095#64

/-- `KSTACK`: where the kernel stack of slot `p` is mapped. -/
def kstack (p : Slot) : BitVec 64 := BitVec.ofNat 64 (TRAMPOLINE - (p + 1) * 2 * PGSIZE)

/-- The assignments of `paull04_clone` to the trapframe of `np`, which is a copy of `f`. -/
def Trapframe.start (f : Trapframe) (np : Slot) (fcn arg1 arg2 stack : BitVec 64) : Trapframe
  | .sp => pgroundup64 stack + BitVec.ofNat 64 PGSIZE
  | .ra => 0xFFFFFFFFFFFFFFFF#64
  | .a0 => arg1
  | .a1 => arg2
  | .epc => fcn
  | .kernelSp => kstack np + BitVec.ofNat 64 PGSIZE
  | r => f r

/-- The part of `paull04_clone` that fills the trapframe of `np`. -/
def fillTrapframe (p np : Slot) (fcn arg1 arg2 stack : BitVec 64) : Kernel Loaded Unit := do
  let x ← get
  let src ← onSys (deref (x.sys.proc p).trapframe)
  let dst ← onSys (deref (x.sys.proc np).trapframe)
  set { x with frame := update x.frame dst ((x.frame src).start np fcn arg1 arg2 stack) }

/-- `paull04_clone` by `p`. -/
def paull04Clone (p : Slot) (fcn arg1 arg2 stack : BitVec 64) : Kernel Loaded Int := do
  match ← onSys unusedSlot with
  | none => pure (-1)
  | some np => do
    if ← onSys (allocthread np) then
      let x ← get
      let main ← onSys (deref (x.sys.proc p).mainThread)
      onSys (placeThread p main np stack.toNat)
      fillTrapframe p np fcn arg1 arg2 stack
      if ← onSys (mapTrapframe p np) then onSys (startThread p main np)
      else kpanic "paull04_clone: mappages failed"
    else pure (-1)

@[simp] theorem wp_on_sys (code : Code α) {Q : α → Loaded → Prop} {x : Loaded} :
    wp (onSys code) E Q x ↔ wp code E (fun a s => Q a { x with sys := s }) x.sys := by
  unfold wp onSys
  cases code x.sys with
  | error f => rfl
  | ok r => rfl

/-! ## What each part does -/

/-- The system after `allocthread` has taken slot `np` and the first free page. -/
def tookSlot (s : System) (np : Slot) (page : Page) (rest : List Page) : System :=
  { s with
    nextpid := wrap (s.nextpid + 1)
    mem := { s.mem with free := rest }
    blocked := update s.blocked np none
    proc := update s.proc np { s.proc np with
      pid := s.nextpid, state := .used, killed := false, xstate := 0, trapframe := some page } }

/-- The system after `allocthread` has found no page for the trapframe. -/
def gaveSlotBack (s : System) (np : Slot) : System :=
  { s with
    nextpid := wrap (s.nextpid + 1)
    proc := update s.proc np { s.proc np with
      pid := s.nextpid, killed := false, xstate := 0, trapframe := none, state := .unused } }

theorem wp_allocthread_exact {Q : Bool → System → Prop} :
    wp (allocthread np) E Q s ↔ match s.mem.free with
      | [] => Q false (gaveSlotBack s np)
      | page :: rest => Q true (tookSlot s np page rest) := by
  simp only [allocthread, allocpid, kalloc, newContext, wp_bind, wp_get, wp_set, wp_pure,
    wp_set_proc, wp_on_mem]
  cases hfree : s.mem.free with
  | nil =>
    simp only [wp_bind, wp_pure, wp_set_proc, update_self, update_idem]
    rfl
  | cons page rest =>
    simp only [wp_bind, wp_pure, wp_set, wp_set_proc, wp_modify, update_self,
      update_idem]
    rfl

/-- The system after the descriptors of `p` below `k` have been duplicated for `np`. -/
def duplicated (s : System) (p np : Slot) (k : Nat) : System :=
  { s with
    file := fun f => { s.file f with ref := (s.file f).ref + opened (s.proc p) f k }
    proc := update s.proc np { s.proc np with
      ofile := fun fd =>
        if fd.val < k then ((s.proc p).ofile fd).or ((s.proc np).ofile fd)
        else (s.proc np).ofile fd } }

theorem duplicated_zero (s : System) (p np : Slot) : duplicated s p np 0 = s := by
  simp [duplicated, opened]

/-- What the loop body does to the reference counts and the descriptors, for `fd` closed or open
on a file. -/
theorem duplicated_succ (s : System) (p np : Slot) (fd : Fd) :
    duplicated s p np (fd + 1) = match (s.proc p).ofile fd with
      | none => duplicated s p np fd
      | some f =>
        { duplicated s p np fd with
          file := update (duplicated s p np fd).file f
            { (duplicated s p np fd).file f with ref := ((duplicated s p np fd).file f).ref + 1 }
          proc := update (duplicated s p np fd).proc np
            { (duplicated s p np fd).proc np with
              ofile := update ((duplicated s p np fd).proc np).ofile fd (some f) } } := by
  have hlt : ∀ fd' : Fd, fd' ≠ fd → (fd'.val < fd.val + 1 ↔ fd'.val < fd.val) := by
    intro fd' hne
    have hval : fd'.val ≠ fd.val := fun h => hne (Fin.ext h)
    omega
  have hofile : ∀ fd' : Fd, (if fd'.val < fd.val + 1
      then ((s.proc p).ofile fd').or ((s.proc np).ofile fd') else (s.proc np).ofile fd') =
      if fd' = fd then ((s.proc p).ofile fd).or ((s.proc np).ofile fd)
      else if fd'.val < fd.val then ((s.proc p).ofile fd').or ((s.proc np).ofile fd')
      else (s.proc np).ofile fd' := by
    intro fd'
    by_cases heq : fd' = fd
    · subst heq
      simp
    · simp [heq, hlt fd' heq]
  cases hopen : (s.proc p).ofile fd with
  | none =>
    unfold duplicated
    simp only [opened_succ, hofile, hopen, Option.none_or, reduceCtorEq, if_false, Nat.add_zero]
    congr 3
    funext fd'
    by_cases heq : fd' = fd
    · subst heq
      simp
    · simp [heq]
  | some f =>
    unfold duplicated
    simp only [opened_succ, hofile, hopen, Option.some_or, Option.some.injEq,
      update_self, update_idem]
    congr 2
    · congr 1
      funext fd'
      by_cases heq : fd' = fd
      · subst heq
        simp
      · simp [heq]
    · funext f'
      by_cases heq : f' = f
      · subst heq
        simp [Nat.add_assoc]
      · simp [heq, Ne.symm heq]

theorem wp_dup_files (hne : p ≠ np)
    (hopen : ∀ fd f, (s.proc p).ofile fd = some f → 0 < (s.file f).ref) :
    wp (dupFiles p np) E (fun _ s' => s' = duplicated s p np NOFILE) s := by
  refine wp_for_each (fun k s' => s' = duplicated s p np k) ?_ (duplicated_zero s p np).symm
  rintro fd s' rfl
  have hproc : (duplicated s p np fd).proc p = s.proc p := update_of_ne hne _ _
  rw [duplicated_succ]
  simp only [wp_bind, wp_get, hproc]
  cases hfd : (s.proc p).ofile fd with
  | none => rfl
  | some f =>
    have href : ¬ ((duplicated s p np fd).file f).ref < 1 := by
      have hpos := hopen fd f hfd
      simp only [duplicated]
      omega
    simp only [filedup, setFd, wp_bind, wp_get, if_neg href, wp_set_file, wp_set_proc]

/-! ## The whole call -/

/-- Where the trapframe of the next thread of `main` is mapped. -/
def frameVa (s : System) (main : Slot) : Nat := threadTrapframe (wrap ((s.proc main).cnt + 1))

/-- Slot `main` with one more thread counted. -/
def counted (s : System) (main : Slot) : Task :=
  { s.proc main with cnt := wrap ((s.proc main).cnt + 1) }

/-- Slot `np` as a new thread of `main`, cloned by `p`, with its trapframe in `page`. -/
def newThread (s : System) (p main np : Slot) (page : Page) (stack : Nat) : Task :=
  { s.proc np with
    pid := s.nextpid, state := .runnable, killed := false, xstate := 0,
    trapframe := some page, trapframeVa := frameVa s main,
    pagetable := (s.proc p).pagetable, sz := (s.proc p).sz, stackBase := stack,
    ofile := (s.proc p).ofile, cwd := (s.proc p).cwd,
    mainPid := (s.proc p).mainPid, mainThread := some main, isThread := true,
    parent := some main }

/-- The system around the call of `mappages` in `paull04_clone`. -/
def placed (s : System) (p main np : Slot) (page : Page) (stack : Nat) (mem : Mem) : System :=
  { s with
    nextpid := wrap (s.nextpid + 1)
    mem := mem
    blocked := update s.blocked np none
    proc := update (update s.proc main (counted s main)) np { s.proc np with
      pid := s.nextpid, state := .used, killed := false, xstate := 0,
      trapframe := some page, trapframeVa := frameVa s main,
      pagetable := (s.proc p).pagetable, sz := (s.proc p).sz, stackBase := stack } }

/-- The system when `paull04_clone` returns the pid of `np`, with the memory that `mappages` has
left. A descriptor that is closed in `p` stays as it was in the slot. -/
def cloned (s : System) (p main np : Slot) (page : Page) (stack : Nat) (cwd : Inode) (mem : Mem) :
    System :=
  { s with
    nextpid := wrap (s.nextpid + 1)
    mem := mem
    blocked := update s.blocked np none
    file := fun f => { s.file f with ref := (s.file f).ref + opened (s.proc p) f NOFILE }
    iref := update s.iref cwd (s.iref cwd + 1)
    proc := update (update s.proc main (counted s main)) np
      { newThread s p main np page stack with
        ofile := fun fd => ((s.proc p).ofile fd).or ((s.proc np).ofile fd) } }

section Placed

variable {page : Page} {stack : Nat} {cwd : Inode} {mem : Mem}

theorem placed_caller (hne : p ≠ np) : (placed s p main np page stack mem).proc p =
    { s.proc p with
      cnt := if p = main then wrap ((s.proc main).cnt + 1) else (s.proc p).cnt } := by
  show update (update s.proc main _) np _ p = _
  rw [update_of_ne hne]
  by_cases h : p = main
  · subst h
    simp [counted]
  · simp [h]

theorem placed_new : (placed s p main np page stack mem).proc np = { s.proc np with
    pid := s.nextpid, state := .used, killed := false, xstate := 0,
    trapframe := some page, trapframeVa := frameVa s main,
    pagetable := (s.proc p).pagetable, sz := (s.proc p).sz, stackBase := stack } :=
  update_self ..

theorem cloned_new : (cloned s p main np page stack cwd mem).proc np =
    { newThread s p main np page stack with
      ofile := fun fd => ((s.proc p).ofile fd).or ((s.proc np).ofile fd) } :=
  update_self ..

theorem cloned_other {q : Slot} (hq : q ≠ np) : (cloned s p main np page stack cwd mem).proc q =
    if q = main then counted s main else s.proc q := by
  show update (update s.proc main (counted s main)) np _ q = _
  rw [update_of_ne hq]
  by_cases h : q = main
  · subst h
    simp
  · simp [h]

/-- `placeThread` counts the thread and gives it the table of `p`. -/
theorem wp_place_thread_exact {rest : List Page} {Q : Unit → System → Prop} (hp : p ≠ np)
    (hmain : main ≠ np) :
    wp (placeThread p main np stack) E Q (tookSlot s np page rest) ↔
      Q () (placed s p main np page stack { s.mem with free := rest }) := by
  have hmain1 : (tookSlot s np page rest).proc main = s.proc main :=
    update_of_ne hmain _ _
  have hp1 : (tookSlot s np page rest).proc p = s.proc p := update_of_ne hp _ _
  have hcaller : ∀ x : Task, x.pagetable = (s.proc main).pagetable → x.sz = (s.proc main).sz →
      (update (tookSlot s np page rest).proc main x p).pagetable =
        (s.proc p).pagetable ∧
      (update (tookSlot s np page rest).proc main x p).sz = (s.proc p).sz := by
    intro x htable hsz
    by_cases h : p = main
    · subst h
      simp [htable, hsz]
    · simp [h, hp1]
  obtain ⟨htable, hsz⟩ := hcaller (counted s main) rfl rfl
  simp only [placeThread, wp_bind, wp_get, wp_set_proc, hmain1, update_self,
    update_of_ne hmain.symm]
  refine Eq.to_iff (congrArg (Q ()) ?_)
  unfold counted at htable hsz
  simp only [htable, hsz]
  simp only [tookSlot, placed, update_self, update_comm hmain,
    update_idem]
  rfl

/-- `startThread` publishes the slot that `placeThread` has filled. -/
theorem wp_start_thread_placed (hne : p ≠ np) (hcwd : (s.proc p).cwd = some cwd)
    (hopen : ∀ fd f, (s.proc p).ofile fd = some f → 0 < (s.file f).ref) :
    wp (startThread p main np) E (fun r s' => r = s.nextpid ∧
      s' = cloned s p main np page stack cwd mem) (placed s p main np page stack mem) := by
  obtain ⟨s1, hs1⟩ : ∃ s1, s1 = placed s p main np page stack mem := ⟨_, rfl⟩
  rw [← hs1]
  have hp : s1.proc p = { s.proc p with
      cnt := if p = main then wrap ((s.proc main).cnt + 1) else (s.proc p).cnt } := by
    rw [hs1]
    exact placed_caller hne
  have hofile : (s1.proc p).ofile = (s.proc p).ofile := by rw [hp]
  have hfile : s1.file = s.file := by rw [hs1]; rfl
  simp only [startThread, wp_bind]
  refine wp_mono (wp_dup_files hne ?_) ?_
  · intro fd f hfd
    rw [hofile] at hfd
    rw [hfile]
    exact hopen fd f hfd
  · rintro _ s2 rfl
    have hp2 : (duplicated s1 p np NOFILE).proc p = s1.proc p := update_of_ne hne _ _
    have hcwd1 : (s1.proc p).cwd = some cwd := by rw [hp, ← hcwd]
    simp only [wp_get, hp2, hcwd1, wp_deref_some, idup, wp_modify, wp_set_proc, wp_pure]
    refine ⟨?_, ?_⟩
    · subst hs1
      simp [duplicated, placed]
    · have hopened : ∀ f, opened (s1.proc p) f NOFILE = opened (s.proc p) f NOFILE := by
        intro f
        simp only [opened, hofile]
      have hmainPid : (s1.proc p).mainPid = (s.proc p).mainPid := by rw [hp]
      simp only [duplicated, hopened, hofile, hmainPid, Fin.is_lt, if_true, update_self,
        update_idem]
      subst hs1
      simp only [placed, cloned, newThread, hcwd, update_self, update_idem]

end Placed

/-- Process `p` is in a state to make system calls: it is a thread of `main` with a trapframe, a
page table and a current directory, and its open files are in use. -/
structure Caller (s : System) (p main : Slot) (t : TableId) : Prop where
  used : (s.proc p).state ≠ .unused
  thread : (s.proc p).mainThread = some main
  mainUsed : (s.proc main).state ≠ .unused
  trapframe : (s.proc p).trapframe.isSome
  table : (s.proc p).pagetable = some t
  live : s.mem.Live t
  cwd : (s.proc p).cwd.isSome
  files : ∀ fd f, (s.proc p).ofile fd = some f → 0 < (s.file f).ref

/-- The slot that the scan for an UNUSED one finds. -/
def nextSlot (s : System) : Ptr := firstSlot fun q => decide ((s.proc q).state = .unused)

/-- There are a free page of the address space for the next trapframe of `main` and, with `rest`
free pages, the memory to map it in table `t`. -/
def Mappable (s : System) (main : Slot) (t : TableId) (rest : List Page) : Prop :=
  frameVa s main < MAXVA ∧ s.mem.leaf t (frameVa s main / PGSIZE) = none ∧
    (s.mem.lack t (tablesFor (frameVa s main))).card ≤ rest.length

/-- The ways in which `paull04_clone` by `p` returns. -/
inductive Outcome (p main : Slot) (t : TableId) (fcn arg1 arg2 stack : BitVec 64) (x : Loaded) :
    Int → Loaded → Prop where
  | full (hslot : nextSlot x.sys = none) : Outcome p main t fcn arg1 arg2 stack x (-1) x
  /-- There is no page for the trapframe. -/
  | declined {np : Slot} (hslot : nextSlot x.sys = some np) (hfree : x.sys.mem.free = []) :
      Outcome p main t fcn arg1 arg2 stack x (-1) { x with sys := gaveSlotBack x.sys np }
  | started {np : Slot} {page src : Page} {rest : List Page} {cwd : Inode} {mem : Mem}
      (hslot : nextSlot x.sys = some np) (hfree : x.sys.mem.free = page :: rest)
      (hsrc : (x.sys.proc p).trapframe = some src) (hcwd : (x.sys.proc p).cwd = some cwd)
      (hmap : MapsOne t (frameVa x.sys main) ⟨page, { w := true }⟩
        { x.sys.mem with free := rest } true mem) :
      Outcome p main t fcn arg1 arg2 stack x x.sys.nextpid {
        sys := cloned x.sys p main np page stack.toNat cwd mem
        frame := update x.frame page ((x.frame src).start np fcn arg1 arg2 stack) }

theorem next_slot_unused (h : nextSlot s = some np) : (s.proc np).state = .unused := by
  simpa using first_slot_some h

theorem frame_va_aligned (s : System) (main : Slot) : frameVa s main % PGSIZE = 0 := by
  unfold frameVa threadTrapframe wrap
  simp only [TRAPFRAME, TRAMPOLINE, MAXVA, PGSIZE, Int.bmod]
  omega

/-- Every call returns in one of these ways, if a trapframe page that it gets can be mapped. -/
theorem wp_paull04_clone {x : Loaded} {fcn arg1 arg2 stack : BitVec 64}
    (hcaller : Caller x.sys p main t)
    (hmap : (∀ page rest, x.sys.mem.free = page :: rest → nextSlot x.sys ≠ none →
      Mappable x.sys main t rest) ∨ ∀ f, E f) :
    wp (paull04Clone p fcn arg1 arg2 stack) E (Outcome p main t fcn arg1 arg2 stack x) x := by
  obtain ⟨cwd, hcwd⟩ := Option.isSome_iff_exists.mp hcaller.cwd
  obtain ⟨src, hsrc⟩ := Option.isSome_iff_exists.mp hcaller.trapframe
  simp only [paull04Clone, unusedSlot, wp_bind, wp_on_sys, wp_get, wp_pure]
  cases hslot : nextSlot x.sys with
  | none =>
    unfold nextSlot at hslot
    rw [hslot]
    exact .full hslot
  | some np =>
    have hunused := next_slot_unused hslot
    have hne : p ≠ np := fun h => hcaller.used (h ▸ hunused)
    have hmain : main ≠ np := fun h => hcaller.mainUsed (h ▸ hunused)
    have hsome : nextSlot x.sys ≠ none := by simp [hslot]
    have hfound := hslot
    unfold nextSlot at hfound
    rw [hfound]
    simp only [wp_bind, wp_on_sys, wp_allocthread_exact]
    cases hfree : x.sys.mem.free with
    | nil =>
      simp only [Bool.false_eq_true, if_false, wp_pure]
      exact .declined hslot hfree
    | cons page rest =>
      have hp1 : (tookSlot x.sys np page rest).proc p = x.sys.proc p :=
        update_of_ne hne _ _
      simp only [if_true, wp_bind, wp_get, wp_on_sys, hp1, hcaller.thread, wp_deref_some,
        wp_place_thread_exact hne hmain]
      simp only [fillTrapframe, wp_bind, wp_get, wp_on_sys, placed_caller hne, placed_new, hsrc,
        wp_deref_some, wp_set, mapTrapframe, hcaller.table, wp_on_mem, Option.getD_some]
      have hmaps : wp (mappages t (frameVa x.sys main) PGSIZE page { w := true }) E
          (MapsOne t (frameVa x.sys main) ⟨page, { w := true }⟩ { x.sys.mem with free := rest })
          { x.sys.mem with free := rest } := by
        refine wp_mappages_one hcaller.live (frame_va_aligned _ _) ?_ ?_
        · intro hva
          exact hmap.elim (fun h => absurd (h page rest hfree hsome).1 (not_lt.mpr hva))
            fun h => h _
        · intro hleaf
          exact hmap.elim (fun h => absurd (h page rest hfree hsome).2.1 hleaf) fun h => h _
      refine wp_mono hmaps fun done mem hdone => ?_
      cases done with
      | false =>
        refine hmap.elim (fun h => ?_) fun h => h _
        exact absurd (hdone.enough.mpr (h page rest hfree hsome).2.2) (by simp)
      | true =>
        simp only [if_true, wp_on_sys]
        refine wp_mono (wp_start_thread_placed hne hcwd hcaller.files) ?_
        rintro r s' ⟨rfl, rfl⟩
        exact .started hslot hfree hsrc hcwd hdone

/-- Without the trapframes, this is the call `clone` of `Xv6.Thread.Calls`. -/
theorem paull04_clone_refines {x : Loaded} {fcn arg1 arg2 stack : BitVec 64}
    {Q : Int → System → Prop} (hcaller : Caller x.sys p main t)
    (h : wp (clone p stack.toNat) E Q x.sys) :
    wp (paull04Clone p fcn arg1 arg2 stack) E (fun r x' => Q r x'.sys) x := by
  obtain ⟨src, hsrc⟩ := Option.isSome_iff_exists.mp hcaller.trapframe
  simp only [clone, paull04Clone, unusedSlot, wp_bind, wp_on_sys, wp_get, wp_pure] at h ⊢
  split
  next hnone =>
    rw [hnone] at h
    exact h
  next np hnp =>
    have hunused : (x.sys.proc np).state = .unused := next_slot_unused hnp
    have hne : p ≠ np := fun h => hcaller.used (h ▸ hunused)
    have hmain : main ≠ np := fun h => hcaller.mainUsed (h ▸ hunused)
    rw [hnp] at h
    simp only [wp_bind, wp_on_sys, wp_allocthread_exact] at h ⊢
    cases hfree : x.sys.mem.free with
    | nil =>
      rw [hfree] at h
      exact h
    | cons page rest =>
      have hp1 : (tookSlot x.sys np page rest).proc p = x.sys.proc p :=
        update_of_ne hne _ _
      rw [hfree] at h
      simp only [if_true, wp_bind, wp_get, wp_on_sys, hp1, hcaller.thread, wp_deref_some,
        wp_place_thread_exact hne hmain, fillTrapframe, placed_caller hne, placed_new, hsrc,
        wp_set] at h ⊢
      refine wp_mono h fun done s1 hdone => ?_
      cases done with
      | false => exact hdone
      | true => exact (wp_on_sys _).mpr hdone

/-! ## The contract -/

/-- The same state, pid and place in a group of threads. -/
structure SameMember (x x' : Task) : Prop where
  state : x'.state = x.state
  pid : x'.pid = x.pid
  mainPid : x'.mainPid = x.mainPid
  mainThread : x'.mainThread = x.mainThread
  isThread : x'.isThread = x.isThread
  parent : x'.parent = x.parent
  cnt : x'.cnt = x.cnt

/-- A failed call has taken nothing: `pages` counts the free pages together with those of the
shared table, where `walk` may have put some. -/
structure Untouched (s : System) (t : TableId) (s' : System) : Prop where
  slots : ∀ q, SameMember (s.proc q) (s'.proc q)
  files : s'.file = s.file
  inodes : s'.iref = s.iref
  leaves : ∀ t' v, s'.mem.leaf t' v = s.mem.leaf t' v
  pages : s'.mem.total t = s.mem.total t

/-- Slot `np` is a thread of `main` that is ready to run `fcn`, with its trapframe in `page`. -/
structure ThreadReady (p main np : Slot) (t : TableId) (page : Page)
    (fcn arg1 arg2 stack : BitVec 64) (x x' : Loaded) : Prop where
  unused : (x.sys.proc np).state = .unused
  free : page ∈ x.sys.mem.free
  slot : x'.sys.proc np = newThread x.sys p main np page stack.toNat
  count : x'.sys.proc main = counted x.sys main
  others : ∀ q, q ≠ np → q ≠ main → x'.sys.proc q = x.sys.proc q
  context : x'.sys.blocked np = none
  registers : ∀ src, (x.sys.proc p).trapframe = some src →
    x'.frame page = (x.frame src).start np fcn arg1 arg2 stack
  below : frameVa x.sys main < MAXVA
  mapped : ∀ v, x'.sys.mem.leaf t v =
    if v = frameVa x.sys main / PGSIZE then some ⟨page, { w := true }⟩ else x.sys.mem.leaf t v
  pages : x'.sys.mem.total t = x.sys.mem.total t
  files : ∀ f, x'.sys.file f =
    { x.sys.file f with ref := (x.sys.file f).ref + opened (x.sys.proc p) f NOFILE }
  inodes : ∀ cwd, (x.sys.proc p).cwd = some cwd →
    x'.sys.iref = update x.sys.iref cwd (x.sys.iref cwd + 1)

/-- The contract of `paull04_clone(fcn, arg1, arg2, stack)` by `p`, which returns `r`. -/
def ClonesRight (p main : Slot) (t : TableId) (fcn arg1 arg2 stack : BitVec 64) (x : Loaded)
    (r : Int) (x' : Loaded) : Prop :=
  (r = -1 ∧ Untouched x.sys t x'.sys) ∨
    ∃ np page, r = x.sys.nextpid ∧ ThreadReady p main np t page fcn arg1 arg2 stack x x'

/-- No slot is UNUSED, or the first UNUSED one has the pid of the next process already and there is
no page, or there are a page for the trapframe and all it takes to map it, and the slot has no
descriptor of its last user. -/
def CanClone (s : System) (p main : Slot) (t : TableId) : Prop :=
  ∀ np, nextSlot s = some np →
    (s.mem.free = [] → (s.proc np).pid = s.nextpid) ∧
    ∀ page rest, s.mem.free = page :: rest → Mappable s main t rest ∧
      ∀ fd, (s.proc p).ofile fd = none → (s.proc np).ofile fd = none

section Contract

variable {fcn arg1 arg2 stack : BitVec 64} {x x' : Loaded} {r : Int}

/-- A call that could be made returns with the contract kept. -/
theorem Outcome.right (h : Outcome p main t fcn arg1 arg2 stack x r x')
    (hcaller : Caller x.sys p main t) (hcan : CanClone x.sys p main t) :
    ClonesRight p main t fcn arg1 arg2 stack x r x' := by
  cases h with
  | full hslot =>
    exact .inl ⟨rfl, fun _ => ⟨rfl, rfl, rfl, rfl, rfl, rfl, rfl⟩, rfl, rfl, fun _ _ => rfl, rfl⟩
  | @declined np hslot hfree =>
    have hpid := (hcan np hslot).1 hfree
    refine .inl ⟨rfl, fun q => ?_, rfl, rfl, fun _ _ => rfl, rfl⟩
    by_cases hq : q = np
    · subst hq
      simp only [gaveSlotBack, update_self]
      exact ⟨(next_slot_unused hslot).symm, hpid.symm, rfl, rfl, rfl, rfl, rfl⟩
    · simp only [gaveSlotBack, update_of_ne hq]
      exact ⟨rfl, rfl, rfl, rfl, rfl, rfl, rfl⟩
  | @started np page src rest cwd mem hslot hfree hsrc hcwd hmap =>
    have hunused := next_slot_unused hslot
    have hmain : main ≠ np := fun h => hcaller.mainUsed (h ▸ hunused)
    have hclosed := ((hcan np hslot).2 page rest hfree).2
    have hofile : (fun fd => ((x.sys.proc p).ofile fd).or ((x.sys.proc np).ofile fd)) =
        (x.sys.proc p).ofile := by
      funext fd
      cases hfd : (x.sys.proc p).ofile fd with
      | none => exact hclosed fd hfd
      | some f => rfl
    refine .inr ⟨np, page, rfl, hunused, by simp [hfree], ?_, ?_, ?_, ?_, ?_, hmap.below,
      hmap.wrote rfl, ?_, fun _ => rfl, ?_⟩
    · rw [cloned_new, hofile]
      rfl
    · rw [cloned_other hmain, if_pos rfl]
    · intro q hnp hq
      rw [cloned_other hnp, if_neg hq]
    · exact update_self ..
    · intro src' hsrc'
      obtain rfl : src' = src := Option.some.inj (hsrc'.symm.trans hsrc)
      exact update_self ..
    · have htotal := hmap.total
      rw [if_pos rfl, ← total_cons, ← hfree] at htotal
      exact htotal
    · intro cwd' hcwd'
      obtain rfl : cwd' = cwd := Option.some.inj (hcwd'.symm.trans hcwd)
      rfl

theorem Outcome.can (h : Outcome p main t fcn arg1 arg2 stack x r x')
    (hright : ClonesRight p main t fcn arg1 arg2 stack x r x') : CanClone x.sys p main t := by
  intro np hslot
  have hunused := next_slot_unused hslot
  cases h with
  | full hnone => simp [hnone] at hslot
  | @declined np' hslot' hfree =>
    obtain rfl : np' = np := Option.some.inj (hslot'.symm.trans hslot)
    refine ⟨fun _ => ?_, fun page rest h => by simp [hfree] at h⟩
    rcases hright with ⟨-, hsame⟩ | ⟨q, page, -, hready⟩
    · have hpid := (hsame.slots np').pid
      simpa [gaveSlotBack] using hpid.symm
    · have hmem := hready.free
      simp [hfree] at hmem
  | @started np' page src rest cwd mem hslot' hfree hsrc hcwd hmap =>
    obtain rfl : np' = np := Option.some.inj (hslot'.symm.trans hslot)
    refine ⟨fun h => by simp [hfree] at h, fun page' rest' h => ?_⟩
    obtain ⟨rfl, rfl⟩ : page = page' ∧ rest = rest' := by simpa [hfree] using h
    refine ⟨⟨hmap.below, hmap.fresh rfl, hmap.enough.mp rfl⟩, fun fd hfd => ?_⟩
    rcases hright with ⟨-, hsame⟩ | ⟨q, page', -, hready⟩
    · -- the slot is not UNUSED any more
      have hstate := (hsame.slots np').state
      rw [cloned_new, hunused] at hstate
      cases hstate
    · have hslot_q := hready.slot
      obtain rfl : q = np' := by
        by_contra hq
        have hstate : ((cloned x.sys p main np' page stack.toNat cwd mem).proc q).state =
            (x.sys.proc q).state := by
          rw [cloned_other hq]
          by_cases h : q = main
          · subst h
            rw [if_pos rfl]
            rfl
          · rw [if_neg h]
        rw [hslot_q, hready.unused] at hstate
        cases hstate
      have hofile := congrFun (congrArg Task.ofile (cloned_new.symm.trans hslot_q)) fd
      simpa [newThread, hfd] using hofile

/-- `paull04_clone`, called with any arguments in any process table and with any free memory,
either starts a thread or fails without a trace, exactly if it finds what it needs. -/
theorem clone_contract_iff (hcaller : Caller x.sys p main t) :
    wp (paull04Clone p fcn arg1 arg2 stack) Fault.never
      (ClonesRight p main t fcn arg1 arg2 stack x) x ↔ CanClone x.sys p main t := by
  constructor
  · intro h
    obtain ⟨r, x', hrun, hright⟩ := wp_returns h
    have hany : wp (paull04Clone p fcn arg1 arg2 stack) Fault.any
        (Outcome p main t fcn arg1 arg2 stack x) x :=
      wp_paull04_clone hcaller (.inr fun _ => trivial)
    exact (wp_ok hany hrun).can hright
  · intro hcan
    refine wp_mono (wp_paull04_clone hcaller (.inl ?_)) fun r x' h => h.right hcaller hcan
    intro page rest hfree hslot
    obtain ⟨np, hnp⟩ := Option.ne_none_iff_exists'.mp hslot
    exact ((hcan np hnp).2 page rest hfree).1

end Contract

/-- The trapframes are empty at first. -/
def noFrames : Page → Trapframe := fun _ _ => 0

/-- The process clones a second thread. -/
theorem clone_contract_second : (oneThread.proc 1).cnt = 1 ∧
    wp (paull04Clone 1 0 1 2 0) Fault.never
      (ClonesRight 1 1 1 0 1 2 0 ⟨oneThread, noFrames⟩) ⟨oneThread, noFrames⟩ := by
  refine ⟨by decide +kernel, (clone_contract_iff (x := ⟨oneThread, noFrames⟩) ?_).mpr ?_⟩
  · have hlive : (oneThread.mem.tables 1).isSome := by decide +kernel
    exact ⟨by decide +kernel, by decide +kernel, by decide +kernel, by decide +kernel,
      by decide +kernel, hlive, by decide +kernel, by decide +kernel⟩
  · intro np hslot
    have hnext : nextSlot oneThread = some 3 := by decide +kernel
    have hfree : oneThread.mem.free = 16 :: List.range' 17 24 := by decide +kernel
    obtain rfl : 3 = np := Option.some.inj (hnext.symm.trans hslot)
    refine ⟨fun h => ?_, fun page rest h => ?_⟩
    · rw [hfree] at h
      cases h
    · rw [hfree] at h
      cases h
      exact ⟨⟨by decide +kernel, by decide +kernel, by decide +kernel⟩, by decide +kernel⟩

/-- The process has grown until there was no page left. -/
@[irreducible] def noPages : System :=
  lastState unguarded step [.call 2 (.growproc 102400)] oneThread

/-- Its call fails and leaves a pid in an UNUSED slot. -/
theorem failed_clone_leaves_pid :
    Reachable (· = boot (List.range' 1 40)) unguarded step noPages ∧
    (noPages.proc 1).state = .running ∧ noPages.mem.free = [] ∧ (noPages.proc 3).pid = 0 ∧
    valueOf (do
      let r ← paull04Clone 1 0 1 2 0
      let x ← get
      pure (r, (x.sys.proc 3).state, (x.sys.proc 3).pid)) ⟨noPages, noFrames⟩ =
      some (-1, .unused, 4) := by
  refine ⟨?_, by decide +kernel, by decide +kernel, by decide +kernel, by decide +kernel⟩
  unfold noPages
  exact reachable_one_thread.last_state _

end Xv6.Thread.Calls
