import Xv6.Thread.Exit
import Xv6.Thread.Consistency
import Xv6.Thread.Pages

/-!
# Growing a threaded process

The threads of a process share a page table, and each of their slots has its own copy of the size.
`growproc` changes the table of the main thread first and then every copy, all under `wait_lock`.
When `uvmalloc` fails it returns from the middle of this section: the table and the sizes are as
before, but the lock is never given back. `growproc_contract_iff` says when a call keeps its
promises.
-/

namespace Xv6.Thread.Calls

variable {s s' : System} {p m q : Slot} {t : TableId} {n : Int} {E : Fault → Prop} {sz : Nat}
  {mem : Mem}

/-! ## The address space of a process -/

/-- Slot `q` is in use by the process of the main thread `m`. -/
def MemberOf (s : System) (m q : Slot) : Prop :=
  (s.proc q).state ≠ .unused ∧ (s.proc q).mainThread = some m

instance (s : System) (m q : Slot) : Decidable (MemberOf s m q) :=
  inferInstanceAs (Decidable (_ ∧ _))

/-- Page `v` is the one of the trampoline, or of the trapframe of a thread. -/
def Reserved (s : System) (m : Slot) (v : Nat) : Prop :=
  v = TRAMPOLINE / PGSIZE ∨ ∃ q, MemberOf s m q ∧ v = (s.proc q).trapframeVa / PGSIZE

instance (s : System) (m : Slot) (v : Nat) : Decidable (Reserved s m v) :=
  inferInstanceAs (Decidable (_ ∨ _))

/-- Table `t` of memory `mem` maps the pages below `sz`, and of the others none but reserved
ones. -/
structure MapsBelow (s : System) (m : Slot) (mem : Mem) (t : TableId) (sz : Nat) : Prop where
  below : ∀ v < npages sz, mem.leaf t v ≠ none
  others : ∀ v, mem.leaf t v ≠ none → v < npages sz ∨ Reserved s m v

/-- The address space of the process with main thread `m` is in order. A thread may have lost its
trapframe, as it does in an `exec` that fails. -/
structure AddressSpace (s : System) (m : Slot) (t : TableId) : Prop where
  table : (s.proc m).pagetable = some t
  top : (s.proc m).sz ≤ MAXVA
  maps : MapsBelow s m s.mem t (s.proc m).sz
  nodes : ∀ v < npages (s.proc m).sz, ∀ key ∈ tablesFor (v * PGSIZE), s.mem.Node t key

theorem AddressSpace.unmappable (h : AddressSpace s m t) {v : Nat}
    (hv : v < npages (s.proc m).sz) : Unmappable s.mem t (v * PGSIZE) := by
  have hleaf : s.mem.leaf t v ≠ none := h.maps.below v hv
  refine ⟨Nat.mul_mod_left _ _, ?_, fun key hkey => h.nodes v hv key ?_, ?_⟩
  · have htop := h.top
    simp only [npages, PGSIZE, MAXVA] at *
    omega
  · simpa [tablesFor] using hkey
  · rwa [page_of_mul]

/-- The size that `growproc` gives a process of size `sz`. Below zero the sum wraps around to a
size above the old one, and `uvmdealloc` returns the old size. -/
def grownSize (sz : Nat) (n : Int) : Nat := if sz + n < 0 then sz else (sz + n).toNat

theorem min_wrapped (hsz : sz ≤ MAXVA) (hlow : -2 ^ 31 ≤ n) (hneg : n < 0) :
    min sz ((sz + n) % 2 ^ 64).toNat = grownSize sz n := by
  unfold grownSize
  simp only [MAXVA] at hsz
  split
  next h => omega
  next h => omega

theorem wrapped_eq (hsz : sz ≤ MAXVA) (hpos : 0 < n) (hhigh : n < 2 ^ 31) :
    ((sz + n) % 2 ^ 64).toNat = grownSize sz n := by
  unfold grownSize
  simp only [MAXVA] at hsz
  split
  next h => omega
  next h => omega

/-- There is memory to grow the process by `n`, and room for it in the address space. -/
def HasRoom (s : System) (m : Slot) (t : TableId) (n : Int) : Prop :=
  s.mem.cost t (s.proc m).sz (grownSize (s.proc m).sz n) ≤ s.mem.free.length ∧
  ∀ v, npages (s.proc m).sz ≤ v → v < npages (grownSize (s.proc m).sz n) →
    s.mem.leaf t v = none ∧ v * PGSIZE < MAXVA

/-! ## What a call does -/

/-- The threads of `m` have size `sz`, and the pages below it are the ones that are mapped. -/
structure Grown (s : System) (m : Slot) (t : TableId) (sz : Nat) (s' : System) : Prop where
  sizes : ∀ q, MemberOf s m q → (s'.proc q).sz = sz
  maps : MapsBelow s' m s'.mem t sz

/-- The sizes and the table are as before, and no page is lost. -/
structure Restored (s : System) (m : Slot) (t : TableId) (s' : System) : Prop where
  sizes : ∀ q, MemberOf s m q → (s'.proc q).sz = (s.proc q).sz
  leaves : ∀ t' v, s'.mem.leaf t' v = s.mem.leaf t' v
  total : s'.mem.total t = s.mem.total t

/-- The contract of `growproc(n)` in the process of `m`, which returns `r`. -/
structure GrowsRight (s : System) (m : Slot) (t : TableId) (n r : Int)
    (x : Spin.Spun Lock System) : Prop where
  /-- Neither `wait_lock` nor the lock of a process is held. -/
  locks : x.held = [] ∧ x.data.waitLock = none
  result : r = 0 ∨ r = -1
  grown : r = 0 → Grown s m t (grownSize (s.proc m).sz n) x.data
  failed : r = -1 → Restored s m t x.data

/-- The threads of a process are the slots with the pid of its main thread. -/
theorem main_of_member (h : Grouped (members s) s.mem) (hq : MemberOf s m q) :
    MainOf (members s) q m := by
  have hused : (members s q).phase ≠ .unused := fun hphase => hq.1 (phase_unused.mp hphase)
  obtain ⟨r, hr⟩ := h.main q hused
  have heq : r = m := Option.some.inj (hr.pointer.symm.trans hq.2)
  rwa [heq] at hr

theorem wp_resize (hself : (s.proc m).mainPid = (s.proc m).pid) {Q : Int → System → Prop}
    (hQ : ∀ s', s'.waitLock = none → s'.mem = s.mem →
      (∀ q, s'.proc q = if (s.proc q).mainPid = (s.proc m).pid then { s.proc q with sz := sz }
        else s.proc q) → Q 0 s') :
    wp (do
      setProc m fun x => { x with sz := sz }
      setSizes m sz
      releaseWaitLock
      pure (0 : Int)) E Q s := by
  simp only [wp_bind, wp_set_proc, setSizes, wp_modify, releaseWaitLock, wp_pure]
  refine hQ _ rfl rfl fun q => ?_
  by_cases hq : q = m
  · subst hq
    simp [hself]
  · simp [Function.update_of_ne hq]

/-- The members of a process and the pages reserved for them do not depend on the sizes. -/
theorem reserved_resized {pid : Int} {s1 : System}
    (hproc : ∀ q, s1.proc q = if (s.proc q).mainPid = pid then { s.proc q with sz := sz }
      else s.proc q) (v : Nat) : Reserved s1 m v ↔ Reserved s m v := by
  have hsame : ∀ q, (s1.proc q).state = (s.proc q).state ∧
      (s1.proc q).mainThread = (s.proc q).mainThread ∧
      (s1.proc q).trapframeVa = (s.proc q).trapframeVa := by
    intro q
    rw [hproc]
    split
    next => exact ⟨rfl, rfl, rfl⟩
    next => exact ⟨rfl, rfl, rfl⟩
  simp only [Reserved, MemberOf, (hsame _).1, (hsame _).2.1, (hsame _).2.2]

/-- The pages that `uvmdealloc` leaves are the ones below the new size. -/
theorem maps_of_unmapped (h : AddressSpace s m t)
    (hmem : Unmapped t (npages sz) (npages (s.proc m).sz - npages sz) s.mem mem) :
    MapsBelow s m mem t (min (s.proc m).sz sz) := by
  have hmin : npages (min (s.proc m).sz sz) = min (npages (s.proc m).sz) (npages sz) :=
    Monotone.map_min fun _ _ hle => npages_mono hle
  refine ⟨fun v hv => ?_, fun v hv => ?_⟩
  · rw [hmem.leaf, if_neg (by omega)]
    exact h.maps.below v (by omega)
  · rw [hmem.leaf] at hv
    split at hv
    next => exact absurd rfl hv
    next hout => exact (h.maps.others v hv).imp_left fun hlow => by omega

/-- After `uvmalloc` the pages below the new size are mapped. -/
theorem maps_of_allocated {perm : Perm} (h : AddressSpace s m t) (hsz : (s.proc m).sz ≤ sz)
    (hmem : Allocated t perm (npages (s.proc m).sz) (npages sz - npages (s.proc m).sz) s.mem mem) :
    MapsBelow s m mem t sz := by
  have hmono := npages_mono hsz
  refine ⟨fun v hv => ?_, fun v hv => ?_⟩
  · by_cases hin : npages (s.proc m).sz ≤ v
    · obtain ⟨-, -, page, hpage⟩ := hmem.new v hin (by omega)
      simp [hpage]
    · rw [hmem.old v (by omega)]
      exact h.maps.below v (by omega)
  · by_cases hin : v < npages sz
    · exact .inl hin
    · rw [hmem.old v (by omega)] at hv
      exact (h.maps.others v hv).imp_left fun hlow => by omega

/-- `growproc` has resized the process, or found no memory and returned with `wait_lock` held. -/
def GrowPost (s : System) (m : Slot) (t : TableId) (p : Slot) (n r : Int) (s' : System) : Prop :=
  r = 0 ∧ s'.waitLock = none ∧ (0 < n → HasRoom s m t n) ∧
      Grown s m t (grownSize (s.proc m).sz n) s' ∨
    r = -1 ∧ 0 < n ∧
      s.mem.free.length < s.mem.cost t (s.proc m).sz (grownSize (s.proc m).sz n) ∧
      s'.waitLock = some p ∧ Restored s m t s'

/-- What `growproc` does with `wait_lock` free. -/
theorem wp_growproc_exact (hgroup : Grouped (members s) s.mem) (hp : MemberOf s m p)
    (hspace : AddressSpace s m t) (hlow : -2 ^ 31 ≤ n) (hhigh : n < 2 ^ 31)
    (hlock : s.waitLock = none)
    (hroom : (0 < n → ∀ v, npages (s.proc m).sz ≤ v → v < npages (grownSize (s.proc m).sz n) →
      s.mem.leaf t v = none ∧ v * PGSIZE < MAXVA) ∨ ∀ f, E f) :
    wp (growproc p n) E (GrowPost s m t p n) s := by
  have hmain := main_of_member hgroup hp
  have hself : (s.proc m).mainPid = (s.proc m).pid := hgroup.main_pid hmain
  have hlive : s.mem.Live t := hgroup.live_of_table (q := m) hspace.table
  have hpid : ∀ q, MemberOf s m q → (s.proc q).mainPid = (s.proc m).pid := fun q hq =>
    (main_of_member hgroup hq).pid.symm
  -- the last part, on memory `mem` in which the pages below the new size are mapped
  have hresize : ∀ {sz : Nat} {mem : Mem}, (0 < n → HasRoom s m t n) →
      sz = grownSize (s.proc m).sz n →
      MapsBelow s m mem t sz →
      wp (do
        setProc m fun x => { x with sz := sz }
        setSizes m sz
        releaseWaitLock
        pure (0 : Int)) E (GrowPost s m t p n) { s with waitLock := some p, mem := mem } := by
    intro sz mem hroom hsz hleaf
    refine wp_resize (s := { s with waitLock := some p, mem := mem }) hself
      fun s' hlock' hmem' hproc => .inl ⟨rfl, hlock', hroom, fun q hq => ?_, ?_⟩
    · rw [hproc, if_pos (hpid q hq)]
      exact hsz
    · rw [hmem', ← hsz]
      exact ⟨hleaf.below, fun v hv =>
        (hleaf.others v hv).imp_right (reserved_resized hproc v).mpr⟩
  unfold growproc
  rw [wp_bind]
  simp only [acquireWaitLock, wp_bind, wp_get, hlock, wp_set]
  rw [hp.2, wp_deref_some, hspace.table, wp_deref_some]
  by_cases hpos : 0 < n
  · have hnew := wrapped_eq hspace.top hpos hhigh
    have hle : (s.proc m).sz ≤ grownSize (s.proc m).sz n := by
      unfold grownSize
      split
      next => exact le_rfl
      next => omega
    rw [if_pos hpos, wp_bind, wp_on_mem, hnew]
    refine wp_mono (wp_uvmalloc hle hlive (fun v hv hv' hmax => ?_) fun v hv hv' hne => ?_)
      fun r mem hmem => ?_
    · rcases hroom with hroom | hany
      · have := (hroom hpos v hv hv').2
        omega
      · exact hany _
    · rcases hroom with hroom | hany
      · exact absurd (hroom hpos v hv hv').1 hne
      · exact hany _
    rcases hmem with ⟨hcost, rfl, hmem⟩ | ⟨hcost, rfl, hmem⟩
    · have hne : grownSize (s.proc m).sz n ≠ 0 := by
        unfold grownSize
        split
        next => omega
        next => omega
      rw [if_neg hne]
      refine hresize (fun _ => ⟨hcost, fun v hv hv' => ?_⟩) rfl (maps_of_allocated hspace hle hmem)
      obtain ⟨hnone, hbelow, -⟩ := hmem.new v hv (by omega)
      exact ⟨hnone, hbelow⟩
    · rw [if_pos rfl, wp_pure]
      refine .inr ⟨rfl, hpos, hcost, rfl, fun q _ => rfl, fun t' v => ?_, hmem.total⟩
      by_cases ht : t' = t
      · subst ht
        exact hmem.leaf v
      · show Mem.leaf mem t' v = s.mem.leaf t' v
        simp only [Mem.leaf, hmem.on.apart t' ht]
  · rw [if_neg hpos]
    by_cases hneg : n < 0
    · have hnew := min_wrapped hspace.top hlow hneg
      rw [if_pos hneg, wp_bind, wp_on_mem]
      refine wp_mono (wp_uvmdealloc (.inl fun v _ hv => hspace.unmappable hv)) fun r mem hmem => ?_
      obtain ⟨rfl, hmem⟩ := hmem
      exact hresize (fun h => absurd h hpos) hnew (maps_of_unmapped hspace hmem)
    · have hzero : n = 0 := by omega
      rw [if_neg hneg, wp_bind, wp_pure]
      refine hresize (fun h => absurd h hpos) ?_ hspace.maps
      subst hzero
      simp [grownSize]

/-- `growproc`, called by any thread of a process for any `int`, keeps its contract exactly if
`wait_lock` is free and a process that grows has the memory and the address space for it. -/
theorem growproc_contract_iff (hgroup : Grouped (members s) s.mem) (hp : MemberOf s m p)
    (hspace : AddressSpace s m t) (hlow : -2 ^ 31 ≤ n) (hhigh : n < 2 ^ 31) :
    wp (growprocLocked p n) Fault.never (GrowsRight s m t n) ⟨[], s⟩ ↔
      s.waitLock = none ∧ (0 < n → HasRoom s m t n) := by
  rw [growproc_leaves.wp]
  constructor
  · intro h
    have hlock : s.waitLock = none := by
      by_contra hheld
      obtain ⟨q, hq⟩ := Option.ne_none_iff_exists'.mp hheld
      unfold growproc at h
      simp only [acquireWaitLock, wp_bind, wp_get, hq, wp_ite, wp_kpanic, wp_fault,
        Fault.never_iff, imp_false, not_not] at h
      exact h.1 h.2
    refine ⟨hlock, ?_⟩
    obtain ⟨r, s', hrun, hright⟩ := wp_returns h
    have hany := wp_growproc_exact (E := Fault.any) hgroup hp hspace hlow hhigh hlock
      (.inr fun _ => trivial)
    rcases wp_ok hany hrun with ⟨-, -, hroom, -⟩ | ⟨hr, -, -, hheld, -⟩
    · exact hroom
    · have hfree := hright.locks.2
      simp [hheld] at hfree
  · rintro ⟨hlock, hroom⟩
    refine wp_mono (wp_growproc_exact hgroup hp hspace hlow hhigh hlock
      (.inl fun hpos => (hroom hpos).2)) fun r s' hpost => ?_
    rcases hpost with ⟨rfl, hlock', -, hgrown⟩ | ⟨-, hpos, hcost, -, -⟩
    · exact ⟨⟨rfl, hlock'⟩, .inl rfl, fun _ => hgrown, fun h => absurd h (by decide)⟩
    · exact absurd (hroom hpos).1 (not_le.mpr hcost)

/-! ## A process with two threads -/

/-- The pages that table `t` maps. -/
def mappedPages (m : Mem) (t : TableId) : List Nat :=
  (m.tables t).elim [] fun pt => pt.leaves.keys

theorem mem_mapped_pages {v : Nat} : v ∈ mappedPages mem t ↔ mem.leaf t v ≠ none := by
  unfold mappedPages Mem.leaf
  cases mem.tables t with
  | none => simp
  | some pt =>
    rw [← Option.isSome_iff_ne_none]
    exact AList.lookup_isSome.symm

theorem address_space_of_pages (htable : (s.proc m).pagetable = some t)
    (htop : (s.proc m).sz ≤ MAXVA)
    (honly : ∀ v ∈ mappedPages s.mem t, v < npages (s.proc m).sz ∨ Reserved s m v)
    (hheap : ∀ v < npages (s.proc m).sz, v ∈ mappedPages s.mem t ∧
      ∀ key ∈ tablesFor (v * PGSIZE), s.mem.Node t key) : AddressSpace s m t :=
  ⟨htable, htop, ⟨fun v hv => mem_mapped_pages.mp (hheap v hv).1,
    fun v hv => honly v (mem_mapped_pages.mpr hv)⟩, fun v hv => (hheap v hv).2⟩

/-- The thread of a process grows it by two pages. -/
theorem growproc_contract_two_pages : (oneThread.proc 2).isThread = true ∧
    wp (growprocLocked 2 8192) Fault.never (GrowsRight oneThread 1 1 8192) ⟨[], oneThread⟩ := by
  refine ⟨by decide +kernel, (growproc_contract_iff (s := oneThread) ?_ (by decide +kernel) ?_
    (by decide) (by decide)).mpr ⟨by decide +kernel, fun _ => ?_⟩⟩
  · exact reachable_grouped reachable_one_thread
  · exact address_space_of_pages (by decide +kernel) (by decide +kernel) (by decide +kernel)
      (by decide +kernel)
  · exact ⟨by decide +kernel, by decide +kernel⟩

/-- There is no memory for forty pages. -/
theorem growproc_keeps_lock :
    Reachable (· = boot (List.range' 1 40)) unguarded step oneThread ∧
    (oneThread.proc 2).state = .running ∧ oneThread.waitLock = none ∧
    valueOf (do
      let r ← growprocLocked 2 163840
      let x ← get
      pure (r, x.held, x.data.waitLock)) ⟨[], oneThread⟩ = some (-1, [.wait], some 2) := by
  exact ⟨reachable_one_thread, by decide +kernel, by decide +kernel, by decide +kernel⟩

end Xv6.Thread.Calls
