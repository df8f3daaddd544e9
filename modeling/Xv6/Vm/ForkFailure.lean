import Xv6.Vm.Copyout

/-!
# A fork that fails

`fork` runs out of memory in `allocproc`, in `proc_pagetable` or anywhere in `uvmcopy`, when the
entries of any number of the parent's pages have been rewritten and shared with a child that is
only half built. `failed_fork_restores` says that nothing remains of it but a used pid: the free
pages, the counts and the slots are as before, every process reads what it read, and the parent
can store wherever it could, without new memory if it does not share the page.

The slots here have the fields of `struct proc` that `allocproc`, `freeproc` and `fork` assign to,
except for the saved context, which `allocproc` overwrites before a slot is used again.
-/

namespace Xv6.Vm

open Function

variable {L : Layout} {g g' : Ghost} {s s' : State} {E : Fault → Prop} {pa m v : Nat} {p : Slot}

/-! ## The process table -/

/-- The fields of a slot that are not about memory; a null pointer is `none`. -/
structure Info where
  pid : BitVec 32
  parent : Option Slot
  chan : Nat
  killed : Int
  xstate : Int
  name : Nat → Byte
  ofile : Nat → Option Nat
  cwd : Option Nat

/-- What `freeproc` does to them. -/
def Info.freed (i : Info) : Info :=
  { i with
    pid := 0
    parent := none
    name := update i.name 0 0
    chan := 0
    killed := 0
    xstate := 0 }

/-- The memory, the slots and the next pid. -/
structure ProcTable where
  mem : State
  info : Slot → Info
  nextpid : BitVec 32

/-- Code that only works on memory. -/
def onMem {α : Type} (code : Code α) : Kernel ProcTable α := fun w =>
  match code w.mem with
  | .ok (a, s) => .ok (a, { w with mem := s })
  | .error f => .error f

@[simp] theorem wp_on_mem {α : Type} (code : Code α) {Q : α → ProcTable → Prop} {w : ProcTable} :
    wp (onMem code) E Q w ↔ wp code E (fun a s => Q a { w with mem := s }) w.mem := by
  unfold wp onMem
  cases code w.mem with
  | error f => rfl
  | ok r => rfl

/-- Assign to fields of a slot. -/
def setInfo (p : Slot) (f : Info → Info) : Kernel ProcTable Unit :=
  modify fun w => { w with info := update w.info p (f (w.info p)) }

/-- `allocpid`. -/
def allocpid : Kernel ProcTable (BitVec 32) := do
  let w ← get
  set { w with nextpid := w.nextpid + 1 }
  pure w.nextpid

/-- The loop of `safestrcpy` at offset `i`, with room for `n` bytes before the last. -/
def safestrcpyFrom (dst src : Nat → Byte) : Nat → Nat → Nat → Byte
  | 0, i => update dst i 0
  | n + 1, i =>
    let dst := update dst i (src i)
    if src i = 0 then update dst (i + 1) 0 else safestrcpyFrom dst src n (i + 1)

/-- `safestrcpy(s, t, sizeof(p->name))`. -/
def safestrcpy (dst src : Nat → Byte) : Nat → Byte := safestrcpyFrom dst src 15 0

/-- The slot that the scan of `allocproc` stops at. -/
def firstUnused (s : State) : Option Slot :=
  (List.finRange NPROC).find? fun p => decide ((s.proc p).state = .unused)

/-- `fork` by process `p`. Its work on memory is `Xv6.Vm.fork`, and each way in which that fails
ends with `freeproc`, which clears the rest of the slot too. -/
def forkCall (L : Layout) (p : Slot) : Kernel ProcTable Int := do
  let w ← get
  match firstUnused w.mem with
  | none => pure (-1)
  | some np => do
    let pid ← allocpid
    setInfo np fun i => { i with pid := pid }
    let forked ← onMem (fork L p np)
    if forked < 0 then
      setInfo np Info.freed
      pure (-1)
    else
      setInfo np fun i => { i with
        ofile := fun fd => (w.info p).ofile fd <|> i.ofile fd
        cwd := (w.info p).cwd
        name := safestrcpy i.name (w.info p).name
        parent := some p }
      pure pid.toInt

theorem first_unused_state {np : Slot} (h : firstUnused s = some np) :
    (s.proc np).state = .unused := by
  have hfound := List.find?_some h
  exact of_decide_eq_true hfound

/-! ## Free pages -/

/-- The pages on the free list. -/
inductive OnFreeList (s : State) : Nat → Prop where
  | head (h : s.freelist ≠ 0) : OnFreeList s s.freelist
  | next {pa : Nat} (h : OnFreeList s pa) (hnext : (s.mem pa 0).toNat ≠ 0) :
      OnFreeList s (s.mem pa 0).toNat

theorem Chain.next_mem {mem : Nat → Page} {head : Nat} {l : List Nat} (h : Chain mem head l)
    (hpa : pa ∈ l) (hnext : (mem pa 0).toNat ≠ 0) : (mem pa 0).toNat ∈ l := by
  induction l generalizing head with
  | nil => exact absurd hpa (by simp)
  | cons q rest ih =>
    obtain ⟨-, hrest⟩ := h
    rcases List.mem_cons.mp hpa with rfl | hin
    · exact List.mem_cons_of_mem _ (hrest.head_cases.resolve_left hnext)
    · exact List.mem_cons_of_mem _ (ih hrest hin)

theorem Chain.on_free_list {head : Nat} {l : List Nat} (h : Chain s.mem head l) (hzero : 0 ∉ l)
    (hhead : head ≠ 0 → OnFreeList s head) (hpa : pa ∈ l) : OnFreeList s pa := by
  induction l generalizing head with
  | nil => exact absurd hpa (by simp)
  | cons q rest ih =>
    obtain ⟨rfl, hrest⟩ := h
    have hfirst : OnFreeList s head := hhead fun hno => hzero (hno ▸ List.mem_cons_self)
    rcases List.mem_cons.mp hpa with rfl | hin
    · exact hfirst
    · exact ih hrest (fun hno => hzero (List.mem_cons_of_mem _ hno)) (fun hne => hfirst.next hne)
        hin

theorem on_free_list_iff (h : Holds L g s) : OnFreeList s pa ↔ g.use pa = .free := by
  obtain ⟨l, hchain, -, hmem⟩ := h.free
  have hzero : 0 ∉ l := by
    intro hin
    exact (h.page_addr (show g.use 0 ≠ .outside by rw [(hmem 0).mp hin]; simp)).2.2 rfl
  rw [← hmem]
  constructor
  · intro hlist
    induction hlist with
    | head hne => exact hchain.head_cases.resolve_left hne
    | next _ hnext ih => exact hchain.next_mem ih hnext
  · exact hchain.on_free_list hzero fun hne => .head hne

theorem free_list_empty (hzero : s.freelist = 0) : ¬ OnFreeList s pa := by
  intro hlist
  induction hlist with
  | head hne => exact hne hzero
  | next _ _ ih => exact ih

/-! ## Pages after a fork that failed -/

section

variable (h : Undone g s g' s')

include h

theorem Undone.symm : Undone g' s' g s :=
  ⟨h.proc.symm, h.held.symm, fun r l x hr => (h.pinned.tab r l x hr).symm,
    fun r v hr => (h.pinned.pa r v hr).symm⟩

theorem Undone.leaf {r : Nat} {l : Leaf} (hl : g.pt r v = some l) :
    ∃ l', g'.pt r v = some l' ∧ l'.pa = l.pa := by
  have hpa := h.pinned.pa r v (by simp)
  rw [hl, Option.map_some, Option.map_eq_some_iff] at hpa
  exact hpa

theorem Undone.maps (pa : Nat) : g'.maps pa = g.maps pa := by
  ext ⟨r, v⟩
  rw [mem_maps, mem_maps]
  refine and_congr_right fun _ => ⟨?_, ?_⟩
  · rintro ⟨l, hl, hpa⟩
    obtain ⟨l', hl', hsame⟩ := h.symm.leaf hl
    exact ⟨l', hl', hsame.trans hpa⟩
  · rintro ⟨l, hl, hpa⟩
    obtain ⟨l', hl', hsame⟩ := h.leaf hl
    exact ⟨l', hl', hsame.trans hpa⟩

theorem Undone.pgref (hbooks : Books L g s) (hbooks' : Books L g' s') :
    s'.pgref = s.pgref := by
  funext n
  rw [hbooks'.counted.refs, hbooks.counted.refs, h.maps]

theorem Undone.use_of_taken (hsys : Sys L g s) (hsys' : Sys L g' s')
    (hpa : g.use pa ≠ .free) : g'.use pa = g.use pa := by
  cases hu : g.use pa with
  | free => exact absurd hu hpa
  | hand => exact absurd hu (hsys.hand pa)
  | outside =>
    have hout := (hsys.books.holds.pages pa).not.mp (by simp [hu])
    by_contra hin
    exact hout ((hsys'.books.holds.pages pa).mp hin)
  | user =>
    rw [hsys'.books.counted.user, h.maps]
    exact (hsys.books.counted.user pa).mp hu
  | trapframe p =>
    obtain ⟨hused, hframe⟩ := hsys.frames pa p hu
    rw [← h.proc] at hused hframe
    rw [← hframe]
    exact (hsys'.slot p hused).frame
  | kernel =>
    rw [hsys'.held, h.held]
    exact (hsys.held pa).mp hu
  | table r l x =>
    rw [← hsys'.books.holds.tab, h.pinned.tab r l x (by simp)]
    exact (hsys.books.holds.tab r l x pa).mpr hu

theorem Undone.use (hsys : Sys L g s) (hsys' : Sys L g' s') :
    g'.use = g.use := by
  funext pa
  by_cases hpa : g.use pa = .free
  · by_contra hne
    have htaken : g'.use pa ≠ .free := fun hfree => hne (hfree.trans hpa.symm)
    exact hne (h.symm.use_of_taken hsys' hsys htaken).symm
  · exact h.use_of_taken hsys hsys' hpa

theorem Undone.free (hsys : Sys L g s) (hsys' : Sys L g' s') (pa : Nat) :
    OnFreeList s' pa ↔ OnFreeList s pa := by
  rw [on_free_list_iff hsys'.books.holds, on_free_list_iff hsys.books.holds, h.use hsys hsys']

end

/-! ## Loads -/

/-- A user load: the hardware needs a valid, readable user page. -/
def loadByte (pagetable va : Nat) : Code (Option Byte) := do
  if MAXVA ≤ va then pure none
  else
    match ← walk pagetable (PGROUNDDOWN va) false with
    | none => pure none
    | some (page, i) =>
      let pte ← readWord page i
      if hasFlag pte PTE_V && hasFlag pte PTE_U && hasFlag pte PTE_R then
        let s ← get
        pure (some (pageByte (s.mem (PTE2PA pte)) (va % PGSIZE)))
      else pure none

/-- The byte that the user reads in an address space. -/
def Space.load (sp : Space) (va : Nat) : Option Byte :=
  (sp (va / PGSIZE)).bind fun c => if c.perm.u then some (pageByte c.page (va % PGSIZE)) else none

theorem share_load (sp : Space) (n va : Nat) : (sp.share n).load va = sp.load va := by
  simp only [Space.load, Space.share]
  split
  next =>
    cases sp (va / PGSIZE) with
    | none => rfl
    | some c => rfl
  next => rfl

theorem encode_has_r {l : Leaf} (h : PageAddr l.pa) : hasFlag l.encode PTE_R = true := by
  have hflags : ∀ w x u cow, hasFlag (leafFlags w x u cow) PTE_R = true := by decide
  rw [encode_has_flag h (by decide)]
  exact hflags ..

theorem space_none_above {r : Nat} (hv : UPAGES ≤ v) : space g s r v = none := by
  rw [space, if_neg (by omega)]

theorem load_byte_eq (h : Books L g s) {r : Nat} (hr : g.IsRoot r) (htop : TopSafe g r) (va : Nat) :
    loadByte r va s = .ok ((space g s r).load va, s) := by
  refine run_of_wp ?_
  rw [loadByte]
  by_cases hva : MAXVA ≤ va
  · have habove : UPAGES ≤ va / PGSIZE :=
      le_trans (show UPAGES ≤ MAXVA / PGSIZE by decide) (Nat.div_le_div_right hva)
    rw [if_pos hva, wp_pure, Space.load, space_none_above habove]
    exact ⟨rfl, rfl⟩
  rw [if_neg hva, wp_bind]
  have hround := round_down_page va
  refine wp_walk_cell h hr (round_down_lt (by omega)) ?_ ?_ ?_ ?_
  · intro hnone
    rw [hround] at hnone
    rw [wp_pure, Space.load, hnone]
    exact ⟨rfl, rfl⟩
  · intro q k hnone hword
    rw [hround] at hnone
    simp only [wp_bind, wp_readWord, wp_pure, hword, has_flag_zero, Bool.false_and,
      Bool.false_eq_true, if_false, Space.load, hnone, Option.bind_none, and_self]
  · intro q k l hnone hv hl haddr hword
    rw [hround] at hnone hv hl
    simp only [wp_bind, wp_readWord, wp_pure, hword, encode_has_u haddr, (htop _ l hv hl).1,
      Bool.and_false, Bool.false_and, Bool.false_eq_true, if_false, Space.load, hnone,
      Option.bind_none, and_self]
  · intro q k l hv hl haddr _ hword
    rw [hround] at hv hl
    have hdata : s.mem l.pa = g.data l.pa := h.holds.data l.pa (h.leaf hv hl).2.1
    rw [Space.load, space_some hv hl]
    simp only [wp_bind, wp_readWord, hword, encode_has_v haddr, encode_has_u haddr,
      encode_has_r haddr, Bool.true_and, Bool.and_true, encode_pa haddr, Option.bind_some,
      Leaf.cell]
    cases l.u with
    | true => exact ⟨by rw [hdata]; rfl, rfl⟩
    | false => exact ⟨rfl, rfl⟩

/-! ## Stores -/

/-- `re_page` allocates nothing for a page that is writable or not shared. For another it fails
exactly if there is no free page. -/
theorem wp_re_page_memory {q k : Nat} :
    wp (rePage L q k) Fault.any (fun _ s' =>
      (hasFlag (s.mem q k) PTE_W = true ∨ s.pgref (PTE2PA (s.mem q k) / PGSIZE) ≤ 1 →
        s'.freelist = s.freelist ∧ s'.failed = s.failed) ∧
      (s.freelist ≠ 0 → s'.failed = s.failed) ∧
      (s'.failed = s.failed → hasFlag (s.mem q k) PTE_W = true ∨
        s.pgref (PTE2PA (s.mem q k) / PGSIZE) ≤ 1 ∨ s.freelist ≠ 0)) s := by
  simp only [rePage, wp_bind, wp_readWord]
  refine (wp_ite ..).mpr ⟨fun hw => ⟨fun _ => ⟨rfl, rfl⟩, fun _ => rfl, fun _ => .inl hw⟩,
    fun hw => ?_⟩
  simp only [pageChange, readWord, getRef, wp_bind, wp_get, wp_ite, wp_kpanic, wp_pure, writeWord,
    wp_modify]
  refine ⟨fun _ => trivial, fun _ => ⟨fun hshared => ?_, fun hone => ?_⟩⟩
  · have hno : ¬ (hasFlag (s.mem q k) PTE_W = true ∨
        s.pgref (PTE2PA (s.mem q k) / PGSIZE) ≤ 1) := by
      rintro (hyes | hone)
      · exact hw hyes
      · omega
    simp only [kalloc, setPage, wp_bind, wp_get, wp_ite, wp_set, wp_modify, wp_pure]
    refine ⟨fun hzero => ⟨fun _ => ⟨fun hyes => absurd hyes hno, fun hne => absurd hzero hne, ?_⟩,
      fun hfalse => absurd trivial hfalse⟩,
      fun hne => ⟨fun hzero => absurd hzero hne, fun _ => ?_⟩⟩
    · intro hsame
      exact absurd hsame (by simp)
    -- with a new page in hand only counts, page contents and the free list change
    simp only [decrementRef, incrementRef, kfree, setPage, wp_bind, wp_get, wp_ite, wp_set,
      wp_modify, wp_pure, wp_kpanic]
    have hdone : ∀ P : Prop, (hasFlag (s.mem q k) PTE_W = true ∨
        s.pgref (PTE2PA (s.mem q k) / PGSIZE) ≤ 1 → P) := fun _ hyes => absurd hyes hno
    exact ⟨fun _ => trivial, fun _ => ⟨fun _ => ⟨fun _ => trivial, fun _ => ⟨fun _ => trivial,
      fun _ => ⟨hdone _, fun _ => trivial, fun _ => .inr (.inr hne)⟩⟩⟩, fun _ => ⟨fun _ => trivial,
      fun _ => ⟨hdone _, fun _ => trivial, fun _ => .inr (.inr hne)⟩⟩⟩⟩
  · exact ⟨fun _ => ⟨trivial, trivial⟩, fun _ => trivial, fun _ => .inr (.inl (by omega))⟩

/-- The entries that a store succeeds on; for a page that is shared it needs memory. -/
structure Storable (g : Ghost) (s : State) (r va : Nat) (l : Leaf) : Prop where
  page : va / PGSIZE < UPAGES
  leaf : g.pt r (va / PGSIZE) = some l
  user : l.u = true
  access : l.w = true ∨ l.cow = true
  memory : l.w = true ∨ s.pgref (l.pa / PGSIZE) ≤ 1 ∨ s.freelist ≠ 0

theorem Storable.below {r va : Nat} {l : Leaf} (h : Storable g s r va l) : va < MAXVA := by
  have hpage := h.page
  have hbound : UPAGES ≤ MAXVA / PGSIZE := by decide
  by_contra hva
  exact absurd (Nat.div_le_div_right (c := PGSIZE) (not_lt.mp hva)) (by omega)

section Store

variable {r va : Nat} {l : Leaf} {b : Byte}

theorem Storable.of_store (h : Books L g s) (hr : g.IsRoot r) (htop : TopSafe g r)
    (hrun : storeByte L r va b s = .ok (true, s')) : ∃ l, Storable g s r va l := by
  have hva : va < MAXVA := by
    by_contra hva
    exact wp_ok (store_byte_beyond (not_lt.mp hva)) hrun
  by_cases hrefused : Refused g r (va / PGSIZE)
  · have hno := wp_ok (wp_store_byte_refused (E := Fault.any) h hr hva htop hrefused) hrun
    exact absurd hno (by simp)
  obtain ⟨l, hv, hl, hu, hok⟩ := exists_leaf_of_not_refused hrefused
  obtain ⟨q, k, he⟩ := h.holds.entry_of_pt hl
  have haddr := h.holds.addr r _ l hl
  have hword : s.mem q k = l.encode := by rw [h.holds.entry_word he, hl]; rfl
  obtain ⟨pa, s1, hre, g1, -, hresult⟩ := wp_returns (wp_re_page h hr hv hl he)
  obtain ⟨-, -, hmemory⟩ := wp_ok wp_re_page_memory hre
  rw [hword, encode_has_w haddr, encode_pa haddr] at hmemory
  rw [store_byte_opened h hr hva htop hv hl he hu hok hre] at hrun
  rcases hresult with ⟨rfl, -⟩ | ⟨-, hfailed, -⟩
  · exact absurd hrun (by simp)
  · exact ⟨l, hv, hl, hu, hok, hmemory hfailed⟩

theorem Storable.store (hst : Storable g s r va l) (h : Books L g s) (hr : g.IsRoot r)
    (htop : TopSafe g r) :
    ∃ s2, storeByte L r va b s = .ok (true, s2) ∧ (s.pgref (l.pa / PGSIZE) ≤ 1 →
      s2.freelist = s.freelist ∧ s2.failed = s.failed) := by
  obtain ⟨q, k, he⟩ := h.holds.entry_of_pt hst.leaf
  have haddr := h.holds.addr r _ l hst.leaf
  have hword : s.mem q k = l.encode := by rw [h.holds.entry_word he, hst.leaf]; rfl
  obtain ⟨pa, s1, hre, g1, -, hresult⟩ := wp_returns (wp_re_page h hr hst.page hst.leaf he)
  obtain ⟨halone, hfree, -⟩ := wp_ok wp_re_page_memory hre
  rw [hword, encode_has_w haddr, encode_pa haddr] at halone
  have hfailed : s1.failed = s.failed := by
    rcases hst.memory with hw | hone | hsome
    · exact (halone (.inl hw)).2
    · exact (halone (.inr hone)).2
    · exact hfree hsome
  have hne : pa ≠ 0 := by
    rcases hresult with ⟨-, hmore, -⟩ | ⟨hne, -⟩
    · omega
    · exact hne
  refine ⟨s1.moved pa (va % PGSIZE) [b], ?_, fun hone => halone (.inr hone)⟩
  rw [store_byte_opened h hr hst.below htop hst.page hst.leaf he hst.user hst.access hre,
    if_neg hne]

end Store

/-- The page of `va` is mapped by one entry only. -/
def PrivatePage (r va : Nat) (s : State) : Prop :=
  ∃ pte, pteAt r (PGROUNDDOWN va) s = .ok (some pte, s) ∧ hasFlag pte PTE_V = true ∧
    s.pgref (PTE2PA pte / PGSIZE) = 1

theorem refs_of_writable (h : Books L g s) {r va : Nat} {l : Leaf} (hr : g.IsRoot r)
    (hva : va < MAXVA) (hv : va / PGSIZE < UPAGES) (hl : g.pt r (va / PGSIZE) = some l)
    (hw : l.w = true) : s.pgref (l.pa / PGSIZE) = 1 := by
  obtain ⟨pte, hpte, -, -, -, hrefs⟩ := owns_page_of_leaf h hr hva hv hl hw
  rw [pte_at_leaf h hr hva hv hl] at hpte
  cases hpte
  rw [encode_pa (h.holds.addr r _ l hl)] at hrefs
  exact hrefs

/-! ## The parent after a fork that failed -/

/-- The flags of an entry of a table whose first pages have been shared. -/
theorem shared_flags {r : Nat} {l l' : Leaf} (hv : v < UPAGES) (hl : g.pt r v = some l)
    (hl' : g'.pt r v = some l') (hspace : space g' s' r = (space g s r).share m) :
    l'.u = l.u ∧ (l.w = true ∨ l.cow = true → l'.w = true ∨ l'.cow = true) ∧
      (l'.w = true → l.w = true) := by
  have hcell := congrFun hspace v
  simp only [Space.share, space_some hv hl, space_some hv hl', Option.map_some] at hcell
  split at hcell
  next =>
    have hperm := congrArg Cell.perm (Option.some.inj hcell)
    have hw : l'.w = false := congrArg Perm.w hperm
    have hcow : l'.cow = true := congrArg Perm.cow hperm
    exact ⟨congrArg Perm.u hperm, fun _ => .inr hcow, fun hyes => absurd hyes (by simp [hw])⟩
  next =>
    have hperm := congrArg Cell.perm (Option.some.inj hcell)
    have hw : l'.w = l.w := congrArg Perm.w hperm
    have hcow : l'.cow = l.cow := congrArg Perm.cow hperm
    rw [hw, hcow]
    exact ⟨congrArg Perm.u hperm, id, id⟩

/-- A store that succeeded before the fork succeeds after it. -/
theorem Undone.storable (h : Undone g s g' s') (hsys : Sys L g s) (hsys' : Sys L g' s') {r va : Nat}
    {l : Leaf} (hr : g.IsRoot r) (hspace : space g' s' r = (space g s r).share m)
    (hst : Storable g s r va l) :
    ∃ l', Storable g' s' r va l' ∧ l'.pa = l.pa := by
  obtain ⟨l', hl', hpa⟩ := h.leaf hst.leaf
  obtain ⟨hu, haccess, -⟩ := shared_flags hst.page hst.leaf hl' hspace
  refine ⟨l', ⟨hst.page, hl', hu.trans hst.user, haccess hst.access, .inr ?_⟩, hpa⟩
  rw [h.pgref hsys.books hsys'.books, hpa]
  rcases hst.memory with hw | hone | hsome
  · exact .inl (refs_of_writable hsys.books hr hst.below hst.page hst.leaf hw).le
  · exact .inl hone
  · refine .inr fun hzero => ?_
    exact free_list_empty hzero ((h.free hsys hsys' _).mpr (.head hsome))

/-- What is as before when `fork` by `p` has failed. An UNUSED slot is left as `freeproc` leaves
it. -/
structure Restored (L : Layout) (p : Slot) (w w' : ProcTable) : Prop where
  free : ∀ pa, OnFreeList w'.mem pa ↔ OnFreeList w.mem pa
  pgref : w'.mem.pgref = w.mem.pgref
  slots : w'.mem.proc = w.mem.proc
  info : ∀ q, w'.info q = w.info q ∨
    (w.mem.proc q).state = .unused ∧ w'.info q = (w.info q).freed
  nextpid : w'.nextpid = w.nextpid + 1
  reads : ∀ q va, (w.mem.proc q).state ≠ .unused →
    valueOf (loadByte (w.mem.proc q).pagetable va) w'.mem =
      valueOf (loadByte (w.mem.proc q).pagetable va) w.mem
  stores : ∀ va b s1, storeByte L (w.mem.proc p).pagetable va b w.mem = .ok (true, s1) →
    ∃ s2, storeByte L (w.mem.proc p).pagetable va b w'.mem = .ok (true, s2) ∧
      (PrivatePage (w.mem.proc p).pagetable va w.mem →
        s2.freelist = w'.mem.freelist ∧ s2.failed = w'.mem.failed)

theorem Undone.table (h : Undone g s g' s') (hsys' : Sys L g' s') {q : Slot}
    (hq : (s.proc q).state ≠ .unused) :
    g'.IsRoot (s.proc q).pagetable ∧ TopSafe g' (s.proc q).pagetable := by
  have hslot := hsys'.slot q (by rw [h.proc]; exact hq)
  rw [← h.proc]
  exact ⟨hslot.root, hslot.top.safe⟩

theorem Undone.reads (h : Undone g s g' s') (hsys : Sys L g s) (hsys' : Sys L g' s')
    (hview : view g' s' = update (view g s) p ((view g s p).share m)) {q : Slot}
    (hq : (s.proc q).state ≠ .unused) (va : Nat) :
    valueOf (loadByte (s.proc q).pagetable va) s' =
      valueOf (loadByte (s.proc q).pagetable va) s := by
  have hslot := hsys.slot q hq
  obtain ⟨hroot, hsafe⟩ := h.table hsys' hq
  have hload : (space g' s' (s.proc q).pagetable).load va =
      (space g s (s.proc q).pagetable).load va := by
    have hsp := congrArg View.sp (congrFun hview q)
    simp only [view, h.proc] at hsp
    rw [hsp]
    by_cases hqp : q = p
    · subst hqp
      rw [update_self]
      exact share_load ..
    · rw [update_of_ne hqp]
      rfl
  unfold valueOf
  rw [load_byte_eq hsys.books hslot.root hslot.top.safe,
    load_byte_eq hsys'.books hroot hsafe, hload]

theorem Undone.stores (h : Undone g s g' s') (hsys : Sys L g s) (hsys' : Sys L g' s')
    (hview : view g' s' = update (view g s) p ((view g s p).share m))
    (hp : (s.proc p).state ≠ .unused) {va : Nat} {b : Byte} {s1 : State}
    (hrun : storeByte L (s.proc p).pagetable va b s = .ok (true, s1)) :
    ∃ s2, storeByte L (s.proc p).pagetable va b s' = .ok (true, s2) ∧
      (PrivatePage (s.proc p).pagetable va s →
        s2.freelist = s'.freelist ∧ s2.failed = s'.failed) := by
  have hslot := hsys.slot p hp
  obtain ⟨hroot, hsafe⟩ := h.table hsys' hp
  have hspace : space g' s' (s.proc p).pagetable = (space g s (s.proc p).pagetable).share m := by
    have hsp := congrArg View.sp (congrFun hview p)
    simp only [view, h.proc, update_self] at hsp
    exact hsp
  obtain ⟨l, hst⟩ := Storable.of_store hsys.books hslot.root hslot.top.safe hrun
  obtain ⟨l', hst', hpa⟩ := h.storable hsys hsys' hslot.root hspace hst
  obtain ⟨s2, hstore, halone⟩ := hst'.store (b := b) hsys'.books hroot hsafe
  refine ⟨s2, hstore, fun hprivate => halone ?_⟩
  obtain ⟨pte, hpte, -, hrefs⟩ := hprivate
  rw [pte_at_leaf hsys.books hslot.root hst.below hst.page hst.leaf] at hpte
  cases hpte
  rw [encode_pa (hsys.books.holds.addr _ _ l hst.leaf)] at hrefs
  rw [h.pgref hsys.books hsys'.books, hpa, hrefs]

/-- What a call of `fork` ends with, by whether a `kalloc` has failed in it. -/
theorem wp_fork_call {w : ProcTable} (h : Sys L g w.mem) (hp : (w.mem.proc p).state = .live) :
    wp (forkCall L p) E (fun ret w' => w.mem.failed < w'.mem.failed →
      ret = -1 ∧ Restored L p w w') w := by
  have hused : (w.mem.proc p).state ≠ .unused := by simp [hp]
  rw [forkCall, wp_bind, wp_get]
  cases hscan : firstUnused w.mem with
  | none =>
    intro hfailed
    exact absurd hfailed (lt_irrefl _)
  | some np =>
    have hnp := first_unused_state hscan
    simp only [allocpid, setInfo, wp_bind, wp_get, wp_set, wp_pure, wp_modify, wp_on_mem]
    refine wp_mono (wp_fork_ends h hused hnp) ?_
    intro forked s' hpost
    obtain ⟨g', hsys', hforked, ⟨rfl, hmore, hundone⟩ | ⟨rfl, hsame⟩⟩ := hpost
    · obtain ⟨-, m, hview⟩ | ⟨hsame, -⟩ := hforked
      · rw [if_pos (by decide), wp_bind, wp_modify, wp_pure]
        refine fun _ => ⟨rfl, hundone.free h hsys', hundone.pgref h.books hsys'.books,
          hundone.proc, ?_, rfl, fun q va hq => hundone.reads h hsys' hview hq va,
          fun va b s1 hrun => hundone.stores h hsys' hview hused hrun⟩
        intro q
        by_cases hq : q = np
        · subst hq
          refine .inr ⟨hnp, ?_⟩
          simp [Info.freed]
        · refine .inl ?_
          simp [update_of_ne hq]
      · omega
    · rw [if_neg (by decide), wp_bind, wp_modify, wp_pure]
      intro hfailed
      have hmem : w.mem.failed < s'.failed := hfailed
      omega

/-- From every state that satisfies the invariant, with any number of free pages and so at any
call of `kalloc`, a `fork` that runs out of memory returns -1 and leaves memory and the slots as
they were. -/
theorem failed_fork_restores {w : ProcTable} (h : Sys L g w.mem) {p : Slot}
    (hp : (w.mem.proc p).state = .live) :
    ∃ ret w', forkCall L p w = .ok (ret, w') ∧
      (w.mem.failed < w'.mem.failed → ret = -1 ∧ Restored L p w w') :=
  wp_returns (wp_fork_call h hp)

/-- `fork` up to the end of `uvmcopy`. -/
def forkCopy (L : Layout) (p np : Slot) : Code (Bool × Int) := do
  let allocated ← allocproc L np
  let s ← get
  let copied ← uvmcopy L (s.proc p).pagetable (s.proc np).pagetable (s.proc p).sz
  pure (allocated, copied)

/-- A `fork` whose `uvmcopy` fails has run out of memory. -/
theorem wp_fork_call_copy {w : ProcTable} {np : Slot} (h : Sys L g w.mem)
    (hp : (w.mem.proc p).state = .live) (hscan : firstUnused w.mem = some np)
    (hcopy : forkCopy L p np w.mem = .ok ((true, -1), s')) :
    wp (forkCall L p) Fault.any (fun _ w' => w.mem.failed < w'.mem.failed) w := by
  have hfails : wp (fork L p np) Fault.any (fun ret _ => ret = -1) w.mem := by
    have hwp : wp (forkCopy L p np) Fault.any (fun out _ => out = (true, -1)) w.mem :=
      (wp_iff_of_run hcopy).mpr rfl
    rw [forkCopy, wp_bind] at hwp
    rw [fork, wp_bind]
    refine wp_mono hwp ?_
    intro allocated s1 hwp
    simp only [wp_bind, wp_get, wp_pure] at hwp
    rw [wp_ite]
    refine ⟨fun _ => ?_, fun _ => rfl⟩
    rw [wp_bind, wp_get, wp_bind]
    refine wp_mono hwp ?_
    rintro copied s2 heq
    cases heq
    rw [if_pos (by decide), wp_bind]
    exact wp_mono (wp_any _) fun _ _ _ => rfl
  rw [forkCall, wp_bind, wp_get, hscan]
  simp only [allocpid, setInfo, wp_bind, wp_get, wp_set, wp_pure, wp_modify, wp_on_mem]
  refine wp_mono (wp_and hfails (wp_fork_ends h (by simp [hp]) (first_unused_state hscan))) ?_
  rintro _ s' ⟨rfl, g', -, -, ⟨-, hmore, -⟩ | ⟨hret, -⟩⟩
  · rw [if_pos (by decide), wp_bind, wp_modify, wp_pure]
    exact hmore
  · cases hret

/-- A slot that was never used. -/
def Info.empty : Info :=
  ⟨0, none, 0, 0, 0, fun _ => 0, fun _ => none, none⟩

instance (s : State) : (e : Event) → Decidable (Admits s e)
  | .userinit _ _ => inferInstanceAs (Decidable (_ ∧ _))
  | .kernelAlloc | .kernelFree _ | .fork _ _ | .exec _ _ _ | .growproc _ _ | .store _ _ _
  | .copyout _ _ _ | .copyin _ _ _ | .exit _ | .freeproc _ => .isTrue trivial

/-- The rest of the kernel leaves five pages to the first process: one less than its child takes. -/
@[irreducible] def scarce : State :=
  lastState Admits (step tightKernel) (List.replicate 12 .kernelAlloc) firstProcess

/-- `fork` has shared the page of its caller when the child's page table runs out of memory. -/
theorem failed_fork_restores_scarce : ∃ s1 w',
    forkCopy tightKernel 0 1 scarce = .ok ((true, -1), s1) ∧
    hasFlag (s1.mem (PHYSTOP - 7 * PGSIZE) 0) PTE_COW = true ∧
    forkCall tightKernel 0 ⟨scarce, fun _ => .empty, 1⟩ = .ok (-1, w') ∧
    Restored tightKernel 0 ⟨scarce, fun _ => .empty, 1⟩ w' := by
  have hrun : Reachable (Booted tightKernel) Admits (step tightKernel) scarce := by
    unfold scarce
    exact firstProcess_reachable.last_state _
  obtain ⟨g, hsys⟩ := sys_of_reachable hrun
  have hlive : (scarce.proc 0).state = .live := by decide +kernel
  have hcopy := @step_of_value_of _ Unit _ scarce (fun _ => forkCopy tightKernel 0 1) () (true, -1)
    (by decide +kernel)
  obtain ⟨ret, w', hcall, hrestored⟩ := failed_fork_restores
    (w := ⟨scarce, fun _ => .empty, 1⟩) hsys hlive
  have hmore := wp_ok (wp_fork_call_copy hsys hlive (by decide +kernel) hcopy) hcall
  obtain ⟨rfl, hback⟩ := hrestored hmore
  exact ⟨_, w', hcopy, by decide +kernel, hcall, hback⟩

end Xv6.Vm
