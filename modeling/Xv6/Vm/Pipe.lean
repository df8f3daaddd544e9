import Xv6.Lib.Ring
import Xv6.Vm.Copyinstr
import Xv6.Vm.PageFault

/-!
# Pipes

`pipewrite`, `piperead` and `pipeclose`, one byte or one sleep at a time, by any number of processes
in any order, while the rest of the kernel changes page tables and free memory between the steps.
A process that sleeps may go on at any time; it then looks at the pipe again.

The state has three fields that are not in the source. `ret` is what the last call of a process
returned. `accepted` lists the bytes that writers have put into the pipe, and `delivered` those that
readers have counted in `i`, which is what `piperead` returns.

`piperead` takes a byte out of the buffer before it copies it to the user. If the copy fails, the
byte is gone. In the runs where it does not fail, a pipe is a queue.
-/

namespace Xv6.Vm

open Function

def PIPESIZE : Nat := 512

/-- Where a process is in a call. -/
inductive PipeCall where
  | none
  | write (pagetable addr : Nat) (n : Int) (i : Nat)
  | wait (pagetable addr : Nat) (n : Int)
  | read (pagetable addr : Nat) (n : Int) (i : Nat)
  deriving DecidableEq, Repr

/-- A `struct pipe`, the processes that use it, and memory. -/
structure PipeState where
  vm : State
  data : Nat → Byte
  nread : BitVec 32
  nwrite : BitVec 32
  readopen : Bool
  writeopen : Bool
  killed : Nat → Bool
  call : Nat → PipeCall
  ret : Nat → Int
  accepted : List Byte
  delivered : List Byte

abbrev PipeCode (α : Type) := Kernel PipeState α

/-- Code that is about memory. -/
def onVm {α : Type} (code : Code α) : PipeCode α := onPart (·.vm) (fun vm s => { s with vm }) code

/-- A process goes on. -/
def goOn (p : Nat) (call : PipeCall) : PipeCode Unit :=
  modify fun s => { s with call := update s.call p call }

/-- A process returns. -/
def finish (p : Nat) (ret : Int) : PipeCode Unit :=
  modify fun s => { s with
    call := update s.call p .none
    ret := update s.ret p ret }

/-- One turn of the loop of `pipewrite`. -/
def pipewriteStep (p pagetable addr : Nat) (n : Int) (i : Nat) : PipeCode Unit := do
  let s ← get
  if i < n then
    if s.readopen = false ∨ s.killed p then finish p (-1)
    else if s.nwrite = s.nread + BitVec.ofNat 32 PIPESIZE then pure ()
    else
      match ← onVm (copyin pagetable ((addr + i) % 2 ^ 64) 1) with
      | none => finish p i
      | some bytes =>
        let ch := bytes.headD 0
        modify fun s => { s with
          data := update s.data (s.nwrite.toNat % PIPESIZE) ch
          nwrite := s.nwrite + 1
          accepted := s.accepted ++ [ch] }
        goOn p (.write pagetable addr n (i + 1))
  else finish p i

/-- One turn of the first loop of `piperead`. -/
def pipereadWait (p pagetable addr : Nat) (n : Int) : PipeCode Unit := do
  let s ← get
  if s.nread = s.nwrite ∧ s.writeopen then
    if s.killed p then finish p (-1) else pure ()
  else goOn p (.read pagetable addr n 0)

variable (L : Layout)

/-- One turn of the second loop of `piperead`. -/
def pipereadStep (p pagetable addr : Nat) (n : Int) (i : Nat) : PipeCode Unit := do
  let s ← get
  if i < n then
    if s.nread = s.nwrite then finish p i
    else
      let ch := s.data (s.nread.toNat % PIPESIZE)
      modify fun s => { s with nread := s.nread + 1 }
      if (← onVm (copyout L pagetable ((addr + i) % 2 ^ 64) [ch])) = -1 then finish p i
      else
        modify fun s => { s with delivered := s.delivered ++ [ch] }
        goOn p (.read pagetable addr n (i + 1))
  else finish p i

/-- `pipeclose`, of a pipe whose other end is open or not. -/
def pipeclose (writable : Bool) : PipeCode Unit :=
  if writable then modify fun s => { s with writeopen := false }
  else modify fun s => { s with readopen := false }

/-- What can happen to a pipe. -/
inductive PipeEvent where
  | pipewrite (p pagetable addr : Nat) (n : Int)
  | piperead (p pagetable addr : Nat) (n : Int)
  | step (p : Nat)
  | pipeclose (writable : Bool)
  | kill (p : Nat)
  | rest (vm : State)

/-- One event. -/
def PipeEvent.perform : PipeEvent → PipeCode Unit
  | .pipewrite p pagetable addr n => goOn p (.write pagetable addr n 0)
  | .piperead p pagetable addr n => goOn p (.wait pagetable addr n)
  | .step p => do
    let s ← get
    match s.call p with
    | .none => pure ()
    | .write pagetable addr n i => pipewriteStep p pagetable addr n i
    | .wait pagetable addr n => pipereadWait p pagetable addr n
    | .read pagetable addr n i => pipereadStep L p pagetable addr n i
  | .pipeclose writable => Vm.pipeclose writable
  | .kill p => modify fun s => { s with killed := update s.killed p true }
  | .rest vm => modify fun s => { s with vm }

/-- The end of the pipe that a call uses is open. -/
def PipeState.inUse (s : PipeState) : PipeCall → Bool
  | .none => false
  | .write _ _ _ _ => s.writeopen
  | .wait _ _ _ => s.readopen
  | .read _ _ _ _ => s.readopen

/-- A process makes one call at a time, with a file of its own for its end of the pipe: the end is
open as long as the call lasts. -/
def PipeEvent.Admitted (s : PipeState) : PipeEvent → Prop
  | .pipewrite p _ _ _ => s.call p = .none ∧ s.writeopen = true
  | .piperead p _ _ _ => s.call p = .none ∧ s.readopen = true
  | .step p => s.inUse (s.call p) = true
  | .pipeclose _ => True
  | .kill _ => True
  | .rest _ => True

instance (s : PipeState) : (e : PipeEvent) → Decidable (e.Admitted s)
  | .pipewrite _ _ _ _ => inferInstanceAs (Decidable (_ ∧ _))
  | .piperead _ _ _ _ => inferInstanceAs (Decidable (_ ∧ _))
  | .step _ => inferInstanceAs (Decidable (_ = _))
  | .pipeclose _ => .isTrue trivial
  | .kill _ => .isTrue trivial
  | .rest _ => .isTrue trivial

/-- What `pipealloc` makes. -/
structure PipeState.Opened (s : PipeState) : Prop where
  nread : s.nread = 0
  nwrite : s.nwrite = 0
  readopen : s.readopen = true
  writeopen : s.writeopen = true
  idle : ∀ p, s.call p = .none
  accepted : s.accepted = []
  delivered : s.delivered = []

/-! ## The queue -/

/-- The bytes in the buffer. -/
def PipeState.buffered (s : PipeState) : List Byte :=
  Ring.contents PIPESIZE s.data s.nread s.nwrite

/-- No more bytes are in the buffer than it holds. -/
def PipeState.Bounded (s : PipeState) : Prop := Ring.count s.nread s.nwrite ≤ PIPESIZE

/-- The bytes accepted are those delivered, followed by those in the buffer. -/
def PipeState.Ordered (s : PipeState) : Prop := s.accepted = s.delivered ++ s.buffered

/-- The fields that carry bytes are as before. -/
structure SameBytes (s s' : PipeState) : Prop where
  data : s'.data = s.data
  nread : s'.nread = s.nread
  nwrite : s'.nwrite = s.nwrite
  accepted : s'.accepted = s.accepted
  delivered : s'.delivered = s.delivered

theorem SameBytes.refl (s : PipeState) : SameBytes s s := ⟨rfl, rfl, rfl, rfl, rfl⟩

theorem SameBytes.bounded {s s' : PipeState} (h : SameBytes s s') (hs : s.Bounded) :
    s'.Bounded := by
  rw [PipeState.Bounded, h.nread, h.nwrite]
  exact hs

theorem SameBytes.ordered {s s' : PipeState} (h : SameBytes s s') (hs : s.Ordered) :
    s'.Ordered := by
  rw [PipeState.Ordered, PipeState.buffered, h.accepted, h.delivered, h.data, h.nread, h.nwrite]
  exact hs

theorem pipesize_dvd : PIPESIZE ∣ 2 ^ 32 := by decide

/-- `nwrite == nread + PIPESIZE` says that the buffer is full. -/
theorem full_iff {nread nwrite : BitVec 32} :
    nwrite = nread + BitVec.ofNat 32 PIPESIZE ↔ Ring.count nread nwrite = PIPESIZE := by
  constructor
  · rintro rfl
    rw [Ring.count, add_sub_cancel_left]
    decide
  · intro h
    have hsub : nwrite - nread = BitVec.ofNat 32 PIPESIZE := by
      apply BitVec.eq_of_toNat_eq
      rw [show (nwrite - nread).toNat = PIPESIZE from h]
      decide
    rw [← hsub, add_sub_cancel]

/-! ## Copying a byte out -/

/-- `copyout` can make the page of this entry writable, or it is. -/
def CanOpen (s : State) (pte : Pte) : Prop :=
  if hasFlag pte PTE_W then PTE2PA pte ≠ 0
  else hasFlag pte PTE_COW = true ∧
    if 1 < s.pgref (PTE2PA pte / PGSIZE) then s.freelist ≠ 0 else PTE2PA pte ≠ 0

/-- The user may write at this address: it is mapped for the user, and writable or copied on
write with memory for the copy. -/
def Writable (s : State) (pagetable va : Nat) : Prop :=
  PGROUNDDOWN va < MAXVA ∧ ∃ pte, lookupFrom s.mem (PGROUNDDOWN va) 2 pagetable = some pte ∧
    hasFlag pte PTE_V = true ∧ hasFlag pte PTE_U = true ∧ CanOpen s pte

instance (s : State) (pte : Pte) : Decidable (CanOpen s pte) :=
  inferInstanceAs (Decidable (if hasFlag pte PTE_W then PTE2PA pte ≠ 0
    else hasFlag pte PTE_COW = true ∧
      if 1 < s.pgref (PTE2PA pte / PGSIZE) then s.freelist ≠ 0 else PTE2PA pte ≠ 0))

instance (s : State) (pagetable va : Nat) : Decidable (Writable s pagetable va) :=
  match h : lookupFrom s.mem (PGROUNDDOWN va) 2 pagetable with
  | none => .isFalse fun hw => by
    obtain ⟨-, _, hpte, -⟩ := hw
    rw [h] at hpte
    cases hpte
  | some pte =>
    decidable_of_iff (PGROUNDDOWN va < MAXVA ∧ hasFlag pte PTE_V = true ∧
        hasFlag pte PTE_U = true ∧ CanOpen s pte)
      ⟨fun ⟨hva, hpte⟩ => ⟨hva, pte, h, hpte⟩, fun ⟨hva, _, hpte, hrest⟩ =>
        ⟨hva, Option.some.inj (h.symm.trans hpte) ▸ hrest⟩⟩

variable {L : Layout}

/-- `page_change` returns a page, or 0 if it needs one and there is none. -/
theorem wp_pageChange_byte {s : State} {page i : Nat} (hw : hasFlag (s.mem page i) PTE_W = false)
    (hcow : hasFlag (s.mem page i) PTE_COW = true) :
    wp (pageChange L page i) Fault.any (fun pa _ => pa ≠ 0 ↔ CanOpen s (s.mem page i)) s := by
  rw [CanOpen, if_neg (by simp [hw])]
  simp only [hcow, true_and, pageChange, readWord, getRef, wp_bind, wp_get, wp_pure]
  refine (wp_ite ..).mpr ⟨fun _ => trivial, fun _ => ?_⟩
  simp only [wp_bind, wp_get, wp_pure]
  by_cases href : 1 < s.pgref (PTE2PA (s.mem page i) / PGSIZE)
  · rw [if_pos href, if_pos href, wp_bind, kalloc, wp_bind, wp_get]
    refine (wp_ite ..).mpr ⟨fun hzero => ?_, fun hne => ?_⟩
    · simp [hzero]
    · simp only [setPage, writeWord, wp_bind, wp_set, wp_modify, wp_pure, wp_get, if_neg hne]
      -- whatever the counts do, the new page is returned
      refine wp_mono (wp_any _) fun _ _ _ => wp_mono (wp_any _) fun _ _ _ => ?_
      trivial
  · rw [if_neg href, if_neg href]
    simp only [writeWord, wp_bind, wp_get, wp_modify, wp_pure]

/-- `re_page` returns a page exactly if the entry can be opened. -/
theorem wp_rePage_byte {s : State} {page i : Nat}
    (hentry : hasFlag (s.mem page i) PTE_W = true ∨ hasFlag (s.mem page i) PTE_COW = true) :
    wp (rePage L page i) Fault.any (fun pa _ => pa ≠ 0 ↔ CanOpen s (s.mem page i)) s := by
  simp only [rePage, wp_bind, wp_readWord]
  cases hw : hasFlag (s.mem page i) PTE_W with
  | true =>
    rw [if_pos rfl, wp_pure, CanOpen, if_pos hw]
  | false =>
    rw [if_neg (by simp)]
    exact wp_pageChange_byte hw (hentry.resolve_left (by simp [hw]))

/-- `copyout` of one byte returns 0 exactly if the user may write there, and otherwise -1. -/
theorem wp_copyout_one {s : State} {pagetable va : Nat} {b : Byte} :
    wp (copyout L pagetable va [b]) Fault.any
      (fun ret _ => (ret = 0 ∨ ret = -1) ∧ (ret = 0 ↔ Writable s pagetable va)) s := by
  have hfail : ∀ {P : Prop}, ¬P → ((-1 : Int) = 0 ∨ (-1 : Int) = -1) ∧ ((-1 : Int) = 0 ↔ P) :=
    fun hno => ⟨.inr rfl, iff_of_false (by decide) hno⟩
  rw [copyout, List.length_singleton, copyoutLoop, if_neg (by simp)]
  refine (wp_ite ..).mpr ⟨fun hhigh => hfail fun hyes => ?_, fun hlow => ?_⟩
  · exact absurd hyes.1 (by omega)
  rw [wp_bind, walk, if_neg hlow]
  refine wp_walk_lookup (fun hnone => ?_) fun page i hsome => ?_
  · refine hfail ?_
    rintro ⟨-, pte, hpte, -⟩
    rw [hnone] at hpte
    cases hpte
  have hword : ∀ {P : Pte → Prop}, (∃ pte, lookupFrom s.mem (PGROUNDDOWN va) 2 pagetable =
      some pte ∧ P pte) ↔ P (s.mem page i) := by
    intro P
    rw [hsome]
    refine ⟨?_, fun hP => ⟨_, rfl, hP⟩⟩
    rintro ⟨_, heq, hP⟩
    exact Option.some.inj heq ▸ hP
  rw [Writable, hword]
  simp only [wp_bind, wp_readWord]
  refine (wp_ite ..).mpr ⟨fun hbad => hfail ?_, fun hgood => ?_⟩
  · rintro ⟨-, hv, hu, hopen⟩
    rw [CanOpen] at hopen
    cases hw : hasFlag (s.mem page i) PTE_W with
    | true => simp [hv, hu, hw] at hbad
    | false =>
      rw [if_neg (by simp [hw])] at hopen
      simp [hv, hu, hw, hopen.1] at hbad
  · obtain ⟨hv, hu, hwc⟩ : hasFlag (s.mem page i) PTE_V = true ∧
        hasFlag (s.mem page i) PTE_U = true ∧
        (hasFlag (s.mem page i) PTE_W = true ∨ hasFlag (s.mem page i) PTE_COW = true) := by
      revert hgood
      cases hasFlag (s.mem page i) PTE_V <;> cases hasFlag (s.mem page i) PTE_U <;>
        cases hasFlag (s.mem page i) PTE_W <;> cases hasFlag (s.mem page i) PTE_COW <;> simp
    refine wp_seq (wp_rePage_byte hwc) fun pa s' hpa => ?_
    refine (wp_ite ..).mpr ⟨fun hzero => hfail ?_, fun hne => ?_⟩
    · rintro ⟨-, -, -, hopen⟩
      exact hpa.mpr hopen hzero
    · simp only [memmove, copyoutLoop, wp_bind, wp_modify, wp_pure]
      exact ⟨.inl trivial, iff_of_true trivial ⟨by omega, hv, hu, hpa.mp hne⟩⟩

/-! ## Steps -/

/-- A reader with a byte to read may write where the byte goes. -/
def PipeState.delivers (s : PipeState) : PipeCall → Prop
  | .read pagetable addr n i =>
    i < n → s.nread ≠ s.nwrite → Writable s.vm pagetable ((addr + i) % 2 ^ 64)
  | _ => True

instance (s : PipeState) : (call : PipeCall) → Decidable (s.delivers call)
  | .none => .isTrue trivial
  | .write _ _ _ _ => .isTrue trivial
  | .wait _ _ _ => .isTrue trivial
  | .read _ _ _ _ => inferInstanceAs (Decidable (_ → _ → _))

/-- The reader whose turn it is may write where the next byte goes. -/
def PipeEvent.Delivers (s : PipeState) : PipeEvent → Prop
  | .step p => s.delivers (s.call p)
  | _ => True

instance (s : PipeState) : (e : PipeEvent) → Decidable (e.Delivers s)
  | .pipewrite _ _ _ _ => .isTrue trivial
  | .piperead _ _ _ _ => .isTrue trivial
  | .step p => inferInstanceAs (Decidable (s.delivers (s.call p)))
  | .pipeclose _ => .isTrue trivial
  | .kill _ => .isTrue trivial
  | .rest _ => .isTrue trivial

/-- What an event can do to the bytes. -/
inductive PipeStep (e : PipeEvent) (s s' : PipeState) : Prop where
  | stay (h : SameBytes s s')
  | push (ch : Byte) (hroom : Ring.count s.nread s.nwrite ≠ PIPESIZE)
      (hdata : s'.data = update s.data (s.nwrite.toNat % PIPESIZE) ch)
      (hread : s'.nread = s.nread) (hwrite : s'.nwrite = s.nwrite + 1)
      (haccepted : s'.accepted = s.accepted ++ [ch]) (hdelivered : s'.delivered = s.delivered)
  | pop (hne : s.nread ≠ s.nwrite) (hdata : s'.data = s.data) (hread : s'.nread = s.nread + 1)
      (hwrite : s'.nwrite = s.nwrite) (haccepted : s'.accepted = s.accepted)
      (hdelivered : s'.delivered = s.delivered ++ [s.data (s.nread.toNat % PIPESIZE)])
  | lose (hno : ¬e.Delivers s) (hne : s.nread ≠ s.nwrite) (hread : s'.nread = s.nread + 1)
      (hwrite : s'.nwrite = s.nwrite)

variable {s : PipeState} {e : PipeEvent} {p pagetable addr i : Nat} {n : Int}

theorem wp_pipewriteStep {Q : Unit → PipeState → Prop}
    (hstay : ∀ s', SameBytes s s' → Q () s')
    (hpush : ∀ s', PipeStep e s s' → Q () s') :
    wp (pipewriteStep p pagetable addr n i) Fault.any Q s := by
  rw [pipewriteStep, wp_bind, wp_get]
  refine (wp_ite ..).mpr ⟨fun _ => ?_, fun _ => hstay _ ⟨rfl, rfl, rfl, rfl, rfl⟩⟩
  refine (wp_ite ..).mpr ⟨fun _ => hstay _ ⟨rfl, rfl, rfl, rfl, rfl⟩, fun _ => ?_⟩
  refine (wp_ite ..).mpr ⟨fun _ => hstay _ (.refl s), fun hfull => ?_⟩
  rw [wp_bind, onVm, wp_onPart]
  refine wp_mono (wp_any _) fun out vm _ => ?_
  cases out with
  | none => exact hstay _ ⟨rfl, rfl, rfl, rfl, rfl⟩
  | some bytes =>
    exact hpush _ (.push (bytes.headD 0) (fun hcount => hfull (full_iff.mpr hcount))
      rfl rfl rfl rfl rfl)

theorem wp_pipereadStep {Q : Unit → PipeState → Prop} (hcall : s.call p = .read pagetable addr n i)
    (hQ : ∀ s', PipeStep (.step p) s s' → Q () s') :
    wp (pipereadStep L p pagetable addr n i) Fault.any Q s := by
  rw [pipereadStep, wp_bind, wp_get]
  refine (wp_ite ..).mpr ⟨fun hi => ?_, fun _ => hQ _ (.stay ⟨rfl, rfl, rfl, rfl, rfl⟩)⟩
  refine (wp_ite ..).mpr ⟨fun _ => hQ _ (.stay ⟨rfl, rfl, rfl, rfl, rfl⟩), fun hne => ?_⟩
  simp only [wp_bind, wp_modify, onVm, wp_onPart]
  refine wp_mono wp_copyout_one fun ret vm hret => ?_
  refine (wp_ite ..).mpr ⟨fun hfail => hQ _ (.lose (fun hdelivers => ?_) hne rfl rfl),
    fun _ => hQ _ (.pop hne rfl rfl rfl rfl rfl)⟩
  rw [PipeEvent.Delivers, hcall] at hdelivers
  rw [hret.2.mpr (hdelivers hi hne)] at hfail
  exact absurd hfail (by decide)

theorem wp_pipe_perform (s : PipeState) (e : PipeEvent) :
    wp (e.perform L) Fault.any (fun _ s' => PipeStep e s s') s := by
  cases e with
  | pipewrite p pagetable addr n => exact .stay ⟨rfl, rfl, rfl, rfl, rfl⟩
  | piperead p pagetable addr n => exact .stay ⟨rfl, rfl, rfl, rfl, rfl⟩
  | kill p => exact .stay ⟨rfl, rfl, rfl, rfl, rfl⟩
  | rest vm => exact .stay ⟨rfl, rfl, rfl, rfl, rfl⟩
  | pipeclose writable =>
    cases writable with
    | false => exact .stay ⟨rfl, rfl, rfl, rfl, rfl⟩
    | true => exact .stay ⟨rfl, rfl, rfl, rfl, rfl⟩
  | step p =>
    rw [PipeEvent.perform, wp_bind, wp_get]
    cases hcall : s.call p with
    | none => exact .stay (.refl s)
    | write pagetable addr n i => exact wp_pipewriteStep (fun _ h => .stay h) fun _ h => h
    | wait pagetable addr n =>
      show wp (pipereadWait p pagetable addr n) Fault.any _ s
      rw [pipereadWait, wp_bind, wp_get]
      refine (wp_ite ..).mpr ⟨fun _ => (wp_ite ..).mpr ⟨fun _ => ?_, fun _ => ?_⟩, fun _ => ?_⟩
      all_goals exact .stay ⟨rfl, rfl, rfl, rfl, rfl⟩
    | read pagetable addr n i => exact wp_pipereadStep hcall fun _ h => h

theorem PipeStep.bounded {s' : PipeState} (h : PipeStep e s s') (hs : s.Bounded) : s'.Bounded := by
  rw [PipeState.Bounded] at hs ⊢
  cases h with
  | stay h => exact h.bounded hs
  | push ch hroom hdata hread hwrite =>
    rw [hread, hwrite, Ring.count_push]
    · omega
    · simp only [PIPESIZE] at *
      omega
  | pop hne hdata hread hwrite =>
    have := Ring.count_pop hne
    rw [hread, hwrite]
    omega
  | lose hno hne hread hwrite =>
    have := Ring.count_pop hne
    rw [hread, hwrite]
    omega

theorem PipeStep.ordered {s' : PipeState} (h : PipeStep e s s') (hgood : e.Delivers s)
    (hbound : s.Bounded) (hs : s.Ordered) : s'.Ordered := by
  rw [PipeState.Ordered, PipeState.buffered] at *
  cases h with
  | stay h => exact h.ordered hs
  | push ch hroom hdata hread hwrite haccepted hdelivered =>
    have hlt : Ring.count s.nread s.nwrite < PIPESIZE := lt_of_le_of_ne hbound hroom
    rw [hread, hwrite, hdata, haccepted, hdelivered,
      Ring.contents_push pipesize_dvd hlt (by decide), hs, List.append_assoc]
  | pop hne hdata hread hwrite haccepted hdelivered =>
    rw [hread, hwrite, hdata, haccepted, hdelivered, hs, Ring.contents_pop pipesize_dvd hne,
      List.append_assoc]
    rfl
  | lose hno => exact absurd hgood hno

/-- In every run there is never more in the buffer than it holds. -/
theorem pipe_bounded (h : Reachable PipeState.Opened (fun s e => e.Admitted s)
    (PipeEvent.perform L) s) : s.Bounded := by
  refine h.induct PipeState.Bounded (fun s hs => ?_) fun s e hs _ =>
    wp_mono (wp_pipe_perform s e) fun _ s' hstep => hstep.bounded hs
  rw [PipeState.Bounded, hs.nread, hs.nwrite]
  decide

/-- In every run in which a reader's turn finds its buffer writable, the bytes delivered are a
prefix of those accepted, the rest of them is what is in the buffer, and this is never more than the
buffer holds. -/
theorem pipe_is_queue
    (h : Reachable PipeState.Opened (fun s e => e.Admitted s ∧ e.Delivers s)
      (PipeEvent.perform L) s) :
    s.delivered <+: s.accepted ∧ (s.nwrite - s.nread).toNat ≤ PIPESIZE ∧
      s.accepted = s.delivered ++ s.buffered := by
  have hbounded := pipe_bounded (h.mono fun _ _ hguard => hguard.1)
  have hordered : s.Ordered := by
    refine (h.induct (fun s => s.Bounded ∧ s.Ordered) (fun s hs => ?_) fun s e hs hguard =>
      wp_mono (wp_pipe_perform s e) fun _ s' hstep =>
        ⟨hstep.bounded hs.1, hstep.ordered hguard.2 hs.1 hs.2⟩).2
    rw [PipeState.Bounded, PipeState.Ordered, PipeState.buffered, hs.nread, hs.nwrite, hs.accepted,
      hs.delivered]
    exact ⟨by decide, rfl⟩
  exact ⟨⟨s.buffered, hordered.symm⟩, hbounded, hordered⟩

/-- A new pipe, and a page that begins with the bytes 1, 2, 3. -/
def newPipe : PipeState where
  vm := { stringState with mem := onePageMemory 0x030201 }
  data _ := 0
  nread := 0
  nwrite := 0
  readopen := true
  writeopen := true
  killed _ := false
  call _ := .none
  ret _ := 0
  accepted := []
  delivered := []

theorem newPipe_opened : newPipe.Opened := ⟨rfl, rfl, rfl, rfl, fun _ => rfl, rfl, rfl⟩

/-- Process 0 writes two bytes, process 1 reads one to an address that is not mapped, and then one
to an address that is. -/
def lossyCalls : List PipeEvent :=
  [.pipewrite 0 0x1000 0x1000 2, .step 0, .step 0, .step 0,
    .piperead 1 0x1000 0x5000 1, .step 1, .step 1,
    .piperead 1 0x1000 0x1100 1, .step 1, .step 1]

theorem pipe_loses_byte : ∃ s, Reachable PipeState.Opened (fun s e => e.Admitted s)
    (PipeEvent.perform tightKernel) s ∧ ¬s.delivered <+: s.accepted := by
  refine ⟨_, Reachable.last_state (.start newPipe_opened) lossyCalls, ?_⟩
  decide +kernel

/-- Process 0 writes two bytes, process 1 reads one of them. -/
def plainPipe : PipeState :=
  lastState (fun s e => e.Admitted s ∧ e.Delivers s) (PipeEvent.perform tightKernel)
    [.pipewrite 0 0x1000 0x1000 2, .step 0, .step 0, .step 0,
      .piperead 1 0x1000 0x1100 1, .step 1, .step 1] newPipe

theorem pipe_is_queue_plain : plainPipe.delivered = [1] ∧ plainPipe.buffered = [2] ∧
    plainPipe.delivered <+: plainPipe.accepted := by
  have hrun : Reachable PipeState.Opened (fun s e => e.Admitted s ∧ e.Delivers s)
      (PipeEvent.perform tightKernel) plainPipe := .last_state (.start newPipe_opened) _
  exact ⟨by decide +kernel, by decide +kernel, (pipe_is_queue hrun).1⟩

end Xv6.Vm
