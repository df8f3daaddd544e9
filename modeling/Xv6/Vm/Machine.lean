import Xv6.Lib.Run
import Xv6.Vm.Pte

/-!
# Physical pages, page tables and user memory

`kalloc.c`, `paull04_vm.c`, `vm.c`, `exec.c` and the memory side of `proc.c`. Memory is a
function from the address of a page and the index of a word in it to the word; the free list runs
through the first word of each free page, and page tables are words of memory that `walk`
follows. Loops over pages recurse on the number of pages left.

Two fields of the state are not in the source. `failed` counts the calls of `kalloc` that
returned 0, and `granted` remembers the permissions a user page was mapped with when it was
allocated: `fork` hands them on, and `uvmclear` withdraws the user bit.
-/

namespace Xv6.Vm

open Function

def NPROC : Nat := 64
def MAXARG : Nat := 32
def USERSTACK : Nat := 1

instance : NeZero NPROC := ⟨by decide⟩

/-- A slot of the process table. -/
abbrev Slot := Fin NPROC

/-- The two addresses the linker provides: the end of the kernel image and the page of the
trampoline code inside it. -/
structure Layout where
  kend : Nat
  trampoline : Nat
  kend_low : KERNBASE ≤ kend
  kend_high : kend ≤ PHYSTOP
  trampoline_page : PageAddr trampoline
  trampoline_low : KERNBASE ≤ trampoline
  trampoline_high : trampoline < kend

/-- The process states that matter for memory. -/
inductive ProcState where
  | unused
  | live
  | zombie
  deriving DecidableEq, Repr

/-- The memory fields of `struct proc`; a null pointer is 0. -/
structure Proc where
  state : ProcState := .unused
  pagetable : Nat := 0
  trapframe : Nat := 0
  sz : Nat := 0
  deriving DecidableEq, Repr

/-- The permissions of a user page when it was allocated. -/
structure Grant where
  w : Bool
  u : Bool
  deriving DecidableEq, Repr

/-- The words of a page. -/
abbrev Page := Nat → BitVec 64

/-- The state of the virtual memory system. `held` lists the pages that the rest of the kernel
has taken with `kalloc`: kernel stacks, kernel page tables, pipes and `exec` arguments. -/
structure State where
  mem : Nat → Page
  freelist : Nat
  pgref : Nat → Int
  proc : Slot → Proc
  held : List Nat
  failed : Nat
  granted : Nat → Nat → Grant

/-- Kernel code. -/
abbrev Code (α : Type) := Kernel State α

/-! ## Memory -/

/-- Read word `i` of the page at `pa`. -/
def readWord (pa i : Nat) : Code (BitVec 64) := do
  let s ← get
  pure (s.mem pa i)

@[simp] theorem wp_readWord {pa i : Nat} {E : Fault → Prop} {Q : BitVec 64 → State → Prop}
    {s : State} : wp (readWord pa i) E Q s ↔ Q (s.mem pa i) s := Iff.rfl

/-- Write word `i` of the page at `pa`. -/
def writeWord (pa i : Nat) (w : BitVec 64) : Code Unit :=
  modify fun s => { s with mem := update s.mem pa (update (s.mem pa) i w) }

/-- Fill the page at `pa`. -/
def setPage (pa : Nat) (page : Page) : Code Unit :=
  modify fun s => { s with mem := update s.mem pa page }

/-- Byte `o` of a page. -/
def pageByte (page : Page) (o : Nat) : Byte := byteOf (page (o / 8)) (o % 8)

/-- The page with byte `o` replaced. -/
def withPageByte (page : Page) (o : Nat) (b : Byte) : Page :=
  update page (o / 8) (withByte (page (o / 8)) (o % 8) b)

/-- The page with bytes from offset `o` on replaced. -/
def withPageBytes (page : Page) (o : Nat) : List Byte → Page
  | [] => page
  | b :: rest => withPageBytes (withPageByte page o b) (o + 1) rest

/-- `memmove` into the page at `pa`. -/
def memmove (pa o : Nat) (bytes : List Byte) : Code Unit :=
  modify fun s => { s with
    mem := update s.mem pa (withPageBytes (s.mem pa) o bytes) }

/-! ## The page allocator (`kalloc.c`) -/

variable (L : Layout)

/-- `kfree`. The page is filled with junk and its first word links to the old list. -/
def kfree (pa : Nat) : Code Unit := do
  if pa % PGSIZE ≠ 0 ∨ pa < L.kend ∨ PHYSTOP ≤ pa then kpanic "kfree"
  else
    let s ← get
    setPage pa fun i => if i = 0 then BitVec.ofNat 64 s.freelist else 0x0101010101010101
    modify fun s => { s with freelist := pa }

/-- `freerange(pa, pa + n*PGSIZE)` with `pa` page-aligned. -/
def freerange : Nat → Nat → Code Unit
  | 0, _ => pure ()
  | n + 1, pa => do
    kfree L pa
    freerange n (pa + PGSIZE)

/-- `kinit`. -/
def kinit : Code Unit :=
  freerange L ((PHYSTOP - PGROUNDUP L.kend) / PGSIZE) (PGROUNDUP L.kend)

/-- `kalloc`. -/
def kalloc : Code Nat := do
  let s ← get
  if s.freelist = 0 then
    set { s with failed := s.failed + 1 }
    pure 0
  else
    set { s with freelist := (s.mem s.freelist 0).toNat }
    setPage s.freelist fun _ => 0x0505050505050505
    pure s.freelist

/-! ## Reference counts (`paull04_vm.c`) -/

/-- `increment_ref`. -/
def incrementRef (pa : Nat) : Code Unit := do
  if PHYSTOP ≤ pa then kpanic "increment_ref: invalid pa"
  else modify fun s => { s with
    pgref := update s.pgref (pa / PGSIZE) (s.pgref (pa / PGSIZE) + 1) }

/-- `decrement_ref`. -/
def decrementRef (pa : Nat) : Code Unit := do
  if PHYSTOP ≤ pa then kpanic "decrement_ref: invalid pa"
  else
    let s ← get
    let r := s.pgref (pa / PGSIZE) - 1
    set { s with pgref := update s.pgref (pa / PGSIZE) r }
    if r = 0 then kfree L pa else pure ()

/-- `get_ref`. -/
def getRef (pa : Nat) : Code Int := do
  if PHYSTOP ≤ pa then kpanic "decrement_ref: invalid pa"
  else
    let s ← get
    pure (s.pgref (pa / PGSIZE))

/-! ## Page tables (`vm.c`) -/

/-- The loop of `walk`, with `level` levels still to descend. The result is the table page and
the index of the entry in it. -/
def walkFrom (va : Nat) (alloc : Bool) : Nat → Nat → Code (Option (Nat × Nat))
  | 0, pagetable => pure (some (pagetable, PX 0 va))
  | level + 1, pagetable => do
    let pte ← readWord pagetable (PX (level + 1) va)
    if hasFlag pte PTE_V then walkFrom va alloc level (PTE2PA pte)
    else if !alloc then pure none
    else
      let page ← kalloc
      if page = 0 then pure none
      else
        setPage page fun _ => 0
        writeWord pagetable (PX (level + 1) va) (PA2PTE page ||| PTE_V)
        walkFrom va alloc level page

/-- `walk`. -/
def walk (pagetable va : Nat) (alloc : Bool) : Code (Option (Nat × Nat)) :=
  if MAXVA ≤ va then kpanic "walk" else walkFrom va alloc 2 pagetable

/-- `walkaddr`; 0 when the address is not mapped for the user. -/
def walkaddr (pagetable va : Nat) : Code Nat := do
  if MAXVA ≤ va then pure 0
  else
    match ← walk pagetable va false with
    | none => pure 0
    | some (page, i) =>
      let pte ← readWord page i
      if !hasFlag pte PTE_V then pure 0
      else if !hasFlag pte PTE_U then pure 0
      else pure (PTE2PA pte)

/-- The loop of `mappages`, for `n + 1` pages. -/
def mapLoop (pagetable : Nat) (perm : Pte) : Nat → Nat → Nat → Code Int
  | n, a, pa => do
    match ← walk pagetable a true with
    | none => pure (-1)
    | some (page, i) =>
      let pte ← readWord page i
      if hasFlag pte PTE_V then kpanic "mappages: remap"
      else
        writeWord page i (PA2PTE pa ||| perm ||| PTE_V)
        match n with
        | 0 => pure 0
        | n + 1 => mapLoop pagetable perm n (a + PGSIZE) (pa + PGSIZE)

/-- `mappages`. -/
def mappages (pagetable va size pa : Nat) (perm : Pte) : Code Int := do
  if va % PGSIZE ≠ 0 then kpanic "mappages: va not aligned"
  else if size % PGSIZE ≠ 0 then kpanic "mappages: size not aligned"
  else if size = 0 then kpanic "mappages: size"
  else mapLoop pagetable perm (size / PGSIZE - 1) va pa

/-- The loop of `uvmunmap`. -/
def unmapLoop (pagetable : Nat) (doFree : Bool) : Nat → Nat → Code Unit
  | 0, _ => pure ()
  | n + 1, a => do
    match ← walk pagetable a false with
    | none => kpanic "uvmunmap: walk"
    | some (page, i) =>
      let pte ← readWord page i
      if !hasFlag pte PTE_V then kpanic "uvmunmap: not mapped"
      else if PTE_FLAGS pte = PTE_V then kpanic "uvmunmap: not a leaf"
      else
        if doFree then decrementRef L (PTE2PA pte) else pure ()
        writeWord page i 0
        unmapLoop pagetable doFree n (a + PGSIZE)

/-- `uvmunmap`. -/
def uvmunmap (pagetable va npages : Nat) (doFree : Bool) : Code Unit :=
  if va % PGSIZE ≠ 0 then kpanic "uvmunmap: not aligned"
  else unmapLoop L pagetable doFree npages va

/-- `uvmcreate`; 0 when there is no memory. -/
def uvmcreate : Code Nat := do
  let pagetable ← kalloc
  if pagetable = 0 then pure 0
  else
    setPage pagetable fun _ => 0
    pure pagetable

/-- Remember the permissions of a newly mapped user page. -/
def grant (pagetable va : Nat) (g : Grant) : Code Unit :=
  modify fun s => { s with
    granted := update s.granted pagetable
      (update (s.granted pagetable) (va / PGSIZE) g) }

/-- `uvmfirst`. The results of `kalloc` and `mappages` are not checked; a null page traps. -/
def uvmfirst (pagetable : Nat) (src : List Byte) : Code Unit := do
  if PGSIZE ≤ src.length then kpanic "uvmfirst: more than a page"
  else
    let mem ← kalloc
    incrementRef mem
    if mem = 0 then fault .wild
    else
      setPage mem fun _ => 0
      discard <| mappages pagetable 0 PGSIZE mem (PTE_W ||| PTE_R ||| PTE_X ||| PTE_U)
      grant pagetable 0 { w := true, u := true }
      memmove mem 0 src

/-- `uvmdealloc`. -/
def uvmdealloc (pagetable oldsz newsz : Nat) : Code Nat := do
  if oldsz ≤ newsz then pure oldsz
  else
    if PGROUNDUP newsz < PGROUNDUP oldsz then
      uvmunmap L pagetable (PGROUNDUP newsz) ((PGROUNDUP oldsz - PGROUNDUP newsz) / PGSIZE) true
    else pure ()
    pure newsz

/-- The loop of `uvmalloc`, at address `a` with `n` pages to go; `base` is the rounded old size. -/
def allocLoop (pagetable base newsz : Nat) (xperm : Pte) : Nat → Nat → Code Nat
  | 0, _ => pure newsz
  | n + 1, a => do
    let mem ← kalloc
    if mem = 0 then
      discard <| uvmdealloc L pagetable a base
      pure 0
    else
      setPage mem fun _ => 0
      let mapped ← mappages pagetable a PGSIZE mem (PTE_R ||| PTE_U ||| xperm)
      if mapped ≠ 0 then
        kfree L mem
        discard <| uvmdealloc L pagetable a base
        pure 0
      else
        incrementRef mem
        grant pagetable a { w := hasFlag xperm PTE_W, u := true }
        allocLoop pagetable base newsz xperm n (a + PGSIZE)

/-- `uvmalloc`. -/
def uvmalloc (pagetable oldsz newsz : Nat) (xperm : Pte) : Code Nat :=
  if newsz < oldsz then pure oldsz
  else
    let base := PGROUNDUP oldsz
    allocLoop L pagetable base newsz xperm ((PGROUNDUP newsz - base) / PGSIZE) base

/-- `freewalk`. The recursion follows the words of the table; `depth` bounds it. -/
def freewalk : Nat → Nat → Code Unit
  | 0, _ => fault .hang
  | depth + 1, pagetable => do
    forEach 512 fun i => do
      let pte ← readWord pagetable i
      if hasFlag pte PTE_V ∧ hasFlag pte (PTE_R ||| PTE_W ||| PTE_X) = false then
        freewalk depth (PTE2PA pte)
        writeWord pagetable i 0
      else if hasFlag pte PTE_V then kpanic "freewalk: leaf"
      else pure ()
    kfree L pagetable

/-- `uvmfree`. A page table has three levels. -/
def uvmfree (pagetable sz : Nat) : Code Unit := do
  if 0 < sz then uvmunmap L pagetable 0 (PGROUNDUP sz / PGSIZE) true else pure ()
  freewalk L 3 pagetable

/-- The loop of `uvmcopy`, at address `i` with `n` pages to go. -/
def copyLoop (old new : Nat) : Nat → Nat → Code Int
  | 0, _ => pure 0
  | n + 1, i => do
    match ← walk old i false with
    | none => kpanic "uvmcopy: pte should exist"
    | some (page, k) =>
      let pte ← readWord page k
      if !hasFlag pte PTE_V then kpanic "uvmcopy: page not present"
      else
        let shared := (pte &&& ~~~ PTE_W) ||| PTE_COW
        writeWord page k shared
        let mapped ← mappages new i PGSIZE (PTE2PA shared) (PTE_FLAGS shared)
        if mapped ≠ 0 then
          uvmunmap L new 0 (i / PGSIZE) true
          pure (-1)
        else
          incrementRef (PTE2PA shared)
          let s ← get
          grant new i (s.granted old (i / PGSIZE))
          copyLoop old new n (i + PGSIZE)

/-- `uvmcopy`. -/
def uvmcopy (old new sz : Nat) : Code Int := copyLoop L old new (PGROUNDUP sz / PGSIZE) 0

/-- `uvmclear`. -/
def uvmclear (pagetable va : Nat) : Code Unit := do
  match ← walk pagetable va false with
  | none => kpanic "uvmclear"
  | some (page, i) =>
    let pte ← readWord page i
    writeWord page i (pte &&& ~~~ PTE_U)
    let s ← get
    grant pagetable va { s.granted pagetable (va / PGSIZE) with u := false }

/-! ## Copy on write (`paull04_vm.c`) -/

/-- `page_change`: give the entry at word `i` of table page `page` a page of its own. -/
def pageChange (page i : Nat) : Code Nat := do
  let pte ← readWord page i
  let oldpa := PTE2PA pte
  let ref ← getRef oldpa
  let own (pa : Nat) : Code Nat := do
    let pte ← readWord page i
    writeWord page i (PA2PTE pa ||| ((PTE_FLAGS pte ||| PTE_W) &&& ~~~ PTE_COW))
    pure pa
  if 1 < ref then
    let pa ← kalloc
    if pa = 0 then pure 0
    else
      let s ← get
      setPage pa (s.mem oldpa)
      decrementRef L oldpa
      incrementRef pa
      own pa
  else own oldpa

/-- `re_page`. -/
def rePage (page i : Nat) : Code Nat := do
  let pte ← readWord page i
  if hasFlag pte PTE_W then pure (PTE2PA pte) else pageChange L page i

/-- `pagefault_handler`. -/
def pagefaultHandler (pagetable va : Nat) : Code Int := do
  match ← walk pagetable (PGROUNDDOWN va) false with
  | none => pure (-1)
  | some (page, i) =>
    let pte ← readWord page i
    if !hasFlag pte PTE_V then pure (-1)
    else if !hasFlag pte PTE_COW then pure (-1)
    else
      let pa ← pageChange L page i
      if pa = 0 then pure (-1) else pure 0

/-! ## Copies between kernel and user (`vm.c`) -/

/-- The loop of `copyout`; each turn copies at least one byte, so `src.length` turns are enough. -/
def copyoutLoop (pagetable : Nat) : Nat → Nat → List Byte → Code Int
  | 0, _, _ => pure 0
  | fuel + 1, dstva, src => do
    if src = [] then pure 0
    else
      let va0 := PGROUNDDOWN dstva
      if MAXVA ≤ va0 then pure (-1)
      else
        match ← walk pagetable va0 false with
        | none => pure (-1)
        | some (page, i) =>
          let pte ← readWord page i
          if !hasFlag pte PTE_V || !hasFlag pte PTE_U ||
              (!hasFlag pte PTE_W && !hasFlag pte PTE_COW) then pure (-1)
          else
            let n := min (PGSIZE - (dstva - va0)) src.length
            let pa0 ← rePage L page i
            if pa0 = 0 then pure (-1)
            else
              memmove pa0 (dstva - va0) (src.take n)
              copyoutLoop pagetable fuel (va0 + PGSIZE) (src.drop n)

/-- `copyout`. -/
def copyout (pagetable dstva : Nat) (src : List Byte) : Code Int :=
  copyoutLoop L pagetable src.length dstva src

/-- The bytes of a page from offset `o` on. -/
def pageBytes (page : Page) (o n : Nat) : List Byte :=
  (List.range n).map fun i => pageByte page (o + i)

/-- The loop of `copyin`; `none` stands for the result -1. -/
def copyinLoop (pagetable : Nat) : Nat → Nat → Nat → Code (Option (List Byte))
  | 0, _, _ => pure (some [])
  | fuel + 1, srcva, len => do
    if len = 0 then pure (some [])
    else
      let va0 := PGROUNDDOWN srcva
      let pa0 ← walkaddr pagetable va0
      if pa0 = 0 then pure none
      else
        let n := min (PGSIZE - (srcva - va0)) len
        let s ← get
        let rest ← copyinLoop pagetable fuel (va0 + PGSIZE) (len - n)
        pure (rest.map (pageBytes (s.mem pa0) (srcva - va0) n ++ ·))

/-- `copyin`. -/
def copyin (pagetable srcva len : Nat) : Code (Option (List Byte)) :=
  copyinLoop pagetable len srcva len

end Xv6.Vm
