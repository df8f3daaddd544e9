import Xv6.Vm.Machine

/-!
# Processes and their memory

`proc_pagetable`, `allocproc`, `freeproc`, `userinit`, `fork`, `growproc`, `exec` and the trap
of a user store, over the page tables of `Xv6.Vm.Machine`, and the events of the system. Each
event is one call made by one process, from its entry to its return.
-/

namespace Xv6.Vm

variable (L : Layout)

/-- Assign to fields of a slot. -/
def setProc (p : Slot) (f : Proc → Proc) : Code Unit :=
  modify fun s => { s with proc := Function.update s.proc p (f (s.proc p)) }

/-- `proc_freepagetable`. -/
def procFreepagetable (pagetable sz : Nat) : Code Unit := do
  uvmunmap L pagetable TRAMPOLINE 1 false
  uvmunmap L pagetable TRAPFRAME 1 false
  uvmfree L pagetable sz

/-- `proc_pagetable`, for a process with the given trapframe; 0 when there is no memory. -/
def procPagetable (trapframe : Nat) : Code Nat := do
  let pagetable ← uvmcreate
  if pagetable = 0 then pure 0
  else
    let trampoline ← mappages pagetable TRAMPOLINE PGSIZE L.trampoline (PTE_R ||| PTE_X)
    if trampoline < 0 then
      uvmfree L pagetable 0
      pure 0
    else
      let frame ← mappages pagetable TRAPFRAME PGSIZE trapframe (PTE_R ||| PTE_W)
      if frame < 0 then
        uvmunmap L pagetable TRAMPOLINE 1 false
        uvmfree L pagetable 0
        pure 0
      else pure pagetable

/-- `freeproc`. -/
def freeproc (p : Slot) : Code Unit := do
  let s ← get
  if (s.proc p).trapframe ≠ 0 then kfree L (s.proc p).trapframe else pure ()
  setProc p fun t => { t with trapframe := 0 }
  if (s.proc p).pagetable ≠ 0 then procFreepagetable L (s.proc p).pagetable (s.proc p).sz
  else pure ()
  setProc p fun _ => {}

/-- `allocproc` once its scan has found the UNUSED slot `p`. -/
def allocproc (p : Slot) : Code Bool := do
  let trapframe ← kalloc
  setProc p fun t => { t with state := .live, trapframe := trapframe }
  if trapframe = 0 then
    freeproc L p
    pure false
  else
    let pagetable ← procPagetable L trapframe
    setProc p fun t => { t with pagetable := pagetable }
    if pagetable = 0 then
      freeproc L p
      pure false
    else pure true

/-- `userinit` with the program `initcode`. A failed `allocproc` is a null pointer. -/
def userinit (p : Slot) (initcode : List Byte) : Code Unit := do
  let allocated ← allocproc L p
  if allocated then
    let s ← get
    uvmfirst (s.proc p).pagetable initcode
    setProc p fun t => { t with sz := PGSIZE }
  else fault .wild

/-- `growproc(n)` by process `p`; `sz + n` is computed modulo `2^64`. -/
def growproc (p : Slot) (n : Int) : Code Int := do
  let s ← get
  let sz := (s.proc p).sz
  let newsz := (((sz : Int) + n) % 2 ^ 64).toNat
  if 0 < n then
    let grown ← uvmalloc L (s.proc p).pagetable sz newsz PTE_W
    if grown = 0 then pure (-1)
    else
      setProc p fun t => { t with sz := grown }
      pure 0
  else if n < 0 then
    let shrunk ← uvmdealloc L (s.proc p).pagetable sz newsz
    setProc p fun t => { t with sz := shrunk }
    pure 0
  else pure 0

/-- `fork` by process `p` once `allocproc` has found slot `np`. -/
def fork (p np : Slot) : Code Int := do
  let allocated ← allocproc L np
  if allocated then
    let s ← get
    let copied ← uvmcopy L (s.proc p).pagetable (s.proc np).pagetable (s.proc p).sz
    if copied < 0 then
      freeproc L np
      pure (-1)
    else
      setProc np fun t => { t with sz := (s.proc p).sz }
      pure 0
  else pure (-1)

/-! ## `exec` -/

/-- What `readi` returns for an offset and a length: at most that many bytes of the file. -/
abbrev Reader := Nat → Nat → List Byte

/-- A little-endian number. -/
def leNat : List Byte → Nat
  | [] => 0
  | b :: rest => b.toNat + 256 * leNat rest

/-- The field of `n` bytes at offset `o` of a header. -/
def field (header : List Byte) (o n : Nat) : Nat := leNat ((header.drop o).take n)

def ELF_MAGIC : Nat := 0x464C457F
def ELF_PROG_LOAD : Nat := 1

/-- `sizeof(struct elfhdr)`. -/
def sizeofElfhdr : Nat := 64

/-- `sizeof(struct proghdr)`. -/
def sizeofProghdr : Nat := 56

/-- The fields of `struct proghdr` that `exec` reads. -/
structure Proghdr where
  type : Nat
  flags : Nat
  off : Nat
  vaddr : Nat
  filesz : Nat
  memsz : Nat

/-- The bytes of a program header. -/
def parseProghdr (header : List Byte) : Proghdr where
  type := field header 0 4
  flags := field header 4 4
  off := field header 8 8
  vaddr := field header 16 8
  filesz := field header 32 8
  memsz := field header 40 8

/-- `flags2perm`. -/
def flags2perm (flags : Nat) : Pte :=
  (if flags.testBit 0 then PTE_X else 0) ||| (if flags.testBit 1 then PTE_W else 0)

/-- The loop of `loadseg`, at offset `i` with `n` pages to go. -/
def loadLoop (pagetable va : Nat) (file : Reader) (offset sz : Nat) : Nat → Nat → Code Int
  | 0, _ => pure 0
  | n + 1, i => do
    let pa ← walkaddr pagetable (va + i)
    if pa = 0 then kpanic "loadseg: address should exist"
    else
      let size := min (sz - i) PGSIZE
      let bytes := (file ((offset + i) % 2 ^ 32) size).take size
      memmove pa 0 bytes
      if bytes.length ≠ size then pure (-1)
      else loadLoop pagetable va file offset sz n (i + PGSIZE)

/-- `loadseg`. -/
def loadseg (pagetable va : Nat) (file : Reader) (offset sz : Nat) : Code Int :=
  loadLoop pagetable va file offset sz (PGROUNDUP sz / PGSIZE) 0

/-- One program header: the size of the image with its segment, or `none` for `goto bad`. -/
def execSegment (pagetable sz : Nat) (file : Reader) (ph : Proghdr) : Code (Nat × Bool) := do
  if ph.type ≠ ELF_PROG_LOAD then pure (sz, true)
  else if ph.memsz < ph.filesz then pure (sz, false)
  else if 2 ^ 64 ≤ ph.vaddr + ph.memsz then pure (sz, false)
  else if ph.vaddr % PGSIZE ≠ 0 then pure (sz, false)
  else
    let sz1 ← uvmalloc L pagetable sz (ph.vaddr + ph.memsz) (flags2perm ph.flags)
    if sz1 = 0 then pure (sz, false)
    else
      let loaded ← loadseg pagetable ph.vaddr file (ph.off % 2 ^ 32) (ph.filesz % 2 ^ 32)
      pure (sz1, decide (0 ≤ loaded))

/-- The loop over the program headers: the size so far, and whether all were loaded. -/
def execSegments (pagetable : Nat) (file : Reader) : Nat → Nat → Nat → Code (Nat × Bool)
  | 0, _, sz => pure (sz, true)
  | n + 1, off, sz => do
    let header := (file off sizeofProghdr).take sizeofProghdr
    if header.length ≠ sizeofProghdr then pure (sz, false)
    else
      let (sz, loaded) ← execSegment L pagetable sz file (parseProghdr header)
      if loaded then execSegments pagetable file n ((off + sizeofProghdr) % 2 ^ 32) sz
      else pure (sz, false)

/-- `sp -= n; sp -= sp % 16`, modulo `2^64`. -/
def pushDown (sp n : Nat) : Nat :=
  let sp := (sp + 2 ^ 64 - n % 2 ^ 64) % 2 ^ 64
  sp - sp % 16

/-- The loop that pushes the argument strings: the stack pointer and the pointers pushed so far,
or `none` for `goto bad`. -/
def pushArgs (pagetable stackbase : Nat) : List (List Byte) → Nat → List Nat →
    Code (Option (Nat × List Nat))
  | [], sp, ustack => pure (some (sp, ustack))
  | arg :: rest, sp, ustack => do
    if MAXARG ≤ ustack.length then pure none
    else
      let sp := pushDown sp (arg.length + 1)
      if sp < stackbase then pure none
      else
        let copied ← copyout L pagetable sp (arg ++ [0])
        if copied < 0 then pure none
        else pushArgs pagetable stackbase rest sp (ustack ++ [sp])

/-- Push the array of the pointers and a null pointer: the stack pointer, or `none` for
`goto bad`. -/
def pushArray (pagetable stackbase sp : Nat) (ustack : List Nat) : Code (Option Nat) := do
  let sp := pushDown sp ((ustack.length + 1) * 8)
  if sp < stackbase then pure none
  else
    let copied ← copyout L pagetable sp ((ustack ++ [0]).flatMap (leBytes 8))
    if copied < 0 then pure none else pure (some sp)

/-- The stack and the arguments: the final size, and the stack pointer unless `goto bad`. -/
def execArgs (pagetable sz : Nat) (argv : List (List Byte)) : Code (Nat × Option Nat) := do
  let base := PGROUNDUP sz
  let sz1 ← uvmalloc L pagetable base (base + (USERSTACK + 1) * PGSIZE) PTE_W
  if sz1 = 0 then pure (base, none)
  else
    uvmclear pagetable (sz1 - (USERSTACK + 1) * PGSIZE)
    let stackbase := sz1 - USERSTACK * PGSIZE
    match ← pushArgs L pagetable stackbase argv sz1 [] with
    | none => pure (sz1, none)
    | some (sp, ustack) =>
      let top ← pushArray L pagetable stackbase sp ustack
      pure (sz1, top)

/-- `exec` up to the stack: the new table with the segments of the file, and their size, or `none`
for `goto bad`. -/
def execImage (p : Slot) (file : Reader) : Code (Option (Nat × Nat)) := do
  let s ← get
  let elf := (file 0 sizeofElfhdr).take sizeofElfhdr
  if elf.length ≠ sizeofElfhdr then pure none
  else if field elf 0 4 ≠ ELF_MAGIC then pure none
  else
    let pagetable ← procPagetable L (s.proc p).trapframe
    if pagetable = 0 then pure none
    else
      let (sz, loaded) ← execSegments L pagetable file (field elf 56 2) (field elf 32 8 % 2 ^ 32) 0
      if !loaded then
        procFreepagetable L pagetable sz
        pure none
      else pure (some (pagetable, sz))

/-- `exec` by process `p` of a file, with the strings of `argv`. -/
def exec (p : Slot) (file : Reader) (argv : List (List Byte)) : Code Int := do
  let s ← get
  match ← execImage L p file with
  | none => pure (-1)
  | some (pagetable, sz) =>
    match ← execArgs L pagetable sz argv with
    | (sz, none) =>
      procFreepagetable L pagetable sz
      pure (-1)
    | (sz, some _) =>
      setProc p fun t => { t with pagetable := pagetable, sz := sz }
      procFreepagetable L (s.proc p).pagetable (s.proc p).sz
      pure argv.length

/-! ## User stores -/

/-- One attempt of the hardware to store a byte: it needs a valid, writable user page. -/
def storeOnce (pagetable va : Nat) (b : Byte) : Code Bool := do
  if MAXVA ≤ va then pure false
  else
    match ← walk pagetable (PGROUNDDOWN va) false with
    | none => pure false
    | some (page, i) =>
      let pte ← readWord page i
      if hasFlag pte PTE_V && hasFlag pte PTE_U && hasFlag pte PTE_W then
        memmove (PTE2PA pte) (va % PGSIZE) [b]
        pure true
      else pure false

/-- A user store: `usertrap` calls `pagefault_handler` when the hardware refuses, and the store is
tried again. The result is -1 when the process is to be killed. -/
def store (pagetable va : Nat) (b : Byte) : Nat → Code Int
  | 0 => fault .hang
  | tries + 1 => do
    let stored ← storeOnce pagetable va b
    if stored then pure 0
    else
      let handled ← pagefaultHandler L pagetable va
      if handled < 0 then pure (-1) else store pagetable va b tries

/-! ## The system -/

/-- The calls of the system. -/
inductive Event where
  /-- Another part of the kernel takes a page. -/
  | kernelAlloc
  /-- Another part of the kernel gives a page back. -/
  | kernelFree (pa : Nat)
  | userinit (p : Slot) (initcode : List Byte)
  | fork (p np : Slot)
  | exec (p : Slot) (file : Reader) (argv : List (List Byte))
  | growproc (p : Slot) (n : Int)
  | store (p : Slot) (va : Nat) (b : Byte)
  | copyout (p : Slot) (dstva : Nat) (src : List Byte)
  | copyin (p : Slot) (srcva len : Nat)
  | exit (p : Slot)
  /-- `wait` by the parent of a ZOMBIE frees it. -/
  | freeproc (p : Slot)

/-- A call by the live process `p`, with its page table. -/
def byProc (p : Slot) (code : Nat → Code Unit) : Code Unit := do
  let s ← get
  if (s.proc p).state = .live then code (s.proc p).pagetable else pure ()

/-- One call. -/
def step : Event → Code Unit
  | .kernelAlloc => do
    let pa ← kalloc
    if pa = 0 then pure () else modify fun s => { s with held := pa :: s.held }
  | .kernelFree pa => do
    let s ← get
    if pa ∈ s.held then
      set { s with held := s.held.erase pa }
      kfree L pa
    else pure ()
  | .userinit p initcode => do
    let s ← get
    if (s.proc p).state = .unused then userinit L p initcode else pure ()
  | .fork p np => do
    let s ← get
    if (s.proc np).state = .unused then byProc p fun _ => discard (fork L p np) else pure ()
  | .exec p file argv => byProc p fun _ => discard (exec L p file argv)
  | .growproc p n => byProc p fun _ => discard (growproc L p n)
  | .store p va b => byProc p fun pagetable => discard (store L pagetable va b 3)
  | .copyout p dstva src => byProc p fun pagetable => discard (copyout L pagetable dstva src)
  | .copyin p srcva len => byProc p fun pagetable => discard (copyin pagetable srcva len)
  | .exit p => byProc p fun _ => setProc p fun t => { t with state := .zombie }
  | .freeproc p => do
    let s ← get
    if (s.proc p).state = .zombie then freeproc L p else pure ()

/-- The state before `kinit`: static storage is zero and no page is on the free list. -/
def reset (junk : Nat → Page) : State where
  mem := junk
  freelist := 0
  pgref := fun _ => 0
  proc := fun _ => {}
  held := []
  failed := 0
  granted := fun _ _ => { w := false, u := false }

/-- The states `kinit` leaves, whatever was in memory before. -/
def Booted (s : State) : Prop := ∃ junk, kinit L (reset junk) = .ok ((), s)

end Xv6.Vm
