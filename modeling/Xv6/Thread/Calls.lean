import Xv6.Thread.Machine
import Xv6.Thread.Memory

/-!
# The thread kernel, one system call at a time

The same system calls as in `Xv6.Thread.Machine` with the rest of `struct proc`: the page table
and size of each slot, the trapframe and where it is mapped, the thread counter and the open
files. Here a call is one step, so no other process sees it half done; `wait` and `paull04_join`
take one step for each scan of the table. `int` fields are integers kept in range by `wrap`.

A step is taken by a RUNNING process. A thread that another CPU frees while it runs has lost the
page its next trap saves the registers in and makes no further call.
-/

namespace Xv6.Thread.Calls

open Function

def NOFILE : Nat := 16
def NFILE : Nat := 100
def MAXARG : Nat := 32
def USERSTACK : Nat := 1

/-- A file descriptor. -/
abbrev Fd := Fin NOFILE

/-- A `struct file *`: an entry of `ftable`. -/
abbrev FileId := Fin NFILE

/-- A `struct inode *`. -/
abbrev Inode := Nat

/-- `struct proc`. The kernel stack, the saved registers and the name are left out. -/
structure Task extends Proc where
  xstate : Int := 0
  sz : Nat := 0
  pagetable : Option TableId := none
  trapframe : Option Page := none
  trapframeVa : Nat := 0
  cnt : Int := 0
  stackBase : Nat := 0
  ofile : Fd → Option FileId := fun _ => none
  cwd : Option Inode := none
  deriving DecidableEq

/-- `struct file`; a file of type `FD_NONE` has no inode. -/
structure File where
  ref : Nat := 0
  ip : Option Inode := none
  deriving DecidableEq, Repr

/-- The calls that sleep until there is something to reap, with their argument. -/
inductive Blocked where
  | wait (addr : Nat)
  | join (stack : Nat)
  deriving DecidableEq, Repr

/-- The state of the kernel. `blocked p` is the call that `p` is asleep in, or about to go on
with; `waitLock` the holder of `wait_lock` between two steps. -/
structure System where
  proc : Slot → Task
  blocked : Slot → Option Blocked
  mem : Mem
  file : FileId → File
  iref : Inode → Int
  initproc : Ptr
  nextpid : Int
  waitLock : Ptr

/-- Kernel code. -/
abbrev Code (α : Type) := Kernel System α

variable {α : Type}

/-- After `kinit` has put the pages of `free` on the free list, and `procinit`. -/
def boot (free : List Page) : System where
  proc := fun _ => {}
  blocked := fun _ => none
  mem := { free := free, tables := fun _ => none, nextTable := 0 }
  file := fun _ => {}
  iref := fun _ => 0
  initproc := none
  nextpid := 1
  waitLock := none

/-- Code that touches memory only. -/
def onMem (code : MemCode α) : Code α := fun s =>
  match code s.mem with
  | .ok (a, mem) => .ok (a, { s with mem := mem })
  | .error f => .error f

/-- Assign to fields of a slot. -/
def setProc (p : Slot) (f : Task → Task) : Code Unit :=
  modify fun s => { s with proc := update s.proc p (f (s.proc p)) }

/-- Assign to fields of a file. -/
def setFile (f : FileId) (g : File → File) : Code Unit :=
  modify fun s => { s with file := update s.file f (g (s.file f)) }

/-- Follow a pointer. -/
def deref (p : Option α) : Code α :=
  match p with
  | some a => pure a
  | none => fault .wild

/-- `acquire(&wait_lock)` by `p`. A holder that has come back to user space never releases it. -/
def acquireWaitLock (p : Slot) : Code Unit := do
  let s ← get
  match s.waitLock with
  | none => set { s with waitLock := some p }
  | some q => if q = p then kpanic "acquire" else fault .hang

/-- `release(&wait_lock)`. -/
def releaseWaitLock : Code Unit := modify fun s => { s with waitLock := none }

/-- The first slot with a property, in the order the loops over the table visit them. -/
def firstSlot (found : Slot → Bool) : Ptr := (List.finRange NPROC).find? found

/-! ## Files and inodes -/

/-- `idup`. -/
def idup (ip : Inode) : Code Unit :=
  modify fun s => { s with iref := update s.iref ip (s.iref ip + 1) }

/-- `iput`, as far as the reference count goes. -/
def iput (ip : Inode) : Code Unit :=
  modify fun s => { s with iref := update s.iref ip (s.iref ip - 1) }

/-- `filealloc`. -/
def filealloc : Code (Option FileId) := do
  let s ← get
  match (List.finRange NFILE).find? fun f => decide ((s.file f).ref = 0) with
  | none => pure none
  | some f => do
    setFile f fun x => { x with ref := 1 }
    pure (some f)

/-- `filedup`. -/
def filedup (f : FileId) : Code Unit := do
  let s ← get
  if (s.file f).ref < 1 then kpanic "filedup"
  else setFile f fun x => { x with ref := x.ref + 1 }

/-- `fileclose`. -/
def fileclose (f : FileId) : Code Unit := do
  let s ← get
  if (s.file f).ref < 1 then kpanic "fileclose"
  else if 0 < (s.file f).ref - 1 then setFile f fun x => { x with ref := x.ref - 1 }
  else do
    setFile f fun _ => {}
    match (s.file f).ip with
    | none => pure ()
    | some ip => iput ip

/-- Assign to a descriptor. -/
def setFd (p : Slot) (fd : Fd) (f : Option FileId) : Code Unit :=
  setProc p fun t => { t with ofile := update t.ofile fd f }

/-- `fdalloc` for the current process `p`. -/
def fdalloc (p : Slot) (f : FileId) : Code (Option Fd) := do
  let s ← get
  match (List.finRange NOFILE).find? fun fd => ((s.proc p).ofile fd).isNone with
  | none => pure none
  | some fd => do
    setFd p fd (some f)
    pure (some fd)

/-- `argfd` for the current process `p`. -/
def argfd (p : Slot) (fd : Int) : Code (Option (Fd × FileId)) := do
  let s ← get
  if h : fd.toNat < NOFILE then
    if fd < 0 then pure none
    else pure (((s.proc p).ofile ⟨fd.toNat, h⟩).map fun f => (⟨fd.toNat, h⟩, f))
  else pure none

/-- `sys_open`, once `namei` or `create` and the checks on the inode have been made: `ip` is the
inode to open, locked and with a reference. -/
def sysOpen (p : Slot) (ip : Option Inode) : Code Int := do
  match ip with
  | none => pure (-1)
  | some ip => do
    idup ip
    match ← filealloc with
    | none => do
      iput ip
      pure (-1)
    | some f => do
      match ← fdalloc p f with
      | none => do
        fileclose f
        iput ip
        pure (-1)
      | some fd => do
        setFile f fun x => { x with ip := some ip }
        pure fd

/-- `sys_dup`. -/
def sysDup (p : Slot) (fd : Int) : Code Int := do
  match ← argfd p fd with
  | none => pure (-1)
  | some (_, f) => do
    match ← fdalloc p f with
    | none => pure (-1)
    | some fd => do
      filedup f
      pure fd

/-- `sys_close`. -/
def sysClose (p : Slot) (fd : Int) : Code Int := do
  match ← argfd p fd with
  | none => pure (-1)
  | some (fd, f) => do
    setFd p fd none
    fileclose f
    pure 0

/-- The loop of `fork` and `paull04_clone` that duplicates the descriptors of `p` for `np`. -/
def dupFiles (p np : Slot) : Code Unit :=
  forEach NOFILE fun fd => do
    let s ← get
    match (s.proc p).ofile fd with
    | none => pure ()
    | some f => do
      filedup f
      setFd np fd (some f)

/-- The loop of `exit` that closes the descriptors of `p`. -/
def closeFiles (p : Slot) : Code Unit :=
  forEach NOFILE fun fd => do
    let s ← get
    match (s.proc p).ofile fd with
    | none => pure ()
    | some f => do
      fileclose f
      setFd p fd none

/-! ## Page tables of processes -/

/-- `proc_pagetable`. -/
def procPagetable (p : Slot) : Code (Option TableId) := do
  match ← onMem uvmcreate with
  | none => pure none
  | some t => do
    if ← onMem (mappages t TRAMPOLINE PGSIZE trampoline { x := true }) then
      setProc p fun x => { x with trapframeVa := TRAPFRAME }
      let s ← get
      let trapframe := (s.proc p).trapframe.getD 0
      if ← onMem (mappages t TRAPFRAME PGSIZE trapframe { w := true }) then
        pure (some t)
      else
        onMem (uvmunmap t TRAMPOLINE 1 false)
        onMem (uvmfree t 0)
        pure none
    else
      onMem (uvmfree t 0)
      pure none

/-- A page table may be freed: it is in use, and no slot but `owner` points to it. -/
def Freeable (s : System) (owner : Ptr) (t : TableId) : Prop :=
  (s.mem.tables t).isSome ∧ ∀ q, some q ≠ owner → (s.proc q).pagetable ≠ some t

instance (s : System) (owner : Ptr) (t : TableId) : Decidable (Freeable s owner t) :=
  inferInstanceAs (Decidable (_ ∧ _))

/-- `proc_freepagetable`, for a table that at most `owner` still points to. -/
def procFreepagetable (owner : Ptr) (t : TableId) (sz : Nat) : Code Unit := do
  let s ← get
  if Freeable s owner t then
    onMem (uvmunmap t TRAMPOLINE 1 false)
    onMem (uvmunmap t TRAPFRAME 1 false)
    onMem (uvmfree t sz)
  else fault .dangling

/-! ## Allocation and release of slots -/

/-- `allocpid`. -/
def allocpid : Code Int := do
  let s ← get
  set { s with nextpid := wrap (s.nextpid + 1) }
  pure s.nextpid

/-- The fields that `freeproc` and `freethread` clear. -/
def Task.cleared (t : Task) : Task :=
  { t with
    trapframe := none, trapframeVa := 0, pagetable := none, sz := 0, pid := 0, parent := none,
    chan := .null, killed := false, xstate := 0, state := .unused, mainPid := 0,
    mainThread := none, isThread := false }

/-- The end of `freeproc`, for a process `p` that was `x` on entry. -/
def freeprocEnd (p : Slot) (x : Task) : Code Unit := do
  match x.pagetable with
  | none => pure ()
  | some t => procFreepagetable (some p) t x.sz
  setProc p Task.cleared

/-- `freeproc`. -/
def freeproc (p : Slot) : Code Unit := do
  let s ← get
  match (s.proc p).trapframe with
  | none => pure ()
  | some page => onMem (kfree page)
  freeprocEnd p (s.proc p)

/-- The new context of a slot: it starts in `forkret`, whatever call its last user slept in. -/
def newContext (p : Slot) : Code Unit :=
  modify fun s => { s with blocked := update s.blocked p none }

/-- `allocproc` for the UNUSED slot `p`. -/
def allocproc (p : Slot) : Code Bool := do
  let pid ← allocpid
  setProc p fun t => { t with pid := pid, state := .used }
  match ← onMem kalloc with
  | none => do
    freeproc p
    pure false
  | some page => do
    setProc p fun t => { t with trapframe := some page }
    match ← procPagetable p with
    | none => do
      freeproc p
      pure false
    | some t => do
      setProc p fun x => { x with pagetable := some t }
      newContext p
      pure true

/-- `allocthread` for the UNUSED slot `p`. -/
def allocthread (p : Slot) : Code Bool := do
  let pid ← allocpid
  setProc p fun t => { t with pid := pid, state := .used, killed := false, xstate := 0 }
  match ← onMem kalloc with
  | none => do
    setProc p fun t => { t with trapframe := none, state := .unused }
    pure false
  | some page => do
    setProc p fun t => { t with trapframe := some page }
    newContext p
    pure true

/-- The scan for an UNUSED slot. -/
def unusedSlot : Code Ptr := do
  let s ← get
  pure (firstSlot fun q => decide ((s.proc q).state = .unused))

/-- `wakeup(chan)` by the current process `self`. -/
def wakeup (self : Slot) (chan : Chan) : Code Unit :=
  modify fun s => { s with
    proc := fun q =>
      if q ≠ self ∧ (s.proc q).state = .sleeping ∧ (s.proc q).chan = chan then
        { s.proc q with state := .runnable }
      else s.proc q }

/-- `reparent(p)` by the current process `self`. -/
def reparent (self p : Slot) : Code Unit := do
  let s ← get
  if ∃ q, (s.proc q).parent = some p then
    set { s with
      proc := fun q =>
        if (s.proc q).parent = some p then { s.proc q with parent := s.initproc }
        else s.proc q }
    wakeup self (.ofPtr s.initproc)
  else pure ()

/-- The end of `freethread`, for a thread `p` that was `x` on entry. -/
def freethreadEnd (p : Slot) (x : Task) : Code Unit := do
  match x.trapframe with
  | none => kpanic "kfree"
  | some page => onMem (kfree page)
  setProc p Task.cleared

/-- The part of `freethread` that follows `reparent`. -/
def clearThread (p : Slot) (x : Task) : Code Unit := do
  if x.isThread then
    let t ← deref x.pagetable
    onMem (uvmunmap t x.trapframeVa 1 false)
  freethreadEnd p x

/-- `freethread(p)` by the current process `self`. With `p->lock` held, the `wakeup` that
`reparent` makes for a first child takes that lock a second time. -/
def freethread (self p : Slot) (locked : Bool) : Code Unit := do
  let s ← get
  if locked ∧ ∃ q, (s.proc q).parent = some p then kpanic "acquire"
  else
    reparent self p
    clearThread p (s.proc p)

/-- `cleanAllThreads(t)` by the current process `self`. -/
def cleanAllThreads (self t : Slot) : Code Unit := do
  acquireWaitLock self
  forEach NPROC fun np => do
    let s ← get
    if (s.proc np).mainPid = (s.proc t).pid ∧ (s.proc np).isThread then
      freethread self np true
    else pure ()
  releaseWaitLock

/-! ## System calls -/

/-- `userinit`. -/
def userinit : Code Unit := do
  let np ← unusedSlot
  let p ← deref np
  if ← allocproc p then
    modify fun s => { s with initproc := some p }
    let s ← get
    let t ← deref (s.proc p).pagetable
    onMem (uvmfirst t)
    idup 0
    setProc p fun t => { t with
      sz := PGSIZE, cwd := some 0, state := .runnable, isThread := false, mainPid := t.pid,
      mainThread := some p, cnt := 0 }
  else fault .wild

/-- The part of `fork` by `p` that gives the child `np` its files and makes it a process. -/
def startChild (p np : Slot) : Code Int := do
  dupFiles p np
  let s ← get
  let cwd ← deref (s.proc p).cwd
  idup cwd
  setProc np fun t => { t with cwd := some cwd }
  acquireWaitLock p
  setProc np fun t => { t with parent := some p }
  releaseWaitLock
  setProc np fun t => { t with
    state := .runnable, isThread := false, mainPid := t.pid, mainThread := some np, cnt := 0 }
  pure (s.proc np).pid

/-- `fork` by `p`. -/
def fork (p : Slot) : Code Int := do
  match ← unusedSlot with
  | none => pure (-1)
  | some np => do
    if ← allocproc np then
      let s ← get
      let old ← deref (s.proc p).pagetable
      let new ← deref (s.proc np).pagetable
      if ← onMem (uvmcopy old new (s.proc p).sz) then
        setProc np fun t => { t with sz := (s.proc p).sz }
        startChild p np
      else
        freeproc np
        pure (-1)
    else pure (-1)

/-- `TRAPFRAME - (cnt * PGSIZE)`: the product is an `int`, the difference a `uint64`. -/
def threadTrapframe (cnt : Int) : Nat := (((TRAPFRAME : Int) - wrap (cnt * PGSIZE)) % 2 ^ 64).toNat

/-- The part of `paull04_clone` by `p` that gives the new slot `np` its memory. -/
def placeThread (p main np : Slot) (stack : Nat) : Code Unit := do
  setProc main fun t => { t with cnt := wrap (t.cnt + 1) }
  let s ← get
  setProc np fun t => { t with
    pagetable := (s.proc p).pagetable, sz := (s.proc p).sz, stackBase := stack,
    trapframeVa := threadTrapframe (s.proc main).cnt }

/-- The call of `mappages` in `paull04_clone`. -/
def mapTrapframe (p np : Slot) : Code Bool := do
  let s ← get
  let t ← deref (s.proc p).pagetable
  onMem (mappages t (s.proc np).trapframeVa PGSIZE ((s.proc np).trapframe.getD 0) { w := true })

/-- The part of `paull04_clone` that gives `np` its files and makes it a thread of `main`. -/
def startThread (p main np : Slot) : Code Int := do
  dupFiles p np
  let s ← get
  let cwd ← deref (s.proc p).cwd
  idup cwd
  setProc np fun t => { t with
    cwd := some cwd, state := .runnable, mainPid := (s.proc p).mainPid, mainThread := some main,
    isThread := true, parent := some main }
  pure (s.proc np).pid

/-- `paull04_clone` by `p`. -/
def clone (p : Slot) (stack : Nat) : Code Int := do
  match ← unusedSlot with
  | none => pure (-1)
  | some np => do
    if ← allocthread np then
      let s ← get
      let main ← deref (s.proc p).mainThread
      placeThread p main np stack
      if ← mapTrapframe p np then startThread p main np
      else kpanic "paull04_clone: mappages failed"
    else pure (-1)

/-- A program header, and whether the segment can be read from the file. -/
structure ProgHdr where
  load : Bool
  vaddr : Nat
  memsz : Nat
  filesz : Nat
  flags : Nat
  readable : Bool
  deriving DecidableEq, Repr

/-- What `exec` reads from a file: whether there is an ELF header, and the program headers, with
`none` for one that cannot be read. -/
structure ElfFile where
  header : Bool
  segments : List (Option ProgHdr)
  deriving DecidableEq, Repr

/-- `flags2perm`. -/
def flags2perm (flags : Nat) : Perm := { x := flags.testBit 0, w := flags.testBit 1 }

/-- The loop of `loadseg`, with `n` pages left. -/
def loadFrom (t : TableId) (readable : Bool) : Nat → Nat → MemCode Bool
  | 0, _ => pure true
  | n + 1, va => do
    match ← walkaddr t va with
    | none => kpanic "loadseg: address should exist"
    | some _ => if readable then loadFrom t readable n (va + PGSIZE) else pure false

/-- `loadseg`; its `sz` is a 32-bit `uint`. -/
def loadseg (t : TableId) (ph : ProgHdr) : MemCode Bool :=
  loadFrom t ph.readable (pgroundup (ph.filesz % 2 ^ 32) / PGSIZE) ph.vaddr

/-- The loop of `exec` over the program headers: whether all went well, and `sz`. -/
def loadSegments (t : TableId) : List (Option ProgHdr) → Nat → MemCode (Bool × Nat)
  | [], sz => pure (true, sz)
  | none :: _, sz => pure (false, sz)
  | some ph :: rest, sz =>
    if ph.load = false then loadSegments t rest sz
    else if ph.memsz < ph.filesz ∨ 2 ^ 64 ≤ ph.vaddr + ph.memsz ∨ ph.vaddr % PGSIZE ≠ 0 then
      pure (false, sz)
    else do
      let sz1 ← uvmalloc t sz (ph.vaddr + ph.memsz) (flags2perm ph.flags)
      if sz1 = 0 then pure (false, sz)
      else if ← loadseg t ph then loadSegments t rest sz1
      else pure (false, sz1)

/-- Subtraction of `uint64`. -/
def sub64 (a b : Nat) : Nat := (a + 2 ^ 64 - b % 2 ^ 64) % 2 ^ 64

/-- The stack pointer after a push of `n` bytes: 16-byte aligned. -/
def pushed (sp n : Nat) : Nat := sub64 sp n - sub64 sp n % 16

/-- The loop of `exec` that pushes the argument strings; those before are at `ustack`. -/
def pushArgs (t : TableId) (stackbase : Nat) :
    List (List Byte) → List Nat → Nat → MemCode (Option (List Nat × Nat))
  | [], ustack, sp => pure (some (ustack, sp))
  | arg :: rest, ustack, sp =>
    let sp := pushed sp (arg.length + 1)
    if MAXARG ≤ ustack.length ∨ sp < stackbase then pure none
    else do
      if ← copyout t sp (arg ++ [0]) then pushArgs t stackbase rest (ustack ++ [sp]) sp
      else pure none

/-- The part of `exec` that builds the stack of a table of size `sz`: the size at the end, and
the number of arguments when all went well. -/
def buildStack (t : TableId) (sz : Nat) (argv : List (List Byte)) : MemCode (Nat × Option Nat) := do
  let sz := pgroundup sz
  let sz1 ← uvmalloc t sz (sz + (USERSTACK + 1) * PGSIZE) { w := true }
  if sz1 = 0 then pure (sz, none)
  else
    uvmclear t (sz1 - (USERSTACK + 1) * PGSIZE)
    let stackbase := sz1 - USERSTACK * PGSIZE
    match ← pushArgs t stackbase argv [] sz1 with
    | none => pure (sz1, none)
    | some (ustack, sp) =>
      let sp := pushed sp ((ustack.length + 1) * 8)
      if sp < stackbase then pure (sz1, none)
      else do
        if ← copyout t sp ((ustack ++ [0]).flatMap (leBytes 8)) then
          pure (sz1, some ustack.length)
        else pure (sz1, none)

/-- The part of `exec` up to the commit: the new table, its size and the number of arguments. -/
def buildImage (p : Slot) (file : ElfFile) (argv : List (List Byte)) :
    Code (Option (TableId × Nat × Nat)) := do
  if file.header then
    match ← procPagetable p with
    | none => pure none
    | some t => do
      let (loaded, sz) ← onMem (loadSegments t file.segments 0)
      if loaded then
        let (sz, argc) ← onMem (buildStack t sz argv)
        match argc with
        | some argc => pure (some (t, sz, argc))
        | none => do
          procFreepagetable none t sz
          pure none
      else
        procFreepagetable none t sz
        pure none
  else pure none

/-- The end of `exec`, for a caller `p` that was `x` on entry and whose main thread is `mt`. -/
def execEnd (p mt : Slot) (x : Task) (argc : Nat) : Code Int := do
  cleanAllThreads p mt
  if x.pid = x.mainPid then
    let old ← deref x.pagetable
    procFreepagetable none old x.sz
  else setProc mt fun x => { x with killed := true }
  pure argc

/-- The part of `exec` that follows the unmapping of the caller's own trapframe. The source's
`p->parent = p->main_thread->parent` comes after `p->main_thread = p` and changes nothing. -/
def execRest (p : Slot) (x : Task) (file : Option ElfFile) (argv : List (List Byte)) :
    Code Int := do
  match file with
  | none => pure (-1)
  | some file => do
    match ← buildImage p file argv with
    | none => pure (-1)
    | some (t, sz, argc) => do
      let mt ← deref x.mainThread
      setProc p fun x => { x with
        pagetable := some t, sz := sz, mainPid := x.pid, mainThread := some p,
        isThread := false, cnt := 0 }
      execEnd p mt x argc

/-- `exec` by `p` of the file that `namei` finds, if any. -/
def exec (p : Slot) (file : Option ElfFile) (argv : List (List Byte)) : Code Int := do
  let s ← get
  if (s.proc p).isThread then
    let t ← deref (s.proc p).pagetable
    onMem (uvmunmap t (s.proc p).trapframeVa 1 false)
  execRest p (s.proc p) file argv

/-- The part of `exit` that follows `cleanAllThreads`. -/
def exitRest (p : Slot) (status : Int) : Code Unit := do
  closeFiles p
  let s ← get
  let cwd ← deref (s.proc p).cwd
  iput cwd
  setProc p fun t => { t with cwd := none }
  acquireWaitLock p
  reparent p p
  let s ← get
  wakeup p (.ofPtr (s.proc p).parent)
  setProc p fun t => { t with xstate := status, state := .zombie }
  releaseWaitLock

/-- `exit` by `p`. -/
def exit (p : Slot) (status : Int) : Code Unit := do
  let s ← get
  if s.initproc = some p then kpanic "init exiting"
  else
    if (s.proc p).isThread = false then cleanAllThreads p p
    exitRest p status

/-- The end of a scan of `wait` or `paull04_join` that found nothing to reap: return -1, or
`sleep(p, &wait_lock)`. -/
def scanEnd (p : Slot) (havekids : Bool) (call : Blocked) : Code (Option Int) := do
  let s ← get
  releaseWaitLock
  if !havekids || (s.proc p).killed then pure (some (-1))
  else
    setProc p fun t => { t with state := .sleeping, chan := .proc p }
    modify fun s => { s with blocked := update s.blocked p (some call) }
    pure none

/-- The bytes of an `int`. -/
def intBytes (i : Int) : List Byte := leBytes 4 (i % 2 ^ 32).toNat

/-- One scan of `wait` by `p`. -/
def wait (p : Slot) (addr : Nat) : Code (Option Int) := do
  acquireWaitLock p
  modify fun s => { s with blocked := update s.blocked p none }
  let s ← get
  let child := fun q => decide ((s.proc q).parent = some p ∧ (s.proc q).isThread = false)
  match firstSlot fun q => child q && decide ((s.proc q).state = .zombie) with
  | some pp => do
    let t ← deref (s.proc p).pagetable
    let copied ←
      if addr = 0 then pure true else onMem (copyout t addr (intBytes (s.proc pp).xstate))
    if copied then
      freeproc pp
      releaseWaitLock
      pure (some (s.proc pp).pid)
    else
      releaseWaitLock
      pure (some (-1))
  | none => scanEnd p (firstSlot child).isSome (.wait addr)

/-- The end of `paull04_join` by `p` that has found the exited thread `np` in state `s`. When
`copyout` fails it releases its locks and runs on, to release them a second time. -/
def joinFound (s : System) (p np : Slot) (stack : Nat) : Code (Option Int) := do
  let t ← deref (s.proc p).pagetable
  if ← onMem (copyout t stack (leBytes 8 (s.proc np).stackBase)) then
    freethread p np true
    releaseWaitLock
    pure (some (s.proc np).pid)
  else
    freethread p np false
    kpanic "release"

/-- One scan of `paull04_join` by `p`. -/
def join (p : Slot) (stack : Nat) : Code (Option Int) := do
  acquireWaitLock p
  modify fun s => { s with blocked := update s.blocked p none }
  let s ← get
  let member := fun q =>
    decide ((s.proc q).mainPid = (s.proc p).mainPid ∧ (s.proc q).isThread = true)
  match firstSlot fun q => member q && decide ((s.proc q).state = .zombie) with
  | some np => joinFound s p np stack
  | none => scanEnd p (firstSlot member).isSome (.join stack)

/-- `kill`. -/
def kill (pid : Int) : Code Int := do
  let s ← get
  match firstSlot fun q => decide ((s.proc q).pid = pid) with
  | none => pure (-1)
  | some q => do
    let main ← deref (s.proc q).mainThread
    setProc main fun t => { t with
      killed := true, state := if t.state = .sleeping then .runnable else t.state }
    pure 0

/-- The loop of `growproc` that hands the new size to the members of the process `main`. -/
def setSizes (main : Slot) (sz : Nat) : Code Unit :=
  modify fun s => { s with
    proc := fun q =>
      if (s.proc q).mainPid = (s.proc main).pid then { s.proc q with sz := sz } else s.proc q }

/-- `growproc` by `p`. When there is no memory it returns with `wait_lock` held. -/
def growproc (p : Slot) (n : Int) : Code Int := do
  acquireWaitLock p
  let s ← get
  let main ← deref (s.proc p).mainThread
  let t ← deref (s.proc main).pagetable
  let sz := (s.proc main).sz
  let newsz := ((sz + n) % 2 ^ 64).toNat
  if 0 < n then
    let sz ← onMem (uvmalloc t sz newsz { w := true })
    if sz = 0 then pure (-1)
    else
      setProc main fun t => { t with sz := sz }
      setSizes main sz
      releaseWaitLock
      pure 0
  else
    let sz ← if n < 0 then onMem (uvmdealloc t sz newsz) else pure sz
    setProc main fun t => { t with sz := sz }
    setSizes main sz
    releaseWaitLock
    pure 0

/-! ## The system -/

/-- The system calls. -/
inductive Call where
  | fork
  | clone (stack : Nat)
  | exec (file : Option ElfFile) (argv : List (List Byte))
  | exit (status : Int)
  | kill (pid : Int)
  | join (stack : Nat)
  | wait (addr : Nat)
  | growproc (n : Int)
  | open (ip : Option Inode)
  | dup (fd : Int)
  | close (fd : Int)

/-- A system call by `p`, with what it returns if it does. -/
def syscall (p : Slot) : Call → Code (Option Int)
  | .fork => do return some (← fork p)
  | .clone stack => do return some (← clone p stack)
  | .exec file argv => do return some (← exec p file argv)
  | .exit status => do
    exit p status
    return none
  | .kill pid => do return some (← kill pid)
  | .join stack => join p stack
  | .wait addr => wait p addr
  | .growproc n => do return some (← growproc p n)
  | .open ip => do return some (← sysOpen p ip)
  | .dup fd => do return some (← sysDup p fd)
  | .close fd => do return some (← sysClose p fd)

/-- The call that `usertrap` makes for `p`: a killed process exits instead. -/
def trapped (s : System) (p : Slot) (call : Call) : Call :=
  if (s.proc p).killed then .exit (-1) else call

/-- Go on with a call after its `sleep` returns. -/
def again (p : Slot) : Blocked → Code (Option Int)
  | .wait addr => wait p addr
  | .join stack => join p stack

/-- `sched` by `p`, which must hold no lock but its own. -/
def sched (s : System) (p : Slot) (f : Task → Task) : Code Unit :=
  if s.waitLock = some p then kpanic "sched locks" else setProc p f

/-- What can happen. -/
inductive Event where
  | userinit
  | schedule (p : Slot)
  | yield (p : Slot)
  | sleep (p : Slot) (chan : Chan)
  | wakeup (p : Slot) (chan : Chan)
  | call (p : Slot) (call : Call)
  | resume (p : Slot)

/-- One event. -/
def step : Event → Code (Option Int)
  | .userinit => do
    let s ← get
    if s.initproc = none then userinit
    return none
  | .schedule p => do
    let s ← get
    if (s.proc p).state = .runnable then
      setProc p fun t => { t with state := .running, chan := .null }
    return none
  | .yield p => do
    let s ← get
    if (s.proc p).state = .running then sched s p fun t => { t with state := .runnable }
    return none
  | .sleep p chan => do
    let s ← get
    if (s.proc p).state = .running ∧ s.blocked p = none then
      sched s p fun t => { t with state := .sleeping, chan := chan }
    return none
  | .wakeup p chan => do
    let s ← get
    if (s.proc p).state = .running then wakeup p chan
    return none
  | .call p call => do
    let s ← get
    if (s.proc p).state = .running ∧ s.blocked p = none then syscall p (trapped s p call)
    else return none
  | .resume p => do
    let s ← get
    match s.blocked p with
    | some call => if (s.proc p).state = .running then again p call else return none
    | none => return none

end Xv6.Thread.Calls
