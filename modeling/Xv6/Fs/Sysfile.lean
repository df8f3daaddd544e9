import Xv6.Fs.Inode

/-!
# System calls on files

`file.c` and `sysfile.c`, one call at a time. A string argument is `none` when it cannot be read
from user memory. Reads and writes of a device return what its driver returns, which is an
argument here.
-/

namespace Xv6.Fs.Files

open Function

def O_WRONLY : BitVec 32 := 0x001
def O_RDWR : BitVec 32 := 0x002
def O_CREATE : BitVec 32 := 0x200
def O_TRUNC : BitVec 32 := 0x400
def O_NOFOLLOW : BitVec 32 := 0x2000

/-- A mode has this flag set. -/
def hasFlag (omode flag : BitVec 32) : Bool := decide (omode &&& flag ≠ 0)

/-- `argstr` with a buffer of `MAXPATH` bytes. -/
def argstr (arg : Option (List Byte)) : Option Str :=
  match arg with
  | none => none
  | some bytes =>
    if (bytes.takeWhile (· ≠ 0)).length < MAXPATH then some (bytes.takeWhile (· ≠ 0)) else none

/-! ## Open files -/

/-- Assign to fields of a file. -/
def setFile (f : FileId) (g : File → File) : Code Unit :=
  modify fun s => { s with file := update s.file f (g (s.file f)) }

/-- `filealloc`. -/
def filealloc : Code (Option FileId) := do
  let s ← get
  match (List.finRange NFILE).find? fun f => decide ((s.file f).ref = 0) with
  | none => pure none
  | some f => do
    setFile f fun x => { x with ref := 1 }
    pure (some f)

theorem wp_filealloc {E : Fault → Prop} {s : State} {Q : Option FileId → State → Prop}
    (hnone : (∀ f, (s.file f).ref ≠ 0) → Q none s)
    (hsome : ∀ f, (s.file f).ref = 0 →
      Q (some f) { s with file := update s.file f { s.file f with ref := 1 } }) :
    wp filealloc E Q s := by
  simp only [filealloc, wp_bind, wp_get]
  cases hfile : (List.finRange NFILE).find? fun f => decide ((s.file f).ref = 0) with
  | none =>
    refine hnone fun f hf => ?_
    exact List.find?_eq_none.mp hfile f (List.mem_finRange f) (decide_eq_true hf)
  | some f =>
    have hunused := List.find?_some hfile
    exact hsome f (of_decide_eq_true hunused)

/-- `filedup`. -/
def filedup (f : FileId) : Code Unit := do
  let s ← get
  if (s.file f).ref < 1 then kpanic "filedup"
  else setFile f fun x => { x with ref := x.ref + 1 }

/-- `fileclose`. -/
def fileclose (f : FileId) : Code Unit := do
  let s ← get
  if (s.file f).ref < 1 then kpanic "fileclose"
  else if 0 < (s.file f).ref - 1 then setFile f fun x => { x with ref := x.ref - 1 }
  else
    setFile f fun x => { x with ref := 0, type := .none }
    match (s.file f).type with
    | .none => pure ()
    | .inode | .device => do
      beginOp
      iput (s.file f).ip
      endOp

/-- Assign to a descriptor. -/
def setFd (p : Pid) (fd : Fd) (f : Option FileId) : Code Unit :=
  modify fun s => { s with
    proc := update s.proc p { s.proc p with
      ofile := update (s.proc p).ofile fd f } }

/-- `fdalloc` for the process `p`. -/
def fdalloc (p : Pid) (f : FileId) : Code (Option Fd) := do
  let s ← get
  match (List.finRange NOFILE).find? fun fd => ((s.proc p).ofile fd).isNone with
  | none => pure none
  | some fd => do
    setFd p fd (some f)
    pure (some fd)

theorem wp_fdalloc {E : Fault → Prop} {s : State} {p : Pid} {f : FileId}
    {Q : Option Fd → State → Prop} (hnone : (∀ fd, (s.proc p).ofile fd ≠ none) → Q none s)
    (hsome : ∀ fd, (s.proc p).ofile fd = none → Q (some fd) { s with
      proc := update s.proc p { s.proc p with
        ofile := update (s.proc p).ofile fd (some f) } }) :
    wp (fdalloc p f) E Q s := by
  simp only [fdalloc, wp_bind, wp_get]
  cases hfd : (List.finRange NOFILE).find? fun fd => ((s.proc p).ofile fd).isNone with
  | none =>
    refine hnone fun fd hfree => ?_
    refine List.find?_eq_none.mp hfd fd (List.mem_finRange fd) ?_
    rw [hfree]
    rfl
  | some fd =>
    have hfree := List.find?_some hfd
    exact hsome fd (Option.isNone_iff_eq_none.mp hfree)

/-- `argfd` for the process `p`. -/
def argfd (p : Pid) (fd : Int) : Code (Option (Fd × FileId)) := do
  let s ← get
  if h : fd.toNat < NOFILE then
    if fd < 0 then pure none
    else pure (((s.proc p).ofile ⟨fd.toNat, h⟩).map fun f => (⟨fd.toNat, h⟩, f))
  else pure none

/-- `fileread`: the bytes read, as far as the user's buffer is there, are not kept. -/
def fileread (f : FileId) (n : Nat) (mapped : Bool) (driver : Int) : Code Int := do
  let s ← get
  if (s.file f).readable = false then pure (-1)
  else
    match (s.file f).type with
    | .none => kpanic "fileread"
    | .device =>
      if (s.file f).major < 0 ∨ NDEV ≤ (s.file f).major then pure (-1) else pure driver
    | .inode => do
      ilock (s.file f).ip
      let r := ((s.node (s.file f).ip).read (s.file f).off n).length
      if mapped then
        setFile f fun x => { x with off := x.off + r }
        iunlock (s.file f).ip
        pure r
      else
        iunlock (s.file f).ip
        pure (if r = 0 then 0 else -1)

/-- The most that `filewrite` writes in one transaction. -/
def maxChunk : Nat := (10 - 1 - 1 - 2) / 2 * BSIZE

/-- The loop of `filewrite`, with `n` rounds left: whether all of `src` has been written. -/
def filewriteLoop (f : FileId) : Nat → List Byte → Code Bool
  | 0, _ => fault .hang
  | n + 1, src =>
    if src = [] then pure true
    else do
      let s ← get
      let chunk := src.take maxChunk
      beginOp
      ilock (s.file f).ip
      let r ← writei (s.file f).ip true chunk (s.file f).off
      if 0 < r then
        setFile f fun x => { x with off := x.off + r.toNat }
      iunlock (s.file f).ip
      endOp
      if r = chunk.length then filewriteLoop f n (src.drop maxChunk) else pure false

/-- `filewrite` of the bytes `src`. A negative length only gives -1. -/
def filewrite (f : FileId) (src : List Byte) (driver : Int) : Code Int := do
  let s ← get
  if (s.file f).writable = false then pure (-1)
  else
    match (s.file f).type with
    | .none => kpanic "filewrite"
    | .device =>
      if (s.file f).major < 0 ∨ NDEV ≤ (s.file f).major then pure (-1) else pure driver
    | .inode => do
      if ← filewriteLoop f (src.length + 1) src then pure src.length else pure (-1)

/-! ## Making and removing names -/

def dot : Str := [46]

def dotdot : Str := [46, 46]

/-- The part of `create` that makes the entries of a new directory `ip` in `dp`. -/
def linkDots (ip dp : Inum) : Code Bool := do
  if ← dirlink ip dot ip then dirlink ip dotdot dp else pure false

/-- The part of `create` that follows `ialloc`: give the inode its fields and its name. -/
def createIn (dp : Inum) (name : Str) (kind : Kind) (major minor : Int) (ip : Inum) :
    Code (Option Inum) := do
  ilock ip
  setNode ip fun x => { x with major := major, minor := minor, nlink := 1 }
  let made ← if kind = .dir then linkDots ip dp else pure true
  let linked ← if made then dirlink dp name ip else pure false
  if linked then
    if kind = .dir then
      setNode dp fun x => { x with nlink := short (x.nlink + 1) }
    iunlockput dp
    pure (some ip)
  else
    setNode ip fun x => { x with nlink := 0 }
    iunlockput ip
    iunlockput dp
    pure none

/-- `create`: the inode, locked and with a reference. -/
def create (p : Pid) (path : Str) (kind : Kind) (major minor : Int) : Code (Option Inum) := do
  match ← nameiparent p path with
  | none => pure none
  | some (dp, name) => do
    ilock dp
    match ← dirlookup dp name with
    | some (ip, _) => do
      iunlockput dp
      ilock ip
      let s ← get
      if kind = .file ∧ ((s.node ip).kind = .file ∨ (s.node ip).kind = .device) then
        pure (some ip)
      else
        iunlockput ip
        pure none
    | none => do
      match ← ialloc kind with
      | none => do
        iunlockput dp
        pure none
      | some ip => createIn dp name kind major minor ip

/-! ## open -/

/-- The fields of a file that `sys_open` sets. -/
def File.opened (x : File) (node : Node) (ip : Inum) (omode : BitVec 32) : File :=
  let x := if node.kind = .device then { x with type := .device, major := node.major }
    else { x with type := .inode, off := 0 }
  { x with
    ip := ip
    readable := !hasFlag omode O_WRONLY
    writable := hasFlag omode O_WRONLY || hasFlag omode O_RDWR }

theorem File.opened_ref (x : File) (node : Node) (ip : Inum) (omode : BitVec 32) :
    (x.opened node ip omode).ref = x.ref := by
  unfold File.opened
  dsimp only
  split <;> rfl

theorem File.opened_type (x : File) (node : Node) (ip : Inum) (omode : BitVec 32) :
    (x.opened node ip omode).type = if node.kind = .device then .device else .inode := by
  unfold File.opened
  dsimp only
  split <;> rfl

/-- The part of `sys_open` that has the inode, locked. -/
def openInode (p : Pid) (ip : Inum) (omode : BitVec 32) : Code Int := do
  let s ← get
  if (s.node ip).kind = .device ∧ ((s.node ip).major < 0 ∨ NDEV ≤ (s.node ip).major) then
    iunlockput ip
    endOp
    pure (-1)
  else
    match ← filealloc with
    | none => do
      iunlockput ip
      endOp
      pure (-1)
    | some f => do
      match ← fdalloc p f with
      | none => do
        fileclose f
        iunlockput ip
        endOp
        pure (-1)
      | some fd => do
        setFile f fun x => x.opened (s.node ip) ip omode
        if hasFlag omode O_TRUNC ∧ (s.node ip).kind = .file then itrunc ip
        iunlock ip
        endOp
        pure fd

/-- The string in a buffer, if the part that has been written to holds a NUL. -/
def cstring (buf : List Byte) : Option Str :=
  if 0 ∈ buf then some (buf.takeWhile (· ≠ 0)) else none

/-- The loop of `sys_open` over symbolic links. `cnt` is the source's counter and `buf` the part of
`path` that has been written to; more than `MAXPATH` bytes go past its end. The result is locked,
and `none` when `namei` fails. -/
def followLinks (p : Pid) : Nat → Inum → List Byte → Code (Option Inum)
  | 0, _, _ => fault .hang
  | cnt + 1, ip, buf => do
    let s ← get
    if (s.node ip).kind = .symlink ∧ cnt ≠ 0 then
      let content := (s.node ip).read 0 (s.node ip).data.length
      if MAXPATH < content.length then fault .wild
      else
        let buf := overwrite buf 0 content
        iunlockput ip
        match cstring buf with
        | none => fault .wild
        | some path => do
          match ← namei p path with
          | none => pure none
          | some next => do
            ilock next
            followLinks p cnt next buf
    else pure (some ip)

/-- The part of `sys_open` that follows symbolic links, from a locked inode on. -/
def openFollow (p : Pid) (ip : Inum) (path : Str) (omode : BitVec 32) : Code Int := do
  let s ← get
  if hasFlag omode O_NOFOLLOW = false ∧ (s.node ip).kind = .symlink then
    match ← followLinks p 10 ip (path ++ [0]) with
    | none => do
      endOp
      pure (-1)
    | some ip => do
      let s ← get
      if (s.node ip).kind = .symlink then
        iunlockput ip
        endOp
        pure (-1)
      else openInode p ip omode
  else openInode p ip omode

/-- `sys_open` by the process `p`. -/
def sysOpen (p : Pid) (path : Option (List Byte)) (omode : BitVec 32) : Code Int := do
  match argstr path with
  | none => pure (-1)
  | some path => do
    beginOp
    if hasFlag omode O_CREATE then
      match ← create p path .file 0 0 with
      | none => do
        endOp
        pure (-1)
      | some ip => openFollow p ip path omode
    else
      match ← namei p path with
      | none => do
        endOp
        pure (-1)
      | some ip => do
        ilock ip
        let s ← get
        if (s.node ip).kind = .dir ∧ omode ≠ 0 then
          iunlockput ip
          endOp
          pure (-1)
        else openFollow p ip path omode

/-! ## The other calls -/

/-- `sys_read`. -/
def sysRead (p : Pid) (fd : Int) (n : Nat) (mapped : Bool) (driver : Int) : Code Int := do
  match ← argfd p fd with
  | none => pure (-1)
  | some (_, f) => fileread f n mapped driver

/-- `sys_write`. -/
def sysWrite (p : Pid) (fd : Int) (src : List Byte) (driver : Int) : Code Int := do
  match ← argfd p fd with
  | none => pure (-1)
  | some (_, f) => filewrite f src driver

/-- `sys_dup`. -/
def sysDup (p : Pid) (fd : Int) : Code Int := do
  match ← argfd p fd with
  | none => pure (-1)
  | some (_, f) => do
    match ← fdalloc p f with
    | none => pure (-1)
    | some fd => do
      filedup f
      pure fd

/-- `sys_close`. -/
def sysClose (p : Pid) (fd : Int) : Code Int := do
  match ← argfd p fd with
  | none => pure (-1)
  | some (fd, f) => do
    setFd p fd none
    fileclose f
    pure 0

/-- The end of `sys_link` when there is no new name. -/
def unlinkAgain (ip : Inum) : Code Int := do
  ilock ip
  setNode ip fun x => { x with nlink := short (x.nlink - 1) }
  iunlockput ip
  endOp
  pure (-1)

/-- `sys_link`. -/
def sysLink (p : Pid) (old new : Option (List Byte)) : Code Int := do
  match argstr old, argstr new with
  | some old, some new => do
    beginOp
    match ← namei p old with
    | none => do
      endOp
      pure (-1)
    | some ip => do
      ilock ip
      let s ← get
      if (s.node ip).kind = .dir then
        iunlockput ip
        endOp
        pure (-1)
      else
        setNode ip fun x => { x with nlink := short (x.nlink + 1) }
        iunlock ip
        match ← nameiparent p new with
        | none => unlinkAgain ip
        | some (dp, name) => do
          ilock dp
          if ← dirlink dp name ip then
            iunlockput dp
            iput ip
            endOp
            pure 0
          else
            iunlockput dp
            unlinkAgain ip
  | _, _ => pure (-1)

/-- `isdirempty`, or `none` when an entry cannot be read whole. -/
def Node.isdirempty (x : Node) : Option Bool :=
  (scanEntries (fun de => decide (entryInum de ≠ 0))
    ((x.data.length - 2 * DIRENT + DIRENT - 1) / DIRENT) (x.data.drop (2 * DIRENT))
    (2 * DIRENT)).map Option.isNone

/-- The end of `sys_unlink` for a name that cannot be removed. -/
def keepName (dp : Inum) : Code Int := do
  iunlockput dp
  endOp
  pure (-1)

/-- The end of `sys_unlink` that removes the entry at `off` of `dp`, for the inode `ip`. -/
def removeEntry (dp ip : Inum) (off : Nat) : Code Int := do
  let r ← writei dp false (List.replicate DIRENT 0) off
  if r ≠ DIRENT then kpanic "unlink: writei"
  else
    let s ← get
    if (s.node ip).kind = .dir then
      setNode dp fun x => { x with nlink := short (x.nlink - 1) }
    iunlockput dp
    setNode ip fun x => { x with nlink := short (x.nlink - 1) }
    iunlockput ip
    endOp
    pure 0

/-- `sys_unlink`. -/
def sysUnlink (p : Pid) (path : Option (List Byte)) : Code Int := do
  match argstr path with
  | none => pure (-1)
  | some path => do
    beginOp
    match ← nameiparent p path with
    | none => do
      endOp
      pure (-1)
    | some (dp, name) => do
      ilock dp
      if name = dot ∨ name = dotdot then keepName dp
      else
        match ← dirlookup dp name with
        | none => keepName dp
        | some (ip, off) => do
          ilock ip
          let s ← get
          if (s.node ip).nlink < 1 then kpanic "unlink: nlink < 1"
          else if (s.node ip).kind = .dir then
            match (s.node ip).isdirempty with
            | none => kpanic "isdirempty: readi"
            | some false => do
              iunlockput ip
              keepName dp
            | some true => removeEntry dp ip off
          else removeEntry dp ip off

/-- `sys_mkdir` and `sys_mknod`: make an inode, and leave it. -/
def sysMake (p : Pid) (path : Option (List Byte)) (kind : Kind) (major minor : Int) :
    Code Int := do
  beginOp
  match argstr path with
  | none => do
    endOp
    pure (-1)
  | some path => do
    match ← create p path kind major minor with
    | none => do
      endOp
      pure (-1)
    | some ip => do
      iunlockput ip
      endOp
      pure 0

/-- `sys_mkdir`. -/
def sysMkdir (p : Pid) (path : Option (List Byte)) : Code Int := sysMake p path .dir 0 0

/-- `sys_mknod`. -/
def sysMknod (p : Pid) (path : Option (List Byte)) (major minor : Int) : Code Int :=
  sysMake p path .device (short major) (short minor)

/-- `sys_chdir`. -/
def sysChdir (p : Pid) (path : Option (List Byte)) : Code Int := do
  beginOp
  match argstr path with
  | none => do
    endOp
    pure (-1)
  | some path => do
    match ← namei p path with
    | none => do
      endOp
      pure (-1)
    | some ip => do
      ilock ip
      let s ← get
      if (s.node ip).kind ≠ .dir then
        iunlockput ip
        endOp
        pure (-1)
      else
        iunlock ip
        iput (s.proc p).cwd
        endOp
        modify fun s => { s with
          proc := update s.proc p { s.proc p with cwd := ip } }
        pure 0

/-- `symlink`. -/
def symlink (p : Pid) (target path : Str) : Code Int := do
  beginOp
  match ← create p path .symlink 0 0 with
  | none => do
    endOp
    pure (-1)
  | some ip => do
    let r ← writei ip false (target ++ [0]) 0
    if r ≠ (target ++ [0]).length then
      setNode ip fun x => { x with nlink := 0 }
      iunlockput ip
      endOp
      pure (-1)
    else
      iunlockput ip
      endOp
      pure 0

/-- `sys_symlink`. -/
def sysSymlink (p : Pid) (target path : Option (List Byte)) : Code Int :=
  match argstr target, argstr path with
  | some target, some path => symlink p target path
  | _, _ => pure (-1)

/-! ## The system -/

/-- The system calls. -/
inductive Call where
  | open (path : Option (List Byte)) (omode : BitVec 32)
  | read (fd : Int) (n : Nat) (mapped : Bool) (driver : Int)
  | write (fd : Int) (src : List Byte) (driver : Int)
  | dup (fd : Int)
  | close (fd : Int)
  | link (old new : Option (List Byte))
  | unlink (path : Option (List Byte))
  | mkdir (path : Option (List Byte))
  | mknod (path : Option (List Byte)) (major minor : Int)
  | chdir (path : Option (List Byte))
  | symlink (target path : Option (List Byte))

/-- A system call by the process `p`. -/
def syscall (p : Pid) : Call → Code Int
  | .open path omode => sysOpen p path omode
  | .read fd n mapped driver => sysRead p fd n mapped driver
  | .write fd src driver => sysWrite p fd src driver
  | .dup fd => sysDup p fd
  | .close fd => sysClose p fd
  | .link old new => sysLink p old new
  | .unlink path => sysUnlink p path
  | .mkdir path => sysMkdir p path
  | .mknod path major minor => sysMknod p path major minor
  | .chdir path => sysChdir p path
  | .symlink target path => sysSymlink p target path

/-- A call by a process, with what the calls of `writei` it makes will find. -/
structure Event where
  p : Pid
  call : Call
  grants : List Grant := []

/-- One event. -/
def step (e : Event) : Code Int := do
  modify fun s => { s with grants := e.grants }
  syscall e.p e.call

end Xv6.Fs.Files
