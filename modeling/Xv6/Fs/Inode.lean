import Xv6.Lib.Bytes
import Xv6.Lib.Run

/-!
# Inodes, directories and paths

The inode layer of `fs.c` above the blocks: an inode has its contents as a list of bytes, and the
copy in the inode table is the one on disk, since every change of an in-memory inode is followed
by `iupdate` before the lock is given back. What remains of the table is what callers can see of
it: reference counts, which entries are filled in from disk, which are locked, and how many
entries are in use. There is one device.

One process runs at a time. Waiting for a lock that nobody else can give back is a `hang`.
-/

namespace Xv6.Fs.Files

open Function

def BSIZE : Nat := 1024
def DIRSIZ : Nat := 14
def MAXPATH : Nat := 128
def NINODE : Nat := 50
def NFILE : Nat := 100
def NOFILE : Nat := 16
def NDEV : Int := 10
def ROOTINO : Nat := 1
def NPROC : Nat := 64

/-- `MAXFILE`, in blocks: direct, indirect and doubly indirect. -/
def MAXFILE : Nat := 11 + 256 + 256 * 256

/-- The size of a `struct dirent`. -/
def DIRENT : Nat := 16

/-- An inode number; also stands for the `struct inode *` that `iget` gives for it. -/
abbrev Inum := Nat

/-- A NUL-terminated string, without the NUL. -/
abbrev Str := List Byte

/-- The type of an inode; `free` is type 0. -/
inductive Kind where
  | free
  | dir
  | file
  | device
  | symlink
  deriving DecidableEq, Repr

/-- `struct dinode`, with the contents in place of the block addresses. -/
structure Node where
  kind : Kind := .free
  major : Int := 0
  minor : Int := 0
  nlink : Int := 0
  data : List Byte := []
  deriving DecidableEq, Repr

/-- A file descriptor. -/
abbrev Fd := Fin NOFILE

/-- A `struct file *`: an entry of `ftable`. -/
abbrev FileId := Fin NFILE

/-- The type of an open file; there are no pipes here. -/
inductive FileKind where
  | none
  | inode
  | device
  deriving DecidableEq, Repr

/-- `struct file`. -/
structure File where
  type : FileKind := .none
  ref : Nat := 0
  readable : Bool := false
  writable : Bool := false
  ip : Inum := 0
  off : Nat := 0
  major : Int := 0
  deriving DecidableEq, Repr

/-- A slot of the process table. -/
abbrev Pid := Fin NPROC

instance : NeZero NPROC := ⟨by decide⟩

/-- The part of `struct proc` that concerns files. -/
structure Process where
  cwd : Inum := ROOTINO
  ofile : Fd → Option FileId := fun _ => none

/-- What decides how far a `writei` gets: how many blocks `balloc` still finds for it, how many
bytes of a user's buffer can be read, and how many more have reached the block in the cache when
the copy fails. -/
structure Grant where
  blocks : Nat := MAXFILE
  copied : Nat := 2 ^ 32
  spilt : Nat := 0
  deriving DecidableEq, Repr

/-- The file system. `active` is the number of entries of the inode table with `ref > 0`, `ops`
is `log.outstanding`, and `grants` holds what the coming calls of `writei` will find. -/
structure State where
  node : Inum → Node
  ref : Inum → Nat
  valid : Inum → Bool
  locked : Inum → Bool
  active : Nat
  ninodes : Nat
  file : FileId → File
  proc : Pid → Process
  ops : Nat
  grants : List Grant

/-- The state on these nodes before the first call: every process is in the root directory. -/
def atRest (node : Inum → Node) : State where
  node := node
  ref := fun i => if i = ROOTINO then NPROC else 0
  valid := fun _ => false
  locked := fun _ => false
  active := 1
  ninodes := 10
  file := fun _ => {}
  proc := fun _ => {}
  ops := 0
  grants := []

/-- Kernel code. -/
abbrev Code (α : Type) := Kernel State α

/-- The value of a `short` after an assignment of `i`. -/
def short (i : Int) : Int := i.bmod (2 ^ 16)

/-- Assign to fields of an inode. -/
def setNode (i : Inum) (f : Node → Node) : Code Unit :=
  modify fun s => { s with node := update s.node i (f (s.node i)) }

/-- `begin_op`. -/
def beginOp : Code Unit := modify fun s => { s with ops := s.ops + 1 }

/-- `end_op`. -/
def endOp : Code Unit := modify fun s => { s with ops := s.ops - 1 }

/-! ## The inode table -/

/-- `iget`. -/
def iget (i : Inum) : Code Unit := do
  let s ← get
  if 0 < s.ref i then set { s with ref := update s.ref i (s.ref i + 1) }
  else if NINODE ≤ s.active then kpanic "iget: no inodes"
  else set { s with
    ref := update s.ref i 1, valid := update s.valid i false,
    active := s.active + 1 }

/-- `idup`. -/
def idup (i : Inum) : Code Unit :=
  modify fun s => { s with ref := update s.ref i (s.ref i + 1) }

/-- `ilock`. -/
def ilock (i : Inum) : Code Unit := do
  let s ← get
  if s.ref i < 1 then kpanic "ilock"
  else if s.locked i then fault .hang
  else if s.valid i = false ∧ (s.node i).kind = .free then kpanic "ilock: no type"
  else set { s with
    locked := update s.locked i true, valid := update s.valid i true }

/-- `iunlock`. -/
def iunlock (i : Inum) : Code Unit := do
  let s ← get
  if s.locked i = false ∨ s.ref i < 1 then kpanic "iunlock"
  else set { s with locked := update s.locked i false }

/-- `itrunc`. -/
def itrunc (i : Inum) : Code Unit := setNode i fun x => { x with data := [] }

/-- The last statement of `iput`. -/
def dropRef (i : Inum) : Code Unit :=
  modify fun s => { s with
    ref := update s.ref i (s.ref i - 1)
    active := if s.ref i = 1 then s.active - 1 else s.active }

/-- `iput`. -/
def iput (i : Inum) : Code Unit := do
  let s ← get
  if s.ref i = 1 ∧ s.valid i = true ∧ (s.node i).nlink = 0 then
    if s.locked i then fault .hang
    else
      itrunc i
      setNode i fun x => { x with kind := .free }
      modify fun s => { s with valid := update s.valid i false }
      dropRef i
  else dropRef i

/-- `iunlockput`. -/
def iunlockput (i : Inum) : Code Unit := do
  iunlock i
  iput i

/-- `ialloc`: the first free inode, from 1 on. -/
def ialloc (kind : Kind) : Code (Option Inum) := do
  let s ← get
  match (List.range' 1 (s.ninodes - 1)).find? fun i => decide ((s.node i).kind = .free) with
  | none => pure none
  | some i => do
    setNode i fun _ => { kind := kind }
    iget i
    pure (some i)

/-! ## Contents -/

/-- `readi` of `n` bytes at `off`: the bytes it copies. -/
def Node.read (x : Node) (off n : Nat) : List Byte :=
  if x.data.length < off ∨ 2 ^ 32 ≤ off + n then [] else (x.data.drop off).take n

/-- The bytes of `old` with those from `off` on replaced by `new`. -/
def overwrite (old : List Byte) (off : Nat) (new : List Byte) : List Byte :=
  old.take off ++ new ++ old.drop (off + new.length)

/-- How many of `n` bytes at `off` a `writei` gets to write. The blocks that hold bytes of the
file are there already, and a copy from the kernel does not fail. -/
def Grant.total (g : Grant) (user : Bool) (size off n : Nat) : Nat :=
  let room := ((size + BSIZE - 1) / BSIZE + g.blocks) * BSIZE - off
  min n (min room (if user then g.copied else n))

/-- `writei` of the bytes `src` at `off`. Where the copy fails, bytes that have reached the block
in the cache are seen as far as the file goes. -/
def writei (i : Inum) (user : Bool) (src : List Byte) (off : Nat) : Code Int := do
  let s ← get
  let size := (s.node i).data.length
  if size < off ∨ 2 ^ 32 ≤ off + src.length then pure (-1)
  else if MAXFILE * BSIZE < off + src.length then pure (-1)
  else
    let g := s.grants.headD {}
    let tot := g.total user size off src.length
    let spilt := if user ∧ tot < src.length then g.spilt else 0
    set { s with grants := s.grants.tail }
    setNode i fun x => { x with
      data := (overwrite x.data off (src.take (tot + spilt))).take (max size (off + tot)) }
    pure tot

/-- A `writei` changes the bytes of its inode, and returns how many have been written. -/
theorem wp_writei {E : Fault → Prop} {s : State} {i : Inum} {user : Bool} {src : List Byte}
    {off : Nat} {Q : Int → State → Prop} (hfail : Q (-1) s)
    (hwrite : ∀ tot spilt, (user = false → spilt = 0) → off ≤ (s.node i).data.length →
      tot ≤ src.length → Q (tot : Nat) { s with
        grants := s.grants.tail
        node := update s.node i { s.node i with
          data := (overwrite (s.node i).data off (src.take (tot + spilt))).take
            (max (s.node i).data.length (off + tot)) } }) :
    wp (writei i user src off) E Q s := by
  simp only [writei, wp_bind, wp_get]
  split
  next => exact hfail
  next hoff =>
    split
    next => exact hfail
    next =>
      simp only [setNode, wp_bind, wp_set, wp_modify, wp_pure]
      refine hwrite _ _ (fun huser => ?_) (by omega) (Nat.min_le_left _ _)
      rw [if_neg (by simp [huser])]

/-! ## Directories -/

/-- The `inum` of a `struct dirent`. -/
def entryInum (de : List Byte) : Inum := (de.getD 0 0).toNat + 256 * (de.getD 1 0).toNat

/-- The name of a `struct dirent`, as `namecmp` sees it. -/
def entryName (de : List Byte) : Str := (de.drop 2).takeWhile (· ≠ 0)

/-- The `struct dirent` that `dirlink` writes. -/
def dirent (name : Str) (inum : Inum) : List Byte :=
  BitVec.ofNat 8 inum :: BitVec.ofNat 8 (inum / 256) ::
    (name.take DIRSIZ ++ List.replicate (DIRSIZ - name.length) 0)

/-- The loops over the entries of a directory, with `n` rounds left: the offset and the inode
number of the first entry that `found` accepts, or `none` when an entry cannot be read whole. -/
def scanEntries (found : List Byte → Bool) :
    Nat → List Byte → Nat → Option (Option (Nat × Inum))
  | 0, _, _ => some none
  | n + 1, data, off =>
    let de := data.take DIRENT
    if de.length ≠ DIRENT then none
    else if found de then some (some (off, entryInum de))
    else scanEntries found n (data.drop DIRENT) (off + DIRENT)

/-- The scan of a whole directory. -/
def Node.scan (x : Node) (found : List Byte → Bool) : Option (Option (Nat × Inum)) :=
  scanEntries found ((x.data.length + DIRENT - 1) / DIRENT) x.data 0

/-- An entry in use with this name. -/
def named (name : Str) (de : List Byte) : Bool :=
  decide (entryInum de ≠ 0) && decide (entryName de = name)

/-- `dirlookup`: the inode, with a reference, and the offset of its entry. -/
def dirlookup (dp : Inum) (name : Str) : Code (Option (Inum × Nat)) := do
  let s ← get
  if (s.node dp).kind ≠ .dir then kpanic "dirlookup not DIR"
  else
    match (s.node dp).scan (named name) with
    | none => kpanic "dirlookup read"
    | some none => pure none
    | some (some (off, i)) => do
      iget i
      pure (some (i, off))

/-- `dirlink`: whether it succeeds. -/
def dirlink (dp : Inum) (name : Str) (inum : Inum) : Code Bool := do
  match ← dirlookup dp name with
  | some (ip, _) => do
    iput ip
    pure false
  | none => do
    let s ← get
    match (s.node dp).scan fun de => decide (entryInum de = 0) with
    | none => kpanic "dirlink read"
    | some slot => do
      let off := (slot.map Prod.fst).getD (s.node dp).data.length
      let r ← writei dp false (dirent name inum) off
      pure (decide (r = DIRENT))

/-! ## Paths -/

def slash : Byte := 47

/-- `skipelem`: the next element and what follows it. -/
def skipelem (path : Str) : Option (Str × Str) :=
  match path.dropWhile (· = slash) with
  | [] => none
  | path@(_ :: _) =>
    some ((path.takeWhile (· ≠ slash)).take DIRSIZ,
      (path.dropWhile (· ≠ slash)).dropWhile (· = slash))

/-- The loop of `namex`, with `n` rounds left. -/
def namexLoop (parent : Bool) : Nat → Inum → Str → Code (Option (Inum × Str))
  | 0, _, _ => fault .hang
  | n + 1, ip, path =>
    match skipelem path with
    | none =>
      if parent then do
        iput ip
        pure none
      else pure (some (ip, []))
    | some (name, rest) => do
      ilock ip
      let s ← get
      if (s.node ip).kind ≠ .dir then
        iunlockput ip
        pure none
      else if parent ∧ rest = [] then
        iunlock ip
        pure (some (ip, name))
      else
        match ← dirlookup ip name with
        | none => do
          iunlockput ip
          pure none
        | some (next, _) => do
          iunlockput ip
          namexLoop parent n next rest

/-- `namex` for the process `p`. An element takes at least one byte of the path. -/
def namex (p : Pid) (path : Str) (parent : Bool) : Code (Option (Inum × Str)) := do
  let s ← get
  if path.head? = some slash then
    iget ROOTINO
    namexLoop parent (path.length + 1) ROOTINO path
  else
    idup (s.proc p).cwd
    namexLoop parent (path.length + 1) (s.proc p).cwd path

/-- `namei`. -/
def namei (p : Pid) (path : Str) : Code (Option Inum) := do
  return (← namex p path false).map Prod.fst

/-- `nameiparent`: the directory, and the last element. -/
def nameiparent (p : Pid) (path : Str) : Code (Option (Inum × Str)) := namex p path true

end Xv6.Fs.Files
