import Xv6.Fs.Log
import Xv6.Lib.Run

/-!
# Blocks and inodes

The part of `virtual memory & file system/kernel/fs.c` that keeps inodes and their contents in
blocks: `balloc`, `bfree`, `ialloc`, `iupdate`, `bmap`, `itrunc`, `readi` and `writei`, with
`log_write` of `log.c` and `copyin` of `vm.c`. The state is what one process sees of the file
system: the contents of every block as `bread` gives them, the disk below, the inodes, the buffers
the process holds and the blocks listed in the log. A buffer that the process holds already cannot
be had a second time: the `acquiresleep` in `bget` waits for the process itself. A block that has
no buffer yet needs one that is out of use, and `log_write` keeps its buffer in use by `bpin`.
-/

namespace Xv6.Fs.Block

open Function (update)

def BSIZE : Nat := 1024
def NDIRECT : Nat := 11
def NIRECT : Nat := 12
def NINDIRECT : Nat := BSIZE / 4
def NDINDIRECT : Nat := NINDIRECT * NINDIRECT
def MAXFILE : Nat := NDIRECT + NINDIRECT + NDINDIRECT

/-- Bitmap bits per block. -/
def BPB : Nat := BSIZE * 8

/-- Inodes per block: a `struct dinode` has 64 bytes. -/
def IPB : Nat := BSIZE / 64

def PGSIZE : Nat := 4096

/-- The buffers of the cache. -/
def NBUF : Nat := MAXOPBLOCKS * 3

/-- The fields of `struct superblock` that are read here. -/
structure Superblock where
  size : Nat
  ninodes : Nat
  inodestart : Nat
  bmapstart : Nat

/-- `struct dinode`, and the part of `struct inode` that is a copy of it. The addresses are those
of the direct blocks, of the indirect block and of the doubly indirect block. -/
structure Inode where
  type : BitVec 16
  major : BitVec 16
  minor : BitVec 16
  nlink : BitVec 16
  size : BitVec 32
  addrs : Fin (NDIRECT + 2) → BlockNo

/-- The number of an inode. -/
abbrev Inum := Nat

/-- What a process sees of the file system. `block` has the contents of the buffers, and of the
disk where there is none; `inode` has the in-memory copies; `log` lists the blocks of the
transaction, `logsize` is `log.size` and `ops` is `log.outstanding`; `others` lists the blocks
whose buffers other processes use. -/
structure State where
  block : BlockNo → Bytes
  disk : Disk
  inode : Inum → Inode
  held : List BlockNo
  log : List BlockNo
  logsize : Nat
  ops : Nat
  others : List BlockNo := []

/-- Code of the block layer. -/
abbrev Code (α : Type) := Kernel State α

/-! ## Buffers -/

/-- The blocks whose buffers are in use. Those in the log are pinned. -/
def State.inUse (s : State) : List BlockNo := s.held ++ s.log ++ s.others

/-- Block `b` is in no buffer that is in use, and no buffer is out of use. -/
def State.NoBuffer (s : State) (b : BlockNo) : Prop :=
  b ∉ s.inUse ∧ NBUF ≤ s.inUse.toFinset.card

instance (s : State) (b : BlockNo) : Decidable (s.NoBuffer b) :=
  inferInstanceAs (Decidable (_ ∧ _))

/-- `bread`, with the `bget` of `bio.c`. -/
def bread (b : BlockNo) : Code Unit := do
  let s ← get
  if b ∈ s.held then fault .hang
  else if s.NoBuffer b then kpanic "bget: no buffers"
  else set { s with held := b :: s.held }

/-- `brelse`. -/
def brelse (b : BlockNo) : Code Unit := do
  let s ← get
  if b ∈ s.held then set { s with held := s.held.erase b } else kpanic "brelse"

/-- Change the data of a buffer. -/
def setData (b : BlockNo) (f : Bytes → Bytes) : Code Unit :=
  modify fun s => { s with block := update s.block b (f (s.block b)) }

/-- The log has no room for another block. -/
def State.LogFull (s : State) : Prop := LOGSIZE ≤ s.log.length ∨ s.logsize - 1 ≤ s.log.length

instance (s : State) : Decidable s.LogFull := inferInstanceAs (Decidable (_ ∨ _))

/-- The blocks in the log with `b`, which is listed once. -/
def listed (b : BlockNo) (log : List BlockNo) : List BlockNo := if b ∈ log then log else log ++ [b]

/-- `log_write`. A block that it lists is pinned. -/
def logWrite (b : BlockNo) : Code Unit := do
  let s ← get
  if s.LogFull then kpanic "too big a transaction"
  else if s.ops < 1 then kpanic "log_write outside of trans"
  else set { s with log := listed b s.log }

/-- `bzero`. -/
def bzero (b : BlockNo) : Code Unit := do
  bread b
  setData b fun _ _ => 0
  logWrite b
  brelse b

/-! ## The free map -/

/-- Bit `i` of a block of the free map. -/
def bit (data : Bytes) (i : Nat) : Bool := (data (i / 8)).getLsbD (i % 8)

/-- `data[i/8] |= m` or `data[i/8] &= ~m`, for the mask `m` of bit `i`. -/
def setBit (data : Bytes) (i : Nat) (on : Bool) : Bytes :=
  update data (i / 8)
    (if on then data (i / 8) ||| 1#8 <<< (i % 8) else data (i / 8) &&& ~~~(1#8 <<< (i % 8)))

/-- `BBLOCK(b, sb)`. -/
def bblock (sb : Superblock) (b : Nat) : BlockNo := BitVec.ofNat 32 (b / BPB + sb.bmapstart)

/-- The inner loop of `balloc`: the first of `n` bits that is clear. -/
def firstClear (data : Bytes) (n : Nat) : Option Nat := (List.range n).find? fun bi => !bit data bi

/-- The loop of `balloc` over the blocks of the free map, at `b` with `n` of them left. -/
def ballocFrom (sb : Superblock) : Nat → Nat → Code BlockNo
  | 0, _ => pure 0
  | n + 1, b => do
    bread (bblock sb b)
    let s ← get
    match firstClear (s.block (bblock sb b)) (min BPB (sb.size - b)) with
    | some bi => do
      setData (bblock sb b) fun data => setBit data bi true
      logWrite (bblock sb b)
      brelse (bblock sb b)
      bzero (BitVec.ofNat 32 (b + bi))
      pure (BitVec.ofNat 32 (b + bi))
    | none => do
      brelse (bblock sb b)
      ballocFrom sb n (b + BPB)

/-- `balloc`; 0 if no block is free. -/
def balloc (sb : Superblock) : Code BlockNo := ballocFrom sb ((sb.size + BPB - 1) / BPB) 0

/-- `bfree`. -/
def bfree (sb : Superblock) (b : BlockNo) : Code Unit := do
  bread (bblock sb b.toNat)
  let s ← get
  if bit (s.block (bblock sb b.toNat)) (b.toNat % BPB) = false then kpanic "freeing free block"
  else
    setData (bblock sb b.toNat) fun data => setBit data (b.toNat % BPB) false
    logWrite (bblock sb b.toNat)
    brelse (bblock sb b.toNat)

/-! ## Inodes on disk -/

/-- `IBLOCK(i, sb)`. -/
def iblock (sb : Superblock) (i : Inum) : BlockNo := BitVec.ofNat 32 (i / IPB + sb.inodestart)

/-- The `k`-th `struct dinode` of a block. -/
def dinode (data : Bytes) (k : Nat) : Inode where
  type := get16 data (64 * k)
  major := get16 data (64 * k + 2)
  minor := get16 data (64 * k + 4)
  nlink := get16 data (64 * k + 6)
  size := get32 data (64 * k + 8)
  addrs j := get32 data (64 * k + 12 + 4 * j)

/-- The `memmove` of `iupdate`: 52 bytes of addresses. -/
def putAddrs (data : Bytes) (off : Nat) (addrs : Fin (NDIRECT + 2) → BlockNo) : Bytes :=
  fun n => if h : off ≤ n ∧ n < off + 4 * (NDIRECT + 2) then
    byteAt (addrs ⟨(n - off) / 4, by omega⟩) ((n - off) % 4) else data n

/-- Write the `k`-th `struct dinode` of a block. -/
def putDinode (data : Bytes) (k : Nat) (x : Inode) : Bytes :=
  let data := put16 data (64 * k) x.type
  let data := put16 data (64 * k + 2) x.major
  let data := put16 data (64 * k + 4) x.minor
  let data := put16 data (64 * k + 6) x.nlink
  let data := put32 data (64 * k + 8) x.size
  putAddrs data (64 * k + 12) x.addrs

/-- Assign to fields of an in-memory inode. -/
def setInode (i : Inum) (f : Inode → Inode) : Code Unit :=
  modify fun s => { s with inode := update s.inode i (f (s.inode i)) }

/-- `iupdate`. -/
def iupdate (sb : Superblock) (i : Inum) : Code Unit := do
  bread (iblock sb i)
  let s ← get
  setData (iblock sb i) fun data => putDinode data (i % IPB) (s.inode i)
  logWrite (iblock sb i)
  brelse (iblock sb i)

/-- The part of `ilock` that fills in the inode. -/
def readInode (sb : Superblock) (i : Inum) : Code Unit := do
  bread (iblock sb i)
  let s ← get
  setInode i fun _ => dinode (s.block (iblock sb i)) (i % IPB)
  brelse (iblock sb i)
  if (dinode (s.block (iblock sb i)) (i % IPB)).type = 0 then kpanic "ilock: no type"

/-! ## `bmap` -/

/-- Assign to `ip->addrs[k]`. -/
def setAddr (i : Inum) (k : Fin (NDIRECT + 2)) (a : BlockNo) : Code Unit :=
  setInode i fun x => { x with addrs := update x.addrs k a }

/-- Entry `k` of a block of addresses. -/
def entry (data : Bytes) (k : Nat) : BlockNo := get32 data (4 * k)

section Alloc

-- so that it can be said of `readi` that it calls neither `balloc` nor `log_write`
variable (alloc : Code BlockNo) (save : BlockNo → Code Unit)

/-- The address in `ip->addrs[k]`, after an allocation if there is none; 0 if that fails. -/
def addrOfWith (i : Inum) (k : Fin (NDIRECT + 2)) : Code BlockNo := do
  let s ← get
  if (s.inode i).addrs k = 0 then
    let a ← alloc
    if a = 0 then pure 0
    else
      setAddr i k a
      pure a
  else pure ((s.inode i).addrs k)

/-- The address in entry `k` of the block of addresses `t`, after an allocation if there is none; 0
if that fails. -/
def lastEntryWith (t : BlockNo) (k : Nat) : Code BlockNo := do
  bread t
  let s ← get
  if entry (s.block t) k = 0 then
    let a ← alloc
    if a ≠ 0 then
      setData t fun data => put32 data (4 * k) a
      save t
    brelse t
    pure a
  else
    brelse t
    pure (entry (s.block t) k)

/-- The same for the doubly indirect block. If the allocation fails it returns without `brelse`. -/
def firstEntryWith (t : BlockNo) (k : Nat) : Code BlockNo := do
  bread t
  let s ← get
  if entry (s.block t) k = 0 then
    let a ← alloc
    if a = 0 then pure 0
    else
      setData t fun data => put32 data (4 * k) a
      save t
      brelse t
      pure a
  else
    brelse t
    pure (entry (s.block t) k)

theorem lt_addrs {bn : Nat} (h : bn < NDIRECT) : bn < NDIRECT + 2 := by omega

/-- `ip->addrs[NDIRECT]`. -/
def single : Fin (NDIRECT + 2) := ⟨NDIRECT, by decide⟩

/-- `ip->addrs[NIRECT]`. -/
def double : Fin (NDIRECT + 2) := ⟨NIRECT, by decide⟩

/-- `bmap`, with `alloc` for `balloc` and `save` for `log_write`. -/
def bmapWith (i : Inum) (bn : Nat) : Code BlockNo :=
  if h : bn < NDIRECT then addrOfWith alloc i ⟨bn, lt_addrs h⟩
  else if bn - NDIRECT < NINDIRECT then do
    let t ← addrOfWith alloc i single
    if t = 0 then pure 0 else lastEntryWith alloc save t (bn - NDIRECT)
  else if bn - NDIRECT - NINDIRECT < NDINDIRECT then do
    let t ← addrOfWith alloc i double
    if t = 0 then pure 0
    else do
      let t ← firstEntryWith alloc save t ((bn - NDIRECT - NINDIRECT) / 256)
      if t = 0 then pure 0
      else lastEntryWith alloc save t ((bn - NDIRECT - NINDIRECT) % 256)
  else kpanic "bmap: out of range"

end Alloc

/-- `addrOfWith`, as `bmap` calls it. -/
def addrOf (sb : Superblock) (i : Inum) (k : Fin (NDIRECT + 2)) : Code BlockNo :=
  addrOfWith (balloc sb) i k

/-- `lastEntryWith`, as `bmap` calls it. -/
def lastEntry (sb : Superblock) (t : BlockNo) (k : Nat) : Code BlockNo :=
  lastEntryWith (balloc sb) logWrite t k

/-- `firstEntryWith`, as `bmap` calls it. -/
def firstEntry (sb : Superblock) (t : BlockNo) (k : Nat) : Code BlockNo :=
  firstEntryWith (balloc sb) logWrite t k

/-- `bmap`. -/
def bmap (sb : Superblock) (i : Inum) (bn : Nat) : Code BlockNo :=
  bmapWith (balloc sb) logWrite i bn

/-! ## `itrunc` -/

/-- Free a block of addresses, after `free` of every address in it. -/
def freeTable (sb : Superblock) (free : BlockNo → Code Unit) (t : BlockNo) : Code Unit := do
  bread t
  loop NINDIRECT fun j => do
    let s ← get
    if entry (s.block t) j ≠ 0 then free (entry (s.block t) j)
  brelse t
  bfree sb t

/-- Free what `ip->addrs[k]` leads to, if anything. -/
def freeAddr (i : Inum) (free : BlockNo → Code Unit) (k : Fin (NDIRECT + 2)) : Code Unit := do
  let s ← get
  if (s.inode i).addrs k ≠ 0 then
    free ((s.inode i).addrs k)
    setAddr i k 0

/-- `itrunc`. -/
def itrunc (sb : Superblock) (i : Inum) : Code Unit := do
  forEach NDIRECT fun k => freeAddr i (bfree sb) (k.castAdd 2)
  freeAddr i (freeTable sb (bfree sb)) single
  freeAddr i (freeTable sb (freeTable sb (bfree sb))) double
  setInode i fun x => { x with size := 0 }
  iupdate sb i

/-- `iput`, when this is the last reference to a valid inode. -/
def iput (sb : Superblock) (i : Inum) : Code Unit := do
  let s ← get
  if (s.inode i).nlink = 0 then
    itrunc sb i
    setInode i fun x => { x with type := 0 }
    iupdate sb i

/-- The loop of `ialloc`, at `inum` with `n` inodes left; 0 if no inode is free. -/
def iallocFrom (sb : Superblock) (type : BitVec 16) : Nat → Inum → Code Inum
  | 0, _ => pure 0
  | n + 1, inum => do
    bread (iblock sb inum)
    let s ← get
    if (dinode (s.block (iblock sb inum)) (inum % IPB)).type = 0 then
      setData (iblock sb inum) fun data =>
        putDinode data (inum % IPB) ⟨type, 0, 0, 0, 0, fun _ => 0⟩
      logWrite (iblock sb inum)
      brelse (iblock sb inum)
      pure inum
    else
      brelse (iblock sb inum)
      iallocFrom sb type n (inum + 1)

/-- `ialloc`. -/
def ialloc (sb : Superblock) (type : BitVec 16) : Code Inum :=
  iallocFrom sb type (sb.ninodes - 1) 1

/-! ## `readi` and `writei` -/

/-- User memory, as `copyin` reads it: `mapped` holds of the addresses of pages that `walkaddr`
finds. -/
structure User where
  byte : BitVec 64 → Byte
  mapped : BitVec 64 → Bool

/-- `PGROUNDDOWN`. -/
def pageOf (va : BitVec 64) : BitVec 64 := va - BitVec.ofNat 64 (va.toNat % PGSIZE)

/-- `memmove` of `n` bytes. -/
def move (data : Bytes) (off n : Nat) (src : Nat → Byte) : Bytes :=
  fun k => if off ≤ k ∧ k < off + n then src (k - off) else data k

/-- `copyin` of `len` bytes at `srcva` to offset `off` of a buffer, with at most `n` rounds of the
loop: the buffer, and whether it returns 0. -/
def copyin (mem : User) : Nat → Bytes → Nat → BitVec 64 → Nat → Bytes × Bool
  | 0, data, _, _, _ => (data, true)
  | n + 1, data, off, srcva, len =>
    if len = 0 then (data, true)
    else if mem.mapped (pageOf srcva) = false then (data, false)
    else
      let m := min (PGSIZE - srcva.toNat % PGSIZE) len
      copyin mem n (move data off m fun k => mem.byte (srcva + BitVec.ofNat 64 k)) (off + m)
        (pageOf srcva + BitVec.ofNat 64 PGSIZE) (len - m)

/-- Where `writei` takes its bytes from: `user_src` and `src`. -/
inductive Source where
  | kernel (src : Nat → Byte)
  | user (mem : User) (src : BitVec 64)

/-- `either_copyin` of `m` bytes from `src + tot` to offset `off` of a buffer. -/
def eitherCopyin (src : Source) (data : Bytes) (off tot m : Nat) : Bytes × Bool :=
  match src with
  | .kernel src => (move data off m fun k => src (tot + k), true)
  | .user mem src => copyin mem m data off (src + BitVec.ofNat 64 tot) m

/-- The loop of `writei`, with at most `rounds` rounds to go: `tot`. -/
def writeLoop (sb : Superblock) (i : Inum) (src : Source) (n : Nat) :
    Nat → Nat → Nat → Code Nat
  | 0, tot, _ => pure tot
  | rounds + 1, tot, off =>
    if tot < n then do
      let addr ← bmap sb i (off / BSIZE)
      if addr = 0 then pure tot
      else do
        bread addr
        let s ← get
        let m := min (n - tot) (BSIZE - off % BSIZE)
        let copied := eitherCopyin src (s.block addr) (off % BSIZE) tot m
        setData addr fun _ => copied.1
        if copied.2 then
          logWrite addr
          brelse addr
          writeLoop sb i src n rounds (tot + m) (off + m)
        else
          brelse addr
          pure tot
    else pure tot

/-- `writei`. -/
def writei (sb : Superblock) (i : Inum) (src : Source) (off n : BitVec 32) : Code Int := do
  let s ← get
  if (s.inode i).size < off ∨ off + n < off then pure (-1)
  else if MAXFILE * BSIZE < (off + n).toNat then pure (-1)
  else
    let tot ← writeLoop sb i src n.toNat n.toNat 0 off.toNat
    let s ← get
    if (s.inode i).size.toNat < off.toNat + tot then
      setInode i fun x => { x with size := BitVec.ofNat 32 (off.toNat + tot) }
    iupdate sb i
    pure tot

/-- The loop of `readi`, with `find` for `bmap` and at most `rounds` rounds to go: `tot`, and the
bytes copied so far. `copyout tot m` says whether `either_copyout` can copy `m` bytes to
`dst + tot`. -/
def readLoop (find : Nat → Code BlockNo) (copyout : Nat → Nat → Bool) (n : Nat) :
    Nat → Nat → Nat → List Byte → Code (Int × List Byte)
  | 0, tot, _, bytes => pure (tot, bytes)
  | rounds + 1, tot, off, bytes =>
    if tot < n then do
      let addr ← find (off / BSIZE)
      if addr = 0 then pure (tot, bytes)
      else do
        bread addr
        let s ← get
        let m := min (n - tot) (BSIZE - off % BSIZE)
        if copyout tot m then
          brelse addr
          readLoop find copyout n rounds (tot + m) (off + m)
            (bytes ++ (List.range m).map fun k => s.block addr (off % BSIZE + k))
        else
          brelse addr
          pure (-1, bytes)
    else pure (tot, bytes)

/-- `readi`, with `alloc` for `balloc` and `save` for `log_write`: what it returns, and the bytes it
copies. -/
def readiWith (alloc : Code BlockNo) (save : BlockNo → Code Unit) (i : Inum)
    (copyout : Nat → Nat → Bool) (off n : BitVec 32) : Code (Int × List Byte) := do
  let s ← get
  if (s.inode i).size < off ∨ off + n < off then pure (0, [])
  else
    let n := if (s.inode i).size < off + n then (s.inode i).size - off else n
    readLoop (bmapWith alloc save i) copyout n.toNat n.toNat 0 off.toNat []

/-- `readi`. -/
def readi (sb : Superblock) (i : Inum) (copyout : Nat → Nat → Bool) (off n : BitVec 32) :
    Code (Int × List Byte) :=
  readiWith (balloc sb) logWrite i copyout off n

/-! ## What `balloc` does -/

variable {sb : Superblock} {s s' : State} {b : BlockNo} {i : Inum} {bn : Nat} {E : Fault → Prop}

/-- The search of `balloc`, without the buffers. -/
def freeFrom (sb : Superblock) (block : BlockNo → Bytes) : Nat → Nat → Option Nat
  | 0, _ => none
  | n + 1, b =>
    match firstClear (block (bblock sb b)) (min BPB (sb.size - b)) with
    | some bi => some (b + bi)
    | none => freeFrom sb block n (b + BPB)

/-- The first block that is free. -/
def firstFree (sb : Superblock) (block : BlockNo → Bytes) : Option Nat :=
  freeFrom sb block ((sb.size + BPB - 1) / BPB) 0

/-- The blocks once the free block `a` is allocated: marked in the free map, and zeroed. -/
def allocated (sb : Superblock) (block : BlockNo → Bytes) (a : Nat) : BlockNo → Bytes :=
  update (update block (bblock sb a)
    (setBit (block (bblock sb a)) (a % BPB) true)) (BitVec.ofNat 32 a) fun _ => 0

/-- The state after `balloc`. -/
def afterAlloc (sb : Superblock) (s : State) : State :=
  match firstFree sb s.block with
  | some free => { s with
      block := allocated sb s.block free
      log := listed (BitVec.ofNat 32 free) (listed (bblock sb free) s.log) }
  | none => s

/-- What `balloc` returns: 0 if no block is free, and also if block 0 is. -/
def allocAddr (sb : Superblock) (block : BlockNo → Bytes) : BlockNo :=
  BitVec.ofNat 32 ((firstFree sb block).getD 0)

/-- What can stop code that reads buffers and logs them: a wait for a buffer it holds already, the
panic of `bget` and the two of `log_write`. -/
def logFault (f : Fault) : Prop := f = .hang ∨
  panics ["bget: no buffers", "too big a transaction", "log_write outside of trans"] f

theorem wp_bread {Q : Unit → State → Prop} (hhang : b ∈ s.held → E .hang)
    (hnone : s.NoBuffer b → E (.panic "bget: no buffers"))
    (h : b ∉ s.held → ¬s.NoBuffer b → Q () { s with held := b :: s.held }) :
    wp (bread b) E Q s := by
  simp only [bread, wp_bind, wp_get, wp_ite, wp_fault, wp_kpanic, wp_set]
  exact ⟨hhang, fun hnot => ⟨hnone, h hnot⟩⟩

theorem wp_brelse {Q : Unit → State → Prop} {held : List BlockNo} (hheld : s.held = b :: held)
    (h : Q () { s with held := held }) : wp (brelse b) E Q s := by
  simp only [brelse, wp_bind, wp_get, hheld, List.mem_cons_self, if_true, wp_set,
    List.erase_cons_head]
  exact h

@[simp] theorem wp_setData {f : Bytes → Bytes} {Q : Unit → State → Prop} :
    wp (setData b f) E Q s ↔
      Q () { s with block := update s.block b (f (s.block b)) } := Iff.rfl

@[simp] theorem wp_setInode {i : Inum} {f : Inode → Inode} {Q : Unit → State → Prop} :
    wp (setInode i f) E Q s ↔
      Q () { s with inode := update s.inode i (f (s.inode i)) } := Iff.rfl

theorem wp_logWrite {Q : Unit → State → Prop}
    (hbig : s.LogFull → E (.panic "too big a transaction"))
    (hout : ¬s.LogFull → s.ops < 1 → E (.panic "log_write outside of trans"))
    (h : ¬s.LogFull → 0 < s.ops → Q () { s with log := listed b s.log }) :
    wp (logWrite b) E Q s := by
  simp only [logWrite, wp_bind, wp_get]
  by_cases hfull : s.LogFull
  · rw [if_pos hfull]
    exact hbig hfull
  · rw [if_neg hfull]
    by_cases hops : s.ops < 1
    · rw [if_pos hops]
      exact hout hfull hops
    · rw [if_neg hops]
      exact h hfull (by omega)

theorem wp_logWrite_of {Q : Unit → State → Prop} (hE : ∀ f, logFault f → E f)
    (h : Q () { s with log := listed b s.log }) : wp (logWrite b) E Q s := by
  refine wp_logWrite (fun _ => hE _ ?_) (fun _ _ => hE _ ?_) fun _ _ => h
  · exact .inr (panics_of_mem (by simp))
  · exact .inr (panics_of_mem (by simp))

/-- `bread`, where its faults are allowed. -/
theorem wp_bread_of {Q : Unit → State → Prop} (hE : ∀ f, logFault f → E f)
    (h : b ∉ s.held → Q () { s with held := b :: s.held }) : wp (bread b) E Q s :=
  wp_bread (fun _ => hE _ (.inl rfl)) (fun _ => hE _ (.inr (panics_of_mem (by simp))))
    fun hnot _ => h hnot

theorem firstClear_lt {data : Bytes} {n i : Nat} (h : firstClear data n = some i) : i < n := by
  have hmem := List.mem_of_find?_eq_some h
  exact List.mem_range.mp hmem

/-- A block is in the free map where the outer loop of `balloc` looks for it. -/
theorem bblock_add (sb : Superblock) (m : Nat) {bi : Nat} (hbi : bi < BPB) :
    bblock sb (m * BPB + bi) = bblock sb (m * BPB) ∧ (m * BPB + bi) % BPB = bi := by
  have hpos : 0 < BPB := by decide
  refine ⟨?_, ?_⟩
  · unfold bblock
    rw [Nat.mul_div_cancel _ hpos, Nat.add_comm (m * BPB), Nat.add_mul_div_right _ _ hpos,
      Nat.div_eq_of_lt hbi, Nat.zero_add]
  · rw [Nat.add_comm, Nat.add_mul_mod_self_right, Nat.mod_eq_of_lt hbi]

/-- The loop takes the first free block from block `m` of the free map on, and holds no buffer
when it returns. -/
theorem wp_balloc_from (sb : Superblock) (s : State) (n m : Nat) (hE : ∀ f, logFault f → E f) :
    wp (ballocFrom sb n (m * BPB)) E (fun a s' =>
      match freeFrom sb s.block n (m * BPB) with
      | some free => a = BitVec.ofNat 32 free ∧ s' = { s with
          block := allocated sb s.block free
          log := listed (BitVec.ofNat 32 free) (listed (bblock sb free) s.log) }
      | none => a = 0 ∧ s' = s) s := by
  induction n generalizing m with
  | zero => exact ⟨rfl, rfl⟩
  | succ n ih =>
    simp only [ballocFrom, freeFrom, wp_bind]
    refine wp_bread_of hE fun _ => ?_
    simp only [wp_get]
    cases hclear : firstClear (s.block (bblock sb (m * BPB))) (min BPB (sb.size - m * BPB)) with
    | none =>
      simp only [wp_bind]
      refine wp_brelse rfl ?_
      have hnext := ih (m := m + 1)
      rw [Nat.succ_mul] at hnext
      exact hnext
    | some bi =>
      -- the bit found is bit `bi` of this block of the free map
      have hbi : bi < BPB := lt_of_lt_of_le (firstClear_lt hclear) (Nat.min_le_left ..)
      obtain ⟨hblock, hbit⟩ := bblock_add sb m hbi
      simp only [bzero, wp_bind, wp_setData]
      refine wp_logWrite_of hE (wp_brelse rfl (wp_bread_of hE fun _ => ?_))
      refine wp_logWrite_of hE (wp_brelse rfl ?_)
      refine ⟨rfl, ?_⟩
      simp only [allocated, hblock, hbit]

/-- `balloc` takes the first free block, and holds no buffer when it returns. -/
theorem wp_balloc (hE : ∀ f, logFault f → E f) :
    wp (balloc sb) E (fun a s' => a = allocAddr sb s.block ∧ s' = afterAlloc sb s) s := by
  have hloop := wp_balloc_from sb s ((sb.size + BPB - 1) / BPB) 0 hE
  rw [Nat.zero_mul] at hloop
  refine wp_mono hloop fun a s' hs' => ?_
  simp only [allocAddr, afterAlloc, firstFree]
  cases hfree : freeFrom sb s.block ((sb.size + BPB - 1) / BPB) 0 with
  | none =>
    rw [hfree] at hs'
    exact hs'
  | some free =>
    rw [hfree] at hs'
    exact hs'

@[simp] theorem afterAlloc_held : (afterAlloc sb s).held = s.held := by
  unfold afterAlloc
  split <;> rfl

/-! ## The cases of `bmap` -/

theorem bmap_direct (h : bn < NDIRECT) : bmap sb i bn = addrOf sb i ⟨bn, lt_addrs h⟩ := by
  unfold bmap bmapWith
  rw [dif_pos h]
  rfl

theorem bmap_single (hlow : NDIRECT ≤ bn) (h : bn - NDIRECT < NINDIRECT) :
    bmap sb i bn = addrOf sb i single >>= fun t =>
      if t = 0 then pure 0 else lastEntry sb t (bn - NDIRECT) := by
  unfold bmap bmapWith
  rw [dif_neg (Nat.not_lt.mpr hlow), if_pos h]
  rfl

theorem bmap_double (hlow : NDIRECT ≤ bn) (hlow' : NINDIRECT ≤ bn - NDIRECT)
    (h : bn - NDIRECT - NINDIRECT < NDINDIRECT) :
    bmap sb i bn = addrOf sb i double >>= fun t =>
      if t = 0 then pure 0
      else firstEntry sb t ((bn - NDIRECT - NINDIRECT) / 256) >>= fun t =>
        if t = 0 then pure 0 else lastEntry sb t ((bn - NDIRECT - NINDIRECT) % 256) := by
  unfold bmap bmapWith
  rw [dif_neg (Nat.not_lt.mpr hlow), if_neg (Nat.not_lt.mpr hlow'), if_pos h]
  rfl

theorem bmap_beyond (h : MAXFILE ≤ bn) : bmap sb i bn = kpanic "bmap: out of range" := by
  have hsum : NDIRECT + NINDIRECT + NDINDIRECT ≤ bn := h
  unfold bmap bmapWith
  rw [dif_neg (by omega), if_neg (by omega), if_neg (by omega)]

end Xv6.Fs.Block
