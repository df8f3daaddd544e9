import Xv6.Lib.Bytes
import Xv6.Lib.Kernel

/-!
# The log on disk

The part of `virtual memory & file system/kernel/log.c` that writes the disk: `write_log`,
`write_head`, `install_trans`, `read_head`, `recover_from_log` and `commit`. The state has the
disk, and the buffer cache as `bread` sees it; `bwrite` changes both and is the only way the disk
changes. `writes` records the block writes in order, so that a crash can be put between any two
of them: `replay` of the first `k` writes is the disk that a crash after `k` writes leaves.
-/

namespace Xv6.Fs

/-- Most blocks one file system operation writes. -/
def MAXOPBLOCKS : Nat := 10

/-- Data blocks in the on-disk log. -/
def LOGSIZE : Nat := MAXOPBLOCKS * 3

/-- The number of a disk block. -/
abbrev BlockNo := BitVec 32

instance lawfulBEqBlockNo : LawfulBEq BlockNo := inferInstance

/-- The contents of every block. -/
abbrev Disk := BlockNo → Bytes

/-- One block write. -/
abbrev Write := BlockNo × Bytes

/-- `struct logheader`. -/
structure LogHeader where
  n : Int
  block : Nat → BlockNo

/-- The disk, the buffer cache, the in-memory header and the writes done so far. -/
structure LogState where
  disk : Disk
  cache : Disk
  lh : LogHeader
  writes : List Write

/-- Code of the log. -/
abbrev LogCode (α : Type) := Kernel LogState α

/-- `bread`, for the data of the buffer. Where every buffer is in use `bget` panics instead: that
is a crash before the next write. -/
def bread (b : BlockNo) : LogCode Bytes := do
  let s ← get
  pure (s.cache b)

/-- Fill the buffer of block `b` with `data` and `bwrite` it. -/
def bwrite (b : BlockNo) (data : Bytes) : LogCode Unit :=
  modify fun s =>
    { s with
      disk := Function.update s.disk b data
      cache := Function.update s.cache b data
      writes := s.writes ++ [(b, data)] }

/-! ## The header block -/

/-- `lh->n` of a header block. -/
def headN (b : Bytes) : Int := (get32 b 0).toInt

/-- `lh->block[i]` of a header block. -/
def headBlock (b : Bytes) (i : Nat) : BlockNo := get32 b (4 + 4 * i)

/-- The loop of `write_head`: the first `n` block numbers. -/
def putBlocks (block : Nat → BlockNo) : Nat → Bytes → Bytes
  | 0, b => b
  | i + 1, b => put32 (putBlocks block i b) (4 + 4 * i) (block i)

/-- What `write_head` makes of the header block. -/
def putHead (lh : LogHeader) (b : Bytes) : Bytes :=
  putBlocks lh.block lh.n.toNat (put32 b 0 (BitVec.ofInt 32 lh.n))

/-! ## The operations -/

/-- `log.start + tail + 1`. -/
def logBlock (start : BlockNo) (tail : Nat) : BlockNo := start + BitVec.ofNat 32 (tail + 1)

/-- `write_log`. -/
def writeLog (start : BlockNo) : LogCode Unit := do
  let s ← get
  loop s.lh.n.toNat fun tail => do
    let from_ ← bread (s.lh.block tail)
    bwrite (logBlock start tail) from_

/-- `install_trans`. -/
def installTrans (start : BlockNo) : LogCode Unit := do
  let s ← get
  loop s.lh.n.toNat fun tail => do
    let lbuf ← bread (logBlock start tail)
    bwrite (s.lh.block tail) lbuf

/-- `read_head`. The array of the in-memory header has `LOGSIZE` entries. -/
def readHead (start : BlockNo) : LogCode Unit := do
  let buf ← bread start
  if (LOGSIZE : Int) < headN buf then fault .wild
  else
    modify fun s =>
      { s with
        lh := ⟨headN buf, fun i =>
          if (i : Int) < headN buf then headBlock buf i else s.lh.block i⟩ }

/-- `write_head`. -/
def writeHead (start : BlockNo) : LogCode Unit := do
  let s ← get
  let buf ← bread start
  bwrite start (putHead s.lh buf)

/-- `log.lh.n = 0`. -/
def clearHead : LogCode Unit := modify fun s => { s with lh := { s.lh with n := 0 } }

/-- `recover_from_log`. -/
def recoverFromLog (start : BlockNo) : LogCode Unit := do
  readHead start
  installTrans start
  clearHead
  writeHead start

/-- `commit`. -/
def commit (start : BlockNo) : LogCode Unit := do
  let s ← get
  if s.lh.n > 0 then
    writeLog start
    writeHead start
    installTrans start
    clearHead
    writeHead start

/-! ## Crashes -/

/-- The machine starts on disk `d` with nothing in memory. -/
def boot (d : Disk) : LogState := ⟨d, d, ⟨0, fun _ => 0⟩, []⟩

/-- The disk after some block writes. -/
def replay (ws : List Write) (d : Disk) : Disk :=
  ws.foldl (fun d w => Function.update d w.1 w.2) d

/-- `recover_from_log` starts on disk `d` and a crash after some of its writes leaves `d'`. -/
def CrashesIn (start : BlockNo) (d d' : Disk) : Prop :=
  ∃ s k, recoverFromLog start (boot d) = .ok ((), s) ∧ d' = replay (s.writes.take k) d

/-- The state in which a transaction is about to be committed: the operations have changed the
cached copies of the logged blocks and listed them in the header. -/
def LogState.logged (s : LogState) (tx : List Write) : LogState :=
  { disk := s.disk
    cache := replay tx s.cache
    lh := ⟨tx.length, fun i => ((tx.map Prod.fst)[i]?).getD 0⟩
    writes := [] }

/-- Block `b` does not belong to the log. -/
def Home (start b : BlockNo) : Prop := b ≠ start ∧ ∀ tail < LOGSIZE, b ≠ logBlock start tail

end Xv6.Fs
