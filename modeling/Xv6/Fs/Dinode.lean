import Xv6.Fs.Content

/-!
# Inodes on disk

An inode takes 64 bytes of a block of inodes: four shorts, the size, and 13 addresses. `iupdate`
writes the record and `ilock` reads it into a table entry that is not valid. The records of
different inodes do not overlap, so `iupdate` and `ialloc` change one inode each.
-/

namespace Xv6.Fs.Block

variable {sb : Superblock} {s s' : State} {i j : Inum}

/-- What stops code that reads the blocks in `B` and logs one of them: a buffer is held already, or
there is none, or the log has no room, or there is no transaction. -/
def stops (s : State) (B : Set BlockNo) (f : Fault) : Prop :=
  (f = .hang ∧ ∃ b ∈ B, b ∈ s.held) ∨ (f = .panic "too big a transaction" ∧ s.LogFull) ∨
    (f = .panic "log_write outside of trans" ∧ s.ops < 1) ∨
    (f = .panic "bget: no buffers" ∧ ∃ b ∈ B, s.NoBuffer b)

theorem wp_bread_stops {B : Set BlockNo} {b : BlockNo} {Q : Unit → State → Prop} (hb : b ∈ B)
    (h : Q () { s with held := b :: s.held }) : wp (bread b) (stops s B) Q s :=
  wp_bread (fun hin => .inl ⟨rfl, b, hb, hin⟩) (fun hnone => .inr (.inr (.inr ⟨rfl, b, hb, hnone⟩)))
    fun _ _ => h

/-- `log_write` and `brelse` of a block of `B`, in a transaction as in `s`. -/
theorem wp_log_release {B : Set BlockNo} {b : BlockNo} {held : List BlockNo}
    {Q : Unit → State → Prop} (hlog : s'.log = s.log) (hsize : s'.logsize = s.logsize)
    (hops : s'.ops = s.ops) (hheld : s'.held = b :: held)
    (hQ : Q () { s' with log := listed b s.log, held := held }) :
    wp (do
      logWrite b
      brelse b) (stops s B) Q s' := by
  have hfull : s'.LogFull ↔ s.LogFull := by
    rw [State.LogFull, State.LogFull, hlog, hsize]
  rw [wp_bind]
  refine wp_logWrite (fun h => ?_) (fun _ h => ?_) fun _ _ => ?_
  · exact .inr (.inl ⟨rfl, hfull.mp h⟩)
  · exact .inr (.inr (.inl ⟨rfl, hops ▸ h⟩))
  · refine wp_brelse hheld ?_
    rw [hlog]
    exact hQ

/-! ## `iupdate` and `ilock` -/

theorem wp_iupdate_stops :
    wp (iupdate sb i) (stops s {iblock sb i}) (fun _ s' => s' = updated sb i s) s := by
  simp only [iupdate]
  rw [wp_bind]
  refine wp_bread_stops (Set.mem_singleton _) ?_
  rw [wp_bind, wp_get, wp_bind, wp_setData]
  exact wp_log_release rfl rfl rfl rfl rfl

/-- `ilock` of an entry that is not valid has the inode on disk. -/
theorem wp_readInode {E : Fault → Prop} (hheld : iblock sb i ∈ s.held → E .hang)
    (hbuffer : ¬s.NoBuffer (iblock sb i)) (htype : (onDisk sb s i).type ≠ 0) :
    wp (readInode sb i) E (fun _ s' => s' =
      { s with inode := Function.update s.inode i (onDisk sb s i) }) s := by
  simp only [readInode]
  rw [wp_bind]
  refine wp_bread hheld (fun hnone => absurd hnone hbuffer) fun _ _ => ?_
  rw [wp_bind, wp_get, wp_bind, wp_setInode, wp_bind]
  refine wp_brelse rfl ?_
  rw [if_neg (show ¬(dinode (s.block (iblock sb i)) (i % IPB)).type = 0 from htype), wp_pure]
  rfl

/-- `iupdate`, and `ilock` in an entry of the table that another inode has used. -/
def saveAndLoad (sb : Superblock) (i : Inum) (junk : Inode) : Code Unit := do
  iupdate sb i
  setInode i fun _ => junk
  readInode sb i

theorem wp_saveAndLoad (hsb : sb.WellFormed) (hi : i < sb.ninodes) (junk : Inode)
    (htype : (s.inode i).type ≠ 0) :
    wp (saveAndLoad sb i junk) (stops s {iblock sb i}) (fun _ s' => s'.inode = s.inode ∧
      ∀ j < sb.ninodes, j ≠ i → onDisk sb s' j = onDisk sb s j) s := by
  rw [saveAndLoad]
  refine wp_seq wp_iupdate_stops ?_
  rintro _ s1 rfl
  rw [wp_bind, wp_setInode]
  have hsame : onDisk sb (updated sb i s) i = s.inode i := onDisk_updated_self
  refine wp_mono (wp_readInode (fun hin => .inl ⟨rfl, _, rfl, hin⟩) ?_ ?_) ?_
  · -- the block has just been logged, so its buffer is pinned
    refine fun hnone => hnone.1 ?_
    simp [State.inUse, updated, mem_listed]
  · show (onDisk sb (updated sb i s) i).type ≠ 0
    rwa [hsame]
  · rintro _ s' rfl
    refine ⟨?_, fun j hj hne => onDisk_updated_ne hsb hi hj hne⟩
    show Function.update (Function.update s.inode i junk) i (onDisk sb (updated sb i s) i) = _
    rw [hsame, Function.update_idem, Function.update_eq_self]

/-! ## `ialloc` -/

/-- The blocks of inodes. -/
def inodeBlocks (sb : Superblock) : Set BlockNo := {b | ∃ i < sb.ninodes, b = iblock sb i}

/-- An inode as `ialloc` leaves it. -/
def blank (type : BitVec 16) : Inode := ⟨type, 0, 0, 0, 0, fun _ => 0⟩

/-- `ialloc` has found inode `a`, which was free, and changed that inode alone; or there is none. -/
def Allocated (sb : Superblock) (type : BitVec 16) (s : State) (a : Inum) (s' : State) : Prop :=
  (a = 0 ∧ s' = s ∧ ∀ j, 0 < j → j < sb.ninodes → (onDisk sb s j).type ≠ 0) ∨
  (0 < a ∧ a < sb.ninodes ∧ (onDisk sb s a).type = 0 ∧ s'.inode = s.inode ∧
    onDisk sb s' a = blank type ∧ ∀ j < sb.ninodes, j ≠ a → onDisk sb s' j = onDisk sb s j)

theorem wp_iallocFrom (hsb : sb.WellFormed) (type : BitVec 16) {n inum : Nat}
    (hn : inum + n = max 1 sb.ninodes) (hpos : 0 < inum)
    (hbefore : ∀ j, 0 < j → j < inum → (onDisk sb s j).type ≠ 0) :
    wp (iallocFrom sb type n inum) (stops s (inodeBlocks sb)) (Allocated sb type s) s := by
  induction n generalizing inum with
  | zero =>
    refine .inl ⟨rfl, rfl, fun j hj hlt => hbefore j hj ?_⟩
    omega
  | succ n ih =>
    have hlt : inum < sb.ninodes := by omega
    simp only [iallocFrom]
    rw [wp_bind]
    refine wp_bread_stops (B := inodeBlocks sb) ⟨inum, hlt, rfl⟩ ?_
    rw [wp_bind, wp_get]
    by_cases hfree : (dinode (s.block (iblock sb inum)) (inum % IPB)).type = 0
    · rw [if_pos hfree, wp_bind, wp_setData, ← bind_assoc, wp_bind]
      refine wp_log_release rfl rfl rfl rfl (.inr ⟨hpos, hlt, hfree, rfl, ?_, ?_⟩)
      · -- the same as `iupdate` of a blank inode
        have hself : onDisk sb (updated sb inum { s with inode := fun _ => blank type }) inum =
            blank type := onDisk_updated_self
        exact hself
      · intro j hj hne
        exact onDisk_updated_ne (s := { s with inode := fun _ => blank type }) hsb hlt hj hne
    · rw [if_neg hfree, wp_bind]
      refine wp_brelse rfl (ih (by omega) (by omega) fun j hj hjlt => ?_)
      by_cases hjn : j = inum
      · rw [hjn]
        exact hfree
      · exact hbefore j hj (by omega)

theorem wp_ialloc (hsb : sb.WellFormed) (type : BitVec 16) :
    wp (ialloc sb type) (stops s (inodeBlocks sb)) (Allocated sb type s) s :=
  wp_iallocFrom hsb type (by omega) (by omega) fun j hj hlt => absurd hlt (by omega)

/-! ## The records -/

/-- The bytes of the `k`-th record of a block. -/
def record (k : Nat) : Set Nat := {n | 64 * k ≤ n ∧ n < 64 * k + 64}

theorem record_in_block {k n : Nat} (hk : k < IPB) (hn : n ∈ record k) : n < BSIZE := by
  obtain ⟨-, hhigh⟩ := hn
  simp only [IPB, BSIZE] at *
  omega

theorem record_disjoint {k k' : Nat} (hk : k ≠ k') : Disjoint (record k) (record k') := by
  rw [Set.disjoint_left]
  rintro n ⟨hlow, hhigh⟩ ⟨hlow', hhigh'⟩
  omega

theorem records_disjoint (hsb : sb.WellFormed) (hi : i < sb.ninodes) (hj : j < sb.ninodes)
    (hne : i ≠ j) (hblock : iblock sb i = iblock sb j) :
    Disjoint (record (i % IPB)) (record (j % IPB)) :=
  record_disjoint fun hsame => hne (iblock_inj hsb hj hi hblock hsame)

theorem dinode_congr {data data' : Bytes} {k : Nat} (h : ∀ n ∈ record k, data n = data' n) :
    dinode data k = dinode data' k := by
  have hin : ∀ n, 64 * k ≤ n → n < 64 * k + 64 → data n = data' n :=
    fun n hlow hhigh => h n ⟨hlow, hhigh⟩
  simp only [dinode, Inode.mk.injEq]
  refine ⟨?_, ?_, ?_, ?_, ?_, ?_⟩
  · exact get16_congr fun n hlow hhigh => hin n (by omega) (by omega)
  · exact get16_congr fun n hlow hhigh => hin n (by omega) (by omega)
  · exact get16_congr fun n hlow hhigh => hin n (by omega) (by omega)
  · exact get16_congr fun n hlow hhigh => hin n (by omega) (by omega)
  · exact get32_congr fun n hlow hhigh => hin n (by omega) (by omega)
  · funext j
    have hj : j.val < 13 := j.isLt
    exact get32_congr fun n hlow hhigh => hin n (by omega) (by omega)

/-- The bytes that are read and written for an inode are those of its record. -/
structure InRecord (k : Nat) : Prop where
  reads : ∀ data data' : Bytes, (∀ n ∈ record k, data n = data' n) → dinode data k = dinode data' k
  writes : ∀ (data : Bytes) (x : Inode), ∀ n ∉ record k, putDinode data k x n = data n
  inside : ∀ n ∈ record k, n < BSIZE

theorem inRecord {k : Nat} (hk : k < IPB) : InRecord k where
  reads _ _ h := dinode_congr h
  writes data x n hn := by
    refine putDinode_outside ?_
    by_contra hin
    exact hn ⟨by omega, by omega⟩
  inside _ hn := record_in_block hk hn

/-- What `iupdate` writes is what `ilock` reads, for every inode with a type, and the other inodes
are unchanged; `ialloc` changes the inode that it returns. The records lie within their blocks and
apart from each other. -/
theorem inode_round_trip (hsb : sb.WellFormed) (hi : i < sb.ninodes)
    (htype : (s.inode i).type ≠ 0) (junk : Inode) (type : BitVec 16) :
    wp (saveAndLoad sb i junk) (stops s {iblock sb i}) (fun _ s' => s'.inode = s.inode ∧
      ∀ j < sb.ninodes, j ≠ i → onDisk sb s' j = onDisk sb s j) s ∧
    wp (ialloc sb type) (stops s (inodeBlocks sb)) (Allocated sb type s) s ∧
    InRecord (i % IPB) ∧
    ∀ j < sb.ninodes, i ≠ j → iblock sb i = iblock sb j →
      Disjoint (record (i % IPB)) (record (j % IPB)) := by
  refine ⟨wp_saveAndLoad hsb hi junk htype, wp_ialloc hsb type,
    inRecord (Nat.mod_lt i (by decide)), ?_⟩
  exact fun j hj hne hblock => records_disjoint hsb hi hj hne hblock

/-- A disk with one block of inodes. -/
def tinyDisk : Superblock where
  size := 20
  ninodes := 16
  inodestart := 2
  bmapstart := 3

/-- A state in a transaction, with zeros on the disk, and `x` in every entry of the table. -/
def zeros (x : Inode) : State where
  block _ _ := 0
  disk _ _ := 0
  inode _ := x
  held := []
  log := []
  logsize := 30
  ops := 1

theorem tinyDisk_wellFormed : tinyDisk.WellFormed where
  inodes i hi := by
    have hlt : i < 16 := hi
    show i / 16 + 2 < 3
    omega
  data := by decide
  size := by decide

/-- A file with two links and twelve blocks: eleven direct ones, one behind an indirect block. -/
def linked : Inode :=
  ⟨2, 0, 0, 2, 12 * 1024, fun k => BitVec.ofNat 32 (if k < 12 then 7 + k else 0)⟩

theorem inode_round_trip_tiny :
    wp (saveAndLoad tinyDisk 1 (blank 0)) (stops (zeros linked) {iblock tinyDisk 1})
      (fun _ s' => s'.inode = (zeros linked).inode ∧ ∀ j < tinyDisk.ninodes, j ≠ 1 →
        onDisk tinyDisk s' j = onDisk tinyDisk (zeros linked) j) (zeros linked) ∧
    wp (ialloc tinyDisk 2) (stops (zeros linked) (inodeBlocks tinyDisk))
      (Allocated tinyDisk 2 (zeros linked)) (zeros linked) ∧
    InRecord (1 % IPB) ∧
    ∀ j < tinyDisk.ninodes, 1 ≠ j → iblock tinyDisk 1 = iblock tinyDisk j →
      Disjoint (record (1 % IPB)) (record (j % IPB)) :=
  inode_round_trip tinyDisk_wellFormed (by decide) (by decide) (blank 0) 2

/-- An inode without a type is free, and `ilock` refuses it. -/
theorem free_inode_not_loaded :
    faultOf (saveAndLoad tinyDisk 1 (blank 2)) (zeros (blank 0)) =
      some (.panic "ilock: no type") := by
  decide +kernel

end Xv6.Fs.Block
