import Xv6.Fs.Block

/-!
# The buffers of `bmap`

Which buffers a process holds when `bmap` returns. On all paths but one they are those it held at
the call: when the table of second-level blocks has no entry for the block and the disk is full,
`bmap` returns 0 with the buffer of the doubly indirect block still locked.
-/

namespace Xv6.Fs.Block

variable {sb : Superblock} {s s' : State} {i : Inum} {k n : Nat} {a t : BlockNo}
  {E : Fault → Prop}

/-- `balloc` would return 0. -/
def Full (sb : Superblock) (block : BlockNo → Bytes) : Prop := allocAddr sb block = 0

instance (block : BlockNo → Bytes) : Decidable (Full sb block) :=
  inferInstanceAs (Decidable (_ = _))

/-- The disk is full when a second-level block is needed: either the inode has its doubly indirect
block, which does not list the second-level block, and no block is free; or it does not have it,
and the last free block is taken for it. -/
def FullAtTable (sb : Superblock) (s : State) (i : Inum) (bn : Nat) : Prop :=
  NDIRECT + NINDIRECT ≤ bn ∧
    if (s.inode i).addrs double = 0 then
      ¬Full sb s.block ∧ Full sb (afterAlloc sb s).block
    else
      entry (s.block ((s.inode i).addrs double)) ((bn - NDIRECT - NINDIRECT) / 256) = 0 ∧
        Full sb s.block

instance (bn : Nat) : Decidable (FullAtTable sb s i bn) :=
  inferInstanceAs (Decidable (_ ∧ _))

/-- An address that is in the inode, or is allocated for it. -/
theorem wp_addrOf {k : Fin (NDIRECT + 2)} (hE : ∀ f, logFault f → E f) :
    wp (addrOf sb i k) E (fun a s' => s'.held = s.held ∧
      if (s.inode i).addrs k = 0 then
        a = allocAddr sb s.block ∧ s'.block = (afterAlloc sb s).block
      else a = (s.inode i).addrs k ∧ s'.block = s.block) s := by
  simp only [addrOf, addrOfWith, wp_bind, wp_get]
  by_cases haddr : (s.inode i).addrs k = 0
  · simp only [haddr, if_true, wp_bind]
    refine wp_mono (wp_balloc hE) fun a s' hs' => ?_
    obtain ⟨ha, rfl⟩ := hs'
    by_cases hfull : a = 0
    · rw [if_pos hfull]
      exact ⟨afterAlloc_held, hfull ▸ ha, rfl⟩
    · rw [if_neg hfull]
      exact ⟨afterAlloc_held, ha, rfl⟩
  · simp only [haddr, if_false, wp_pure]
    exact ⟨trivial, trivial, trivial⟩

theorem wp_lastEntry (hE : ∀ f, logFault f → E f) :
    wp (lastEntry sb t k) E (fun _ s' => s'.held = s.held) s := by
  simp only [lastEntry, lastEntryWith, wp_bind]
  refine wp_bread_of hE fun _ => ?_
  simp only [wp_get]
  by_cases hentry : entry (s.block t) k = 0
  · rw [if_pos hentry]
    simp only [wp_bind]
    refine wp_mono (wp_balloc hE) fun a s' hs' => ?_
    obtain ⟨-, rfl⟩ := hs'
    by_cases hfull : a = 0
    · simp only [hfull, ne_eq, not_true, if_false, wp_pure, wp_bind]
      exact wp_brelse afterAlloc_held rfl
    · simp only [ne_eq, hfull, not_false_eq_true, if_true, wp_setData, wp_bind]
      exact wp_logWrite_of hE (wp_brelse afterAlloc_held rfl)
  · rw [if_neg hentry]
    simp only [wp_bind]
    exact wp_brelse rfl rfl

/-- `firstEntry` keeps the buffer of the table exactly if it returns 0. -/
theorem wp_firstEntry (hE : ∀ f, logFault f → E f) : wp (firstEntry sb t k) E (fun a s' =>
    (a = 0 ↔ entry (s.block t) k = 0 ∧ Full sb s.block) ∧
      s'.held = if a = 0 then t :: s.held else s.held) s := by
  simp only [firstEntry, firstEntryWith, wp_bind]
  refine wp_bread_of hE fun _ => ?_
  simp only [wp_get]
  by_cases hentry : entry (s.block t) k = 0
  · rw [if_pos hentry]
    simp only [wp_bind]
    refine wp_mono (wp_balloc hE) fun a s' hs' => ?_
    obtain ⟨ha, rfl⟩ := hs'
    by_cases hfull : a = 0
    · rw [if_pos hfull]
      refine ⟨⟨fun _ => ⟨hentry, ha.symm.trans hfull⟩, fun _ => rfl⟩, ?_⟩
      rw [if_pos rfl]
      exact afterAlloc_held
    · rw [if_neg hfull]
      simp only [wp_setData, wp_bind]
      refine wp_logWrite_of hE (wp_brelse afterAlloc_held ⟨⟨fun h => absurd h hfull, fun h => ?_⟩,
        (if_neg hfull).symm⟩)
      exact absurd (ha.trans h.2) hfull
  · rw [if_neg hentry]
    simp only [wp_bind]
    exact wp_brelse rfl ⟨⟨fun h => absurd h hentry, fun h => absurd h.1 hentry⟩,
      (if_neg hentry).symm⟩

theorem entry_zero (k : Nat) : entry (fun _ => 0) k = 0 := by
  show (0#8 ++ 0#8 ++ 0#8 ++ 0#8 : BitVec 32) = 0
  decide

theorem entry_afterAlloc (hfree : ¬Full sb s.block) :
    entry ((afterAlloc sb s).block (allocAddr sb s.block)) k = 0 := by
  unfold Full allocAddr at *
  unfold afterAlloc
  cases hfirst : firstFree sb s.block with
  | none =>
    rw [hfirst] at hfree
    exact absurd rfl hfree
  | some free =>
    simp only [allocated, Option.getD_some, Function.update_self]
    exact entry_zero k

/-- In the state with the doubly indirect block `t`, the table has no entry and the disk is full. -/
theorem fullAtTable_iff {bn : Nat} {s1 : State} (hlarge : NDIRECT + NINDIRECT ≤ bn)
    (ht : if (s.inode i).addrs double = 0 then
        t = allocAddr sb s.block ∧ s1.block = (afterAlloc sb s).block
      else t = (s.inode i).addrs double ∧ s1.block = s.block) :
    FullAtTable sb s i bn ↔ t ≠ 0 ∧
      entry (s1.block t) ((bn - NDIRECT - NINDIRECT) / 256) = 0 ∧ Full sb s1.block := by
  unfold FullAtTable
  by_cases haddr : (s.inode i).addrs double = 0
  · rw [if_pos haddr] at ht ⊢
    obtain ⟨ht, hblock⟩ := ht
    rw [hblock, ht]
    exact ⟨fun h => ⟨h.2.1, entry_afterAlloc h.2.1, h.2.2⟩, fun h => ⟨hlarge, h.1, h.2.2⟩⟩
  · rw [if_neg haddr] at ht ⊢
    obtain ⟨ht, hblock⟩ := ht
    rw [hblock, ht]
    exact ⟨fun h => ⟨haddr, h.2⟩, fun h => ⟨hlarge, h.2⟩⟩

theorem wp_bmap_held {bn : Nat} (hE : ∀ f, logFault f → E f)
    (hrange : MAXFILE ≤ bn → E (.panic "bmap: out of range")) :
    wp (bmap sb i bn) E (fun _ s' => (¬FullAtTable sb s i bn ∧ s'.held = s.held) ∨
      (FullAtTable sb s i bn ∧ ∃ t, s'.held = t :: s.held)) s := by
  have hsmall : bn < NDIRECT + NINDIRECT → ¬FullAtTable sb s i bn :=
    fun h hfull => absurd hfull.1 (Nat.not_le.mpr h)
  by_cases hdirect : bn < NDIRECT
  · rw [bmap_direct hdirect]
    exact wp_mono (wp_addrOf hE) fun _ _ hs' => .inl ⟨hsmall (by omega), hs'.1⟩
  by_cases hsingle : bn - NDIRECT < NINDIRECT
  · rw [bmap_single (by omega) hsingle]
    refine wp_seq (wp_addrOf hE) fun t s1 hs1 => ?_
    by_cases hfull : t = 0
    · rw [if_pos hfull]
      exact .inl ⟨hsmall (by omega), hs1.1⟩
    · rw [if_neg hfull]
      exact wp_mono (wp_lastEntry hE) fun _ _ hs' => .inl ⟨hsmall (by omega), hs'.trans hs1.1⟩
  by_cases hdouble : bn - NDIRECT - NINDIRECT < NDINDIRECT
  · rw [bmap_double (by omega) (by omega) hdouble]
    refine wp_seq (wp_addrOf hE) fun t s1 hs1 => ?_
    obtain ⟨hheld, ht⟩ := hs1
    have hlarge : NDIRECT + NINDIRECT ≤ bn := by omega
    have hiff := fullAtTable_iff hlarge ht
    by_cases hfull : t = 0
    · rw [if_pos hfull]
      exact .inl ⟨fun h => (hiff.mp h).1 hfull, hheld⟩
    · rw [if_neg hfull]
      refine wp_seq (wp_firstEntry hE) fun u s2 hs2 => ?_
      obtain ⟨hu, hheld2⟩ := hs2
      by_cases hzero : u = 0
      · rw [if_pos hzero] at hheld2 ⊢
        refine .inr ⟨hiff.mpr ⟨hfull, hu.mp hzero⟩, t, ?_⟩
        rw [hheld2, hheld]
      · rw [if_neg hzero] at hheld2 ⊢
        refine wp_mono (wp_lastEntry hE) fun _ s' hs' => .inl ⟨fun h => ?_, ?_⟩
        · exact hzero (hu.mpr (hiff.mp h).2)
        · rw [hs', hheld2, hheld]
  · have hbeyond : MAXFILE ≤ bn := by
      unfold MAXFILE
      omega
    rw [bmap_beyond hbeyond]
    exact hrange hbeyond

/-- `bmap` returns with the buffers it was called with exactly if it was not stopped by a full disk
in the table of second-level blocks. -/
theorem bmap_releases_iff {bn : Nat} (hbn : bn < MAXFILE)
    (hreturns : bmap sb i bn s = .ok (a, s')) :
    s'.held = s.held ↔ ¬FullAtTable sb s i bn := by
  have hspec : wp (bmap sb i bn) Fault.any (fun _ s' =>
      (¬FullAtTable sb s i bn ∧ s'.held = s.held) ∨
        (FullAtTable sb s i bn ∧ ∃ t, s'.held = t :: s.held)) s :=
    wp_bmap_held (fun _ _ => trivial) fun h => absurd hbn (Nat.not_lt.mpr h)
  cases wp_ok hspec hreturns with
  | inl h => exact ⟨fun _ => h.1, fun _ => h.2⟩
  | inr h =>
    obtain ⟨hfull, t, ht⟩ := h
    refine ⟨fun hsame => ?_, fun hno => absurd hfull hno⟩
    rw [ht] at hsame
    exact absurd hsame (List.cons_ne_self t s.held)

/-- A disk of eight blocks: inodes in block 2, the free map in block 3, data from block 4 on. -/
def smallDisk : Superblock := ⟨8, 16, 2, 3⟩

/-- Inode 1 of the small disk has block 5 as its doubly indirect block, which lists nothing, and
`bits` is the free map. -/
def smallState (bits : Byte) : State where
  block b := if b = 3 then fun n => if n = 0 then bits else 0 else fun _ => 0
  disk b := if b = 3 then fun n => if n = 0 then bits else 0 else fun _ => 0
  inode _ := ⟨2, 0, 0, 1, 0, fun k => if k = double then 5 else 0⟩
  held := []
  log := []
  logsize := 31
  ops := 1

/-- With two blocks free, the first block behind the indirect ones is mapped, and no buffer is
kept. -/
theorem bmap_releases_two_free : ∃ a s', bmap smallDisk 1 267 (smallState 0x3f) = .ok (a, s') ∧
    a = 7 ∧ s'.held = (smallState 0x3f).held := by
  obtain ⟨s', hs'⟩ : ∃ s', bmap smallDisk 1 267 (smallState 0x3f) = .ok (7, s') :=
    ok_of_value (by decide +kernel)
  refine ⟨7, s', hs', rfl, ?_⟩
  exact (bmap_releases_iff (by decide) hs').mpr (by decide +kernel)

/-- On a full disk the call returns 0 and the buffer of the doubly indirect block stays locked. -/
theorem bmap_keeps_buffer : ∃ s', bmap smallDisk 1 267 (smallState 0xff) = .ok (0, s') ∧
    (smallState 0xff).held = [] ∧ s'.held = [5] := by
  obtain ⟨s', hs'⟩ : ∃ s', bmap smallDisk 1 267 (smallState 0xff) = .ok (0, s') :=
    ok_of_value (by decide +kernel)
  have hheld : wp (bmap smallDisk 1 267) Fault.never (fun _ s' => State.held s' = [5])
      (smallState 0xff) := wp_of_value (by decide +kernel)
  have hkept := wp_ok hheld hs'
  exact ⟨s', hs', rfl, hkept⟩

end Xv6.Fs.Block
