import Xv6.Fs.Bmap
import Xv6.Lib.Owners

/-!
# Who owns which block

An inode owns the blocks that its addresses lead to: the direct blocks, the indirect block and the
blocks listed in it, and the doubly indirect block with the second-level blocks and the blocks
listed in those. A `Place` says how an address is reached. `Owned` says that the free map agrees
with the places of all inodes, and `wp_bmap_grew` that `bmap` keeps it so at every point where an
allocation may fail.
-/

namespace Xv6.Fs.Block

open Function (update update_apply update_eq_self update_idem update_of_ne update_self)

variable {sb : Superblock} {s s' : State} {i j : Inum} {a b t : BlockNo} {E : Fault → Prop}
  {n m : Nat} {block : BlockNo → Bytes} {x : Inode} {s1 s2 s3 : State}

/-! ## The layout of the disk -/

/-- The first data block. -/
def datastart (sb : Superblock) : Nat := sb.bmapstart + sb.size / BPB + 1

/-- The bits in the blocks of the free map. -/
def mapBits (sb : Superblock) : Nat := (sb.size / BPB + 1) * BPB

/-- The blocks of the inodes, of the free map and of the data come in this order, and all have
numbers. -/
structure Superblock.WellFormed (sb : Superblock) : Prop where
  inodes : ∀ i < sb.ninodes, i / IPB + sb.inodestart < sb.bmapstart
  data : datastart sb ≤ sb.size
  size : sb.size < 2 ^ 32

/-- The data blocks. -/
def area (sb : Superblock) : Set BlockNo := {b | datastart sb ≤ b.toNat ∧ b.toNat < sb.size}

theorem zero_not_area : (0 : BlockNo) ∉ area sb := by
  rintro ⟨hlow, -⟩
  exact absurd hlow (by simp [datastart])

theorem size_lt_mapBits (sb : Superblock) : sb.size < mapBits sb := by
  unfold mapBits
  rw [← Nat.div_lt_iff_lt_mul (by decide)]
  exact Nat.lt_succ_self _

theorem div_le_of_lt_mapBits (hn : n < mapBits sb) : n / BPB ≤ sb.size / BPB := by
  rw [mapBits, ← Nat.div_lt_iff_lt_mul (by decide)] at hn
  exact Nat.lt_succ_iff.mp hn

theorem bblock_toNat (hsb : sb.WellFormed) (hn : n < mapBits sb) :
    (bblock sb n).toNat = n / BPB + sb.bmapstart := by
  have hdiv := div_le_of_lt_mapBits hn
  have hdata := hsb.data
  have hsize := hsb.size
  unfold datastart at hdata
  rw [bblock, BitVec.toNat_ofNat]
  generalize n / BPB = q at *
  generalize sb.size / BPB = m at *
  exact Nat.mod_eq_of_lt (by omega)

/-- The blocks of the free map lie between those of the inodes and the data. -/
theorem bblock_range (hsb : sb.WellFormed) (hn : n < mapBits sb) :
    sb.bmapstart ≤ (bblock sb n).toNat ∧ (bblock sb n).toNat < datastart sb := by
  have hdiv := div_le_of_lt_mapBits hn
  rw [bblock_toNat hsb hn]
  unfold datastart
  generalize n / BPB = q at *
  generalize sb.size / BPB = m at *
  omega

theorem bmapstart_lt_datastart (sb : Superblock) : sb.bmapstart < datastart sb := by
  unfold datastart
  generalize sb.size / BPB = m
  omega

theorem iblock_toNat (hsb : sb.WellFormed) (hi : i < sb.ninodes) :
    (iblock sb i).toNat = i / IPB + sb.inodestart := by
  have hlow := hsb.inodes i hi
  have hdata := hsb.data
  have hsize := hsb.size
  have hstart := bmapstart_lt_datastart sb
  rw [iblock, BitVec.toNat_ofNat]
  generalize i / IPB = q at *
  exact Nat.mod_eq_of_lt (by omega)

theorem iblock_range (hsb : sb.WellFormed) (hi : i < sb.ninodes) :
    (iblock sb i).toNat < sb.bmapstart := by
  rw [iblock_toNat hsb hi]
  exact hsb.inodes i hi

theorem area_lt_mapBits (ha : a ∈ area sb) : a.toNat < mapBits sb :=
  ha.2.trans (size_lt_mapBits sb)

theorem bblock_not_area (hsb : sb.WellFormed) (hn : n < mapBits sb) :
    bblock sb n ∉ area sb := fun h => absurd h.1 (by have := bblock_range hsb hn; omega)

theorem iblock_not_area (hsb : sb.WellFormed) (hi : i < sb.ninodes) : iblock sb i ∉ area sb := by
  have hlow := iblock_range hsb hi
  have hstart := bmapstart_lt_datastart sb
  exact fun h => absurd h.1 (by omega)

/-- Two bits of the free map with the same place are the same. -/
theorem bit_place_inj (hsb : sb.WellFormed) (hn : n < mapBits sb) (hm : m < mapBits sb)
    (hblock : bblock sb n = bblock sb m) (hbit : n % BPB = m % BPB) : n = m := by
  have hdiv := congrArg BitVec.toNat hblock
  rw [bblock_toNat hsb hn, bblock_toNat hsb hm] at hdiv
  rw [← Nat.div_add_mod n BPB, ← Nat.div_add_mod m BPB, hbit, show n / BPB = m / BPB by omega]

/-! ## The free map -/

/-- Bit `n` of the free map. -/
def used (sb : Superblock) (block : BlockNo → Bytes) (n : Nat) : Bool :=
  bit (block (bblock sb n)) (n % BPB)

theorem getLsbD_one_shift {k r : Nat} (hk : k < 8) : (1#8 <<< r).getLsbD k = decide (k = r) := by
  rw [BitVec.getLsbD_shiftLeft, BitVec.getLsbD_one]
  by_cases hkr : k = r
  · subst hkr
    simp [hk]
  · by_cases hlt : k < r
    · simp [hlt, hkr]
    · have hsub : ¬k - r = 0 := by omega
      simp [hsub, hkr]

theorem bit_setBit (data : Bytes) (i j : Nat) (on : Bool) :
    bit (setBit data i on) j = if j = i then on else bit data j := by
  unfold bit setBit
  by_cases hbyte : j / 8 = i / 8
  · have hlt : j % 8 < 8 := Nat.mod_lt _ (by decide)
    have hiff : j = i ↔ j % 8 = i % 8 := by
      constructor
      · rintro rfl
        rfl
      · intro h
        rw [← Nat.div_add_mod j 8, ← Nat.div_add_mod i 8, hbyte, h]
    rw [hbyte, update_self]
    cases on with
    | true =>
      simp only [if_true, BitVec.getLsbD_or, getLsbD_one_shift hlt, hiff]
      by_cases h : j % 8 = i % 8
      · simp [h]
      · simp [h]
    | false =>
      simp only [Bool.false_eq_true, if_false, BitVec.getLsbD_and, BitVec.getLsbD_not,
        getLsbD_one_shift hlt, hiff]
      by_cases h : j % 8 = i % 8
      · simp [h]
      · simp [h, hlt]
  · have hne : j ≠ i := fun h => hbyte (by rw [h])
    rw [update_of_ne hbyte, if_neg hne]

/-- Writing to a block outside the free map does not change the free map. -/
theorem used_update_ne {data : Bytes} (hne : bblock sb n ≠ b) :
    used sb (update block b data) n = used sb block n := by
  rw [used, update_of_ne hne]
  rfl

theorem used_set_bit (hsb : sb.WellFormed) {on : Bool} (hn : n < mapBits sb) (hm : m < mapBits sb) :
    used sb (update block (bblock sb m) (setBit (block (bblock sb m)) (m % BPB) on)) n =
      if n = m then on else used sb block n := by
  unfold used
  by_cases hblock : bblock sb n = bblock sb m
  · rw [hblock, update_self, bit_setBit]
    by_cases hnm : n = m
    · rw [if_pos hnm, if_pos (by rw [hnm])]
    · rw [if_neg hnm, if_neg fun hbit => hnm (bit_place_inj hsb hn hm hblock hbit)]
  · have hnm : n ≠ m := fun h => hblock (by rw [h])
    rw [update_of_ne hblock, if_neg hnm]

theorem freeFrom_spec {f : Nat} (h : freeFrom sb block n (m * BPB) = some f) :
    f < sb.size ∧ used sb block f = false := by
  induction n generalizing m with
  | zero => cases h
  | succ n ih =>
    rw [freeFrom] at h
    cases hclear : firstClear (block (bblock sb (m * BPB))) (min BPB (sb.size - m * BPB)) with
    | none =>
      rw [hclear, ← Nat.succ_mul] at h
      exact ih h
    | some bi =>
      rw [hclear] at h
      cases h
      have hlt := firstClear_lt hclear
      have hbit := List.find?_some hclear
      obtain ⟨hblock, hmod⟩ := bblock_add sb m (lt_of_lt_of_le hlt (Nat.min_le_left ..))
      refine ⟨by omega, ?_⟩
      rw [used, hblock, hmod]
      simpa using hbit

/-! ## Places -/

/-- How an address is reached from an inode: one of its 13 addresses, or entry `k` of a block of
addresses. -/
inductive Place where
  | root (k : Fin (NDIRECT + 2))
  | entry (p : Place) (k : Nat)
  deriving DecidableEq

/-- The levels of addresses below a place: none below a data block. -/
def Place.height : Place → Nat
  | .root k => if k = double then 2 else if k = single then 1 else 0
  | .entry p _ => p.height - 1

/-- The places that `bmap` and `itrunc` go to. -/
def Place.Valid : Place → Prop
  | .root _ => True
  | .entry p k => p.Valid ∧ 0 < p.height ∧ k < NINDIRECT

/-- The address at a place; 0 if there is none. -/
def addrAt (block : BlockNo → Bytes) (x : Inode) : Place → BlockNo
  | .root k => x.addrs k
  | .entry p k =>
    if addrAt block x p = 0 then 0 else Block.entry (block (addrAt block x p)) k

/-- A place in an inode. -/
abbrev Owner := Inum × Place

/-- The places of all inodes. -/
def owners (sb : Superblock) : Set Owner := {o | o.1 < sb.ninodes ∧ o.2.Valid}

/-- The address that an owner has. -/
def addr (s : State) (o : Owner) : BlockNo := addrAt s.block (s.inode o.1) o.2

/-- The free map agrees with the addresses of the inodes, and the blocks before the data are
marked as used. -/
structure Owned (sb : Superblock) (s : State) : Prop where
  exact : Exact (owners sb) (area sb) (fun b => used sb s.block b.toNat = true) (addr s)
  system : ∀ n < datastart sb, used sb s.block n = true

theorem addrAt_entry_zero {p : Place} {k : Nat} (h : addrAt block x p = 0) :
    addrAt block x (.entry p k) = 0 := by
  rw [addrAt, if_pos h]

theorem addrAt_entry {p : Place} {k : Nat} (h : addrAt block x p ≠ 0) :
    addrAt block x (.entry p k) = Block.entry (block (addrAt block x p)) k := by
  rw [addrAt, if_neg h]

theorem Place.entry_ne_self (p : Place) (k : Nat) : Place.entry p k ≠ p := by
  intro h
  have hsize := congrArg sizeOf h
  simp only [Place.entry.sizeOf_spec] at hsize
  omega

theorem Place.Valid.table {p : Place} {k : Nat} (h : (Place.entry p k).Valid) :
    p.Valid ∧ 0 < p.height := ⟨h.1, h.2.1⟩

/-- The addresses of an inode are the same while its blocks of addresses list the same. -/
theorem addrAt_frame {block' : BlockNo → Bytes}
    (h : ∀ p, p.Valid → 0 < p.height → addrAt block x p ≠ 0 →
      block' (addrAt block x p) = block (addrAt block x p)) {p : Place} (hp : p.Valid) :
    addrAt block' x p = addrAt block x p := by
  induction p with
  | root k => rfl
  | entry p k ih =>
    obtain ⟨hvalid, hheight⟩ := hp.table
    have hsame := ih hvalid
    by_cases hzero : addrAt block x p = 0
    · rw [addrAt_entry_zero hzero, addrAt_entry_zero (hsame.trans hzero)]
    · rw [addrAt_entry hzero, addrAt_entry (by rwa [hsame]), hsame, h p hvalid hheight hzero]

/-- A place gets the address `a` of a block that lists nothing. -/
theorem addrAt_grow {block' : BlockNo → Bytes} {x' : Inode} {p0 : Place}
    (hroot : ∀ k, x'.addrs k = if Place.root k = p0 then a else x.addrs k)
    (hentry : ∀ p k, (Place.entry p k).Valid → addrAt block x p ≠ 0 →
      Block.entry (block' (addrAt block x p)) k =
        if Place.entry p k = p0 then a else Block.entry (block (addrAt block x p)) k)
    (hempty : ∀ k, Block.entry (block' a) k = 0) (hnone : addrAt block x p0 = 0) (ha : a ≠ 0)
    (hparent : ∀ p k, Place.entry p k = p0 → addrAt block x p ≠ 0) {p : Place} (hp : p.Valid) :
    addrAt block' x' p = if p = p0 then a else addrAt block x p := by
  induction p with
  | root k => exact hroot k
  | entry p k ih =>
    have hsame := ih hp.table.1
    by_cases hpp : p = p0
    · -- the new block lists nothing, and nothing was below the place before
      rw [if_pos hpp] at hsame
      have hne : Place.entry p k ≠ p0 := fun h => Place.entry_ne_self p k (h.trans hpp.symm)
      rw [addrAt_entry (by rwa [hsame]), hsame, hempty, if_neg hne]
      rw [addrAt_entry_zero (by rw [hpp]; exact hnone)]
    · rw [if_neg hpp] at hsame
      by_cases hzero : addrAt block x p = 0
      · have hne : Place.entry p k ≠ p0 := fun h => hparent p k h hzero
        rw [addrAt_entry_zero (hsame.trans hzero), if_neg hne, addrAt_entry_zero hzero]
      · rw [addrAt_entry (by rwa [hsame]), hsame, hentry p k hp hzero, addrAt_entry hzero]

theorem entry_put32 (data : Bytes) (k k' : Nat) (a : BlockNo) :
    entry (put32 data (4 * k) a) k' = if k' = k then a else entry data k' := by
  unfold entry
  by_cases hk : k' = k
  · rw [if_pos hk, hk, get32_put32_same]
  · rw [if_neg hk, get32_put32_disjoint _ _ (by omega)]

/-! ## Allocation -/

theorem mem_listed {b c : BlockNo} {log : List BlockNo} : c ∈ listed b log ↔ c = b ∨ c ∈ log := by
  unfold listed
  split
  next h =>
    constructor
    · exact .inr
    · rintro (rfl | hc)
      · exact h
      · exact hc
  next h => rw [List.mem_append, List.mem_singleton, or_comm]

/-- The state after `balloc` has returned block `a`. -/
def taken (sb : Superblock) (s : State) (a : BlockNo) : State :=
  { s with
    block := allocated sb s.block a.toNat
    log := listed a (listed (bblock sb a.toNat) s.log) }

/-- `balloc` returns a data block that nobody owns, or 0. -/
theorem wp_balloc_owned (hsb : sb.WellFormed) (h : Owned sb s) (hE : ∀ f, logFault f → E f) :
    wp (balloc sb) E (fun a s' => (a = 0 ∧ s' = s) ∨
      (a ∈ area sb ∧ used sb s.block a.toNat = false ∧ s' = taken sb s a)) s := by
  refine wp_mono (wp_balloc hE) fun a s' hs' => ?_
  obtain ⟨rfl, rfl⟩ := hs'
  unfold allocAddr afterAlloc
  cases hfree : firstFree sb s.block with
  | none => exact .inl ⟨rfl, rfl⟩
  | some f =>
    have hspec : f < sb.size ∧ used sb s.block f = false := by
      refine freeFrom_spec (n := (sb.size + BPB - 1) / BPB) (m := 0) ?_
      rw [Nat.zero_mul]
      exact hfree
    have hsize := hsb.size
    have hnat : (BitVec.ofNat 32 f).toNat = f := by
      rw [BitVec.toNat_ofNat]
      exact Nat.mod_eq_of_lt (by omega)
    have hlow : datastart sb ≤ f := by
      by_contra hno
      rw [h.system f (by omega)] at hspec
      exact absurd hspec.2 (by simp)
    refine .inr ⟨?_, ?_, ?_⟩
    · rw [Option.getD_some]
      refine ⟨?_, ?_⟩
      · rw [hnat]
        exact hlow
      · rw [hnat]
        exact hspec.1
    · rw [Option.getD_some, hnat]
      exact hspec.2
    · rw [Option.getD_some, taken, hnat]

section Taken

variable (hsb : sb.WellFormed) (ha : a ∈ area sb)

theorem taken_block_self : (taken sb s a).block a = fun _ => 0 := by
  simp only [taken, allocated, BitVec.ofNat_toNat, BitVec.setWidth_eq, update_self]

theorem taken_block_ne (hb : b ≠ a) (hmap : b ≠ bblock sb a.toNat) :
    (taken sb s a).block b = s.block b := by
  simp only [taken, allocated, BitVec.ofNat_toNat, BitVec.setWidth_eq, update_of_ne hb,
    update_of_ne hmap]

include hsb ha in
theorem used_taken (hn : n < mapBits sb) :
    used sb (taken sb s a).block n = if n = a.toNat then true else used sb s.block n := by
  have hne : bblock sb n ≠ a := fun h => bblock_not_area hsb hn (h ▸ ha)
  simp only [taken, allocated, BitVec.ofNat_toNat, BitVec.setWidth_eq, used_update_ne hne]
  exact used_set_bit hsb hn (area_lt_mapBits ha)

end Taken

/-! ## What an allocation leaves alone -/

/-- Work on inode `i`: what it had it still has, and the other inodes and their data are as
before. -/
structure Work (sb : Superblock) (i : Inum) (s s' : State) : Prop where
  owned : Owned sb s'
  kept : ∀ o ∈ owners sb, addr s o ≠ 0 → addr s' o = addr s o
  others : ∀ o ∈ owners sb, o.1 ≠ i → addr s' o = addr s o
  fresh : ∀ o ∈ owners sb, addr s' o ≠ addr s o → addr s' o ∈ s'.log
  foreign : ∀ o ∈ owners sb, o.1 ≠ i → addr s o ≠ 0 → s'.block (addr s o) = s.block (addr s o)
  spare : ∀ n, sb.size ≤ n → n < mapBits sb → used sb s'.block n = used sb s.block n
  inodes : ∀ b, b.toNat < sb.bmapstart → s'.block b = s.block b
  inode : ∃ addrs, s'.inode = update s.inode i { s.inode i with addrs := addrs }
  log : ∀ b ∈ s.log, b ∈ s'.log
  disk : s'.disk = s.disk
  ops : s'.ops = s.ops
  logsize : s'.logsize = s.logsize

theorem Work.refl (h : Owned sb s) (i : Inum) : Work sb i s s where
  owned := h
  kept _ _ _ := rfl
  others _ _ _ := rfl
  fresh _ _ hne := absurd rfl hne
  foreign _ _ _ _ := rfl
  spare _ _ _ := rfl
  inodes _ _ := rfl
  inode := ⟨(s.inode i).addrs, by rw [update_eq_self]⟩
  log _ hb := hb
  disk := rfl
  ops := rfl
  logsize := rfl

theorem Work.trans (h : Work sb i s1 s2) (h' : Work sb i s2 s3) :
    Work sb i s1 s3 where
  owned := h'.owned
  kept o ho hne := by
    have hone := h.kept o ho hne
    rw [h'.kept o ho (by rwa [hone]), hone]
  others o ho hi := (h'.others o ho hi).trans (h.others o ho hi)
  fresh o ho hne := by
    by_cases hsame : addr s2 o = addr s1 o
    · exact h'.fresh o ho (by rwa [hsame])
    · have hzero : addr s2 o ≠ 0 := by
        intro hzero
        by_cases hold : addr s1 o = 0
        · exact hsame (hzero.trans hold.symm)
        · exact hsame (h.kept o ho hold)
      rw [h'.kept o ho hzero]
      exact h'.log _ (h.fresh o ho hsame)
  foreign o ho hi hne := by
    have hone := h.kept o ho hne
    have htwo := h'.foreign o ho hi (by rwa [hone])
    rw [hone] at htwo
    rw [htwo, h.foreign o ho hi hne]
  spare n hn hbits := (h'.spare n hn hbits).trans (h.spare n hn hbits)
  inodes b hb := (h'.inodes b hb).trans (h.inodes b hb)
  inode := by
    obtain ⟨addrs, hone⟩ := h.inode
    obtain ⟨addrs', htwo⟩ := h'.inode
    refine ⟨addrs', ?_⟩
    rw [htwo, hone, update_idem, update_self]
  log b hb := h'.log b (h.log b hb)
  disk := h'.disk.trans h.disk
  ops := h'.ops.trans h.ops
  logsize := h'.logsize.trans h.logsize

/-- Every block that has changed is in the log. -/
def Logged (s s' : State) : Prop := ∀ b, b ∉ s'.log → s'.block b = s.block b

/-- What inode `i` has gained: some of its places have an address now that had none, and its data
is the same. -/
structure Grew (sb : Superblock) (i : Inum) (s s' : State) : Prop extends Work sb i s s' where
  logged : Logged s s'
  data : ∀ o ∈ owners sb, o.2.height = 0 → addr s o ≠ 0 → s'.block (addr s o) = s.block (addr s o)

theorem Grew.refl (h : Owned sb s) (i : Inum) : Grew sb i s s :=
  ⟨.refl h i, fun _ _ => rfl, fun _ _ _ _ => rfl⟩

theorem Logged.trans (h : Logged s1 s2) (h' : Logged s2 s3) (hlog : ∀ b ∈ s2.log, b ∈ s3.log) :
    Logged s1 s3 := by
  intro b hb
  rw [h' b hb, h b fun hin => hb (hlog b hin)]

theorem Grew.trans (h : Grew sb i s1 s2) (h' : Grew sb i s2 s3) :
    Grew sb i s1 s3 := by
  refine ⟨h.toWork.trans h'.toWork, h.logged.trans h'.logged h'.log, fun o ho hheight hne => ?_⟩
  have hone := h.kept o ho hne
  have htwo := h'.data o ho hheight (by rwa [hone])
  rw [hone] at htwo
  rw [htwo, h.data o ho hheight hne]

theorem owned_ne_taken (h : Owned sb s) (ha : a ∈ area sb) (hfree : used sb s.block a.toNat = false)
    {o : Owner} (ho : o ∈ owners sb) : addr s o ≠ a :=
  h.exact.not_owned ha (by simp [hfree]) ho

theorem owned_ne_map (hsb : sb.WellFormed) (h : Owned sb s) (ha : a ∈ area sb) {o : Owner}
    (ho : o ∈ owners sb) (hne : addr s o ≠ 0) : addr s o ≠ bblock sb a.toNat :=
  fun heq => bblock_not_area hsb (area_lt_mapBits ha) (heq ▸ h.exact.inside o ho hne)

/-- Place `p` of inode `i` has got the block `a` that `balloc` has returned. The address is written
to the inode, or to the block of addresses that lists it. -/
structure Assigned (sb : Superblock) (i : Inum) (p : Place) (a : BlockNo) (s s' : State) :
    Prop where
  place : (i, p) ∈ owners sb
  none : addr s (i, p) = 0
  inside : a ∈ area sb
  free : used sb s.block a.toNat = false
  block : ∀ b, b ≠ a → b ≠ bblock sb a.toNat → (∀ q k, p = .entry q k → b ≠ addr s (i, q)) →
    s'.block b = s.block b
  self : s'.block a = fun _ => 0
  map : s'.block (bblock sb a.toNat) = (taken sb s a).block (bblock sb a.toNat)
  parent : ∀ q k, p = .entry q k → addr s (i, q) ≠ 0 ∧
    s'.block (addr s (i, q)) = put32 (s.block (addr s (i, q))) (4 * k) a
  inode : s'.inode = update s.inode i { s.inode i with
    addrs := fun k => if Place.root k = p then a else (s.inode i).addrs k }
  log : ∀ b, b ∈ s'.log ↔ b = a ∨ b = bblock sb a.toNat ∨ b ∈ s.log ∨
    ∃ q k, p = .entry q k ∧ b = addr s (i, q)
  disk : s'.disk = s.disk
  ops : s'.ops = s.ops
  logsize : s'.logsize = s.logsize

section Assigned

variable {p : Place} (h : Assigned sb i p a s s')

include h

/-- The block of addresses that is written to is a table of the inode. -/
theorem Assigned.table {q : Place} {k : Nat} (hq : p = .entry q k) :
    (i, q) ∈ owners sb ∧ 0 < q.height := by
  have hvalid : p.Valid := h.place.2
  rw [hq] at hvalid
  exact ⟨⟨h.place.1, hvalid.table.1⟩, hvalid.table.2⟩

section

variable (hsb : sb.WellFormed) (howned : Owned sb s)

include hsb howned

theorem Assigned.block_of_owner {o : Owner}
    (ho : o ∈ owners sb) (hne : addr s o ≠ 0) (hnot : ∀ q k, p = .entry q k → o ≠ (i, q)) :
    s'.block (addr s o) = s.block (addr s o) := by
  refine h.block _ (owned_ne_taken howned h.inside h.free ho)
    (owned_ne_map hsb howned h.inside ho hne) ?_
  intro q k hq heq
  exact hnot q k hq (howned.exact.inj o ho (i, q) (h.table hq).1 hne heq)

theorem Assigned.entries {q : Place} {k : Nat}
    (hv : (Place.entry q k).Valid) (hne : addr s (i, q) ≠ 0) :
    entry (s'.block (addr s (i, q))) k =
      if Place.entry q k = p then a else entry (s.block (addr s (i, q))) k := by
  by_cases hparent : ∃ k', p = .entry q k'
  · obtain ⟨k', rfl⟩ := hparent
    rw [(h.parent q k' rfl).2, entry_put32]
    simp only [Place.entry.injEq, true_and]
  · have hsame := h.block_of_owner hsb howned (o := (i, q)) ⟨h.place.1, hv.table.1⟩ hne ?_
    · rw [hsame, if_neg fun heq => hparent ⟨k, heq.symm⟩]
    · intro q' k' hq heq
      cases heq
      exact hparent ⟨k', hq⟩

theorem Assigned.addr_eq {o : Owner}
    (ho : o ∈ owners sb) : addr s' o = if o = (i, p) then a else addr s o := by
  have ha : a ≠ 0 := by
    rintro rfl
    exact zero_not_area h.inside
  obtain ⟨j, q⟩ := o
  by_cases hji : j = i
  · subst hji
    have hgrow : addr s' (j, q) = if q = p then a else addr s (j, q) := by
      refine addrAt_grow (x := s.inode j) ?_ (fun q k hv hne => h.entries hsb howned hv hne) ?_
        h.none ha (fun q k hq => (h.parent q k hq.symm).1) ho.2
      · intro k
        rw [h.inode, update_self]
      · intro k
        rw [h.self]
        exact entry_zero k
    rw [hgrow]
    simp only [Prod.mk.injEq, true_and]
  · rw [if_neg fun heq => hji (congrArg Prod.fst heq)]
    have hx : s'.inode j = s.inode j := by rw [h.inode, update_of_ne hji]
    rw [addr, addr, hx]
    refine addrAt_frame (fun q hv hheight hne => ?_) ho.2
    exact h.block_of_owner hsb howned (o := (j, q)) ⟨ho.1, hv⟩ hne
      fun _ _ _ heq => hji (congrArg Prod.fst heq)

theorem Assigned.used_eq (hn : n < mapBits sb) :
    used sb s'.block n = if n = a.toNat then true else used sb s.block n := by
  rw [← used_taken hsb h.inside hn]
  unfold used
  by_cases hsame : bblock sb n = bblock sb a.toNat
  · rw [hsame, h.map]
  · have hna : bblock sb n ≠ a := fun heq => bblock_not_area hsb hn (heq ▸ h.inside)
    rw [taken_block_ne hna hsame, h.block _ hna hsame]
    intro q k hq heq
    have harea := howned.exact.inside (i, q) (h.table hq).1 (h.parent q k hq).1
    exact bblock_not_area hsb hn (heq ▸ harea)

theorem Assigned.owned : Owned sb s' := by
  refine ⟨howned.exact.take h.place h.none h.inside (by simp [h.free]) ?_ ?_ ?_ zero_not_area, ?_⟩
  · intro c hc
    rw [h.used_eq hsb howned (area_lt_mapBits hc)]
    by_cases hca : c = a
    · simp [hca]
    · have hnat : c.toNat ≠ a.toNat := fun heq => hca (BitVec.eq_of_toNat_eq heq)
      simp [hca, hnat]
  · rw [h.addr_eq hsb howned h.place, if_pos rfl]
  · intro o ho hne
    rw [h.addr_eq hsb howned ho, if_neg hne]
  · intro n hn
    have hdata := hsb.data
    have hsize := size_lt_mapBits sb
    rw [h.used_eq hsb howned (by omega), howned.system n hn, ite_self]

theorem Assigned.work : Work sb i s s' where
  owned := h.owned hsb howned
  kept o ho hne := by
    have hop : o ≠ (i, p) := by
      rintro rfl
      exact hne h.none
    rw [h.addr_eq hsb howned ho, if_neg hop]
  others o ho hi := by
    rw [h.addr_eq hsb howned ho, if_neg fun heq => hi (congrArg Prod.fst heq)]
  fresh o ho hne := by
    rw [h.addr_eq hsb howned ho] at hne ⊢
    by_cases hop : o = (i, p)
    · rw [if_pos hop]
      exact (h.log a).mpr (.inl rfl)
    · rw [if_neg hop] at hne
      exact absurd rfl hne
  foreign o ho hi hne := by
    refine h.block_of_owner hsb howned ho hne fun q k hq heq => ?_
    exact hi (congrArg Prod.fst heq)
  spare n hn hbits := by
    have hsize := h.inside.2
    rw [h.used_eq hsb howned hbits, if_neg (by omega)]
  inodes b hb := by
    have hstart := bmapstart_lt_datastart sb
    have hrange := bblock_range hsb (area_lt_mapBits h.inside)
    have hnot : b ∉ area sb := fun hin => absurd hin.1 (by omega)
    refine h.block b (fun heq => hnot (heq ▸ h.inside)) ?_ ?_
    · rintro rfl
      omega
    · rintro q k hq rfl
      exact hnot (howned.exact.inside (i, q) (h.table hq).1 (h.parent q k hq).1)
  inode := ⟨_, h.inode⟩
  log b hb := (h.log b).mpr (.inr (.inr (.inl hb)))
  disk := h.disk
  ops := h.ops
  logsize := h.logsize

theorem Assigned.grew : Grew sb i s s' := by
  refine ⟨h.work hsb howned, fun b hb => ?_, fun o ho hheight hne => ?_⟩
  · rw [h.log] at hb
    push Not at hb
    exact h.block b hb.1 hb.2.1 fun q k hq => hb.2.2.2 q k hq
  · refine h.block_of_owner hsb howned ho hne fun q k hq heq => ?_
    have hpos := (h.table hq).2
    rw [heq] at hheight
    exact absurd hheight (by show ¬q.height = 0; omega)

end

end Assigned

/-! ## `bmap` -/

/-- The place of block `bn` of a file. -/
def dataPlace (bn : Nat) : Place :=
  if h : bn < NDIRECT then .root ⟨bn, lt_addrs h⟩
  else if bn - NDIRECT < NINDIRECT then .entry (.root single) (bn - NDIRECT)
  else .entry (.entry (.root double) ((bn - NDIRECT - NINDIRECT) / 256))
    ((bn - NDIRECT - NINDIRECT) % 256)

theorem addrOf_assigned {k : Fin (NDIRECT + 2)} (hi : i < sb.ninodes) (ha : a ∈ area sb)
    (hfree : used sb s.block a.toNat = false) (hnone : (s.inode i).addrs k = 0) :
    Assigned sb i (.root k) a s { taken sb s a with
      inode := update s.inode i { s.inode i with
        addrs := update (s.inode i).addrs k a } } where
  place := ⟨hi, trivial⟩
  none := hnone
  inside := ha
  free := hfree
  block _ hb hmap _ := taken_block_ne hb hmap
  self := taken_block_self
  map := rfl
  parent _ _ hq := by cases hq
  inode := by
    have haddrs : update (s.inode i).addrs k a =
        fun k' => if Place.root k' = .root k then a else (s.inode i).addrs k' := by
      funext k'
      simp only [update_apply, Place.root.injEq]
    rw [haddrs]
  log b := by
    simp only [taken, mem_listed, reduceCtorEq, false_and, exists_false, or_false]
  disk := rfl
  ops := rfl
  logsize := rfl

/-- `addrOf` finds the address, or allocates it, or fails. -/
theorem wp_addrOf_grew {k : Fin (NDIRECT + 2)} (hsb : sb.WellFormed) (h : Owned sb s)
    (hi : i < sb.ninodes) (hE : ∀ f, logFault f → E f) :
    wp (addrOf sb i k) E (fun a s' => Grew sb i s s' ∧ a = addr s' (i, .root k)) s := by
  simp only [addrOf, addrOfWith, wp_bind, wp_get]
  by_cases hzero : (s.inode i).addrs k = 0
  · rw [if_pos hzero]
    refine wp_seq (wp_balloc_owned hsb h hE) ?_
    rintro a s1 (⟨rfl, rfl⟩ | ⟨ha, hfree, rfl⟩)
    · rw [if_pos rfl, wp_pure]
      exact ⟨.refl h i, hzero.symm⟩
    · have ha0 : a ≠ 0 := by
        rintro rfl
        exact zero_not_area ha
      have hassigned := addrOf_assigned hi ha hfree hzero
      rw [if_neg ha0, setAddr, wp_bind, wp_setInode, wp_pure]
      refine ⟨hassigned.grew hsb h, ?_⟩
      exact ((hassigned.addr_eq hsb h hassigned.place).trans (if_pos rfl)).symm
  · rw [if_neg hzero, wp_pure]
    exact ⟨.refl h i, rfl⟩

/-- The state once entry `k` of the block of addresses `t` has got the block `a` that `balloc` has
returned. -/
def listedAt (sb : Superblock) (s : State) (t : BlockNo) (k : Nat) (a : BlockNo) : State :=
  { taken sb s a with
    block := update (taken sb s a).block t (put32 ((taken sb s a).block t) (4 * k) a)
    log := listed t (taken sb s a).log }

theorem entry_assigned {p : Place} {k : Nat} (hsb : sb.WellFormed) (h : Owned sb s)
    (hplace : (i, Place.entry p k) ∈ owners sb) (hp : addr s (i, p) ≠ 0)
    (hnone : entry (s.block (addr s (i, p))) k = 0) (ha : a ∈ area sb)
    (hfree : used sb s.block a.toNat = false) :
    Assigned sb i (.entry p k) a s (listedAt sb s (addr s (i, p)) k a) := by
  have htable : (i, p) ∈ owners sb := ⟨hplace.1, hplace.2.table.1⟩
  have hna : addr s (i, p) ≠ a := owned_ne_taken h ha hfree htable
  have hmap : addr s (i, p) ≠ bblock sb a.toNat := owned_ne_map hsb h ha htable hp
  refine ⟨hplace, (addrAt_entry hp).trans hnone, ha, hfree, ?_, ?_, ?_, ?_, ?_, ?_, rfl, rfl, rfl⟩
  · intro b hb hmapb hother
    simp only [listedAt, update_of_ne (hother p k rfl)]
    exact taken_block_ne hb hmapb
  · simp only [listedAt, update_of_ne hna.symm]
    exact taken_block_self
  · simp only [listedAt, update_of_ne hmap.symm]
  · rintro q k' ⟨⟩
    simp only [listedAt, update_self, taken_block_ne hna hmap]
    exact ⟨hp, trivial⟩
  · simp only [listedAt, taken, reduceCtorEq, if_false, update_eq_self]
  · intro b
    simp only [listedAt, taken, mem_listed]
    constructor
    · rintro (rfl | hb | hb | hb)
      · exact .inr (.inr (.inr ⟨p, k, rfl, rfl⟩))
      · exact .inl hb
      · exact .inr (.inl hb)
      · exact .inr (.inr (.inl hb))
    · rintro (hb | hb | hb | ⟨_, _, ⟨⟩, rfl⟩)
      · exact .inr (.inl hb)
      · exact .inr (.inr (.inl hb))
      · exact .inr (.inr (.inr hb))
      · exact .inl rfl

theorem Owned.with_held (h : Owned sb s) (held : List BlockNo) :
    Owned sb { s with held := held } := ⟨h.exact, h.system⟩

theorem Work.with_held (h : Work sb i s s') (held : List BlockNo) :
    Work sb i s { s' with held := held } :=
  ⟨h.owned.with_held held, h.kept, h.others, h.fresh, h.foreign, h.spare, h.inodes, h.inode,
    h.log, h.disk, h.ops, h.logsize⟩

theorem Grew.with_held (h : Grew sb i s s') (held : List BlockNo) :
    Grew sb i s { s' with held := held } := ⟨h.toWork.with_held held, h.logged, h.data⟩

section Entry

variable {p : Place} {k : Nat} (hsb : sb.WellFormed) (h : Owned sb s)
  (hplace : (i, Place.entry p k) ∈ owners sb) (hp : addr s (i, p) ≠ 0)
  (hE : ∀ f, logFault f → E f)

include hsb h hplace hp

theorem grew_listed_at (hnone : entry (s.block (addr s (i, p))) k = 0) (ha : a ∈ area sb)
    (hfree : used sb s.block a.toNat = false) (held : List BlockNo) :
    Grew sb i s { listedAt sb s (addr s (i, p)) k a with held := held } ∧
      a = addr (listedAt sb s (addr s (i, p)) k a) (i, .entry p k) := by
  have hassigned := entry_assigned hsb h hplace hp hnone ha hfree
  refine ⟨(hassigned.grew hsb h).with_held held, ?_⟩
  exact ((hassigned.addr_eq hsb h hplace).trans (if_pos rfl)).symm

include hE

/-- `lastEntry` finds the address in the table at place `p`, or allocates it, or fails. -/
theorem wp_lastEntry_grew :
    wp (lastEntry sb (addr s (i, p)) k) E
      (fun a s' => Grew sb i s s' ∧ a = addr s' (i, .entry p k)) s := by
  have hlisted : addr s (i, .entry p k) = entry (s.block (addr s (i, p))) k := addrAt_entry hp
  simp only [lastEntry, lastEntryWith, wp_bind]
  refine wp_bread_of hE fun _ => ?_
  rw [wp_get]
  by_cases hzero : entry (s.block (addr s (i, p))) k = 0
  · rw [if_pos hzero]
    refine wp_seq (wp_balloc_owned hsb (h.with_held _) hE) ?_
    rintro a s2 (⟨rfl, rfl⟩ | ⟨ha, hfree, rfl⟩)
    · simp only [ne_eq, not_true, if_false, wp_bind, wp_pure]
      exact wp_brelse rfl ⟨.refl h i, (hlisted.trans hzero).symm⟩
    · have ha0 : a ≠ 0 := fun hno => zero_not_area (hno ▸ ha)
      simp only [ne_eq, ha0, not_false_eq_true, if_true, wp_bind, wp_setData]
      exact wp_logWrite_of hE (wp_brelse rfl (grew_listed_at hsb h hplace hp hzero ha hfree _))
  · rw [if_neg hzero, wp_bind]
    exact wp_brelse rfl ⟨.refl h i, hlisted.symm⟩

/-- The same for `firstEntry`, whether it releases the buffer or not. -/
theorem wp_firstEntry_grew :
    wp (firstEntry sb (addr s (i, p)) k) E
      (fun a s' => Grew sb i s s' ∧ a = addr s' (i, .entry p k)) s := by
  have hlisted : addr s (i, .entry p k) = entry (s.block (addr s (i, p))) k := addrAt_entry hp
  simp only [firstEntry, firstEntryWith, wp_bind]
  refine wp_bread_of hE fun _ => ?_
  rw [wp_get]
  by_cases hzero : entry (s.block (addr s (i, p))) k = 0
  · rw [if_pos hzero]
    refine wp_seq (wp_balloc_owned hsb (h.with_held _) hE) ?_
    rintro a s2 (⟨rfl, rfl⟩ | ⟨ha, hfree, rfl⟩)
    · rw [if_pos rfl, wp_pure]
      exact ⟨(Grew.refl h i).with_held _, (hlisted.trans hzero).symm⟩
    · have ha0 : a ≠ 0 := fun hno => zero_not_area (hno ▸ ha)
      simp only [ha0, if_false, wp_bind, wp_setData]
      exact wp_logWrite_of hE (wp_brelse rfl (grew_listed_at hsb h hplace hp hzero ha hfree _))
  · rw [if_neg hzero, wp_bind]
    exact wp_brelse rfl ⟨.refl h i, hlisted.symm⟩

end Entry

theorem height_single : (Place.root single).height = 1 := by decide

theorem height_double : (Place.root double).height = 2 := by decide

/-- `bmap` finds the address of a block, or allocates it, or fails; whatever it has allocated is
owned by the inode. -/
theorem wp_bmap_grew {bn : Nat} (hsb : sb.WellFormed) (h : Owned sb s) (hi : i < sb.ninodes)
    (hE : ∀ f, logFault f → E f) (hbn : bn < MAXFILE) :
    wp (bmap sb i bn) E (fun a s' => Grew sb i s s' ∧ a = addr s' (i, dataPlace bn)) s := by
  by_cases hdirect : bn < NDIRECT
  · rw [bmap_direct hdirect, dataPlace, dif_pos hdirect]
    exact wp_addrOf_grew hsb h hi hE
  by_cases hsingle : bn - NDIRECT < NINDIRECT
  · rw [bmap_single (by omega) hsingle, dataPlace, dif_neg hdirect, if_pos hsingle]
    refine wp_seq (wp_addrOf_grew hsb h hi hE) fun t s1 hs1 => ?_
    obtain ⟨hgrew, rfl⟩ := hs1
    by_cases hzero : addr s1 (i, .root single) = 0
    · rw [if_pos hzero, wp_pure]
      exact ⟨hgrew, (addrAt_entry_zero hzero).symm⟩
    · rw [if_neg hzero]
      have hplace : (i, Place.entry (.root single) (bn - NDIRECT)) ∈ owners sb :=
        ⟨hi, trivial, by rw [height_single]; decide, hsingle⟩
      refine wp_mono (wp_lastEntry_grew hsb hgrew.owned hplace hzero hE) fun a s' hs' => ?_
      exact ⟨hgrew.trans hs'.1, hs'.2⟩
  · have hdouble : bn - NDIRECT - NINDIRECT < NDINDIRECT := by
      unfold MAXFILE at hbn
      omega
    rw [bmap_double (by omega) (by omega) hdouble, dataPlace, dif_neg hdirect, if_neg hsingle,
      wp_bind]
    refine wp_mono (wp_addrOf_grew hsb h hi hE) fun t s1 hs1 => ?_
    obtain ⟨hgrew, rfl⟩ := hs1
    generalize hm : bn - NDIRECT - NINDIRECT = m at *
    by_cases hzero : addr s1 (i, .root double) = 0
    · rw [if_pos hzero, wp_pure]
      exact ⟨hgrew, (addrAt_entry_zero (addrAt_entry_zero hzero)).symm⟩
    · rw [if_neg hzero, wp_bind]
      have hplace1 : (i, Place.entry (.root double) (m / 256)) ∈ owners sb := by
        refine ⟨hi, trivial, by rw [height_double]; decide, ?_⟩
        rw [Nat.div_lt_iff_lt_mul (by decide)]
        exact hdouble
      refine wp_mono (wp_firstEntry_grew hsb hgrew.owned hplace1 hzero hE) fun t s2 hs2 => ?_
      obtain ⟨hgrew2, rfl⟩ := hs2
      by_cases hzero2 : addr s2 (i, .entry (.root double) (m / 256)) = 0
      · rw [if_pos hzero2, wp_pure]
        exact ⟨hgrew.trans hgrew2, (addrAt_entry_zero hzero2).symm⟩
      · rw [if_neg hzero2]
        have hplace2 : (i, Place.entry (.entry (.root double) (m / 256)) (m % 256)) ∈ owners sb :=
          ⟨hi, hplace1.2, by show 0 < (Place.root double).height - 1; rw [height_double]; decide,
            Nat.mod_lt _ (by decide)⟩
        refine wp_mono (wp_lastEntry_grew hsb hgrew2.owned hplace2 hzero2 hE) fun a s' hs' => ?_
        exact ⟨(hgrew.trans hgrew2).trans hs'.1, hs'.2⟩

end Xv6.Fs.Block
