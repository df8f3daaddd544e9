import Xv6.Fs.Ownership

/-!
# The contents of a file

`writei` puts bytes into the blocks of a file one slice at a time, and a slice may be the last
because no block is free or because `copyin` meets a page that is not mapped. `wp_writei` says what
the file has in each case: the bytes that are counted, and after a failed `copyin` also those of the
slice that came before the page, in a buffer that `writei` has not logged.
-/

namespace Xv6.Fs.Block

open Function

variable {sb : Superblock} {s s' : State} {i j : Inum} {a b t : BlockNo} {E : Fault → Prop}
  {n k : Nat} {src : Source}

/-! ## Inodes on disk -/

/-- A byte of a block with a `struct dinode` written is a byte of it or as before. -/
theorem putDinode_outside {data : Bytes} {x : Inode} (h : n < 64 * k ∨ 64 * k + 64 ≤ n) :
    putDinode data k x n = data n := by
  have haddrs : ¬(64 * k + 12 ≤ n ∧ n < 64 * k + 12 + 4 * (NDIRECT + 2)) := by
    simp only [NDIRECT]
    omega
  simp only [putDinode, putAddrs, dif_neg haddrs]
  rw [put32_outside _ _ (by omega), put16_outside _ _ (by omega), put16_outside _ _ (by omega),
    put16_outside _ _ (by omega), put16_outside _ _ (by omega)]

theorem putAddrs_outside {data : Bytes} {off : Nat} {addrs : Fin (NDIRECT + 2) → BlockNo}
    (h : n < off) : putAddrs data off addrs n = data n := by
  rw [putAddrs, dif_neg (by omega)]

theorem get32_putAddrs (data : Bytes) (off : Nat) (addrs : Fin (NDIRECT + 2) → BlockNo)
    (k : Fin (NDIRECT + 2)) : get32 (putAddrs data off addrs) (off + 4 * k) = addrs k := by
  have hk : k.val < 13 := k.isLt
  have hbyte : ∀ j < 4, putAddrs data off addrs (off + 4 * k + j) = byteAt (addrs k) j := by
    intro j hj
    have hin : off ≤ off + 4 * k + j ∧ off + 4 * k + j < off + 4 * (NDIRECT + 2) := by
      simp only [NDIRECT]
      omega
    have hdiv : (off + 4 * k + j - off) / 4 = k := by omega
    have hmod : (off + 4 * k + j - off) % 4 = j := by omega
    simp only [putAddrs, dif_pos hin, hdiv, hmod]
  unfold get32
  rw [hbyte 3 (by decide), hbyte 2 (by decide), hbyte 1 (by decide)]
  have hzero := hbyte 0 (by decide)
  rw [Nat.add_zero] at hzero
  rw [hzero]
  exact bytes_append_32 _

theorem dinode_putDinode_same (data : Bytes) (k : Nat) (x : Inode) :
    dinode (putDinode data k x) k = x := by
  obtain ⟨type, major, minor, nlink, size, addrs⟩ := x
  have haddrs : ∀ n < 64 * k + 12, putAddrs (put32 (put16 (put16 (put16 (put16 data (64 * k) type)
      (64 * k + 2) major) (64 * k + 4) minor) (64 * k + 6) nlink) (64 * k + 8) size) (64 * k + 12)
      addrs n = _ := fun n hn => putAddrs_outside hn
  simp only [dinode, putDinode, Inode.mk.injEq]
  refine ⟨?_, ?_, ?_, ?_, ?_, ?_⟩
  · refine (get16_congr fun n hlow hhigh => ?_).trans (get16_put16_same data (64 * k) type)
    rw [haddrs n (by omega), put32_outside _ _ (by omega), put16_outside _ _ (by omega),
      put16_outside _ _ (by omega), put16_outside _ _ (by omega)]
  · refine (get16_congr fun n hlow hhigh => ?_).trans
      (get16_put16_same (put16 data (64 * k) type) (64 * k + 2) major)
    rw [haddrs n (by omega), put32_outside _ _ (by omega), put16_outside _ _ (by omega),
      put16_outside _ _ (by omega)]
  · refine (get16_congr fun n hlow hhigh => ?_).trans (get16_put16_same
      (put16 (put16 data (64 * k) type) (64 * k + 2) major) (64 * k + 4) minor)
    rw [haddrs n (by omega), put32_outside _ _ (by omega), put16_outside _ _ (by omega)]
  · refine (get16_congr fun n hlow hhigh => ?_).trans (get16_put16_same (put16
      (put16 (put16 data (64 * k) type) (64 * k + 2) major) (64 * k + 4) minor) (64 * k + 6) nlink)
    rw [haddrs n (by omega), put32_outside _ _ (by omega)]
  · rw [get32_congr fun n hlow hhigh => haddrs n (by omega), get32_put32_same]
  · funext j
    exact get32_putAddrs ..

theorem dinode_putDinode_ne (data : Bytes) {k' : Nat} (x : Inode) (hk : k' ≠ k) :
    dinode (putDinode data k x) k' = dinode data k' := by
  have hout : ∀ n, 64 * k' ≤ n → n < 64 * k' + 64 → putDinode data k x n = data n :=
    fun n hlow hhigh => putDinode_outside (by omega)
  simp only [dinode, Inode.mk.injEq]
  refine ⟨?_, ?_, ?_, ?_, ?_, ?_⟩
  · exact get16_congr fun n hlow hhigh => hout n (by omega) (by omega)
  · exact get16_congr fun n hlow hhigh => hout n (by omega) (by omega)
  · exact get16_congr fun n hlow hhigh => hout n (by omega) (by omega)
  · exact get16_congr fun n hlow hhigh => hout n (by omega) (by omega)
  · exact get32_congr fun n hlow hhigh => hout n (by omega) (by omega)
  · funext j
    have hj : j.val < 13 := j.isLt
    exact get32_congr fun n hlow hhigh => hout n (by omega) (by omega)

/-- The inode of `j` as it is on disk, or will be once the log is committed. -/
def onDisk (sb : Superblock) (s : State) (j : Inum) : Inode :=
  dinode (s.block (iblock sb j)) (j % IPB)

/-- The state after `iupdate`. -/
def updated (sb : Superblock) (i : Inum) (s : State) : State :=
  { s with
    block := update s.block (iblock sb i)
      (putDinode (s.block (iblock sb i)) (i % IPB) (s.inode i))
    log := listed (iblock sb i) s.log }

theorem wp_iupdate (hE : ∀ f, logFault f → E f) :
    wp (iupdate sb i) E (fun _ s' => s' = updated sb i s) s := by
  simp only [iupdate, wp_bind]
  refine wp_bread_of hE fun _ => ?_
  simp only [wp_get, wp_setData]
  exact wp_logWrite_of hE (wp_brelse rfl rfl)

theorem updated_block_ne (hb : b ≠ iblock sb i) : (updated sb i s).block b = s.block b :=
  update_of_ne hb _ _

theorem iblock_inj (hsb : sb.WellFormed) (hi : i < sb.ninodes) (hj : j < sb.ninodes)
    (hblock : iblock sb j = iblock sb i) (hslot : j % IPB = i % IPB) : j = i := by
  have hnat := congrArg BitVec.toNat hblock
  rw [iblock_toNat hsb hi, iblock_toNat hsb hj] at hnat
  have hdiv : j / IPB = i / IPB := Nat.add_right_cancel hnat
  rw [← Nat.div_add_mod j IPB, ← Nat.div_add_mod i IPB, hslot, hdiv]

theorem onDisk_updated_self : onDisk sb (updated sb i s) i = s.inode i := by
  simp only [onDisk, updated, update_self]
  exact dinode_putDinode_same ..

theorem onDisk_updated_ne (hsb : sb.WellFormed) (hi : i < sb.ninodes) (hj : j < sb.ninodes)
    (hne : j ≠ i) : onDisk sb (updated sb i s) j = onDisk sb s j := by
  simp only [onDisk, updated]
  by_cases hblock : iblock sb j = iblock sb i
  · rw [hblock, update_self]
    exact dinode_putDinode_ne _ _ fun hslot => hne (iblock_inj hsb hi hj hblock hslot)
  · rw [update_of_ne hblock]

/-- A block that no owner has and that is not in the free map can hold anything. -/
theorem addr_put_system (h : Owned sb s) (hb : b ∉ area sb) {data : Bytes} {inode : Inum → Inode}
    (hinode : ∀ j, (inode j).addrs = (s.inode j).addrs) {s' : State}
    (hblock : s'.block = update s.block b data) (hs' : s'.inode = inode) {o : Owner}
    (ho : o ∈ owners sb) : addr s' o = addr s o := by
  have hx : ∀ block, addrAt block (s'.inode o.1) o.2 = addrAt block (s.inode o.1) o.2 := by
    intro block
    induction o.2 with
    | root k => rw [addrAt, addrAt, hs', hinode]
    | entry p k ih => rw [addrAt, addrAt, ih]
  rw [addr, hx, hblock]
  refine addrAt_frame (fun p hv _ hne => update_of_ne ?_ _ _) ho.2
  rintro rfl
  exact hb (h.exact.inside (o.1, p) ⟨ho.1, hv⟩ hne)

theorem used_updated (hsb : sb.WellFormed) (hi : i < sb.ninodes) (hn : n < mapBits sb) :
    used sb (updated sb i s).block n = used sb s.block n := by
  have hmap := bblock_range hsb hn
  have hlow := iblock_range hsb hi
  exact used_update_ne fun heq => by rw [heq] at hmap; omega

/-- Writing an inode and changing its other fields leaves the blocks to their owners. -/
theorem Owned.updated (hsb : sb.WellFormed) (h : Owned sb s) (hi : i < sb.ninodes)
    {inode : Inum → Inode} (hinode : ∀ j, (inode j).addrs = (s.inode j).addrs) :
    Owned sb (updated sb i { s with inode := inode }) ∧
      ∀ o ∈ owners sb, addr (updated sb i { s with inode := inode }) o = addr s o := by
  have haddr : ∀ o ∈ owners sb, addr (Block.updated sb i { s with inode := inode }) o = addr s o :=
    fun o ho => addr_put_system h (iblock_not_area hsb hi) hinode rfl rfl ho
  have hused : ∀ n < mapBits sb,
      used sb (Block.updated sb i { s with inode := inode }).block n = used sb s.block n :=
    fun n hn => used_updated hsb hi hn
  refine ⟨⟨h.exact.congr ?_ haddr, ?_⟩, haddr⟩
  · intro c hc
    rw [hused _ (area_lt_mapBits hc)]
  · intro n hn
    have hdata := hsb.data
    have hsize := size_lt_mapBits sb
    rw [hused n (by omega), h.system n hn]

/-! ## Data blocks -/

theorem dataPlace_valid {bn : Nat} (hbn : bn < MAXFILE) :
    (dataPlace bn).Valid ∧ (dataPlace bn).height = 0 := by
  unfold dataPlace
  by_cases hdirect : bn < NDIRECT
  · rw [dif_pos hdirect]
    refine ⟨trivial, ?_⟩
    have hsingle : (⟨bn, by omega⟩ : Fin (NDIRECT + 2)) ≠ single := by
      intro heq
      exact absurd (congrArg Fin.val heq) (by show bn ≠ NDIRECT; omega)
    have hdouble : (⟨bn, by omega⟩ : Fin (NDIRECT + 2)) ≠ double := by
      intro heq
      have hval : bn = NIRECT := congrArg Fin.val heq
      exact absurd hdirect (by rw [hval]; decide)
    rw [Place.height, if_neg hdouble, if_neg hsingle]
  rw [dif_neg hdirect]
  by_cases hsingle : bn - NDIRECT < NINDIRECT
  · rw [if_pos hsingle]
    exact ⟨⟨trivial, by rw [height_single]; decide, hsingle⟩, by rw [Place.height, height_single]⟩
  · rw [if_neg hsingle]
    have hm : bn - NDIRECT - NINDIRECT < NINDIRECT * NINDIRECT := by
      unfold MAXFILE NDINDIRECT at hbn
      omega
    refine ⟨⟨⟨trivial, by rw [height_double]; decide, ?_⟩, ?_, Nat.mod_lt _ (by decide)⟩, ?_⟩
    · exact (Nat.div_lt_iff_lt_mul (by decide)).mpr hm
    · rw [Place.height, height_double]
      decide
    · rw [Place.height, Place.height, height_double]

theorem dataPlace_inj {bn bn' : Nat} (h : dataPlace bn = dataPlace bn') : bn = bn' := by
  unfold dataPlace at h
  by_cases hdirect : bn < NDIRECT
  · rw [dif_pos hdirect] at h
    by_cases hdirect' : bn' < NDIRECT
    · rw [dif_pos hdirect'] at h
      simpa using h
    · rw [dif_neg hdirect'] at h
      split at h <;> cases h
  · rw [dif_neg hdirect] at h
    by_cases hdirect' : bn' < NDIRECT
    · rw [dif_pos hdirect'] at h
      split at h <;> cases h
    · rw [dif_neg hdirect'] at h
      by_cases hsingle : bn - NDIRECT < NINDIRECT
      · rw [if_pos hsingle] at h
        by_cases hsingle' : bn' - NDIRECT < NINDIRECT
        · rw [if_pos hsingle'] at h
          have hk := (Place.entry.inj h).2
          omega
        · rw [if_neg hsingle'] at h
          cases (Place.entry.inj h).1
      · rw [if_neg hsingle] at h
        by_cases hsingle' : bn' - NDIRECT < NINDIRECT
        · rw [if_pos hsingle'] at h
          cases (Place.entry.inj h).1
        · rw [if_neg hsingle'] at h
          obtain ⟨htable, hlast⟩ := Place.entry.inj h
          have hfirst := (Place.entry.inj htable).2
          omega

/-- The owner of the block with byte `k` of a file. -/
def holder (i : Inum) (k : Nat) : Owner := (i, dataPlace (k / BSIZE))

/-- Byte `k` of a file lies in a block that the file has. -/
def Mapped (s : State) (i : Inum) (k : Nat) : Prop := addr s (holder i k) ≠ 0

/-- Byte `k` of a file. -/
def content (s : State) (i : Inum) (k : Nat) : Byte :=
  s.block (addr s (holder i k)) (k % BSIZE)

theorem holder_mem (hi : i < sb.ninodes) (hk : k / BSIZE < MAXFILE) :
    holder i k ∈ owners sb := ⟨hi, (dataPlace_valid hk).1⟩

theorem holder_inj {k' : Nat} (h : holder i k = holder i k') : k / BSIZE = k' / BSIZE :=
  dataPlace_inj (congrArg Prod.snd h)

/-- The state with other data in block `b`. -/
def State.put (s : State) (b : BlockNo) (data : Bytes) : State :=
  { s with block := update s.block b data }

@[simp] theorem put_block_self (s : State) (b : BlockNo) (data : Bytes) :
    (s.put b data).block b = data := update_self ..

theorem put_block_ne {data : Bytes} (hb : b ≠ a) : (s.put a data).block b = s.block b :=
  update_of_ne hb _ _

/-- Writing outside the free map does not change the bits. -/
theorem used_put (hsb : sb.WellFormed) (ha : a ∈ area sb) {data : Bytes} (hn : n < mapBits sb) :
    used sb (s.put a data).block n = used sb s.block n :=
  used_update_ne fun heq => bblock_not_area hsb hn (heq ▸ ha)

section Put

variable {o : Owner} {data : Bytes} (h : Owned sb s) (ho : o ∈ owners sb)
  (hheight : o.2.height = 0)

include h ho hheight

/-- Writing to a data block does not change who owns what. -/
theorem addr_put {o' : Owner} (ho' : o' ∈ owners sb) :
    addr (s.put (addr s o) data) o' = addr s o' := by
  refine addrAt_frame (fun p hv hpos hnep => update_of_ne (fun heq => ?_) _ _) ho'.2
  have hsame := h.exact.inj (o'.1, p) ⟨ho'.1, hv⟩ o ho hnep heq
  rw [← hsame] at hheight
  exact absurd hheight (Nat.pos_iff_ne_zero.mp hpos)

theorem Owned.put (hsb : sb.WellFormed) (hne : addr s o ≠ 0) :
    Owned sb (s.put (addr s o) data) := by
  have hused : ∀ n < mapBits sb, used sb (s.put (addr s o) data).block n = used sb s.block n :=
    fun n hn => used_put hsb (h.exact.inside o ho hne) hn
  refine ⟨h.exact.congr ?_ fun o' ho' => addr_put h ho hheight ho', ?_⟩
  · intro c hc
    rw [hused _ (area_lt_mapBits hc)]
  · intro n hn
    have hdata := hsb.data
    have hsize := size_lt_mapBits sb
    rw [hused n (by omega), h.system n hn]

end Put

/-! ## Copies -/

/-- Byte `k` of what `writei` is to write. -/
def Source.byte : Source → Nat → Byte
  | .kernel src, k => src k
  | .user mem src, k => mem.byte (src + BitVec.ofNat 64 k)

/-- Byte `k` can be read. -/
def Source.mapped : Source → Nat → Bool
  | .kernel _, _ => true
  | .user mem src, k => mem.mapped (pageOf (src + BitVec.ofNat 64 k))

theorem page_mod (x : BitVec 64) : x.toNat % PGSIZE < PGSIZE := Nat.mod_lt _ (by decide)

theorem pageOf_add {va : BitVec 64} (hk : k < PGSIZE - va.toNat % PGSIZE) :
    pageOf (va + BitVec.ofNat 64 k) = pageOf va := by
  have hva := va.isLt
  have hmod := page_mod va
  simp only [PGSIZE] at *
  have hsum : (va + BitVec.ofNat 64 k).toNat = va.toNat + k := by
    rw [BitVec.toNat_add, BitVec.toNat_ofNat, Nat.mod_eq_of_lt (show k < 2 ^ 64 by omega)]
    exact Nat.mod_eq_of_lt (by omega)
  have hrest : (va.toNat + k) % 4096 = va.toNat % 4096 + k := by omega
  unfold pageOf
  simp only [PGSIZE, hsum, hrest]
  rw [BitVec.ofNat_add]
  abel

/-- The next page starts where the bytes of this one end. -/
theorem pageOf_next (va : BitVec 64) :
    pageOf va + BitVec.ofNat 64 PGSIZE =
      va + BitVec.ofNat 64 (PGSIZE - va.toNat % PGSIZE) := by
  have hmod := page_mod va
  unfold pageOf
  have hsplit : BitVec.ofNat 64 PGSIZE =
      BitVec.ofNat 64 (va.toNat % PGSIZE) + BitVec.ofNat 64 (PGSIZE - va.toNat % PGSIZE) := by
    rw [← BitVec.ofNat_add]
    congr 1
    omega
  rw [hsplit]
  abel

theorem move_zero (data : Bytes) (off : Nat) (src : Nat → Byte) : move data off 0 src = data := by
  funext k
  rw [move, if_neg (by omega)]

theorem move_move (data : Bytes) (off m c : Nat) (src : Nat → Byte) :
    move (move data off m src) (off + m) c (fun k => src (m + k)) = move data off (m + c) src := by
  funext k
  simp only [move]
  by_cases hfirst : off ≤ k ∧ k < off + m
  · rw [if_neg (by omega), if_pos hfirst, if_pos (by omega)]
  · by_cases hsecond : off + m ≤ k ∧ k < off + m + c
    · rw [if_pos hsecond, if_pos (by omega), show m + (k - (off + m)) = k - off by omega]
    · rw [if_neg hsecond, if_neg hfirst, if_neg (by omega)]

/-- What a copy of `m` bytes leaves in the buffer: all of them, or those before the first that
cannot be read. -/
def Copies (bytes : Nat → Byte) (mapped : Nat → Bool) (data : Bytes) (off m : Nat)
    (out : Bytes × Bool) : Prop :=
  (out = (move data off m bytes, true) ∧ ∀ k < m, mapped k = true) ∨
    ∃ c < m, out = (move data off c bytes, false) ∧ (∀ k < c, mapped k = true) ∧ mapped c = false

theorem Copies.append {bytes : Nat → Byte} {mapped : Nat → Bool} {data : Bytes} {off m : Nat}
    {out : Bytes × Bool} (hfirst : ∀ k < m, mapped k = true)
    (hrest : Copies (fun k => bytes (m + k)) (fun k => mapped (m + k)) (move data off m bytes)
      (off + m) n out) : Copies bytes mapped data off (m + n) out := by
  have hboth : ∀ c, (∀ k < c, mapped (m + k) = true) → ∀ k < m + c, mapped k = true := by
    intro c hsecond k hk
    by_cases hkm : k < m
    · exact hfirst k hkm
    · have hk' := hsecond (k - m) (by omega)
      rwa [show m + (k - m) = k by omega] at hk'
  rcases hrest with ⟨hout, hall⟩ | ⟨c, hc, hout, hbefore, hat⟩
  · exact .inl ⟨by rw [hout, move_move], hboth n hall⟩
  · exact .inr ⟨m + c, by omega, by rw [hout, move_move], hboth c hbefore, hat⟩

theorem copyin_copies (mem : User) {len : Nat} (hn : len ≤ n) (data : Bytes) (off : Nat)
    (va : BitVec 64) :
    Copies (fun k => mem.byte (va + BitVec.ofNat 64 k))
      (fun k => mem.mapped (pageOf (va + BitVec.ofNat 64 k))) data off len
      (copyin mem n data off va len) := by
  induction n generalizing len data off va with
  | zero =>
    obtain rfl : len = 0 := by omega
    exact .inl ⟨by rw [copyin, move_zero], fun k hk => absurd hk (by omega)⟩
  | succ n ih =>
    rw [copyin]
    by_cases hlen : len = 0
    · rw [if_pos hlen, hlen]
      exact .inl ⟨by rw [move_zero], fun k hk => absurd hk (by omega)⟩
    rw [if_neg hlen]
    have hmod := page_mod va
    by_cases hmapped : mem.mapped (pageOf va) = false
    · rw [if_pos hmapped]
      refine .inr ⟨0, by omega, by rw [move_zero], fun k hk => absurd hk (by omega), ?_⟩
      show mem.mapped (pageOf (va + BitVec.ofNat 64 0)) = false
      rw [pageOf_add (by omega)]
      exact hmapped
    · rw [if_neg hmapped]
      obtain ⟨m, hm⟩ : ∃ m, m = min (PGSIZE - va.toNat % PGSIZE) len := ⟨_, rfl⟩
      have hpage : ∀ k < m, mem.mapped (pageOf (va + BitVec.ofNat 64 k)) = true := by
        intro k hk
        rw [pageOf_add (by omega)]
        simpa using hmapped
      simp only [← hm]
      obtain ⟨c, rfl⟩ : ∃ c, len = m + c := ⟨len - m, by omega⟩
      rw [Nat.add_sub_cancel_left]
      refine Copies.append hpage ?_
      by_cases hlast : c = 0
      · -- the last page
        subst hlast
        refine .inl ⟨?_, fun k hk => absurd hk (by omega)⟩
        rw [move_zero]
        cases n with
        | zero => rfl
        | succ n => rw [copyin, if_pos rfl]
      · have hnext : pageOf va + BitVec.ofNat 64 PGSIZE = va + BitVec.ofNat 64 m := by
          rw [pageOf_next, show m = PGSIZE - va.toNat % PGSIZE by omega]
        have hrest := ih (show c ≤ n by omega)
          (move data off m fun k => mem.byte (va + BitVec.ofNat 64 k)) (off + m)
          (va + BitVec.ofNat 64 m)
        simp only [BitVec.add_assoc, ← BitVec.ofNat_add] at hrest
        rw [hnext]
        exact hrest

theorem eitherCopyin_copies (src : Source) (data : Bytes) (off tot m : Nat) :
    Copies (fun k => src.byte (tot + k)) (fun k => src.mapped (tot + k)) data off m
      (eitherCopyin src data off tot m) := by
  cases src with
  | kernel src => exact .inl ⟨rfl, fun _ _ => rfl⟩
  | user mem va =>
    have hcopy := copyin_copies mem (le_refl m) data off (va + BitVec.ofNat 64 tot)
    simp only [BitVec.add_assoc, ← BitVec.ofNat_add] at hcopy
    exact hcopy

/-! ## Slices -/

/-- The first `tot` bytes have been written at `off`; every other byte that the file had is as
before. -/
structure Wrote (sb : Superblock) (i : Inum) (bytes : Nat → Byte) (off tot : Nat)
    (s s' : State) : Prop extends Work sb i s s' where
  logged : Logged s s'
  content : ∀ k, k / BSIZE < MAXFILE → Mapped s i k ∨ off ≤ k ∧ k < off + tot →
    Mapped s' i k ∧ content s' i k =
      if off ≤ k ∧ k < off + tot then bytes (k - off) else content s i k

section Wrote

variable {bytes : Nat → Byte} {off tot m : Nat} {s1 s2 : State}

theorem Wrote.start (h : Owned sb s) (i : Inum) (bytes : Nat → Byte) (off : Nat) :
    Wrote sb i bytes off 0 s s := by
  refine ⟨.refl h i, fun _ _ => rfl, fun k _ hk => ?_⟩
  have hno : ¬(off ≤ k ∧ k < off + 0) := by omega
  rw [if_neg hno]
  exact ⟨hk.resolve_right hno, rfl⟩

theorem Wrote.with_held (h : Wrote sb i bytes off tot s s') (held : List BlockNo) :
    Wrote sb i bytes off tot s { s' with held := held } :=
  ⟨h.toWork.with_held held, h.logged, h.content⟩

/-- An allocation for the file does not change its bytes. -/
theorem Wrote.grew (h : Wrote sb i bytes off tot s s1) (hgrew : Grew sb i s1 s2)
    (hi : i < sb.ninodes) : Wrote sb i bytes off tot s s2 := by
  refine ⟨h.toWork.trans hgrew.toWork, h.logged.trans hgrew.logged hgrew.log, fun k hbn hk => ?_⟩
  obtain ⟨hmapped, hcontent⟩ := h.content k hbn hk
  have haddr := hgrew.kept _ (holder_mem hi hbn) hmapped
  refine ⟨by rw [Mapped, haddr]; exact hmapped, ?_⟩
  rw [← hcontent, Block.content, Block.content, haddr,
    hgrew.data _ (holder_mem hi hbn) (dataPlace_valid hbn).2 hmapped]

/-- Writing to a data block of the file is work on the file. -/
theorem Work.put {o : Owner} {data : Bytes} {log : List BlockNo} (hsb : sb.WellFormed)
    (h : Work sb i s s1) (ho : o ∈ owners sb) (hoi : o.1 = i) (hheight : o.2.height = 0)
    (hne : addr s1 o ≠ 0) (hlog : ∀ b ∈ s1.log, b ∈ log) :
    Work sb i s { s1.put (addr s1 o) data with log := log } := by
  have harea := h.owned.exact.inside o ho hne
  have haddr : ∀ o' ∈ owners sb, addr (s1.put (addr s1 o) data) o' = addr s1 o' :=
    fun o' ho' => addr_put h.owned ho hheight ho'
  refine ⟨?_, ?_, ?_, ?_, ?_,
    fun n hn hbits => (used_put hsb harea hbits).trans (h.spare n hn hbits), ?_, h.inode,
    fun b hb => hlog b (h.log b hb), h.disk, h.ops, h.logsize⟩
  · have howned : Owned sb (s1.put (addr s1 o) data) := h.owned.put ho hheight hsb hne
    exact ⟨howned.exact, howned.system⟩
  · intro o' ho' hne'
    exact (haddr o' ho').trans (h.kept o' ho' hne')
  · intro o' ho' hi'
    exact (haddr o' ho').trans (h.others o' ho' hi')
  · intro o' ho' hne'
    have hsame : addr { s1.put (addr s1 o) data with log := log } o' = addr s1 o' := haddr o' ho'
    rw [hsame] at hne' ⊢
    exact hlog _ (h.fresh o' ho' hne')
  · intro o' ho' hi' hne'
    have hkept := h.kept o' ho' hne'
    refine (update_of_ne (fun heq => ?_) _ _).trans (h.foreign o' ho' hi' hne')
    have hsame := h.owned.exact.inj o' ho' o ho (by rwa [hkept]) (hkept.trans heq)
    exact hi' (hsame ▸ hoi)
  · intro b hb
    have hstart := bmapstart_lt_datastart sb
    refine (update_of_ne (fun heq => ?_) _ _).trans (h.inodes b hb)
    rw [heq] at hb
    exact absurd harea.1 (by omega)

theorem offset_in_block {o m : Nat} (h : k / BSIZE = o / BSIZE) :
    (o % BSIZE ≤ k % BSIZE ∧ k % BSIZE < o % BSIZE + m ↔ o ≤ k ∧ k < o + m) ∧
      k % BSIZE - o % BSIZE = k - o := by
  simp only [BSIZE] at *
  omega

/-- The bytes of a file once `m` of them in one block are replaced. -/
theorem content_put (h : Owned sb s) (hi : i < sb.ninodes) {o : Nat} (ho : o / BSIZE < MAXFILE)
    (hk : k / BSIZE < MAXFILE) (hm : o % BSIZE + m ≤ BSIZE) (hmap : Mapped s i k) :
    content (s.put (addr s (holder i o))
        (move (s.block (addr s (holder i o))) (o % BSIZE) m bytes)) i k =
      if o ≤ k ∧ k < o + m then bytes (k - o) else content s i k := by
  rw [content, addr_put h (holder_mem hi ho) (dataPlace_valid ho).2 (holder_mem hi hk)]
  by_cases hblock : k / BSIZE = o / BSIZE
  · have hsame : holder i k = holder i o := by rw [holder, holder, hblock]
    obtain ⟨hiff, hsub⟩ := offset_in_block (m := m) hblock
    rw [hsame, put_block_self, move, content, hsame, hsub]
    by_cases hin : o ≤ k ∧ k < o + m
    · rw [if_pos hin, if_pos (hiff.mpr hin)]
    · rw [if_neg hin, if_neg fun hno => hin (hiff.mp hno)]
  · have hother : addr s (holder i k) ≠ addr s (holder i o) := fun heq =>
      hblock (holder_inj (h.exact.inj _ (holder_mem hi hk) _ (holder_mem hi ho) hmap heq))
    rw [put_block_ne hother, if_neg, content]
    simp only [BSIZE] at *
    omega

theorem Wrote.slice (hsb : sb.WellFormed) (hi : i < sb.ninodes)
    (h : Wrote sb i bytes off tot s s1) (ho : (off + tot) / BSIZE < MAXFILE)
    (hne : Mapped s1 i (off + tot)) (hm : (off + tot) % BSIZE + m ≤ BSIZE) :
    Wrote sb i bytes off (tot + m) s { s1.put (addr s1 (holder i (off + tot)))
      (move (s1.block (addr s1 (holder i (off + tot)))) ((off + tot) % BSIZE) m
        fun k => bytes (tot + k)) with
      log := listed (addr s1 (holder i (off + tot))) s1.log } := by
  refine ⟨h.toWork.put hsb (holder_mem hi ho) rfl (dataPlace_valid ho).2 hne
    fun b hb => mem_listed.mpr (.inr hb), fun b hb => ?_, fun k hbn hk => ?_⟩
  · have hno : ¬(b = addr s1 (holder i (off + tot)) ∨ b ∈ s1.log) := fun hyes =>
      hb (mem_listed.mpr hyes)
    exact (put_block_ne fun heq => hno (.inl heq)).trans (h.logged b fun hin => hno (.inr hin))
  have haddr : addr (s1.put (addr s1 (holder i (off + tot)))
      (move (s1.block (addr s1 (holder i (off + tot)))) ((off + tot) % BSIZE) m
        fun k => bytes (tot + k))) (holder i k) = addr s1 (holder i k) :=
    addr_put h.owned (holder_mem hi ho) (dataPlace_valid ho).2 (holder_mem hi hbn)
  by_cases hin : off + tot ≤ k ∧ k < off + tot + m
  · -- the byte is in the slice
    have hsame : holder i k = holder i (off + tot) := by
      have hdiv : k / BSIZE = (off + tot) / BSIZE := by
        simp only [BSIZE] at *
        omega
      rw [holder, holder, hdiv]
    have hmap : Mapped s1 i k := by rw [Mapped, hsame]; exact hne
    refine ⟨fun hzero => hmap (haddr.symm.trans hzero), ?_⟩
    refine (content_put h.owned hi ho hbn hm hmap).trans ?_
    rw [if_pos hin, if_pos (by omega), show tot + (k - (off + tot)) = k - off by omega]
  · have hk' : Mapped s i k ∨ off ≤ k ∧ k < off + tot := hk.imp_right fun hrange => by omega
    obtain ⟨hmap, hcontent⟩ := h.content k hbn hk'
    refine ⟨fun hzero => hmap (haddr.symm.trans hzero), ?_⟩
    refine (content_put h.owned hi ho hbn hm hmap).trans ?_
    rw [if_neg hin, hcontent]
    by_cases hrange : off ≤ k ∧ k < off + tot
    · rw [if_pos hrange, if_pos (by omega)]
    · rw [if_neg hrange, if_neg (by omega)]

end Wrote

/-! ## `writei` -/

/-- How the loop of `writei` ends with `tot` bytes counted: all of them, or the file has no block
for the next one, or the copy of the next slice stops after `c` bytes. -/
inductive Ended (sb : Superblock) (i : Inum) (src : Source) (off n tot : Nat) (s : State) :
    State → Prop where
  | all {s' : State} (h : Wrote sb i src.byte off tot s s') (htot : tot = n) :
      Ended sb i src off n tot s s'
  | full {s' : State} (h : Wrote sb i src.byte off tot s s') (htot : tot < n)
      (hfull : ¬Mapped s' i (off + tot)) : Ended sb i src off n tot s s'
  | stopped {s1 : State} {c : Nat} (h : Wrote sb i src.byte off tot s s1)
      (hstart : tot = 0 ∨ (off + tot) % BSIZE = 0) (hmapped : Mapped s1 i (off + tot))
      (hc : c < min (n - tot) (BSIZE - (off + tot) % BSIZE))
      (hbefore : ∀ k < c, src.mapped (tot + k) = true) (hat : src.mapped (tot + c) = false) :
      Ended sb i src off n tot s (s1.put (addr s1 (holder i (off + tot)))
        (move (s1.block (addr s1 (holder i (off + tot)))) ((off + tot) % BSIZE) c
          fun k => src.byte (tot + k)))

theorem wp_writeLoop {off rounds tot : Nat} {s1 : State} (hsb : sb.WellFormed) (hi : i < sb.ninodes)
    (hE : ∀ f, logFault f → E f) (hfits : off + n ≤ MAXFILE * BSIZE) (hrounds : n ≤ tot + rounds)
    (htot : tot ≤ n) (h : Wrote sb i src.byte off tot s s1)
    (hmapped : ∀ k < tot, src.mapped k = true)
    (hstart : tot = 0 ∨ tot = n ∨ (off + tot) % BSIZE = 0) :
    wp (writeLoop sb i src n rounds tot (off + tot)) E (fun r s' => r ≤ n ∧
      (∀ k < r, src.mapped k = true) ∧ Ended sb i src off n r s s') s1 := by
  induction rounds generalizing tot s1 with
  | zero => exact ⟨htot, hmapped, .all h (by omega)⟩
  | succ rounds ih =>
    rw [writeLoop]
    by_cases hmore : tot < n
    swap
    · rw [if_neg hmore, wp_pure]
      exact ⟨htot, hmapped, .all h (by omega)⟩
    rw [if_pos hmore, wp_bind]
    have hbn : (off + tot) / BSIZE < MAXFILE := by
      rw [Nat.div_lt_iff_lt_mul (by decide)]
      omega
    refine wp_mono (wp_bmap_grew hsb h.owned hi hE hbn) fun a s2 hs2 => ?_
    obtain ⟨hgrew, ha⟩ := hs2
    have hwrote := h.grew hgrew hi
    by_cases hzero : a = 0
    · rw [if_pos hzero, wp_pure]
      exact ⟨htot, hmapped, .full hwrote hmore fun hno => hno (ha.symm.trans hzero)⟩
    rw [if_neg hzero, wp_bind]
    obtain rfl : a = addr s2 (holder i (off + tot)) := ha
    refine wp_bread_of hE fun _ => ?_
    rw [wp_bind, wp_get]
    obtain ⟨m, hm⟩ : ∃ m, m = min (n - tot) (BSIZE - (off + tot) % BSIZE) := ⟨_, rfl⟩
    have hoff : (off + tot) % BSIZE < BSIZE := Nat.mod_lt _ (by decide)
    simp only [← hm, wp_bind, wp_setData]
    rcases eitherCopyin_copies src (s2.block (addr s2 (holder i (off + tot))))
      ((off + tot) % BSIZE) tot m with ⟨hout, hall⟩ | ⟨c, hc, hout, hbefore, hat⟩
    · simp only [hout, if_true, wp_bind]
      refine wp_logWrite_of hE (wp_brelse rfl ?_)
      have hslice := (hwrote.slice (m := m) hsb hi hbn hzero (by omega)).with_held s2.held
      have hnext := ih (show n ≤ tot + m + rounds by omega) (by omega) hslice ?_ (.inr ?_)
      · rw [← Nat.add_assoc] at hnext
        exact hnext
      · intro k hk
        by_cases hkt : k < tot
        · exact hmapped k hkt
        · have hk' : src.mapped (tot + (k - tot)) = true := hall (k - tot) (by omega)
          rwa [show tot + (k - tot) = k by omega] at hk'
      · -- the slice ends with the block, or it is the last
        simp only [BSIZE] at *
        omega
    · simp only [hout, Bool.false_eq_true, if_false, wp_bind]
      refine wp_brelse rfl ?_
      exact ⟨htot, hmapped, .stopped hwrote (by omega) hzero (hm ▸ hc) hbefore hat⟩

/-- The calls of `writei` that are not refused. -/
def Accepts (s : State) (i : Inum) (off n : BitVec 32) : Prop :=
  off.toNat ≤ (s.inode i).size.toNat ∧ off.toNat + n.toNat ≤ MAXFILE * BSIZE

/-- The state once the end of the last byte written is known: the size, and the inode on disk. -/
def resized (sb : Superblock) (i : Inum) (last : Nat) (s : State) : State :=
  updated sb i { s with
    inode := if (s.inode i).size.toNat < last then
      update s.inode i { s.inode i with size := BitVec.ofNat 32 last } else s.inode }

theorem refused_iff {size off n : BitVec 32} :
    (size < off ∨ off + n < off) ∨ MAXFILE * BSIZE < (off + n).toNat ↔
      ¬(off.toNat ≤ size.toNat ∧ off.toNat + n.toNat ≤ MAXFILE * BSIZE) := by
  have hoff := off.isLt
  have hn := n.isLt
  have hmax : MAXFILE * BSIZE < 2 ^ 32 := by decide
  rw [BitVec.lt_def, BitVec.lt_def, BitVec.toNat_add]
  generalize MAXFILE * BSIZE = M at *
  by_cases hsum : off.toNat + n.toNat < 2 ^ 32
  · rw [Nat.mod_eq_of_lt hsum]
    omega
  · have hwrap : (off.toNat + n.toNat) % 2 ^ 32 = off.toNat + n.toNat - 2 ^ 32 := by omega
    rw [hwrap]
    omega

/-- `writei` refuses, or writes what the loop has written and the inode. -/
theorem wp_writei {off n : BitVec 32} (hsb : sb.WellFormed) (h : Owned sb s) (hi : i < sb.ninodes)
    (hE : ∀ f, logFault f → E f) :
    wp (writei sb i src off n) E (fun ret s' =>
      (ret = -1 ∧ ¬Accepts s i off n ∧ s' = s) ∨
      (Accepts s i off n ∧ ∃ (tot : Nat) (s1 : State), ret = tot ∧ tot ≤ n.toNat ∧
        (∀ k < tot, src.mapped k = true) ∧ Ended sb i src off.toNat n.toNat tot s s1 ∧
        s' = resized sb i (off.toNat + tot) s1)) s := by
  simp only [writei, wp_bind, wp_get]
  by_cases hfirst : (s.inode i).size < off ∨ off + n < off
  · rw [if_pos hfirst, wp_pure]
    exact .inl ⟨rfl, refused_iff.mp (.inl hfirst), rfl⟩
  rw [if_neg hfirst]
  by_cases hsecond : MAXFILE * BSIZE < (off + n).toNat
  · rw [if_pos hsecond, wp_pure]
    exact .inl ⟨rfl, refused_iff.mp (.inr hsecond), rfl⟩
  rw [if_neg hsecond, wp_bind]
  have haccepts : Accepts s i off n := by
    by_contra hno
    rcases refused_iff.mpr hno with hone | htwo
    · exact hfirst hone
    · exact hsecond htwo
  have hloop := wp_writeLoop hsb hi hE haccepts.2 (Nat.le_of_eq (Nat.zero_add _).symm)
    (Nat.zero_le _) (.start h i src.byte off.toNat) (fun k hk => absurd hk (Nat.not_lt_zero k))
    (.inl rfl)
  rw [Nat.add_zero] at hloop
  refine wp_mono hloop fun tot s1 hs1 => ?_
  obtain ⟨htot, hmapped, hended⟩ := hs1
  rw [wp_bind, wp_get]
  refine (wp_ite ..).mpr ⟨fun hgrow => ?_, fun hgrow => ?_⟩
  · rw [wp_bind, wp_setInode]
    refine wp_seq (wp_iupdate hE) fun _ s' hs' => ?_
    rw [wp_pure]
    refine .inr ⟨haccepts, tot, s1, rfl, htot, hmapped, hended, ?_⟩
    rw [hs', resized, if_pos hgrow]
  · refine wp_seq (wp_iupdate hE) fun _ s' hs' => ?_
    rw [wp_pure]
    refine .inr ⟨haccepts, tot, s1, rfl, htot, hmapped, hended, ?_⟩
    rw [hs', resized, if_neg hgrow]

/-! ## What is left alone -/

/-- What an operation on inode `i` leaves alone: the other inodes, in memory and on disk, their
blocks, and the bits of the free map past the end of the disk. -/
structure Beside (sb : Superblock) (i : Inum) (s s' : State) : Prop where
  owned : Owned sb s'
  others : ∀ o ∈ owners sb, o.1 ≠ i → addr s' o = addr s o
  foreign : ∀ o ∈ owners sb, o.1 ≠ i → addr s o ≠ 0 → s'.block (addr s o) = s.block (addr s o)
  spare : ∀ n, sb.size ≤ n → n < mapBits sb → used sb s'.block n = used sb s.block n
  inode_ne : ∀ j ≠ i, s'.inode j = s.inode j
  saved_ne : ∀ j < sb.ninodes, j ≠ i → onDisk sb s' j = onDisk sb s j

theorem Beside.refl (h : Owned sb s) : Beside sb i s s :=
  ⟨h, fun _ _ _ => rfl, fun _ _ _ _ => rfl, fun _ _ _ => rfl, fun _ _ => rfl, fun _ _ _ => rfl⟩

theorem Beside.trans {s1 s2 s3 : State} (h : Beside sb i s1 s2) (h' : Beside sb i s2 s3) :
    Beside sb i s1 s3 where
  owned := h'.owned
  others o ho hoi := (h'.others o ho hoi).trans (h.others o ho hoi)
  foreign o ho hoi hne := by
    have hone := h.others o ho hoi
    have htwo := h'.foreign o ho hoi (by rwa [hone])
    rw [hone] at htwo
    rw [htwo, h.foreign o ho hoi hne]
  spare n hn hbits := (h'.spare n hn hbits).trans (h.spare n hn hbits)
  inode_ne j hj := (h'.inode_ne j hj).trans (h.inode_ne j hj)
  saved_ne j hj hne := (h'.saved_ne j hj hne).trans (h.saved_ne j hj hne)

theorem Ended.work {off tot : Nat} (hsb : sb.WellFormed) (hi : i < sb.ninodes)
    (hfits : off + n ≤ MAXFILE * BSIZE) (h : Ended sb i src off n tot s s') : Work sb i s s' := by
  cases h with
  | all h _ => exact h.toWork
  | full h _ _ => exact h.toWork
  | stopped h _ hmapped hc _ _ =>
    have hbn : (off + tot) / BSIZE < MAXFILE :=
      Nat.div_lt_of_lt_mul (by rw [Nat.mul_comm]; omega)
    exact h.toWork.put hsb (holder_mem hi hbn) rfl (dataPlace_valid hbn).2 hmapped
      fun _ hb => hb

theorem Work.resized {last : Nat} (hsb : sb.WellFormed) (hi : i < sb.ninodes)
    (h : Work sb i s s') : Beside sb i s (resized sb i last s') := by
  obtain ⟨inode, hinode⟩ : ∃ inode, inode = if (s'.inode i).size.toNat < last then
      update s'.inode i { s'.inode i with size := BitVec.ofNat 32 last }
      else s'.inode := ⟨_, rfl⟩
  have haddrs : ∀ j, (inode j).addrs = (s'.inode j).addrs := by
    intro j
    rw [hinode]
    split
    · by_cases hji : j = i
      · rw [hji, update_self]
      · rw [update_of_ne hji]
    · rfl
  have hother : ∀ j ≠ i, inode j = s'.inode j := by
    intro j hji
    rw [hinode]
    split
    · exact update_of_ne hji _ _
    · rfl
  obtain ⟨howned, haddr⟩ := h.owned.updated hsb hi haddrs
  rw [Block.resized, ← hinode]
  refine ⟨howned, ?_, ?_, ?_, ?_, ?_⟩
  · exact fun o ho hoi => (haddr o ho).trans (h.others o ho hoi)
  · intro o ho hoi hne
    refine (updated_block_ne fun heq => iblock_not_area hsb hi ?_).trans (h.foreign o ho hoi hne)
    rw [← heq, ← h.others o ho hoi]
    exact h.owned.exact.inside o ho (by rwa [h.others o ho hoi])
  · exact fun n hn hbits => (used_updated hsb hi hbits).trans (h.spare n hn hbits)
  · intro j hji
    obtain ⟨addrs, heq⟩ := h.inode
    exact (hother j hji).trans (by rw [heq, update_of_ne hji])
  · intro j hj hji
    refine (onDisk_updated_ne hsb hi hj hji).trans ?_
    have hlow := iblock_range hsb hj
    rw [onDisk, onDisk]
    exact congrArg (dinode · _) (h.inodes _ (by omega))

theorem wp_writei_beside {off n : BitVec 32} (hsb : sb.WellFormed) (h : Owned sb s)
    (hi : i < sb.ninodes) (hE : ∀ f, logFault f → E f) :
    wp (writei sb i src off n) E (fun _ s' => Beside sb i s s') s := by
  refine wp_mono (wp_writei hsb h hi hE) ?_
  rintro ret s' (⟨-, -, rfl⟩ | ⟨haccepts, tot, s1, -, -, -, hended, rfl⟩)
  · exact .refl h
  · exact (hended.work hsb hi haccepts.2).resized hsb hi

end Xv6.Fs.Block
