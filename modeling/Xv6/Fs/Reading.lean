import Xv6.Fs.Truncate

/-!
# Reading

`readi` finds its blocks with the same `bmap` that allocates for `writei`, and `fileread` calls it
outside of any transaction. It is harmless because a file has no holes: every block below its size
has an address. That is kept by `writei` however it ends, by `itrunc`, and by what happens to the
buffers between two operations. That `readi` does not call `balloc` and `log_write` is said with any
two pieces of code in their place: what they do makes no difference.
-/

namespace Xv6.Fs.Block

open Function

variable {sb : Superblock} {s s' : State} {i j : Inum} {a b t : BlockNo} {E : Fault → Prop}
  {off tot k n : Nat} {Q : BlockNo → State → Prop} {src : Source}

/-! ## Files without holes -/

/-- The file is not too large, and every block of it has an address. -/
structure NoHoles (s : State) (i : Inum) : Prop where
  size : (s.inode i).size.toNat ≤ MAXFILE * BSIZE
  mapped : ∀ bn, bn * BSIZE < (s.inode i).size.toNat → addr s (i, dataPlace bn) ≠ 0

theorem NoHoles.of_bytes (hsize : (s.inode i).size.toNat ≤ MAXFILE * BSIZE)
    (h : ∀ k < (s.inode i).size.toNat, Mapped s i k) : NoHoles s i := by
  refine ⟨hsize, fun bn hbn => ?_⟩
  have hmap : addr s (i, dataPlace (bn * BSIZE / BSIZE)) ≠ 0 := h (bn * BSIZE) hbn
  rwa [Nat.mul_div_cancel _ (by decide)] at hmap

theorem NoHoles.byte (h : NoHoles s i) (hk : k < (s.inode i).size.toNat) :
    k / BSIZE < MAXFILE ∧ Mapped s i k := by
  refine ⟨?_, h.mapped _ ((Nat.div_mul_le_self k BSIZE).trans_lt hk)⟩
  rw [Nat.div_lt_iff_lt_mul (by decide)]
  exact hk.trans_le h.size

theorem NoHoles.congr (h : NoHoles s i) (hi : i < sb.ninodes)
    (haddr : ∀ o ∈ owners sb, o.1 = i → addr s' o = addr s o)
    (hsize : (s'.inode i).size = (s.inode i).size) : NoHoles s' i := by
  refine .of_bytes (hsize ▸ h.size) fun k hk => ?_
  rw [hsize] at hk
  obtain ⟨hbn, hmap⟩ := h.byte hk
  rw [Mapped, haddr _ (holder_mem hi hbn) rfl]
  exact hmap

/-! ## What `readi` finds -/

/-- What stops code that reads blocks: it waits for a buffer that is held already, or finds all
buffers in use. -/
def waits (s : State) (f : Fault) : Prop :=
  (f = .hang ∧ s.held ≠ []) ∨ (f = .panic "bget: no buffers" ∧ NBUF ≤ s.inUse.toFinset.card)

theorem wp_bread_waits {Q : Unit → State → Prop} (h : Q () { s with held := b :: s.held }) :
    wp (bread b) (waits s) Q s :=
  wp_bread (fun hin => .inl ⟨rfl, List.ne_nil_of_mem hin⟩) (fun hnone => .inr ⟨rfl, hnone.2⟩)
    fun _ _ => h

section Found

variable (alloc : Code BlockNo) (save : BlockNo → Code Unit)

theorem wp_addrOfWith {k : Fin (NDIRECT + 2)} (hne : addr s (i, .root k) ≠ 0)
    (hQ : Q (addr s (i, .root k)) s) :
    wp (addrOfWith alloc i k) E Q s := by
  simp only [addrOfWith, wp_bind, wp_get]
  rw [if_neg (show ¬(s.inode i).addrs k = 0 from hne)]
  exact hQ

theorem wp_lastEntryWith {p : Place} (hp : addr s (i, p) ≠ 0) (hne : addr s (i, .entry p k) ≠ 0)
    (hQ : Q (addr s (i, .entry p k)) s) :
    wp (lastEntryWith alloc save (addr s (i, p)) k) (waits s) Q s := by
  have hentry : entry (s.block (addr s (i, p))) k = addr s (i, .entry p k) :=
    (addrAt_entry hp).symm
  simp only [lastEntryWith, wp_bind]
  refine wp_bread_waits ?_
  rw [wp_get, hentry, if_neg hne, wp_bind]
  exact wp_brelse rfl hQ

theorem wp_firstEntryWith {p : Place} (hp : addr s (i, p) ≠ 0) (hne : addr s (i, .entry p k) ≠ 0)
    (hQ : Q (addr s (i, .entry p k)) s) :
    wp (firstEntryWith alloc save (addr s (i, p)) k) (waits s) Q s := by
  have hentry : entry (s.block (addr s (i, p))) k = addr s (i, .entry p k) :=
    (addrAt_entry hp).symm
  simp only [firstEntryWith, wp_bind]
  refine wp_bread_waits ?_
  rw [wp_get, hentry, if_neg hne, wp_bind]
  exact wp_brelse rfl hQ

/-- `bmap` of a block that has an address only looks it up. -/
theorem wp_bmapWith {bn : Nat} (hbn : bn < MAXFILE) (hne : addr s (i, dataPlace bn) ≠ 0)
    (hQ : Q (addr s (i, dataPlace bn)) s) :
    wp (bmapWith alloc save i bn) (waits s) Q s := by
  by_cases hdirect : bn < NDIRECT
  · rw [dataPlace, dif_pos hdirect] at hne hQ
    rw [bmapWith, dif_pos hdirect]
    exact wp_addrOfWith alloc hne hQ
  by_cases hsingle : bn - NDIRECT < NINDIRECT
  · rw [dataPlace, dif_neg hdirect, if_pos hsingle] at hne hQ
    rw [bmapWith, dif_neg hdirect, if_pos hsingle, wp_bind]
    have hone : addr s (i, .root single) ≠ 0 := fun hzero => hne (addrAt_entry_zero hzero)
    refine wp_addrOfWith alloc hone ?_
    rw [if_neg hone]
    exact wp_lastEntryWith alloc save hone hne hQ
  · have hdouble : bn - NDIRECT - NINDIRECT < NDINDIRECT := by
      unfold MAXFILE at hbn
      omega
    rw [dataPlace, dif_neg hdirect, if_neg hsingle] at hne hQ
    rw [bmapWith, dif_neg hdirect, if_neg hsingle, if_pos hdouble, wp_bind]
    generalize bn - NDIRECT - NINDIRECT = m at *
    have htwo : addr s (i, .entry (.root double) (m / 256)) ≠ 0 :=
      fun hzero => hne (addrAt_entry_zero hzero)
    have hone : addr s (i, .root double) ≠ 0 := fun hzero => htwo (addrAt_entry_zero hzero)
    refine wp_addrOfWith alloc hone ?_
    rw [if_neg hone, wp_bind]
    refine wp_firstEntryWith alloc save hone htwo ?_
    rw [if_neg htwo]
    exact wp_lastEntryWith alloc save htwo hne hQ

/-- The first `t` bytes from offset `off`. -/
def bytesFrom (s : State) (i : Inum) (off t : Nat) : List Byte :=
  (List.range t).map fun k => content s i (off + k)

/-- The bytes of one more slice, which lies in one block. -/
theorem bytesFrom_add {m : Nat} (hm : (off + tot) % BSIZE + m ≤ BSIZE) :
    bytesFrom s i off tot ++ (List.range m).map (fun k =>
      s.block (addr s (i, dataPlace ((off + tot) / BSIZE))) ((off + tot) % BSIZE + k)) =
      bytesFrom s i off (tot + m) := by
  rw [bytesFrom, bytesFrom, List.range_add, List.map_append, List.map_map]
  congr 1
  refine List.map_congr_left fun k hk => ?_
  have hkm := List.mem_range.mp hk
  have hblock : (off + (tot + k)) / BSIZE = (off + tot) / BSIZE ∧
      (off + (tot + k)) % BSIZE = (off + tot) % BSIZE + k := by
    simp only [BSIZE] at *
    omega
  rw [Function.comp_apply, content, holder, hblock.1, hblock.2]

/-- The loop of `readi` on a part of the file without holes. -/
theorem wp_readLoop {copyout : Nat → Nat → Bool} {rounds : Nat} (h : NoHoles s i)
    (hend : off + n ≤ (s.inode i).size.toNat) (htot : tot ≤ n) (hrounds : n ≤ tot + rounds) :
    wp (readLoop (bmapWith alloc save i) copyout n rounds tot (off + tot)
        (bytesFrom s i off tot)) (waits s)
      (fun r s' => s' = s ∧ (r = (↑n, bytesFrom s i off n) ∨
        ∃ t ≤ n, r = (-1, bytesFrom s i off t) ∧ ∃ m, copyout t m = false)) s := by
  induction rounds generalizing tot with
  | zero =>
    obtain rfl : tot = n := by omega
    exact ⟨rfl, .inl rfl⟩
  | succ rounds ih =>
    rw [readLoop]
    by_cases hmore : tot < n
    swap
    · obtain rfl : tot = n := by omega
      rw [if_neg hmore]
      exact ⟨rfl, .inl rfl⟩
    obtain ⟨hbn, hmap⟩ := h.byte (show off + tot < _ by omega)
    rw [if_pos hmore, wp_bind]
    refine wp_bmapWith alloc save hbn hmap ?_
    have hmod : (off + tot) % BSIZE < BSIZE := Nat.mod_lt _ (by decide)
    obtain ⟨m, hm⟩ : ∃ m, m = min (n - tot) (BSIZE - (off + tot) % BSIZE) := ⟨_, rfl⟩
    rw [if_neg (show ¬addr s (i, dataPlace ((off + tot) / BSIZE)) = 0 from hmap), wp_bind]
    refine wp_bread_waits ?_
    simp only [wp_bind, wp_get, ← hm]
    by_cases hcopy : copyout tot m = true
    · rw [if_pos hcopy, wp_bind]
      refine wp_brelse rfl ?_
      rw [bytesFrom_add (by omega), Nat.add_assoc]
      exact ih (by omega) (by omega)
    · rw [if_neg hcopy, wp_bind]
      refine wp_brelse rfl ⟨rfl, .inr ⟨tot, htot, rfl, m, ?_⟩⟩
      exact Bool.eq_false_iff.mpr hcopy

/-- The number of bytes that `readi` is to read. -/
def readable (size off n : BitVec 32) : Nat :=
  if size < off ∨ off + n < off then 0 else min n.toNat (size.toNat - off.toNat)

/-- `readi` of a file without holes leaves everything alone, and reads the bytes of the file. -/
theorem wp_readiWith {copyout : Nat → Nat → Bool} {off n : BitVec 32} (h : NoHoles s i) :
    wp (readiWith alloc save i copyout off n) (waits s) (fun r s' => s' = s ∧
      (r = (↑(readable (s.inode i).size off n),
          bytesFrom s i off.toNat (readable (s.inode i).size off n)) ∨
        ∃ t ≤ readable (s.inode i).size off n, r = (-1, bytesFrom s i off.toNat t) ∧
          ∃ m, copyout t m = false)) s := by
  simp only [readiWith, wp_bind, wp_get, readable]
  by_cases hout : (s.inode i).size < off ∨ off + n < off
  · simp only [if_pos hout]
    exact ⟨rfl, .inl rfl⟩
  simp only [if_neg hout]
  have hlen : (if (s.inode i).size < off + n then (s.inode i).size - off else n).toNat =
      min n.toNat ((s.inode i).size.toNat - off.toNat) ∧
      off.toNat ≤ (s.inode i).size.toNat := by
    generalize (s.inode i).size = size at *
    rw [BitVec.lt_def, BitVec.lt_def] at hout
    push Not at hout
    split
    next hlt =>
      rw [BitVec.lt_def] at hlt
      bv_omega
    next hlt =>
      rw [BitVec.lt_def] at hlt
      bv_omega
  rw [hlen.1]
  have hend : off.toNat + min n.toNat ((s.inode i).size.toNat - off.toNat) ≤
      (s.inode i).size.toNat := by
    have hle := hlen.2
    omega
  exact wp_readLoop alloc save h hend (Nat.zero_le _) (Nat.le_add_left ..)

end Found

/-! ## Runs -/

/-- The blocks that are not in the log are as on disk, apart from those that are neither the
system's nor blocks of addresses: a write that was cut short may have changed such a block. -/
def Clean (sb : Superblock) (s : State) : Prop :=
  ∀ b, b ∉ s.log → s.block b = s.disk b ∨
    b ∈ area sb ∧ ∀ o ∈ owners sb, 0 < o.2.height → addr s o ≠ b

/-- The file system between two operations. -/
structure Sound (sb : Superblock) (s : State) : Prop where
  owned : Owned sb s
  noHoles : ∀ i < sb.ninodes, NoHoles s i
  clean : Clean sb s

/-- An operation logs what it changes, apart from data, and the blocks it takes. -/
theorem Clean.step (h : Clean sb s) (howned : Owned sb s') (hdisk : s'.disk = s.disk)
    (hlog : ∀ b ∈ s.log, b ∈ s'.log)
    (hblock : ∀ b, b ∉ s'.log → s'.block b = s.block b ∨
      ∃ o ∈ owners sb, o.2.height = 0 ∧ addr s' o ≠ 0 ∧ b = addr s' o)
    (hfresh : ∀ o ∈ owners sb, addr s' o ≠ addr s o → addr s' o = 0 ∨ addr s' o ∈ s'.log) :
    Clean sb s' := by
  intro b hb
  rcases hblock b hb with hsame | ⟨o, ho, hheight, hne, rfl⟩
  · rw [hsame, hdisk]
    refine (h b fun hold => hb (hlog b hold)).imp_right fun hright => ⟨hright.1, ?_⟩
    rintro o ho hpos rfl
    by_cases hkept : addr s' o = addr s o
    · exact hright.2 o ho hpos hkept.symm
    · rcases hfresh o ho hkept with hzero | hin
      · exact zero_not_area (hzero ▸ hright.1)
      · exact hb hin
  · refine .inr ⟨howned.exact.inside o ho hne, fun o' ho' hpos heq => ?_⟩
    have hsame := howned.exact.inj o ho o' ho' hne heq.symm
    rw [← hsame] at hpos
    exact absurd hheight (Nat.pos_iff_ne_zero.mp hpos)

/-- However the loop of `writei` ends, what it has changed is logged, or is data. -/
theorem Ended.block (hi : i < sb.ninodes) (hfits : off + n ≤ MAXFILE * BSIZE)
    (h : Ended sb i src off n tot s s') :
    ∀ b, b ∉ s'.log → s'.block b = s.block b ∨
      ∃ o ∈ owners sb, o.2.height = 0 ∧ addr s' o ≠ 0 ∧ b = addr s' o := by
  intro b hb
  cases h with
  | all h _ => exact .inl (h.logged b hb)
  | full h _ _ => exact .inl (h.logged b hb)
  | @stopped s1 c h _ hmapped hc _ _ =>
    have hbn : (off + tot) / BSIZE < MAXFILE :=
      Nat.div_lt_of_lt_mul (by rw [Nat.mul_comm]; omega)
    have haddr : ∀ data, addr (s1.put (addr s1 (holder i (off + tot))) data)
        (holder i (off + tot)) = addr s1 (holder i (off + tot)) := fun data =>
      addr_put h.owned (holder_mem hi hbn) (dataPlace_valid hbn).2 (holder_mem hi hbn)
    by_cases hself : b = addr s1 (holder i (off + tot))
    · refine .inr ⟨holder i (off + tot), holder_mem hi hbn, (dataPlace_valid hbn).2, ?_, ?_⟩
      · rw [haddr]
        exact hmapped
      · rw [haddr]
        exact hself
    · exact .inl ((put_block_ne hself).trans (h.logged b hb))

/-- However it ends, the bytes up to where it has got have blocks. -/
theorem Ended.mapped (hi : i < sb.ninodes) (hfits : off + n ≤ MAXFILE * BSIZE)
    (h : Ended sb i src off n tot s s') (hbn : k / BSIZE < MAXFILE)
    (hk : Mapped s i k ∨ off ≤ k ∧ k < off + tot) :
    Mapped s' i k := by
  cases h with
  | all h _ => exact (h.content k hbn hk).1
  | full h _ _ => exact (h.content k hbn hk).1
  | stopped h _ hmapped hc _ _ =>
    have hbn' : (off + tot) / BSIZE < MAXFILE :=
      Nat.div_lt_of_lt_mul (by rw [Nat.mul_comm]; omega)
    rw [Mapped, addr_put h.owned (holder_mem hi hbn') (dataPlace_valid hbn').2
      (holder_mem hi hbn)]
    exact (h.content k hbn hk).1

theorem resized_size {last : Nat} (hlast : last < 2 ^ 32) :
    ((resized sb i last s).inode i).size.toNat = max (s.inode i).size.toNat last := by
  simp only [resized, updated]
  split
  next hgrow =>
    rw [update_self, BitVec.toNat_ofNat, Nat.mod_eq_of_lt hlast]
    omega
  next hgrow => omega

theorem addr_resized {last : Nat} (hsb : sb.WellFormed) (h : Owned sb s) (hi : i < sb.ninodes)
    {o : Owner} (ho : o ∈ owners sb) : addr (resized sb i last s) o = addr s o := by
  refine (h.updated hsb hi fun j => ?_).2 o ho
  split
  · by_cases hji : j = i
    · rw [hji, update_self]
    · rw [update_of_ne hji]
  · rfl

theorem Work.size_eq (h : Work sb i s s') : (s'.inode i).size = (s.inode i).size := by
  obtain ⟨addrs, heq⟩ := h.inode
  rw [heq, update_self]

theorem NoHoles.resized (hsb : sb.WellFormed) (hi : i < sb.ninodes) (h : NoHoles s i)
    (hoff : off ≤ (s.inode i).size.toNat) (hfits : off + n ≤ MAXFILE * BSIZE) (htot : tot ≤ n)
    (hended : Ended sb i src off n tot s s') : NoHoles (resized sb i (off + tot) s') i := by
  have hwork := hended.work hsb hi hfits
  have hmax : MAXFILE * BSIZE < 2 ^ 32 := by decide
  have hsize : ((Block.resized sb i (off + tot) s').inode i).size.toNat =
      max (s.inode i).size.toNat (off + tot) := by
    rw [← hwork.size_eq]
    exact resized_size (by omega)
  have hbound := h.size
  refine .of_bytes (by rw [hsize]; omega) fun k hk => ?_
  rw [hsize] at hk
  have hbn : k / BSIZE < MAXFILE := by
    rw [Nat.div_lt_iff_lt_mul (by decide)]
    omega
  rw [Mapped, addr_resized hsb hwork.owned hi (holder_mem hi hbn)]
  refine hended.mapped hi hfits hbn ?_
  by_cases hin : k < (s.inode i).size.toNat
  · exact .inl (h.byte hin).2
  · exact .inr (by omega)

/-- What can happen between two looks at the file system: an operation on an inode; the beginning
and the end of a system call, which commits if it is the last; a buffer that is not in the log is
taken for another block; other processes hold other buffers. -/
inductive Event where
  | write (i : Inum) (src : Source) (off n : BitVec 32)
  | trunc (i : Inum)
  | read (i : Inum) (copyout : Nat → Nat → Bool) (off n : BitVec 32)
  | beginOp
  | endOp
  | evict (b : BlockNo)
  | buffers (held : List BlockNo)

/-- The events that can happen in a state. -/
def Admitted (sb : Superblock) (s : State) : Event → Prop
  | .write i _ _ _ => i < sb.ninodes
  | .trunc i => i < sb.ninodes
  | .read i _ _ _ => i < sb.ninodes
  | .evict b => b ∉ s.log
  | _ => True

/-- The state after `end_op`, which installs the log if no other call is active. -/
def State.ended (s : State) : State :=
  if s.ops = 1 then
    { s with ops := 0, disk := fun b => if b ∈ s.log then s.block b else s.disk b, log := [] }
  else { s with ops := s.ops - 1 }

/-- One event. -/
def perform (sb : Superblock) : Event → Code Unit
  | .write i src off n => do
    let _ ← writei sb i src off n
    pure ()
  | .trunc i => itrunc sb i
  | .read i copyout off n => do
    let _ ← readi sb i copyout off n
    pure ()
  | .beginOp => modify fun s => { s with ops := s.ops + 1 }
  | .endOp => modify State.ended
  | .evict b => modify fun s => s.put b (s.disk b)
  | .buffers held => modify fun s => { s with held := held }

/-- The state after boot: the buffers are as the disk, on which the free map is right and no file
has holes. -/
structure Mounted (sb : Superblock) (s : State) : Prop where
  owned : Owned sb s
  noHoles : ∀ i < sb.ninodes, NoHoles s i
  block : s.block = s.disk

theorem Beside.noHoles (h : Beside sb i s s') (hj : j < sb.ninodes) (hne : j ≠ i)
    (hold : NoHoles s j) : NoHoles s' j :=
  hold.congr hj (fun o ho hoj => h.others o ho (hoj ▸ hne)) (by rw [h.inode_ne j hne])

section Steps

variable (hsb : sb.WellFormed) (h : Sound sb s)

include hsb h

theorem sound_write (hi : i < sb.ninodes) {off n : BitVec 32} :
    wp (writei sb i src off n) Fault.any (fun _ s' => Sound sb s') s := by
  refine wp_mono (wp_writei hsb h.owned hi fun _ _ => trivial) ?_
  rintro ret s' (⟨-, -, rfl⟩ | ⟨haccepts, tot, s1, -, htot, -, hended, rfl⟩)
  · exact h
  have hwork := hended.work hsb hi haccepts.2
  have hbeside : Beside sb i s (resized sb i (off.toNat + tot) s1) := hwork.resized hsb hi
  have haddr : ∀ o ∈ owners sb, addr (resized sb i (off.toNat + tot) s1) o = addr s1 o :=
    fun o ho => addr_resized hsb hwork.owned hi ho
  have hlog : ∀ b ∈ s1.log, b ∈ (resized sb i (off.toNat + tot) s1).log :=
    fun b hb => mem_listed.mpr (.inr hb)
  refine ⟨hbeside.owned, fun j hj => ?_, ?_⟩
  · by_cases hji : j = i
    · subst hji
      exact (h.noHoles j hj).resized hsb hj haccepts.1 haccepts.2 htot hended
    · exact hbeside.noHoles hj hji (h.noHoles j hj)
  · refine h.clean.step hbeside.owned hwork.disk (fun b hb => hlog b (hwork.log b hb)) ?_ ?_
    · intro b hb
      have hsplit : b ≠ iblock sb i ∧ b ∉ s1.log := by
        constructor
        · exact fun heq => hb (mem_listed.mpr (.inl heq))
        · exact fun hin => hb (hlog b hin)
      rcases hended.block hi haccepts.2 b hsplit.2 with hsame | ⟨o, ho, hheight, hne, heq⟩
      · exact .inl ((updated_block_ne hsplit.1).trans hsame)
      · exact .inr ⟨o, ho, hheight, by rwa [haddr o ho], by rw [haddr o ho, heq]⟩
    · intro o ho hne
      rw [haddr o ho] at hne ⊢
      exact .inr (hlog _ (hwork.fresh o ho hne))

theorem sound_trunc (hi : i < sb.ninodes) :
    wp (itrunc sb i) Fault.any (fun _ s' => Sound sb s') s := by
  refine wp_mono (wp_mono_fault (wp_itrunc hsb h.owned hi) fun _ _ => trivial) fun _ s' hs' => ?_
  obtain ⟨-, htrunc⟩ := hs'
  refine ⟨htrunc.owned, fun j hj => ?_, ?_⟩
  · by_cases hji : j = i
    · have hsize : (s'.inode j).size.toNat = 0 := by
        rw [hji, htrunc.inode]
        rfl
      exact .of_bytes (by omega) fun k hk => absurd hk (by omega)
    · exact htrunc.toBeside.noHoles hj hji (h.noHoles j hj)
  · refine h.clean.step htrunc.owned htrunc.disk (fun b hb => (htrunc.log b).mpr (.inl hb)) ?_ ?_
    · intro b hb
      rw [htrunc.log] at hb
      push Not at hb
      exact .inl (htrunc.block b hb.2.1 hb.2.2)
    · rintro ⟨j, p⟩ ho hne
      by_cases hji : j = i
      · obtain ⟨k, hk⟩ := p.exists_root_above
        rw [hji]
        exact .inl (addr_zero_below hk (congrArg (fun x : Inode => x.addrs k) htrunc.inode))
      · exact absurd (htrunc.others (j, p) ho hji) hne

/-- The free map, the addresses and so the files do not depend on a block that is neither the
system's nor a block of addresses. -/
theorem sound_evict (hb : b ∉ s.log) : Sound sb (s.put b (s.disk b)) := by
  rcases h.clean b hb with hsame | ⟨harea, hdata⟩
  · have heq : s.put b (s.disk b) = s := by
      rw [State.put, ← hsame, update_eq_self]
    rwa [heq]
  have haddr : ∀ o ∈ owners sb, addr (s.put b (s.disk b)) o = addr s o := by
    intro o ho
    refine addrAt_frame (fun p hv hpos hne => update_of_ne ?_ _ _) ho.2
    exact hdata (o.1, p) ⟨ho.1, hv⟩ hpos
  refine ⟨⟨h.owned.exact.congr (fun c hc => ?_) haddr, fun n hn => ?_⟩, fun j hj => ?_,
    fun c hc => ?_⟩
  · rw [used_put hsb harea (area_lt_mapBits hc)]
  · have hdata := hsb.data
    have hsize := size_lt_mapBits sb
    rw [used_put hsb harea (by omega), h.owned.system n hn]
  · exact (h.noHoles j hj).congr hj (fun o ho _ => haddr o ho) rfl
  · by_cases hcb : c = b
    · rw [hcb]
      exact .inl (put_block_self ..)
    · rw [put_block_ne hcb]
      refine (h.clean c hc).imp_right fun hright => ⟨hright.1, fun o ho hpos => ?_⟩
      rw [haddr o ho]
      exact hright.2 o ho hpos

omit hsb in
theorem sound_ended : Sound sb s.ended := by
  unfold State.ended
  split
  · refine ⟨⟨h.owned.exact, h.owned.system⟩, fun i hi => ⟨(h.noHoles i hi).size,
      (h.noHoles i hi).mapped⟩, fun b _ => ?_⟩
    by_cases hin : b ∈ s.log
    · exact .inl (if_pos hin).symm
    · show s.block b = (if b ∈ s.log then s.block b else s.disk b) ∨ _
      rw [if_neg hin]
      exact h.clean b hin
  · exact ⟨⟨h.owned.exact, h.owned.system⟩, fun i hi => ⟨(h.noHoles i hi).size,
      (h.noHoles i hi).mapped⟩, h.clean⟩

theorem sound_perform {e : Event} (he : Admitted sb s e) :
    wp (perform sb e) Fault.any (fun _ s' => Sound sb s') s := by
  cases e with
  | write i src off n =>
    simp only [perform, wp_bind, wp_pure]
    exact sound_write hsb h he
  | trunc i => exact sound_trunc hsb h he
  | read i copyout off n =>
    simp only [perform, wp_bind, wp_pure]
    rw [readi]
    refine wp_mono_fault (wp_mono (wp_readiWith _ _ (h.noHoles i he)) ?_) fun _ _ => trivial
    rintro r s' ⟨rfl, -⟩
    exact h
  | beginOp =>
    exact ⟨⟨h.owned.exact, h.owned.system⟩, fun i hi => ⟨(h.noHoles i hi).size,
      (h.noHoles i hi).mapped⟩, h.clean⟩
  | endOp => exact sound_ended h
  | evict b => exact sound_evict hsb h he
  | buffers held =>
    exact ⟨⟨h.owned.exact, h.owned.system⟩, fun i hi => ⟨(h.noHoles i hi).size,
      (h.noHoles i hi).mapped⟩, h.clean⟩

end Steps

theorem sound_of_reachable (hsb : sb.WellFormed)
    (h : Reachable (Mounted sb) (Admitted sb) (perform sb) s) : Sound sb s := by
  refine h.induct (Sound sb) ?_ fun s e hs he => sound_perform hsb hs he
  intro s hs
  exact ⟨hs.owned, hs.noHoles, fun b _ => .inl (by rw [hs.block])⟩

/-- In every state that is reached, no file has holes, and `readi` only reads: with any code in
the place of `balloc` and `log_write` it returns without a change of state, unless it has to wait
for a buffer that is held. -/
theorem readi_never_allocates (hsb : sb.WellFormed) (hi : i < sb.ninodes)
    (h : Reachable (Mounted sb) (Admitted sb) (perform sb) s) :
    NoHoles s i ∧ ∀ (copyout : Nat → Nat → Bool) (off n : BitVec 32),
      wp (readi sb i copyout off n) (waits s) (fun _ s' => s' = s) s ∧
      ∀ (alloc : Code BlockNo) (save : BlockNo → Code Unit),
        wp (readiWith alloc save i copyout off n) (waits s) (fun _ s' => s' = s) s := by
  have hsound := sound_of_reachable hsb h
  have hholes := hsound.noHoles i hi
  refine ⟨hholes, fun copyout off n => ⟨?_, fun alloc save => ?_⟩⟩
  · rw [readi]
    exact wp_mono (wp_readiWith _ _ hholes) fun _ _ hs' => hs'.1
  · exact wp_mono (wp_readiWith alloc save hholes) fun _ _ hs' => hs'.1

theorem spread_mounted : Mounted wideDisk (spread []) := by
  refine ⟨spread_owned [], fun i hi => ?_, rfl⟩
  by_cases hone : i = 1
  · subst hone
    refine ⟨by decide, fun bn hbn => ?_⟩
    have hlt : bn < 10 := by
      have hsize : bn * 1024 < 10240 := hbn
      omega
    interval_cases bn <;> decide
  · have hsize : ((spread []).inode i).size.toNat = 0 := by
      simp [spread, hone]
    exact .of_bytes (by omega) fun k hk => absurd hk (by omega)

/-- A letter is written to inode 2, which was empty: it gets block 16. -/
@[irreducible] def written : State :=
  lastState unguarded (perform wideDisk) [.write 2 (.kernel fun _ => 65) 0 1] (spread [])

theorem written_reachable :
    Reachable (Mounted wideDisk) (Admitted wideDisk) (perform wideDisk) written := by
  unfold written
  exact Reachable.after (.start spread_mounted) (by simp [Admitted, wideDisk])

theorem readi_never_allocates_written :
    (written.inode 2).size = 1 ∧ addr written (2, .root 0) = 16 ∧ NoHoles written 2 ∧
    ∀ (copyout : Nat → Nat → Bool) (off n : BitVec 32),
      wp (readi wideDisk 2 copyout off n) (waits written) (fun _ s' => s' = written) written ∧
      ∀ (alloc : Code BlockNo) (save : BlockNo → Code Unit),
        wp (readiWith alloc save 2 copyout off n) (waits written)
          (fun _ s' => s' = written) written :=
  ⟨by decide +kernel, by decide +kernel,
    readi_never_allocates wideDisk_wellFormed (by decide) written_reachable⟩

/-- In every state that is reached, whatever allocations have failed on the way, the blocks that the
inodes refer to directly and through their tables lie in the data area and differ from each other,
and they are the blocks of that area that the free map has as used; the blocks before it are all
used. So no two files share a block and no block is lost. -/
theorem blocks_owned_once (hsb : sb.WellFormed)
    (h : Reachable (Mounted sb) (Admitted sb) (perform sb) s) :
    (∀ o ∈ owners sb, addr s o ≠ 0 → addr s o ∈ area sb ∧
      ∀ o' ∈ owners sb, addr s o = addr s o' → o = o') ∧
      (∀ b ∈ area sb, used sb s.block b.toNat = true ↔ ∃ o ∈ owners sb, addr s o = b) ∧
      ∀ n < datastart sb, used sb s.block n = true := by
  have hsound := sound_of_reachable hsb h
  have hexact := hsound.owned.exact
  exact ⟨fun o ho hne => ⟨hexact.inside o ho hne, fun o' ho' => hexact.inj o ho o' ho' hne⟩,
    hexact.used_iff, hsound.owned.system⟩

/-- Inode 1 is truncated after that. -/
@[irreducible] def truncated : State :=
  lastState unguarded (perform wideDisk) [.trunc 1] written

theorem blocks_owned_once_truncated :
    used wideDisk written.block 100 = true ∧ used wideDisk truncated.block 100 = false ∧
    used wideDisk truncated.block 16 = true ∧
    (∀ o ∈ owners wideDisk, addr truncated o = 16 → o = (2, .root 0)) ∧
    ∀ b ∈ area wideDisk, used wideDisk truncated.block b.toNat = true ↔
      ∃ o ∈ owners wideDisk, addr truncated o = b := by
  have hrun : Reachable (Mounted wideDisk) (Admitted wideDisk) (perform wideDisk) truncated := by
    unfold truncated
    exact written_reachable.after (by simp [Admitted, wideDisk])
  obtain ⟨honce, hused, -⟩ := blocks_owned_once wideDisk_wellFormed hrun
  have haddr : addr truncated (2, .root 0) = 16 := by decide +kernel
  refine ⟨by decide +kernel, by decide +kernel, by decide +kernel, fun o ho h16 => ?_, hused⟩
  have hne : addr truncated o ≠ 0 := by
    rw [h16]
    decide
  exact (honce o ho hne).2 _ ⟨by decide, trivial⟩ (h16.trans haddr.symm)

end Xv6.Fs.Block
