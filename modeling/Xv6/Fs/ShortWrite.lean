import Xv6.Fs.Reading

/-!
# Short writes

`writei` copies a slice into the buffer of its block, and logs the block only if the whole slice
was copied. If `copyin` meets a page that is not mapped in the middle of a slice, the bytes before
it are in the buffer, though `writei` does not count them: a reader sees them until the buffer is
evicted, and if the block is in the log they are written to the disk. So a short write changes only
what it reports exactly if these bytes are those of the file already, or lie past its end.
-/

namespace Xv6.Fs.Block

variable {sb : Superblock} {s s' s1 : State} {i : Inum} {b : BlockNo} {src : Source}
  {off n tot c last : Nat}

/-! ## Eviction -/

/-- The state once every buffer that is not in the log has been read from disk again. -/
def State.evicted (s : State) : State :=
  { s with block := fun b => if b ∈ s.log then s.block b else s.disk b }

/-- Every block that is not in the log is as on disk. -/
def Synced (s : State) : Prop := ∀ b, b ∉ s.log → s.block b = s.disk b

theorem Synced.evicted_eq (h : Synced s) : s.evicted = s := by
  have hblock : (fun b => if b ∈ s.log then s.block b else s.disk b) = s.block := by
    funext b
    by_cases hb : b ∈ s.log
    · rw [if_pos hb]
    · rw [if_neg hb, h b hb]
  rw [State.evicted, hblock]

theorem Synced.wrote (h : Synced s) (hwrote : Wrote sb i src.byte off tot s s1) : Synced s1 := by
  intro b hb
  rw [hwrote.logged b hb, hwrote.disk]
  exact h b fun hold => hb (hwrote.log b hold)

theorem Synced.resized (h : Synced s) : Synced (resized sb i last s) := by
  intro b hb
  have hsplit : b ≠ iblock sb i ∧ b ∉ s.log :=
    ⟨fun heq => hb (mem_listed.mpr (.inl heq)), fun hin => hb (mem_listed.mpr (.inr hin))⟩
  exact (updated_block_ne hsplit.1).trans (h b hsplit.2)

/-- A block that is not the inode's is written before or after the inode. -/
theorem resized_put {data : Bytes} (hb : b ≠ iblock sb i) :
    resized sb i last (s.put b data) = (resized sb i last s).put b data := by
  simp only [resized, updated, State.put]
  rw [Function.update_of_ne hb.symm, Function.update_comm hb]
  rfl

/-- A change of one block that is not in the log is lost. -/
theorem Synced.evicted_put (h : Synced s) {data : Bytes} :
    (s.put b data).evicted = if b ∈ s.log then s.put b data else s := by
  have hblock : ∀ c, c ≠ b →
      (if c ∈ s.log then (s.put b data).block c else s.disk c) = s.block c := by
    intro c hc
    by_cases hin : c ∈ s.log
    · rw [if_pos hin, put_block_ne hc]
    · rw [if_neg hin, h c hin]
  by_cases hb : b ∈ s.log
  · rw [if_pos hb]
    have hall : (fun c => if c ∈ s.log then (s.put b data).block c else s.disk c) =
        (s.put b data).block := by
      funext c
      by_cases hc : c = b
      · rw [hc, if_pos hb]
      · rw [hblock c hc, put_block_ne hc]
    exact congrArg (fun block => { s with block := block }) hall
  · rw [if_neg hb]
    have hall : (fun c => if c ∈ s.log then (s.put b data).block c else s.disk c) = s.block := by
      funext c
      by_cases hc : c = b
      · rw [hc, if_neg hb, h b hb]
      · exact hblock c hc
    exact congrArg (fun block => { s with block := block }) hall

/-! ## What is seen -/

/-- The file seen in state `v` is that of `s` with `tot` bytes at `off` replaced. -/
def Seen (s : State) (i : Inum) (src : Source) (off tot : Nat) (v : State) : Prop :=
  ∀ k < (v.inode i).size.toNat, content v i k =
    if off ≤ k ∧ k < off + tot then src.byte (k - off) else content s i k

/-- A write has changed what it reports: its `ret` bytes at `off`, and the size; this is what is
in the buffers, and also what is read when they are evicted. -/
structure Reported (s : State) (i : Inum) (src : Source) (off : Nat) (ret : Int) (s' : State) :
    Prop where
  size : (s'.inode i).size.toNat = if ret < 0 then (s.inode i).size.toNat
    else max (s.inode i).size.toNat (off + ret.toNat)
  cached : Seen s i src off ret.toNat s'
  evicted : Seen s i src off ret.toNat s'.evicted

/-- The bytes that are copied before the first one that is not mapped, to the block where it would
go, are in the file already, or past its end. -/
def Intact (s : State) (i : Inum) (src : Source) (off n : BitVec 32) : Prop :=
  Accepts s i off n → ∀ d < n.toNat, src.mapped d = false → (∀ k < d, src.mapped k = true) →
    ∀ k < d, (off.toNat + k) / BSIZE = (off.toNat + d) / BSIZE →
      off.toNat + k < (s.inode i).size.toNat → src.byte k = content s i (off.toNat + k)

theorem Wrote.resized_size (hfits : off + tot ≤ MAXFILE * BSIZE)
    (h : Wrote sb i src.byte off tot s s1) (hs' : s'.inode = s1.inode) :
    ((resized sb i (off + tot) s').inode i).size.toNat =
      max (s.inode i).size.toNat (off + tot) := by
  have hmax : MAXFILE * BSIZE < 2 ^ 32 := by decide
  rw [Block.resized_size (by omega), hs', h.size_eq]

section Contents

variable (hsb : sb.WellFormed) (hi : i < sb.ninodes)

include hsb hi

theorem content_resized (h : Owned sb s) {k : Nat} (hk : k / BSIZE < MAXFILE)
    (hmap : Mapped s i k) : content (resized sb i last s) i k = content s i k := by
  have haddr : addr (resized sb i last s) (holder i k) = addr s (holder i k) :=
    addr_resized hsb h hi (holder_mem hi hk)
  rw [content, content, haddr]
  refine congrFun (updated_block_ne fun heq => iblock_not_area hsb hi ?_) _
  exact heq ▸ h.exact.inside _ (holder_mem hi hk) hmap

section

variable (hholes : NoHoles s i) (hoff : off ≤ (s.inode i).size.toNat)

include hholes hoff

theorem seen_of_wrote
    (hfits : off + tot ≤ MAXFILE * BSIZE) (h : Wrote sb i src.byte off tot s s1) :
    Seen s i src off tot (resized sb i (off + tot) s1) := by
  intro k hk
  have hended : Ended sb i src off tot tot s s1 := .all h rfl
  obtain ⟨hbn, -⟩ := (hholes.resized hsb hi hoff hfits le_rfl hended).byte hk
  have hmax : MAXFILE * BSIZE < 2 ^ 32 := by decide
  rw [resized_size (by omega), h.size_eq] at hk
  have hrange : Mapped s i k ∨ off ≤ k ∧ k < off + tot := by
    by_cases hin : k < (s.inode i).size.toNat
    · exact .inl (hholes.byte hin).2
    · exact .inr (by omega)
  obtain ⟨hmap, hcontent⟩ := h.content k hbn hrange
  rw [content_resized hsb hi h.owned hbn hmap, hcontent]

/-- With a slice of which `c` bytes were copied, a byte of the file is as after the whole slices, or
one of the `c` bytes. -/
theorem content_stopped
    (hfits : off + n ≤ MAXFILE * BSIZE) (h : Wrote sb i src.byte off tot s s1)
    (hmapped : Mapped s1 i (off + tot)) (hc : c < min (n - tot) (BSIZE - (off + tot) % BSIZE))
    {k : Nat} (hk : k < max (s.inode i).size.toNat (off + tot)) :
    content (resized sb i (off + tot) (s1.put (addr s1 (holder i (off + tot)))
      (move (s1.block (addr s1 (holder i (off + tot)))) ((off + tot) % BSIZE) c
        fun k => src.byte (tot + k)))) i k =
      if off + tot ≤ k ∧ k < off + tot + c then src.byte (k - off)
      else content (resized sb i (off + tot) s1) i k := by
  have hbn : (off + tot) / BSIZE < MAXFILE := by
    rw [Nat.div_lt_iff_lt_mul (by decide)]
    omega
  have hwhole : Ended sb i src off tot tot s s1 := .all h rfl
  have hholes1 := hholes.resized hsb hi hoff (by omega) le_rfl hwhole
  obtain ⟨hkn, hmap⟩ := hholes1.byte (by rwa [h.resized_size (by omega) rfl])
  rw [Mapped, addr_resized hsb h.owned hi (holder_mem hi hkn)] at hmap
  have hplace := dataPlace_valid hbn
  rw [content_resized hsb hi (h.owned.put (holder_mem hi hbn) hplace.2 hsb hmapped) hkn
    ((addr_put h.owned (holder_mem hi hbn) hplace.2 (holder_mem hi hkn)).trans_ne hmap),
    content_resized hsb hi h.owned hkn hmap,
    content_put h.owned hi hbn hkn (by omega) hmap]
  by_cases hin : off + tot ≤ k ∧ k < off + tot + c
  · rw [if_pos hin, if_pos hin, show tot + (k - (off + tot)) = k - off by omega]
  · rw [if_neg hin, if_neg hin]

/-- What is seen is right exactly if these bytes are in the file already. -/
theorem seen_stopped
    (hfits : off + n ≤ MAXFILE * BSIZE) (htot : tot ≤ n) (h : Wrote sb i src.byte off tot s s1)
    (hmapped : Mapped s1 i (off + tot)) (hc : c < min (n - tot) (BSIZE - (off + tot) % BSIZE)) :
    Seen s i src off tot (resized sb i (off + tot) (s1.put (addr s1 (holder i (off + tot)))
      (move (s1.block (addr s1 (holder i (off + tot)))) ((off + tot) % BSIZE) c
        fun k => src.byte (tot + k)))) ↔
      ∀ k, tot ≤ k → k < tot + c → off + k < (s.inode i).size.toNat →
        src.byte k = content s i (off + k) := by
  have hbyte := fun k => content_stopped hsb hi hholes hoff hfits h hmapped hc (k := k)
  have hseen := seen_of_wrote hsb hi hholes hoff (by omega) h
  rw [Seen, h.resized_size (by omega) rfl] at hseen
  rw [Seen, h.resized_size (by omega) (show (s1.put ..).inode = s1.inode from rfl)]
  constructor
  · intro hall k hlow hhigh hk
    have hleft := hbyte (off + k) (by omega)
    rw [hall (off + k) (by omega), if_neg (by omega), if_pos (by omega)] at hleft
    rw [hleft, Nat.add_sub_cancel_left]
  · intro hsame k hk
    rw [hbyte k hk]
    by_cases hin : off + tot ≤ k ∧ k < off + tot + c
    · rw [if_pos hin, if_neg (by omega)]
      have hbytes := hsame (k - off) (by omega) (by omega) (by omega)
      rwa [show off + (k - off) = k by omega] at hbytes
    · rw [if_neg hin]
      exact hseen k hk

end

end Contents

/-! ## `writei` -/

/-- A later `readi` into memory that is mapped returns the bytes of the file. -/
def Reads (sb : Superblock) (i : Inum) (v : State) : Prop :=
  ∀ off n : BitVec 32, wp (readi sb i (fun _ _ => true) off n) (waits v) (fun r v' => v' = v ∧
    r = (↑(readable (v.inode i).size off n),
      bytesFrom v i off.toNat (readable (v.inode i).size off n))) v

theorem NoHoles.reads (h : NoHoles s i) : Reads sb i s := by
  intro off n
  rw [readi]
  refine wp_mono (wp_readiWith _ _ h) ?_
  rintro r v ⟨hv, hr | ⟨t, -, -, m, hno⟩⟩
  · exact ⟨hv, hr⟩
  · exact absurd hno (by simp)

section Ended

variable (hsb : sb.WellFormed) (hi : i < sb.ninodes) (hholes : NoHoles s i) (hsync : Synced s)
  (hoff : off ≤ (s.inode i).size.toNat) (hfits : off + n ≤ MAXFILE * BSIZE) (htot : tot ≤ n)

include hsb hi hholes hsync hoff hfits htot

omit hholes hoff in
/-- After eviction the file is as it was, or the slice that was cut short is gone. -/
theorem evicted_ended (hended : Ended sb i src off n tot s s') :
    (resized sb i (off + tot) s').evicted = resized sb i (off + tot) s' ∨
    ∃ s1, Wrote sb i src.byte off tot s s1 ∧
      (resized sb i (off + tot) s').evicted = resized sb i (off + tot) s1 := by
  cases hended with
  | all h _ => exact .inl (hsync.wrote h).resized.evicted_eq
  | full h _ _ => exact .inl (hsync.wrote h).resized.evicted_eq
  | @stopped s1 c h _ hmapped hc _ _ =>
    have hbn : (off + tot) / BSIZE < MAXFILE := by
      rw [Nat.div_lt_iff_lt_mul (by decide)]
      omega
    have hne : addr s1 (holder i (off + tot)) ≠ iblock sb i := fun heq =>
      iblock_not_area hsb hi (heq ▸ h.owned.exact.inside _ (holder_mem hi hbn) hmapped)
    rw [resized_put hne, (hsync.wrote h).resized.evicted_put]
    by_cases hin : addr s1 (holder i (off + tot)) ∈ (resized sb i (off + tot) s1).log
    · exact .inl (if_pos hin)
    · exact .inr ⟨s1, h, if_neg hin⟩

theorem noHoles_evicted (hended : Ended sb i src off n tot s s') :
    NoHoles (resized sb i (off + tot) s').evicted i := by
  rcases evicted_ended hsb hi hsync hfits htot hended with heq | ⟨s1, h, heq⟩
  · rw [heq]
    exact hholes.resized hsb hi hoff hfits htot hended
  · rw [heq]
    exact hholes.resized hsb hi hoff (by omega) le_rfl (.all h rfl)

/-- What is seen after eviction is right if what is in the buffers is. -/
theorem reported_iff_cached (hended : Ended sb i src off n tot s s') :
    Reported s i src off tot (resized sb i (off + tot) s') ↔
      Seen s i src off tot (resized sb i (off + tot) s') := by
  refine ⟨fun h => h.cached, fun hseen => ⟨?_, hseen, ?_⟩⟩
  · have hmax : MAXFILE * BSIZE < 2 ^ 32 := by decide
    rw [resized_size (by omega), (hended.work hsb hi hfits).size_eq, if_neg (by omega)]
    rfl
  · rcases evicted_ended hsb hi hsync hfits htot hended with heq | ⟨s1, h, heq⟩
    · rw [heq]
      exact hseen
    · rw [heq]
      exact seen_of_wrote hsb hi hholes hoff (by omega) h

end Ended

/-- The loop ends with what it reports exactly if the bytes of the slice that was cut short are
`Intact`. -/
theorem reported_iff_intact {off n : BitVec 32} (hsb : sb.WellFormed) (hi : i < sb.ninodes)
    (hholes : NoHoles s i) (hsync : Synced s) (haccepts : Accepts s i off n)
    (htot : tot ≤ n.toNat) (hmapped : ∀ k < tot, src.mapped k = true)
    (hended : Ended sb i src off.toNat n.toNat tot s s') :
    (tot < n.toNat → Reported s i src off.toNat tot (resized sb i (off.toNat + tot) s')) ↔
      Intact s i src off n := by
  rw [reported_iff_cached hsb hi hholes hsync haccepts.1 haccepts.2 htot hended]
  cases hended with
  | all h hall =>
    refine ⟨fun _ _ d hd hno _ => ?_, fun _ hlt => absurd hlt (by omega)⟩
    exact absurd (hmapped d (by omega)) (by rw [hno]; simp)
  | full h hlt hfull =>
    refine ⟨fun _ _ d hd hno _ k hk hblock hsize => ?_, fun _ _ => ?_⟩
    · -- the block of byte `d` is the one that is missing, or after it: past the end of the file
      exfalso
      have hdtot : tot ≤ d := by
        by_contra hlow
        exact absurd (hmapped d (by omega)) (by rw [hno]; simp)
      obtain ⟨hkn, hold⟩ := hholes.byte hsize
      have hkmap := (h.content (off.toNat + k) hkn (.inl hold)).1
      by_cases hsame : (off.toNat + k) / BSIZE = (off.toNat + tot) / BSIZE
      · rw [Mapped, holder, hsame] at hkmap
        exact hfull hkmap
      · have hbefore : off.toNat + tot < (s.inode i).size.toNat := by
          have hle : (off.toNat + tot) / BSIZE ≤ (off.toNat + d) / BSIZE :=
            Nat.div_le_div_right (by omega)
          have hklt : off.toNat + tot < off.toNat + k := by
            by_contra hge
            have := Nat.div_le_div_right (c := BSIZE) (Nat.not_lt.mp hge)
            omega
          omega
        obtain ⟨htn, htold⟩ := hholes.byte hbefore
        exact hfull (h.content _ htn (.inl htold)).1
    · exact seen_of_wrote hsb hi hholes haccepts.1 (by have := haccepts.2; omega) h
  | @stopped s1 c h hstart hmap hc hbefore hat =>
    rw [seen_stopped hsb hi hholes haccepts.1 haccepts.2 htot h hmap hc]
    have hlt : tot < n.toNat := by omega
    have hall : ∀ k < tot + c, src.mapped k = true := by
      intro k hk
      by_cases hkt : k < tot
      · exact hmapped k hkt
      · have hk' := hbefore (k - tot) (by omega)
        rwa [show tot + (k - tot) = k by omega] at hk'
    constructor
    · intro hsame _ d hd hno hfirst k hk hblock hsize
      obtain rfl : d = tot + c := by
        rcases Nat.lt_trichotomy d (tot + c) with hlow | heq | hhigh
        · exact absurd (hall d hlow) (by rw [hno]; simp)
        · exact heq
        · exact absurd (hfirst (tot + c) hhigh) (by rw [hat]; simp)
      refine hsame hlt k ?_ hk hsize
      -- the slice begins with the block, or with the write
      simp only [BSIZE] at *
      omega
    · intro hintact _ k hlow hhigh hsize
      refine hintact haccepts (tot + c) (by omega) hat hall k hhigh ?_ hsize
      simp only [BSIZE] at *
      omega

/-- A short write changes only what it reports exactly if it is `Intact`. The files are as
`readi` shows them, from the buffers and after eviction. -/
theorem short_write_exact {off n : BitVec 32} (hsb : sb.WellFormed) (hi : i < sb.ninodes)
    (h : Owned sb s) (hholes : NoHoles s i) (hsync : Synced s) :
    wp (writei sb i src off n) Fault.any (fun ret s' =>
      Reads sb i s' ∧ Reads sb i s'.evicted ∧
      ((ret < n.toNat → Reported s i src off.toNat ret s') ↔ Intact s i src off n)) s := by
  refine wp_mono (wp_writei hsb h hi fun _ _ => trivial) ?_
  rintro ret s' (⟨rfl, hrefused, rfl⟩ | ⟨haccepts, tot, s1, rfl, htot, hmapped, hended, rfl⟩)
  · refine ⟨hholes.reads, by rw [hsync.evicted_eq]; exact hholes.reads, fun _ haccepts => ?_,
      fun _ _ => ?_⟩
    · exact absurd haccepts hrefused
    · have hseen : Seen s' i src off.toNat 0 s' := fun k _ => by
        rw [if_neg (by omega)]
      exact ⟨rfl, hseen, by rw [hsync.evicted_eq]; exact hseen⟩
  · refine ⟨?_, ?_, ?_⟩
    · exact (hholes.resized hsb hi haccepts.1 haccepts.2 htot hended).reads
    · exact (noHoles_evicted hsb hi hholes hsync haccepts.1 haccepts.2 htot hended).reads
    · rw [← reported_iff_intact hsb hi hholes hsync haccepts htot hmapped hended]
      exact ⟨fun hall hlt => hall (by omega), fun hall hlt => hall (by omega)⟩

/-- Memory of a process with one page, of letters. -/
def onePage : User where
  byte _ := 65
  mapped va := va = 0

theorem short_write_exact_spread :
    wp (writei wideDisk 1 (.user onePage 4086) 0 20) Fault.any (fun ret s' =>
      Reads wideDisk 1 s' ∧ Reads wideDisk 1 s'.evicted ∧
      ((ret < 20 → Reported (spread []) 1 (.user onePage 4086) 0 ret s') ↔
        Intact (spread []) 1 (.user onePage 4086) 0 20)) (spread []) :=
  short_write_exact wideDisk_wellFormed (by decide) (spread_owned [])
    (spread_mounted.noHoles 1 (by decide)) fun _ _ => rfl

/-- Twenty bytes over the beginning of a file, of which ten are mapped: `writei` returns 0, and the
file has changed. -/
theorem short_write_leaks :
    Mounted wideDisk (spread []) ∧
    valueOf (do
      let ret ← writei wideDisk 1 (.user onePage 4086) 0 20
      let s ← get
      pure (ret, content s 1 0)) (spread []) = some (0, 65) ∧
    content (spread []) 1 0 = 0 :=
  ⟨spread_mounted, by decide +kernel, by decide +kernel⟩

end Xv6.Fs.Block
