import Xv6.Fs.Inode
import Xv6.Fs.ShortWrite

/-!
# Files as bytes and as blocks

The system calls are modelled over files as lists of bytes: `Node.read` and `Files.writei` leave
out the blocks, and a `Grant` says how far a write gets. `readi` and `writei` on blocks are the code
itself. `readi` copies what `Node.read` gives, and for whatever a `writei` meets there is a grant
with which `Files.writei` returns the same number and leaves the same bytes.
-/

namespace Xv6.Fs.Block

open Files (overwrite)

variable {sb : Superblock} {s s' s1 : State} {i : Inum} {src : Source} {off n tot c size : Nat}

/-- The bytes of a file. -/
def fileBytes (s : State) (i : Inum) : List Byte := bytesFrom s i 0 (s.inode i).size.toNat

/-- `user_src` of `writei`. -/
def Source.isUser : Source → Bool
  | .kernel _ => false
  | .user _ _ => true

/-- `readi` into memory that is mapped copies the bytes that `Node.read` gives. -/
theorem readi_refines {off n : BitVec 32} (h : NoHoles s i) {x : Files.Node}
    (hx : x.data = fileBytes s i) :
    wp (readi sb i (fun _ _ => true) off n) (waits s)
      (fun r s' => s' = s ∧ r.2 = x.read off.toNat n.toNat ∧ r.1 = r.2.length) s := by
  refine wp_mono (h.reads off n) ?_
  rintro r s' ⟨rfl, rfl⟩
  have hbytes : bytesFrom s' i off.toNat (readable (s'.inode i).size off n) =
      x.read off.toNat n.toNat := by
    have hoff := off.isLt
    have hn := n.isLt
    rw [Files.Node.read, hx, readable, fileBytes]
    simp only [BitVec.lt_def, BitVec.toNat_add]
    refine List.ext_getElem? fun k => ?_
    simp only [bytesFrom, List.length_map, List.length_range]
    grind
  exact ⟨rfl, hbytes, by simp [bytesFrom]⟩

/-- The bytes of a file of which some are replaced, as far as the file goes. -/
theorem overwrite_bytes {old new : Nat → Byte} (hoff : off ≤ size) (hc : tot + c ≤ n) :
    (overwrite ((List.range size).map old) off (((List.range n).map new).take (tot + c))).take
      (max size (off + tot)) = (List.range (max size (off + tot))).map fun k =>
        if off ≤ k ∧ k < off + tot + c then new (k - off) else old k := by
  refine List.ext_getElem? fun k => ?_
  rw [List.getElem?_take, overwrite]
  simp only [← List.map_take, List.take_range, List.getElem?_append, List.length_append,
    List.length_map, List.length_range, List.getElem?_map, List.getElem?_drop]
  grind

section Ended

variable (hsb : sb.WellFormed) (hi : i < sb.ninodes) (hholes : NoHoles s i)
  (hoff : off ≤ (s.inode i).size.toNat) (hfits : off + n ≤ MAXFILE * BSIZE) (htot : tot ≤ n)

include hsb hi hholes hoff hfits htot

omit hholes in
/-- The bytes of the file after the loop of `writei`. -/
theorem fileBytes_resized (hended : Ended sb i src off n tot s s')
    (hbyte : ∀ k < max (s.inode i).size.toNat (off + tot),
      content (resized sb i (off + tot) s') i k =
        if off ≤ k ∧ k < off + tot + c then src.byte (k - off) else content s i k)
    (hc : tot + c ≤ n) :
    fileBytes (resized sb i (off + tot) s') i = (overwrite (fileBytes s i) off
      (((List.range n).map src.byte).take (tot + c))).take
        (max (s.inode i).size.toNat (off + tot)) := by
  have hmax : MAXFILE * BSIZE < 2 ^ 32 := by decide
  rw [fileBytes, fileBytes, resized_size (by omega), (hended.work hsb hi hfits).size_eq]
  simp only [bytesFrom, Nat.zero_add]
  rw [overwrite_bytes hoff hc]
  exact List.map_congr_left fun k hk => hbyte k (List.mem_range.mp hk)

omit hsb hi htot in
/-- If the loop stops for want of a block, it stops where the blocks of the file end. -/
theorem full_at_block (h : Wrote sb i src.byte off tot s s') (hlt : tot < n)
    (hfull : ¬Mapped s' i (off + tot)) :
    (off + tot) % BSIZE = 0 ∧ (s.inode i).size.toNat ≤ off + tot := by
  -- a byte of the file or of the write lies in another block than the one that is missing
  have hother : ∀ k ≤ off + tot, k < (s.inode i).size.toNat ∨ off ≤ k ∧ k < off + tot →
      k / BSIZE ≠ (off + tot) / BSIZE := by
    intro k hk hin heq
    have hbn : k / BSIZE < MAXFILE := by
      rw [Nat.div_lt_iff_lt_mul (by decide)]
      omega
    have hmap := (h.content k hbn (hin.imp_left fun hlow => (hholes.byte hlow).2)).1
    rw [Mapped, holder, heq] at hmap
    exact hfull hmap
  have hend := hother (off + tot) le_rfl
  have hlast := hother (off + tot - 1) (by omega)
  simp only [BSIZE] at *
  omega

/-- The grant that a `writei` has met, and the bytes it leaves. -/
theorem exists_grant (hended : Ended sb i src off n tot s s') :
    ∃ g : Files.Grant, g.total src.isUser (s.inode i).size.toNat off n = tot ∧
      fileBytes (resized sb i (off + tot) s') i = (overwrite (fileBytes s i) off
        (((List.range n).map src.byte).take
          (tot + if src.isUser ∧ tot < n then g.spilt else 0))).take
          (max (s.inode i).size.toNat (off + tot)) := by
  have hmax : MAXFILE * BSIZE = 67382272 := by decide
  -- what whole slices leave
  have hwhole : ∀ {s1}, Wrote sb i src.byte off tot s s1 →
      ∀ k < max (s.inode i).size.toNat (off + tot), content (resized sb i (off + tot) s1) i k =
        if off ≤ k ∧ k < off + tot + 0 then src.byte (k - off) else content s i k := by
    intro s1 h k hk
    refine seen_of_wrote hsb hi hholes hoff (by omega) h k ?_
    rwa [h.resized_size (by omega) rfl]
  cases hended with
  | all h hall =>
    refine ⟨{}, ?_, ?_⟩
    · simp only [Files.Grant.total, Files.MAXFILE, Files.BSIZE]
      split <;> omega
    · rw [if_neg (by omega)]
      exact fileBytes_resized hsb hi hoff hfits htot (.all h hall) (hwhole h) htot
  | full h hlt hfull =>
    obtain ⟨hmod, hlow⟩ := full_at_block hholes hoff hfits h hlt hfull
    refine ⟨{ blocks := (off + tot) / BSIZE - ((s.inode i).size.toNat + BSIZE - 1) / BSIZE },
      ?_, ?_⟩
    · simp only [Files.Grant.total, Files.BSIZE, BSIZE] at *
      split <;> omega
    · rw [ite_self]
      exact fileBytes_resized hsb hi hoff hfits htot (.full h hlt hfull) (hwhole h) htot
  | @stopped s1 c h hstart hmapped hc hbefore hat =>
    have huser : src.isUser = true := by
      cases src with
      | kernel src => cases hat
      | user mem src => rfl
    refine ⟨{ copied := tot, spilt := c }, ?_, ?_⟩
    · simp only [Files.Grant.total, Files.MAXFILE, Files.BSIZE, huser, if_true]
      omega
    · rw [if_pos ⟨huser, by omega⟩]
      refine fileBytes_resized hsb hi hoff hfits htot (.stopped h hstart hmapped hc hbefore hat)
        (fun k hk => ?_) (show tot + c ≤ n by omega)
      rw [content_stopped hsb hi hholes hoff hfits h hmapped hc hk, hwhole h k hk]
      grind

end Ended

/-- Whatever a `writei` meets, there is a grant with which `Files.writei` returns the same and
leaves the same bytes. -/
theorem writei_refines {off n : BitVec 32} (hsb : sb.WellFormed) (hi : i < sb.ninodes)
    (h : Owned sb s) (hholes : NoHoles s i) :
    wp (writei sb i src off n) Fault.any (fun ret s' => ∃ g : Files.Grant,
      ∀ (f : Files.State) (j : Inum), (f.node j).data = fileBytes s i →
        wp (Files.writei j src.isUser ((List.range n.toNat).map src.byte) off.toNat) Fault.never
          (fun ret' f' => ret' = ret ∧ (f'.node j).data = fileBytes s' i)
          { f with grants := g :: f.grants }) s := by
  have hmax : Files.MAXFILE * Files.BSIZE = MAXFILE * BSIZE ∧ MAXFILE * BSIZE < 2 ^ 32 := by decide
  have hlen : (fileBytes s i).length = (s.inode i).size.toNat := by simp [fileBytes, bytesFrom]
  refine wp_mono (wp_writei hsb h hi fun _ _ => trivial) ?_
  rintro ret s' (⟨rfl, hrefused, rfl⟩ | ⟨haccepts, tot, s1, rfl, htot, -, hended, rfl⟩)
  · refine ⟨{}, fun f j hj => ?_⟩
    simp only [Files.writei, wp_bind, wp_get, hj, hlen, List.length_map, List.length_range, hmax.1]
    rw [Accepts] at hrefused
    by_cases hfirst : (s'.inode i).size.toNat < off.toNat ∨ 2 ^ 32 ≤ off.toNat + n.toNat
    · rw [if_pos hfirst]
      exact ⟨rfl, hj⟩
    · rw [if_neg hfirst, if_pos (by omega)]
      exact ⟨rfl, hj⟩
  · obtain ⟨g, htotal, hbytes⟩ := exists_grant hsb hi hholes haccepts.1 haccepts.2 htot hended
    refine ⟨g, fun f j hj => ?_⟩
    obtain ⟨hoff, hfits⟩ := haccepts
    simp only [Files.writei, wp_bind, wp_get, hj, hlen, List.length_map, List.length_range, hmax.1]
    rw [if_neg (by omega), if_neg (by omega)]
    simp only [List.headD_cons, htotal, wp_bind, wp_set, wp_pure, Files.setNode, wp_modify]
    exact ⟨trivial, by simp [hj, hbytes]⟩

end Xv6.Fs.Block
