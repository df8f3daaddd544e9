import Xv6.Fs.Log

/-!
# Crash atomicity of the log

A disk that a crash can leave during a commit is in one of three phases: the transaction has not
happened (`Before`), the header is written and the log holds the transaction (`Committed`), or
the transaction has been installed and the header is clear again (`After`). One lemma per piece
of `commit` and `recover_from_log` says which phase its writes lead to, after any number of them;
recovery ends in the first or the last phase, whatever crashes interrupt it.
-/

namespace Xv6.Fs

open Function

variable {start : BlockNo} {d : Disk} {s : LogState} {E : Fault → Prop} {n i : Nat} {b : BlockNo}
  {ws : List Write} {head : Bytes}

/-! ## Replaying writes -/

@[simp] theorem replay_nil : replay [] d = d := rfl

theorem replay_cons (w : Write) (ws : List Write) :
    replay (w :: ws) d = replay ws (update d w.1 w.2) := rfl

theorem replay_append (ws ws' : List Write) : replay (ws ++ ws') d = replay ws' (replay ws d) := by
  simp [replay, List.foldl_append]

theorem replay_of_not_mem (h : b ∉ ws.map Prod.fst) :
    replay ws d b = d b := by
  induction ws generalizing d with
  | nil => rfl
  | cons w ws ih =>
    simp only [List.map_cons, List.mem_cons, not_or] at h
    rw [replay_cons, ih h.2, update_of_ne h.1]

theorem replay_of_mem {w : Write} (hnodup : (ws.map Prod.fst).Nodup) (hw : w ∈ ws) :
    replay ws d w.1 = w.2 := by
  induction ws generalizing d with
  | nil => exact absurd hw List.not_mem_nil
  | cons v ws ih =>
    rw [List.map_cons, List.nodup_cons] at hnodup
    rw [replay_cons]
    rcases List.mem_cons.mp hw with rfl | hw
    · rw [replay_of_not_mem hnodup.1, update_self]
    · exact ih hnodup.2 hw

/-! ## The header block -/

theorem get32_put_blocks {block : Nat → BlockNo} {off : Nat} {b : Bytes}
    (h : off + 4 ≤ 4 ∨ 4 + 4 * n ≤ off) : get32 (putBlocks block n b) off = get32 b off := by
  induction n with
  | zero => rfl
  | succ n ih => rw [putBlocks, get32_put32_disjoint _ _ (by omega), ih (by omega)]

theorem head_block_put_blocks {block : Nat → BlockNo} {b : Bytes} (h : i < n) :
    headBlock (putBlocks block n b) i = block i := by
  induction n with
  | zero => omega
  | succ n ih =>
    rcases Nat.lt_succ_iff_lt_or_eq.mp h with hlt | rfl
    · rw [headBlock, putBlocks, get32_put32_disjoint _ _ (by omega)]
      exact ih hlt
    · rw [headBlock, putBlocks, get32_put32_same]

/-- The header block that `write_head` writes reads back. -/
theorem head_n_put_head {lh : LogHeader} {b : Bytes} (hn : lh.n = n) (hsize : n ≤ LOGSIZE) :
    headN (putHead lh b) = n := by
  have hbound : n < 2 ^ 31 := lt_of_le_of_lt hsize (by decide)
  rw [headN, putHead, get32_put_blocks (by omega), get32_put32_same, hn, BitVec.toInt_ofInt]
  exact Int.bmod_eq_of_le (by omega) (by omega)

theorem head_block_put_head {lh : LogHeader} {b : Bytes} (h : (i : Int) < lh.n) :
    headBlock (putHead lh b) i = lh.block i := head_block_put_blocks (by omega)

/-! ## What the operations write -/

/-- From `s` the code has done exactly the writes `ws`. -/
structure Wrote (s : LogState) (ws : List Write) (s' : LogState) : Prop where
  disk : s'.disk = replay ws s.disk
  cache : s'.cache = replay ws s.cache
  writes : s'.writes = s.writes ++ ws
  lh : s'.lh = s.lh

theorem Wrote.refl (s : LogState) : Wrote s [] s := ⟨rfl, rfl, (List.append_nil _).symm, rfl⟩

theorem Wrote.trans {s1 s2 : LogState} {ws' : List Write} (h : Wrote s ws s1)
    (h' : Wrote s1 ws' s2) : Wrote s (ws ++ ws') s2 where
  disk := by rw [h'.disk, h.disk, replay_append]
  cache := by rw [h'.cache, h.cache, replay_append]
  writes := by rw [h'.writes, h.writes, List.append_assoc]
  lh := h'.lh.trans h.lh

theorem wp_bwrite {data : Bytes} :
    wp (bwrite b data) E (fun _ s' => Wrote s [(b, data)] s') s := ⟨rfl, rfl, rfl, rfl⟩

/-- A loop that copies block `src tail` to block `dst tail`, where no write reaches a source. -/
theorem wp_copy_loop {src dst : Nat → BlockNo} (hsep : ∀ i < n, ∀ j < n, src i ≠ dst j) :
    wp (loop n fun tail => do
        let data ← bread (src tail)
        bwrite (dst tail) data) E
      (fun _ s' => Wrote s ((List.range n).map fun t => (dst t, s.cache (src t))) s') s := by
  refine wp_loop (fun k s' => Wrote s ((List.range k).map fun t => (dst t, s.cache (src t))) s')
    ?_ (Wrote.refl s)
  intro k s1 hk hwrote
  have hsrc : s1.cache (src k) = s.cache (src k) := by
    rw [hwrote.cache]
    refine replay_of_not_mem ?_
    simp only [List.map_map, List.mem_map, List.mem_range, Function.comp_apply, not_exists, not_and]
    intro j hj
    exact (hsep k hk j (by omega)).symm
  simp only [bread, wp_bind, wp_get, wp_pure]
  refine wp_mono wp_bwrite ?_
  intro _ s2 hnext
  rw [hsrc] at hnext
  rw [List.range_succ, List.map_append]
  exact hwrote.trans hnext

theorem log_block_ne {j : Nat} (hi : i < LOGSIZE) (hj : j < LOGSIZE) (hij : i ≠ j) :
    logBlock start i ≠ logBlock start j := by
  intro heq
  have hcancel : BitVec.ofNat 32 (i + 1) = BitVec.ofNat 32 (j + 1) := by
    simpa [logBlock] using heq
  have hnat := congrArg BitVec.toNat hcancel
  simp only [LOGSIZE, MAXOPBLOCKS] at hi hj
  rw [BitVec.toNat_ofNat, BitVec.toNat_ofNat, Nat.mod_eq_of_lt (by omega),
    Nat.mod_eq_of_lt (by omega)] at hnat
  omega

theorem log_block_ne_start (hi : i < LOGSIZE) : logBlock start i ≠ start := by
  intro heq
  have hzero : BitVec.ofNat 32 (i + 1) = 0 := by simpa [logBlock] using heq
  have hnat := congrArg BitVec.toNat hzero
  simp only [LOGSIZE, MAXOPBLOCKS] at hi
  rw [BitVec.toNat_ofNat, Nat.mod_eq_of_lt (by omega)] at hnat
  simp at hnat

theorem home_above (h : start.toNat + LOGSIZE < b.toNat) : Home start b := by
  have hb := b.isLt
  refine ⟨fun heq => by rw [heq] at h; omega, fun tail htail heq => ?_⟩
  have hnat := congrArg BitVec.toNat heq
  simp only [logBlock, BitVec.toNat_add, BitVec.toNat_ofNat] at hnat
  rw [Nat.mod_eq_of_lt (by omega), Nat.mod_eq_of_lt (by omega)] at hnat
  omega

theorem wp_write_log (hn : s.lh.n = n) (hsize : n ≤ LOGSIZE)
    (hhome : ∀ i < n, Home start (s.lh.block i)) :
    wp (writeLog start) E (fun _ s' => Wrote s ((List.range n).map fun t =>
      (logBlock start t, s.cache (s.lh.block t))) s') s := by
  simp only [writeLog, wp_bind, wp_get, hn, Int.toNat_natCast]
  exact wp_copy_loop fun i hi j hj => (hhome i hi).2 j (hj.trans_le hsize)

theorem wp_install_trans (hn : s.lh.n = n) (hsize : n ≤ LOGSIZE)
    (hhome : ∀ i < n, Home start (s.lh.block i)) :
    wp (installTrans start) E (fun _ s' => Wrote s ((List.range n).map fun t =>
      (s.lh.block t, s.cache (logBlock start t))) s') s := by
  simp only [installTrans, wp_bind, wp_get, hn, Int.toNat_natCast]
  exact wp_copy_loop fun i hi j hj => ((hhome j hj).2 i (hi.trans_le hsize)).symm

/-- `write_head` writes one block, which reads back as the header. -/
theorem wp_write_head (hn : s.lh.n = n) (hsize : n ≤ LOGSIZE) :
    wp (writeHead start) E (fun _ s' => ∃ h, Wrote s [(start, h)] s' ∧ headN h = n ∧
      ∀ i < n, headBlock h i = s.lh.block i) s := by
  simp only [writeHead, bread, wp_bind, wp_get, wp_pure]
  refine wp_mono wp_bwrite ?_
  intro _ s' hwrote
  exact ⟨_, hwrote, head_n_put_head hn hsize, fun i hi => head_block_put_head (by omega)⟩

theorem wp_clear_head {Q : Unit → LogState → Prop}
    (hQ : ∀ s' head, headN head = 0 → s'.disk = replay [(start, head)] s.disk →
      s'.writes = s.writes ++ [(start, head)] → Q () s') :
    wp clearHead E (fun _ s1 => wp (writeHead start) E Q s1) s := by
  simp only [clearHead, wp_modify]
  refine wp_mono (wp_write_head (n := 0) rfl (Nat.zero_le _)) ?_
  rintro _ s' ⟨head, hwrote, hn, _⟩
  exact hQ s' head hn hwrote.disk hwrote.writes

/-! ## The phases of a commit -/

/-- A transaction that fits the log: distinct home blocks with their new contents. -/
structure Transaction (start : BlockNo) (tx : List Write) : Prop where
  size : tx.length ≤ LOGSIZE
  distinct : (tx.map Prod.fst).Nodup
  home : ∀ b ∈ tx.map Prod.fst, Home start b

/-- The header is clear and the home blocks are those of `d`. -/
structure Clean (start : BlockNo) (d d' : Disk) : Prop where
  n : headN (d' start) = 0
  home : ∀ b, Home start b → d' b = d b

/-- The header and the log hold the transaction; its home blocks may be installed or not. -/
structure Committed (start : BlockNo) (tx : List Write) (d d' : Disk) : Prop where
  n : headN (d' start) = tx.length
  block : ∀ i (h : i < tx.length), headBlock (d' start) i = tx[i].1
  log : ∀ i (h : i < tx.length), d' (logBlock start i) = tx[i].2
  rest : ∀ b, Home start b → b ∉ tx.map Prod.fst → d' b = d b

variable {tx : List Write} {d' : Disk}

theorem Transaction.home_at (h : Transaction start tx) (hi : i < tx.length) :
    Home start tx[i].1 := h.home _ (List.mem_map_of_mem (List.getElem_mem hi))

/-- The writes of `write_log`. -/
def logWrites (start : BlockNo) (tx : List Write) : List Write :=
  tx.mapIdx fun i w => (logBlock start i, w.2)

theorem log_writes_blocks :
    (logWrites start tx).map Prod.fst = (List.range tx.length).map (logBlock start) := by
  refine List.ext_getElem (by simp [logWrites]) fun i hi hi' => ?_
  simp [logWrites]

/-- Writes into the log leave the header and the home blocks alone. -/
theorem Transaction.not_mem_log_writes (h : Transaction start tx) (hb : Home start b ∨ b = start) :
    b ∉ (logWrites start tx).map Prod.fst := by
  intro hmem
  rw [log_writes_blocks] at hmem
  obtain ⟨i, hi, rfl⟩ := List.mem_map.mp hmem
  have hlt : i < LOGSIZE := (List.mem_range.mp hi).trans_le h.size
  rcases hb with hb | hb
  · exact hb.2 i hlt rfl
  · exact log_block_ne_start hlt hb

theorem Transaction.log_writes_nodup (h : Transaction start tx) :
    ((logWrites start tx).map Prod.fst).Nodup := by
  rw [log_writes_blocks]
  refine List.Nodup.map_on ?_ List.nodup_range
  intro i hi j hj heq
  by_contra hne
  exact log_block_ne ((List.mem_range.mp hi).trans_le h.size)
    ((List.mem_range.mp hj).trans_le h.size) hne heq

theorem Transaction.clean_log_writes (h : Transaction start tx) (hclean : headN (d start) = 0)
    (k : Nat) : Clean start d (replay ((logWrites start tx).take k) d) := by
  have hkeep (b : BlockNo) (hb : Home start b ∨ b = start) :
      replay ((logWrites start tx).take k) d b = d b := by
    refine replay_of_not_mem fun hmem => h.not_mem_log_writes hb ?_
    exact List.map_subset _ (List.take_subset k _) hmem
  exact ⟨by rw [hkeep start (Or.inr rfl), hclean], fun b hb => hkeep b (Or.inl hb)⟩

theorem Transaction.committed (h : Transaction start tx) (hn : headN head = tx.length)
    (hblock : ∀ i (hi : i < tx.length), headBlock head i = tx[i].1) :
    Committed start tx d (replay (logWrites start tx ++ [(start, head)]) d) := by
  have hstart : replay (logWrites start tx ++ [(start, head)]) d start = head := by
    rw [replay_append]
    exact update_self ..
  have hother (b : BlockNo) (hb : b ≠ start) :
      replay (logWrites start tx ++ [(start, head)]) d b = replay (logWrites start tx) d b := by
    rw [replay_append]
    exact update_of_ne hb _ _
  refine ⟨by rw [hstart, hn], fun i hi => by rw [hstart, hblock i hi], fun i hi => ?_, ?_⟩
  · rw [hother _ (log_block_ne_start (hi.trans_le h.size))]
    have hmem : (logBlock start i, tx[i].2) ∈ logWrites start tx := by
      rw [logWrites, List.mem_mapIdx]
      exact ⟨i, hi, rfl⟩
    exact replay_of_mem h.log_writes_nodup hmem
  · intro b hb _
    rw [hother b hb.1, replay_of_not_mem (h.not_mem_log_writes (Or.inl hb))]

theorem Committed.install (h : Committed start tx d d') (htx : Transaction start tx) (k : Nat) :
    Committed start tx d (replay (tx.take k) d') := by
  have hkeep (b : BlockNo) (hb : b ∉ tx.map Prod.fst) : replay (tx.take k) d' b = d' b := by
    refine replay_of_not_mem fun hmem => hb ?_
    exact List.map_subset _ (List.take_subset k _) hmem
  have hstart : replay (tx.take k) d' start = d' start :=
    hkeep start fun hmem => (htx.home start hmem).1 rfl
  refine ⟨by rw [hstart, h.n], fun i hi => by rw [hstart, h.block i hi], fun i hi => ?_, ?_⟩
  · rw [hkeep _ fun hmem => (htx.home _ hmem).2 i (hi.trans_le htx.size) rfl, h.log i hi]
  · intro b hb hout
    rw [hkeep b hout, h.rest b hb hout]

/-- When everything is installed and the header is clear, the transaction has happened. -/
theorem Committed.clear (h : Committed start tx d d') (htx : Transaction start tx)
    (hn : headN head = 0) : Clean start (replay tx d) (replay (tx ++ [(start, head)]) d') := by
  have hstart : replay (tx ++ [(start, head)]) d' start = head := by
    rw [replay_append]
    exact update_self ..
  refine ⟨by rw [hstart, hn], fun b hb => ?_⟩
  rw [replay_append]
  refine (update_of_ne hb.1 _ _).trans ?_
  by_cases hmem : b ∈ tx.map Prod.fst
  · obtain ⟨w, hw, rfl⟩ := List.mem_map.mp hmem
    rw [replay_of_mem htx.distinct hw, replay_of_mem htx.distinct hw]
  · rw [replay_of_not_mem hmem, replay_of_not_mem hmem, h.rest b hb hmem]

theorem Clean.clear (h : Clean start d d') (hn : headN head = 0) (k : Nat) :
    Clean start d (replay ([(start, head)].take k) d') := by
  cases k with
  | zero => exact h
  | succ k =>
    have htake : [(start, head)].take (k + 1) = [(start, head)] := by simp
    rw [htake]
    refine ⟨?_, fun b hb => ?_⟩
    · show headN (update d' start head start) = 0
      rw [update_self, hn]
    · exact (update_of_ne hb.1 _ _).trans (h.home b hb)

/-! ## Recovery -/

theorem wp_read_head (hn : headN (s.cache start) = n) (hsize : n ≤ LOGSIZE) :
    wp (readHead start) E (fun _ s' => s'.disk = s.disk ∧ s'.cache = s.cache ∧
      s'.writes = s.writes ∧ s'.lh.n = n ∧
      ∀ i < n, s'.lh.block i = headBlock (s.cache start) i) s := by
  simp only [readHead, bread, wp_bind, wp_get, wp_pure, wp_ite, wp_fault, wp_modify, hn]
  refine ⟨fun hlt => absurd hlt (by omega), fun _ => ⟨trivial, trivial, trivial, trivial, ?_⟩⟩
  intro i hi
  rw [if_pos (by omega)]

/-- `recover_from_log` on a disk whose header lists `n` home blocks. -/
theorem recover_run (hn : headN (d start) = n) (hsize : n ≤ LOGSIZE)
    (hhome : ∀ i < n, Home start (headBlock (d start) i)) :
    ∃ r head, recoverFromLog start (boot d) = .ok ((), r) ∧ headN head = 0 ∧
      r.writes = ((List.range n).map fun t => (headBlock (d start) t, d (logBlock start t))) ++
        [(start, head)] ∧ r.disk = replay r.writes d := by
  have hrun : wp (recoverFromLog start) Fault.never (fun _ r => ∃ head, headN head = 0 ∧
      r.writes = ((List.range n).map fun t => (headBlock (d start) t, d (logBlock start t))) ++
        [(start, head)] ∧ r.disk = replay r.writes d) (boot d) := by
    simp only [recoverFromLog, wp_bind]
    refine wp_mono (wp_read_head (s := boot d) hn hsize) ?_
    rintro _ s1 ⟨hdisk1, hcache1, hwrites1, hn1, hblock1⟩
    refine wp_mono (wp_install_trans hn1 hsize fun i hi => hblock1 i hi ▸ hhome i hi) ?_
    intro _ s2 hwrote
    refine wp_clear_head ?_
    intro r head hhead hdisk hwrites
    have hinstall : ((List.range n).map fun t => (s1.lh.block t, s1.cache (logBlock start t))) =
        (List.range n).map fun t => (headBlock (d start) t, d (logBlock start t)) := by
      refine List.map_congr_left fun t ht => ?_
      rw [hblock1 t (List.mem_range.mp ht), hcache1]
      rfl
    have hall : r.writes = ((List.range n).map fun t =>
        (headBlock (d start) t, d (logBlock start t))) ++ [(start, head)] := by
      rw [hwrites, hwrote.writes, hwrites1, hinstall]
      rfl
    refine ⟨head, hhead, hall, ?_⟩
    rw [hdisk, hwrote.disk, hdisk1, hall, replay_append, hinstall]
    rfl
  obtain ⟨⟨⟩, r, hok, head, hhead, hwrites, hdisk⟩ := wp_returns hrun
  exact ⟨r, head, hok, hhead, hwrites, hdisk⟩

/-- Recovery of a disk with a clear header, interrupted anywhere. -/
theorem Clean.recover (h : Clean start d d') :
    ∃ r, recoverFromLog start (boot d') = .ok ((), r) ∧ Clean start d r.disk ∧
      ∀ k, Clean start d (replay (r.writes.take k) d') := by
  obtain ⟨r, head, hok, hhead, hwrites, hdisk⟩ :=
    recover_run (n := 0) (by rw [h.n]; rfl) (Nat.zero_le _) (by simp)
  rw [List.range_zero, List.map_nil, List.nil_append] at hwrites
  refine ⟨r, hok, ?_, fun k => ?_⟩
  · rw [hdisk, hwrites]
    exact h.clear hhead 1
  · rw [hwrites]
    exact h.clear hhead k

/-- Recovery of a committed transaction, interrupted anywhere. -/
theorem Committed.recover (h : Committed start tx d d') (htx : Transaction start tx) :
    ∃ r, recoverFromLog start (boot d') = .ok ((), r) ∧ Clean start (replay tx d) r.disk ∧
      ∀ k, Committed start tx d (replay (r.writes.take k) d') ∨
        Clean start (replay tx d) (replay (r.writes.take k) d') := by
  obtain ⟨r, head, hok, hhead, hwrites, hdisk⟩ := recover_run (n := tx.length) h.n htx.size
    fun i hi => h.block i hi ▸ htx.home_at hi
  have hinstall : ((List.range tx.length).map fun t =>
      (headBlock (d' start) t, d' (logBlock start t))) = tx := by
    refine List.ext_getElem (by simp) fun i hi hi' => ?_
    simp only [List.getElem_map, List.getElem_range]
    rw [h.block i hi', h.log i hi']
  rw [hinstall] at hwrites
  refine ⟨r, hok, ?_, fun k => ?_⟩
  · rw [hdisk, hwrites]
    exact h.clear htx hhead
  · rw [hwrites]
    by_cases hk : k ≤ tx.length
    · left
      rw [List.take_append_of_le_length hk]
      exact h.install htx k
    · right
      rw [List.take_of_length_le (by simp; omega)]
      exact h.clear htx hhead

/-- The disks that a crashed commit and any number of crashed recoveries leave. -/
theorem crashed_phase (htx : Transaction start tx)
    (hphase : Committed start tx d d' ∨ Clean start (replay tx d) d') {d'' : Disk}
    (hcrash : Relation.ReflTransGen (CrashesIn start) d' d'') :
    Committed start tx d d'' ∨ Clean start (replay tx d) d'' := by
  induction hcrash with
  | refl => exact hphase
  | tail _ hstep ih =>
    obtain ⟨s, k, hrun, rfl⟩ := hstep
    rcases ih with hcommitted | hclean
    · obtain ⟨r, hok, -, hupto⟩ := hcommitted.recover htx
      rw [hrun] at hok
      cases hok
      exact hupto k
    · obtain ⟨r, hok, -, hupto⟩ := hclean.recover
      rw [hrun] at hok
      cases hok
      exact Or.inr (hupto k)

theorem crashed_clean (hclean : Clean start d d') {d'' : Disk}
    (hcrash : Relation.ReflTransGen (CrashesIn start) d' d'') : Clean start d d'' := by
  induction hcrash with
  | refl => exact hclean
  | tail _ hstep ih =>
    obtain ⟨s, k, hrun, rfl⟩ := hstep
    obtain ⟨r, hok, -, hupto⟩ := ih.recover
    rw [hrun] at hok
    cases hok
    exact hupto k

/-! ## The commit -/

/-- What is cached and listed when a transaction is about to be committed. -/
theorem logged_block (hi : i < tx.length) : (s.logged tx).lh.block i = tx[i].1 := by
  simp [LogState.logged, hi]

/-- The writes of a commit: the log, the header, the home blocks and the header again. -/
theorem commit_run (htx : Transaction start tx) (hne : tx ≠ []) :
    ∃ s' first last, commit start (s.logged tx) = .ok ((), s') ∧ headN first = tx.length ∧
      (∀ i (hi : i < tx.length), headBlock first i = tx[i].1) ∧ headN last = 0 ∧
      s'.writes = logWrites start tx ++ (start, first) :: (tx ++ [(start, last)]) := by
  have hpos : 0 < tx.length := List.length_pos_iff.mpr hne
  have hhome : ∀ i < tx.length, Home start ((s.logged tx).lh.block i) := by
    intro i hi
    rw [logged_block hi]
    exact htx.home_at hi
  have hlog : ((List.range tx.length).map fun t =>
      (logBlock start t, (s.logged tx).cache ((s.logged tx).lh.block t))) = logWrites start tx := by
    refine List.ext_getElem (by simp [logWrites]) fun i hi hi' => ?_
    have hlt : i < tx.length := by simpa [logWrites] using hi'
    simp only [List.getElem_map, List.getElem_range, logWrites, List.getElem_mapIdx]
    rw [logged_block hlt]
    exact congrArg _ (replay_of_mem htx.distinct (List.getElem_mem hlt))
  have hrun : wp (commit start) Fault.never (fun _ s' => ∃ first last, headN first = tx.length ∧
      (∀ i (hi : i < tx.length), headBlock first i = tx[i].1) ∧ headN last = 0 ∧
      s'.writes = logWrites start tx ++ (start, first) :: (tx ++ [(start, last)]))
      (s.logged tx) := by
    simp only [commit, wp_bind, wp_get, wp_ite]
    refine ⟨fun _ => ?_, fun hzero => absurd (show (0 : Int) < tx.length by omega) hzero⟩
    refine wp_mono (wp_write_log (n := tx.length) rfl htx.size hhome) ?_
    intro _ s1 hwrote1
    rw [hlog] at hwrote1
    refine wp_mono (wp_write_head (n := tx.length) (by rw [hwrote1.lh]; rfl) htx.size) ?_
    rintro _ s2 ⟨first, hwrote2, hfirst, hblock⟩
    have hlh2 : s2.lh = (s.logged tx).lh := hwrote2.lh.trans hwrote1.lh
    have hwrote := hwrote1.trans hwrote2
    refine wp_mono (wp_install_trans (n := tx.length) (by rw [hlh2]; rfl) htx.size
      (by rw [hlh2]; exact hhome)) ?_
    intro _ s3 hwrote3
    -- the log blocks are read back as they were written
    have hinstall : ((List.range tx.length).map fun t =>
        (s2.lh.block t, s2.cache (logBlock start t))) = tx := by
      have hcommitted : Committed start tx (s.logged tx).cache s2.cache := by
        rw [hwrote.cache]
        refine htx.committed hfirst fun i hi => ?_
        rw [hblock i hi, hwrote1.lh, logged_block hi]
      refine List.ext_getElem (by simp) fun i hi hi' => ?_
      simp only [List.getElem_map, List.getElem_range]
      rw [hlh2, logged_block hi', hcommitted.log i hi']
    rw [hinstall] at hwrote3
    refine wp_clear_head ?_
    intro s4 last hlast _ hwrites
    refine ⟨first, last, hfirst, fun i hi => ?_, hlast, ?_⟩
    · rw [hblock i hi, hwrote1.lh, logged_block hi]
    · rw [hwrites, hwrote3.writes, hwrote.writes]
      simp [LogState.logged]
  obtain ⟨⟨⟩, s', hok, first, last, hpost⟩ := wp_returns hrun
  exact ⟨s', first, last, hok, hpost⟩

/-- Where a crash after `k` writes of a commit leaves the disk. -/
theorem commit_phase (htx : Transaction start tx) (hclean : headN (d start) = 0)
    {first last : Bytes} (hfirst : headN first = tx.length) (hlast : headN last = 0)
    (hblock : ∀ i (hi : i < tx.length), headBlock first i = tx[i].1)
    (hws : ws = logWrites start tx ++ (start, first) :: (tx ++ [(start, last)])) (k : Nat) :
    (start ∉ (ws.take k).map Prod.fst → Clean start d (replay (ws.take k) d)) ∧
    (start ∈ (ws.take k).map Prod.fst → Committed start tx d (replay (ws.take k) d) ∨
      Clean start (replay tx d) (replay (ws.take k) d)) := by
  have hlen : (logWrites start tx).length = tx.length := List.length_mapIdx
  by_cases hk : k ≤ tx.length
  · have htake : ws.take k = (logWrites start tx).take k := by
      rw [hws, List.take_append_of_le_length (by omega)]
    have hout : start ∉ (ws.take k).map Prod.fst := by
      rw [htake]
      intro hmem
      exact htx.not_mem_log_writes (Or.inr rfl) (List.map_subset _ (List.take_subset k _) hmem)
    refine ⟨fun _ => ?_, fun hin => absurd hin hout⟩
    rw [htake]
    exact htx.clean_log_writes hclean k
  · -- the header has been written: the rest is a prefix of the installation
    obtain ⟨j, rfl⟩ : ∃ j, k = tx.length + (j + 1) := ⟨k - tx.length - 1, by omega⟩
    have htake : ws.take (tx.length + (j + 1)) =
        (logWrites start tx ++ [(start, first)]) ++ (tx ++ [(start, last)]).take j := by
      rw [hws, ← hlen, List.take_length_add_append, List.take_succ_cons]
      simp
    have hin : start ∈ (ws.take (tx.length + (j + 1))).map Prod.fst := by
      rw [htake]
      simp
    have hcommitted := htx.committed (d := d) hfirst hblock
    refine ⟨fun hout => absurd hin hout, fun _ => ?_⟩
    rw [htake, replay_append]
    by_cases hj : j ≤ tx.length
    · left
      rw [List.take_append_of_le_length hj]
      exact hcommitted.install htx j
    · right
      rw [List.take_of_length_le (by simp; omega)]
      exact hcommitted.clear htx hlast

/-- `recover_from_log`, on any disk it can read, ends with a clear header. -/
theorem wp_recover_from_log : wp (recoverFromLog start) Fault.any
    (fun _ r => headN (r.disk start) = 0) (boot d) := by
  have hloop (s : LogState) (n : Nat) (block : Nat → BlockNo) : wp (loop n fun tail => do
      let lbuf ← bread (logBlock start tail)
      bwrite (block tail) lbuf) Fault.any (fun _ _ => True) s :=
    wp_loop (fun _ _ => True) (fun _ _ _ _ => trivial) trivial
  simp only [recoverFromLog, readHead, bread, wp_bind, wp_get, wp_pure, wp_ite, wp_fault,
    wp_modify, Fault.any_iff, implies_true, true_and, installTrans]
  intro _
  refine wp_mono (hloop _ _ _) ?_
  intro _ s1 _
  refine wp_clear_head ?_
  intro r head hhead hdisk _
  rw [hdisk]
  show headN (update s1.disk start head start) = 0
  rw [update_self, hhead]

/-- Crash atomicity of the log. The log has been opened by `recover_from_log` on any disk image,
and a transaction of distinct home blocks that fits the log is committed. A crash after any `k`
of the block writes of `commit`, then any number of recoveries that crash after any number of
their own writes, then a recovery that runs to the end: the header is clear, and the home blocks
are all as before the transaction if the header had not been written yet, and otherwise all as
logged. -/
theorem commit_crash_atomic (start : BlockNo) (image : Disk) (s : LogState) (tx : List Write)
    (hopen : recoverFromLog start (boot image) = .ok ((), s)) (htx : Transaction start tx) :
    ∃ s', commit start (s.logged tx) = .ok ((), s') ∧
      ∀ k d, Relation.ReflTransGen (CrashesIn start) (replay (s'.writes.take k) s.disk) d →
        ∃ r, recoverFromLog start (boot d) = .ok ((), r) ∧ headN (r.disk start) = 0 ∧
          (start ∉ (s'.writes.take k).map Prod.fst → ∀ b, Home start b → r.disk b = s.disk b) ∧
          (start ∈ (s'.writes.take k).map Prod.fst →
            ∀ b, Home start b → r.disk b = replay tx s.disk b) := by
  have hspec : wp (recoverFromLog start) Fault.any (fun _ r => headN (r.disk start) = 0)
      (boot image) := wp_recover_from_log
  have hempty := wp_ok hspec hopen
  have hclean : Clean start s.disk s.disk := ⟨hempty, fun _ _ => rfl⟩
  by_cases hne : tx = []
  · subst hne
    refine ⟨s.logged [], rfl, fun k d hcrash => ?_⟩
    have hnone : ((s.logged []).writes.take k).map Prod.fst = [] := by simp [LogState.logged]
    have hd : Clean start s.disk d := by
      refine crashed_clean hclean ?_
      simpa [LogState.logged] using hcrash
    obtain ⟨r, hok, hr, -⟩ := hd.recover
    rw [hnone]
    exact ⟨r, hok, hr.n, fun _ => hr.home, fun hin => absurd hin List.not_mem_nil⟩
  · obtain ⟨s', first, last, hok, hfirst, hblock, hlast, hwrites⟩ := commit_run (s := s) htx hne
    refine ⟨s', hok, fun k d hcrash => ?_⟩
    obtain ⟨hbefore, hafter⟩ := commit_phase htx hempty hfirst hlast hblock hwrites k
    by_cases hin : start ∈ (s'.writes.take k).map Prod.fst
    · rcases crashed_phase htx (hafter hin) hcrash with hcommitted | hdone
      · obtain ⟨r, hrun, hr, -⟩ := hcommitted.recover htx
        exact ⟨r, hrun, hr.n, fun hout => absurd hin hout, fun _ => hr.home⟩
      · obtain ⟨r, hrun, hr, -⟩ := hdone.recover
        exact ⟨r, hrun, hr.n, fun hout => absurd hin hout, fun _ => hr.home⟩
    · obtain ⟨r, hrun, hr, -⟩ := (crashed_clean (hbefore hin) hcrash).recover
      exact ⟨r, hrun, hr.n, fun _ => hr.home, fun h => absurd h hin⟩

/-- A disk of zeroes with its log at block 2, and a transaction of two blocks that crashes after
the header and the first home block have been written. -/
theorem commit_crash_atomic_two_blocks :
    ∃ s s', recoverFromLog 2 (boot fun _ _ => 0) = .ok ((), s) ∧
      commit 2 (s.logged [(40, fun _ => 1), (41, fun _ => 2)]) = .ok ((), s') ∧
      ∃ r, recoverFromLog 2 (boot (replay (s'.writes.take 4) s.disk)) = .ok ((), r) ∧
        headN (r.disk 2) = 0 ∧ r.disk 40 = (fun _ => 1) ∧ r.disk 41 = fun _ => 2 := by
  have hhome : ∀ b ∈ [(40 : BlockNo), 41], Home 2 b := by
    intro b hb
    refine home_above ?_
    simp only [List.mem_cons, List.not_mem_nil, or_false] at hb
    rcases hb with rfl | rfl <;> decide
  have htx : Transaction 2 [(40, fun _ => 1), (41, fun _ => 2)] :=
    ⟨by decide, by decide, hhome⟩
  have hzero : Clean 2 (fun _ _ => 0) (fun _ _ => 0) := ⟨by decide, fun _ _ => rfl⟩
  obtain ⟨s, hopen, -, -⟩ := hzero.recover
  obtain ⟨s', hcommit, hcrash⟩ := commit_crash_atomic 2 _ s _ hopen htx
  obtain ⟨r, hrun, hn, -, hafter⟩ := hcrash 4 _ .refl
  have hheader : (2 : BlockNo) ∈ (s'.writes.take 4).map Prod.fst := by
    obtain ⟨s'', first, last, hok, -, -, -, hwrites⟩ := commit_run (s := s) htx (by simp)
    rw [hcommit] at hok
    cases hok
    rw [hwrites]
    simp [logWrites]
  have hnew := hafter hheader
  refine ⟨s, s', hopen, hcommit, r, hrun, hn, ?_, ?_⟩
  · rw [hnew 40 (hhome 40 (by simp))]
    exact replay_of_mem (w := (40, fun _ => 1)) htx.distinct (by simp)
  · rw [hnew 41 (hhome 41 (by simp))]
    exact replay_of_mem (w := (41, fun _ => 2)) htx.distinct (by simp)

end Xv6.Fs
