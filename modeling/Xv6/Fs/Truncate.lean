import Xv6.Fs.Content

/-!
# Truncation

`itrunc` walks the same three levels of addresses that `bmap` builds. It frees a block of addresses
after the blocks listed in it, while it holds the buffers on the way down. `wp_free_tree` follows it
down one subtree by induction on the height: the bits of the places below are cleared, each once,
and nothing else changes. What can go wrong is the log. Every block of the free map that has a bit
of the file is logged, and a file may lie in all of them. Each of these blocks also keeps a buffer
in use, beside those that are held on the way down.
-/

namespace Xv6.Fs.Block

open Function

variable {sb : Superblock} {s s' : State} {i j : Inum} {a b t : BlockNo} {E : Fault → Prop}

/-! ## Subtrees -/

/-- The number of blocks of addresses on the way to a place. -/
def Place.level : Place → Nat
  | .root _ => 0
  | .entry p _ => p.level + 1

/-- Place `q` is on the way to a place. -/
def Place.Above (q : Place) : Place → Prop
  | .root k => q = .root k
  | .entry p k => q = .entry p k ∨ q.Above p

theorem Place.above_self (p : Place) : p.Above p := by
  cases p with
  | root k => rfl
  | entry p k => exact .inl rfl

theorem Place.Above.level_le {q p : Place} (h : q.Above p) : q.level ≤ p.level := by
  induction p with
  | root k =>
    rw [show q = .root k from h]
  | entry p k ih =>
    rcases h with rfl | h
    · exact le_rfl
    · exact (ih h).trans (Nat.le_succ _)

theorem Place.Above.unique {q q' p : Place} (h : q.Above p) (h' : q'.Above p)
    (hlevel : q.level = q'.level) : q = q' := by
  induction p with
  | root k => exact Eq.trans h (Eq.symm h')
  | entry p k ih =>
    rcases h with rfl | h
    · rcases h' with rfl | h'
      · rfl
      · exact absurd h'.level_le (by rw [← hlevel]; exact Nat.not_succ_le_self _)
    · rcases h' with rfl | h'
      · exact absurd h.level_le (by rw [hlevel]; exact Nat.not_succ_le_self _)
      · exact ih h h'

theorem Place.Above.of_entry {q p : Place} {k : Nat} (h : (Place.entry q k).Above p) :
    q.Above p := by
  induction p with
  | root _ => cases (show Place.entry q k = .root _ from h)
  | entry p j ih =>
    rcases h with heq | h
    · cases heq
      exact .inr (Place.above_self q)
    · exact .inr (ih h)

/-- What is below a place is the place itself or below one of its entries. -/
theorem Place.above_iff {q p : Place} (hp : p.Valid) :
    q.Above p ↔ p = q ∨ ∃ k < NINDIRECT, (Place.entry q k).Above p := by
  constructor
  · intro h
    induction p with
    | root k => exact .inl (Eq.symm h)
    | entry p k ih =>
      rcases h with rfl | h
      · exact .inl rfl
      · rcases ih hp.1 h with rfl | ⟨j, hj, hbelow⟩
        · exact .inr ⟨k, hp.2.2, .inl rfl⟩
        · exact .inr ⟨j, hj, .inr hbelow⟩
  · rintro (rfl | ⟨k, -, h⟩)
    · exact Place.above_self p
    · exact h.of_entry

theorem Place.Above.eq_of_height {q p : Place} (h : q.Above p) (hp : p.Valid)
    (hheight : q.height = 0) : p = q := by
  induction p with
  | root k => exact Eq.symm h
  | entry p k ih =>
    rcases h with rfl | h
    · rfl
    · have hsame := ih h hp.1
      rw [hsame] at hp
      exact absurd hheight (Nat.pos_iff_ne_zero.mp hp.2.1)

/-- Place `q` is on the way to a place, and not the place itself. -/
def Place.Over (q : Place) : Place → Prop
  | .root _ => False
  | .entry p _ => q.Above p

theorem Place.above_iff_over {q p : Place} : q.Above p ↔ q = p ∨ q.Over p := by
  cases p with
  | root k => exact (or_iff_left id).symm
  | entry p k => exact Iff.rfl

theorem Place.not_over_self (p : Place) : ¬p.Over p := by
  cases p with
  | root k => exact id
  | entry p k => exact fun h => absurd h.level_le (Nat.not_succ_le_self _)

theorem Place.over_iff {q p : Place} (hp : p.Valid) :
    q.Over p ↔ ∃ k < NINDIRECT, (Place.entry q k).Above p := by
  have habove := Place.above_iff (q := q) hp
  rw [Place.above_iff_over] at habove
  constructor
  · intro h
    rcases habove.mp (.inr h) with rfl | hentry
    · exact absurd h (Place.not_over_self _)
    · exact hentry
  · rintro ⟨k, hk, h⟩
    rcases habove.mpr (.inr ⟨k, hk, h⟩) with rfl | hover
    · exact absurd h.level_le (Nat.not_succ_le_self _)
    · exact hover

/-- `itrunc` has freed place `q` when it comes to a place, and all that is below `q`. -/
def Place.Left (q : Place) : Place → Prop
  | .root k => ∃ j : Fin (NDIRECT + 2), j.val < k.val ∧ (Place.root j).Above q
  | .entry p k => q.Left p ∨ ∃ j < k, (Place.entry p j).Above q

theorem Place.Left.not_above {q p : Place} (h : q.Left p) : ¬p.Above q := by
  induction p with
  | root k =>
    intro habove
    obtain ⟨j, hj, hother⟩ := h
    cases hother.unique habove rfl
    exact absurd hj (lt_irrefl _)
  | entry p k ih =>
    intro habove
    rcases h with hleft | ⟨j, hj, hother⟩
    · exact ih hleft habove.of_entry
    · cases hother.unique habove rfl
      exact absurd hj (lt_irrefl _)

theorem Place.Above.valid {q p : Place} (h : q.Above p) (hp : p.Valid) : q.Valid := by
  induction p with
  | root k =>
    rw [show q = .root k from h]
    exact hp
  | entry p k ih =>
    rcases h with rfl | h
    · exact hp
    · exact ih h hp.1

theorem Place.exists_root_above (p : Place) : ∃ k, (Place.root k).Above p := by
  induction p with
  | root k => exact ⟨k, rfl⟩
  | entry p j ih =>
    obtain ⟨k, hk⟩ := ih
    exact ⟨k, .inr hk⟩

theorem addr_zero_below {p q : Place} (h : q.Above p) (hzero : addr s (i, q) = 0) :
    addr s (i, p) = 0 := by
  induction p with
  | root k => rwa [← show q = .root k from h]
  | entry p k ih =>
    rcases h with rfl | h
    · exact hzero
    · exact addrAt_entry_zero (ih h)

/-! ## What has been freed -/

/-- The blocks of the free map with the bits of the places in `P`. -/
def mapOf (sb : Superblock) (s : State) (i : Inum) (P : Set Place) : Set BlockNo :=
  {b | ∃ p ∈ P, p.Valid ∧ addr s (i, p) ≠ 0 ∧ b = bblock sb (addr s (i, p)).toNat}

/-- The number of blocks in the log when those of `mapOf` are listed too. -/
noncomputable def logLength (sb : Superblock) (s : State) (i : Inum) (P : Set Place) : Nat :=
  s.log.length + (mapOf sb s i P \ {b | b ∈ s.log}).ncard

/-- The buffers in use when the places in `P` have been freed and those of the tables in `T` are
held. -/
def busy (sb : Superblock) (s : State) (i : Inum) (P T : Set Place) : Set BlockNo :=
  {b | b ∈ s.inUse ∨ b ∈ mapOf sb s i P ∨ ∃ q ∈ T, b = addr s (i, q)}

/-- There is a buffer for block `b` when those of the blocks in `B` are in use. -/
def Bufferable (B : Set BlockNo) (b : BlockNo) : Prop := b ∈ B ∨ B.ncard < NBUF

theorem bufferable_iff : Bufferable {b | b ∈ s.inUse} b ↔ ¬s.NoBuffer b := by
  have hcard : {b | b ∈ s.inUse}.ncard = s.inUse.toFinset.card := by
    rw [← Set.ncard_coe_finset]
    congr 1
    ext b
    simp
  rw [Bufferable, hcard, State.NoBuffer, not_and_or, not_not, Nat.not_le]
  rfl

/-- `itrunc` can free the block at place `p`: the buffer of its part of the free map is not held,
nor that of the block itself if it is read, and there are such buffers. -/
structure Freeable (sb : Superblock) (s : State) (i : Inum) (p : Place) : Prop where
  map : bblock sb (addr s (i, p)).toNat ∉ s.held
  mapBuffer : Bufferable (busy sb s i {q | q.Left p ∨ p.Over q} {q | q.Over p})
    (bblock sb (addr s (i, p)).toNat)
  table : 0 < p.height → addr s (i, p) ∉ s.held
  tableBuffer : 0 < p.height →
    Bufferable (busy sb s i {q | q.Left p} {q | q.Over p}) (addr s (i, p))

/-- `itrunc` of inode `i` can get through: it is called in a transaction, it can have the buffers
that it needs, and the log has room for the free map of the file. -/
structure Truncatable (sb : Superblock) (s : State) (i : Inum) : Prop where
  ops : 0 < s.ops
  places : ∀ p, p.Valid → addr s (i, p) ≠ 0 → Freeable sb s i p
  inode : iblock sb i ∉ s.held
  inodeBuffer : Bufferable (busy sb s i Set.univ ∅) (iblock sb i)
  room : logLength sb s i Set.univ < LOGSIZE ∧ logLength sb s i Set.univ < s.logsize - 1

/-- From `s` the blocks at the places in `P` have been freed. -/
structure Cleared (sb : Superblock) (i : Inum) (s : State) (P : Set Place) (s' : State) :
    Prop where
  used : ∀ n < mapBits sb, used sb s'.block n = true ↔ used sb s.block n = true ∧
    ∀ p ∈ P, p.Valid → addr s (i, p) ≠ 0 → (addr s (i, p)).toNat ≠ n
  block : ∀ b, b ∉ mapOf sb s i P → s'.block b = s.block b
  log : ∀ b, b ∈ s'.log ↔ b ∈ s.log ∨ b ∈ mapOf sb s i P
  length : s'.log.length = logLength sb s i P
  places : ∀ p ∈ P, p.Valid → addr s (i, p) ≠ 0 → Freeable sb s i p
  disk : s'.disk = s.disk
  ops : s'.ops = s.ops
  logsize : s'.logsize = s.logsize
  others : s'.others = s.others

/-- The buffers in use after that, with those of the tables in `T` held. -/
theorem Cleared.in_use {P T : Set Place} (hcl : Cleared sb i s P s')
    (hheld : ∀ b, b ∈ s'.held ↔ b ∈ s.held ∨ ∃ q ∈ T, b = addr s (i, q)) :
    {b | b ∈ s'.inUse} = busy sb s i P T := by
  ext b
  simp only [busy, State.inUse, List.mem_append, Set.mem_ofPred_eq, hheld, hcl.log, hcl.others]
  exact iff_of_eq (by ac_rfl)

theorem mapOf_congr {P P' : Set Place}
    (h : ∀ p, p.Valid → addr s (i, p) ≠ 0 → (p ∈ P ↔ p ∈ P')) :
    mapOf sb s i P = mapOf sb s i P' := by
  ext b
  refine exists_congr fun p => ?_
  constructor
  · rintro ⟨hp, hv, hne, hb⟩
    exact ⟨(h p hv hne).mp hp, hv, hne, hb⟩
  · rintro ⟨hp, hv, hne, hb⟩
    exact ⟨(h p hv hne).mpr hp, hv, hne, hb⟩

theorem Cleared.congr {P P' : Set Place} (hcl : Cleared sb i s P s')
    (h : ∀ p, p.Valid → addr s (i, p) ≠ 0 → (p ∈ P ↔ p ∈ P')) : Cleared sb i s P' s' := by
  have hmap : mapOf sb s i P = mapOf sb s i P' := mapOf_congr h
  refine ⟨?_, hmap ▸ hcl.block, hmap ▸ hcl.log, ?_, ?_, hcl.disk, hcl.ops, hcl.logsize,
    hcl.others⟩
  · intro n hn
    rw [hcl.used n hn]
    refine and_congr_right fun _ => ⟨?_, ?_⟩
    · exact fun hall p hp hv hne => hall p ((h p hv hne).mpr hp) hv hne
    · exact fun hall p hp hv hne => hall p ((h p hv hne).mp hp) hv hne
  · rw [hcl.length, logLength, logLength, hmap]
  · exact fun p hp hv hne => hcl.places p ((h p hv hne).mpr hp) hv hne

theorem mapOf_empty : mapOf sb s i ∅ = ∅ := by
  ext b
  simp [mapOf]

theorem mapOf_mono {P P' : Set Place} (h : P ⊆ P') : mapOf sb s i P ⊆ mapOf sb s i P' :=
  fun _ ⟨p, hp, hrest⟩ => ⟨p, h hp, hrest⟩

theorem Cleared.start : Cleared sb i s ∅ s where
  used n _ := by simp
  block _ _ := rfl
  log b := by simp [mapOf_empty]
  length := by simp [logLength, mapOf_empty]
  places p hp := absurd hp (Set.notMem_empty p)
  disk := rfl
  ops := rfl
  logsize := rfl
  others := rfl

theorem Cleared.with_held {P : Set Place} {held : List BlockNo} (hcl : Cleared sb i s P s') :
    Cleared sb i s P { s' with held := held } :=
  ⟨hcl.used, hcl.block, hcl.log, hcl.length, hcl.places, hcl.disk, hcl.ops, hcl.logsize, hcl.others⟩

theorem Cleared.with_inode {P : Set Place} {inode : Inum → Inode} (hcl : Cleared sb i s P s') :
    Cleared sb i s P { s' with inode := inode } :=
  ⟨hcl.used, hcl.block, hcl.log, hcl.length, hcl.places, hcl.disk, hcl.ops, hcl.logsize, hcl.others⟩

/-- The log never gets longer than `Truncatable` allows for. -/
theorem Cleared.length_le {P : Set Place} (hcl : Cleared sb i s P s') :
    s'.log.length ≤ logLength sb s i Set.univ := by
  rw [hcl.length]
  refine Nat.add_le_add_left (Set.ncard_le_ncard ?_ (Set.toFinite _)) _
  exact Set.sdiff_subset_sdiff_left (mapOf_mono (Set.subset_univ P))

theorem Cleared.not_full {P : Set Place} (hcl : Cleared sb i s P s') (hfull : s'.LogFull) :
    ¬Truncatable sb s i := by
  intro hok
  have hle := hcl.length_le
  have hroom := hok.room
  rcases hfull with hfull | hfull
  · omega
  · rw [hcl.logsize] at hfull
    omega

theorem mapOf_insert {P : Set Place} {p : Place} (hp : p.Valid) (hne : addr s (i, p) ≠ 0) :
    mapOf sb s i (insert p P) = insert (bblock sb (addr s (i, p)).toNat) (mapOf sb s i P) := by
  ext b
  constructor
  · rintro ⟨q, hq, hv, hneq, rfl⟩
    rcases Set.mem_insert_iff.mp hq with rfl | hin
    · exact Set.mem_insert _ _
    · exact Set.mem_insert_of_mem _ ⟨q, hin, hv, hneq, rfl⟩
  · intro hb
    rcases Set.mem_insert_iff.mp hb with rfl | ⟨q, hq, hrest⟩
    · exact ⟨p, Set.mem_insert _ _, hp, hne, rfl⟩
    · exact ⟨q, Set.mem_insert_of_mem _ hq, hrest⟩

theorem logLength_insert {P : Set Place} {p : Place} {log : List BlockNo} (hp : p.Valid)
    (hne : addr s (i, p) ≠ 0) (hlog : ∀ b, b ∈ log ↔ b ∈ s.log ∨ b ∈ mapOf sb s i P)
    (hlength : log.length = logLength sb s i P) :
    (listed (bblock sb (addr s (i, p)).toNat) log).length = logLength sb s i (insert p P) := by
  rw [logLength, mapOf_insert hp hne]
  by_cases hin : bblock sb (addr s (i, p)).toNat ∈ log
  · rw [listed, if_pos hin, hlength, logLength]
    congr 2
    rcases (hlog _).mp hin with hold | hmap
    · exact (Set.insert_sdiff_of_mem _ (show _ ∈ {b | b ∈ s.log} from hold)).symm
    · rw [Set.insert_eq_of_mem hmap]
  · have hnot : bblock sb (addr s (i, p)).toNat ∉ {b | b ∈ s.log} :=
      fun hold => hin ((hlog _).mpr (.inl hold))
    have hnew : bblock sb (addr s (i, p)).toNat ∉ mapOf sb s i P \ {b | b ∈ s.log} :=
      fun hmap => hin ((hlog _).mpr (.inr hmap.1))
    rw [listed, if_neg hin, List.length_append, hlength, logLength,
      Set.insert_sdiff_of_notMem _ hnot, Set.ncard_insert_of_notMem hnew (Set.toFinite _)]
    rfl

/-- The blocks of the tables held on the way to a place are in the data area. -/
theorem held_in_area {p : Place} (h : Owned sb s) (hi : i < sb.ninodes) (hp : p.Valid)
    (hne : addr s (i, p) ≠ 0)
    (hheld : ∀ b, b ∈ s'.held ↔ b ∈ s.held ∨ ∃ q ∈ {q | q.Over p}, b = addr s (i, q))
    (hb : b ∈ s'.held) : b ∈ s.held ∨ b ∈ area sb := by
  refine ((hheld b).mp hb).imp_right ?_
  rintro ⟨q, hover, rfl⟩
  have habove : q.Above p := Place.above_iff_over.mpr (.inr hover)
  exact h.exact.inside (i, q) ⟨hi, habove.valid hp⟩ fun hzero => hne (addr_zero_below habove hzero)

theorem wp_bfree_place {P : Set Place} {p : Place} (hsb : sb.WellFormed) (h : Owned sb s)
    (hi : i < sb.ninodes) (hcl : Cleared sb i s P s') (hp : p.Valid) (hne : addr s (i, p) ≠ 0)
    (hP : ∀ q, q.Valid → addr s (i, q) ≠ 0 → (q ∈ P ↔ q.Left p ∨ p.Over q))
    (htable : 0 < p.height → addr s (i, p) ∉ s.held ∧
      Bufferable (busy sb s i {q | q.Left p} {q | q.Over p}) (addr s (i, p)))
    (hheld : ∀ b, b ∈ s'.held ↔ b ∈ s.held ∨ ∃ q ∈ {q | q.Over p}, b = addr s (i, q)) :
    wp (bfree sb (addr s (i, p))) (fun _ => ¬Truncatable sb s i)
      (fun _ s'' => Cleared sb i s (insert p P) s'' ∧ s''.held = s'.held ∧ s''.inode = s'.inode)
      s' := by
  obtain ⟨a, ha⟩ : ∃ a, a = addr s (i, p) := ⟨_, rfl⟩
  have harea : a ∈ area sb := ha ▸ h.exact.inside (i, p) ⟨hi, hp⟩ hne
  have hbits := area_lt_mapBits harea
  have hfresh : p ∉ P := by
    intro hin
    rcases (hP p hp hne).mp hin with hleft | hover
    · exact hleft.not_above p.above_self
    · exact p.not_over_self hover
  have hbusy : {b | b ∈ s'.inUse} =
      busy sb s i {q | q.Left p ∨ p.Over q} {q | q.Over p} := by
    have hmap : mapOf sb s i P = mapOf sb s i {q | q.Left p ∨ p.Over q} := mapOf_congr hP
    rw [hcl.in_use hheld, busy, busy, hmap]
  simp only [← ha, bfree, wp_bind]
  refine wp_bread (fun hin hok => ?_) (fun hnone hok => ?_) fun hnot hbuffer => ?_
  · rcases held_in_area h hi hp hne hheld hin with hold | hno
    · exact (hok.places p hp hne).map (ha ▸ hold)
    · exact bblock_not_area hsb hbits hno
  · have hroom := (hok.places p hp hne).mapBuffer
    rw [← hbusy, ← ha, bufferable_iff] at hroom
    exact hroom hnone
  rw [wp_get]
  have hset : used sb s'.block a.toNat = true := by
    refine (hcl.used _ hbits).mpr ⟨ha ▸ h.exact.used_of_owned ⟨hi, hp⟩ hne, ?_⟩
    intro q hq hv hneq heq
    have hsame : addr s (i, q) = addr s (i, p) := (BitVec.eq_of_toNat_eq heq).trans ha
    have hqp := h.exact.inj (i, q) ⟨hi, hv⟩ (i, p) ⟨hi, hp⟩ hneq hsame
    cases hqp
    exact hfresh hq
  have hbit : ¬bit (s'.block (bblock sb a.toNat)) (a.toNat % BPB) = false := by
    show ¬used sb s'.block a.toNat = false
    rw [hset]
    simp
  rw [if_neg hbit, wp_bind, wp_setData, wp_bind]
  refine wp_logWrite (fun hfull => hcl.not_full hfull) (fun _ hops hok => ?_) fun _ _ =>
    wp_brelse rfl ?_
  · have hpos := hok.ops
    rw [← hcl.ops] at hpos
    exact absurd hpos (by show ¬0 < s'.ops; exact Nat.not_lt.mpr (Nat.lt_succ_iff.mp hops))
  refine ⟨⟨?_, ?_, ?_, ?_, ?_, hcl.disk, hcl.ops, hcl.logsize, hcl.others⟩, rfl, rfl⟩
  · intro n hn
    show used sb (update s'.block (bblock sb a.toNat) _) n = true ↔ _
    rw [used_set_bit hsb hn hbits]
    by_cases hna : n = a.toNat
    · rw [if_pos hna]
      refine ⟨fun hno => absurd hno (by simp), fun hall => ?_⟩
      exact absurd (by rw [hna, ha]) (hall.2 p (Set.mem_insert _ _) hp hne)
    · rw [if_neg hna, hcl.used n hn]
      refine and_congr_right fun _ => ⟨fun hall q hq hv hneq => ?_, fun hall q hq => ?_⟩
      · rcases Set.mem_insert_iff.mp hq with rfl | hin
        · exact fun heq => hna (by rw [ha, heq])
        · exact hall q hin hv hneq
      · exact hall q (Set.mem_insert_of_mem _ hq)
  · intro b hb
    rw [mapOf_insert hp hne, Set.mem_insert_iff, not_or, ← ha] at hb
    exact (update_of_ne hb.1 _ _).trans (hcl.block b hb.2)
  · intro b
    show b ∈ listed (bblock sb a.toNat) s'.log ↔ _
    rw [mem_listed, hcl.log, mapOf_insert hp hne, Set.mem_insert_iff, ← ha]
    tauto
  · show (listed (bblock sb a.toNat) s'.log).length = _
    rw [ha]
    exact logLength_insert hp hne hcl.log hcl.length
  · intro q hq hv hneq
    rcases Set.mem_insert_iff.mp hq with rfl | hin
    · refine ⟨?_, ?_, fun hpos => (htable hpos).1, fun hpos => (htable hpos).2⟩
      · exact fun hold => hnot ((hheld _).mpr (.inl (ha ▸ hold)))
      · rw [← hbusy, ← ha, bufferable_iff]
        exact hbuffer
    · exact hcl.places q hin hv hneq

/-! ## Down the tree -/

/-- What `itrunc` does with an address that has `d` levels of addresses below it. -/
def freeDepth (sb : Superblock) : Nat → BlockNo → Code Unit
  | 0 => bfree sb
  | d + 1 => freeTable sb (freeDepth sb d)

section Tree

variable {P : Set Place} {p : Place} (hsb : sb.WellFormed) (h : Owned sb s) (hi : i < sb.ninodes)

include hsb h hi

theorem Cleared.table_block (hcl : Cleared sb i s P s') (hp : p.Valid) (hne : addr s (i, p) ≠ 0) :
    s'.block (addr s (i, p)) = s.block (addr s (i, p)) := by
  refine hcl.block _ ?_
  rintro ⟨q, -, hv, hneq, heq⟩
  have harea := h.exact.inside (i, q) ⟨hi, hv⟩ hneq
  exact owned_ne_map hsb h harea ⟨hi, hp⟩ hne heq

/-- Everything below place `p` is freed. The buffers held are those of the tables on the way. -/
theorem wp_free_tree {d : Nat} (hp : p.Valid) (hd : p.height = d) (hne : addr s (i, p) ≠ 0)
    (hcl : Cleared sb i s {q | q.Left p} s')
    (hheld : ∀ b, b ∈ s'.held ↔ b ∈ s.held ∨ ∃ q ∈ {q | q.Over p}, b = addr s (i, q)) :
    wp (freeDepth sb d (addr s (i, p))) (fun _ => ¬Truncatable sb s i)
      (fun _ s'' => Cleared sb i s {q | q.Left p ∨ p.Above q} s'' ∧ s''.held = s'.held ∧
        s''.inode = s'.inode) s' := by
  induction d generalizing p s' with
  | zero =>
    have hleaf : ∀ q : Place, q.Valid → ¬p.Over q := by
      intro q hv hover
      rw [(Place.above_iff_over.mpr (.inr hover)).eq_of_height hv hd] at hover
      exact p.not_over_self hover
    refine wp_mono (wp_bfree_place hsb h hi hcl hp hne (fun q hv _ => ?_)
      (fun hpos => absurd hd (Nat.pos_iff_ne_zero.mp hpos)) hheld) ?_
    · exact (or_iff_left (hleaf q hv)).symm
    intro _ s'' hs''
    refine ⟨hs''.1.congr fun q hv _ => ?_, hs''.2⟩
    rw [Set.mem_insert_iff, Set.mem_ofPred_eq, Set.mem_ofPred_eq, Place.above_iff_over,
      or_iff_left (hleaf q hv), or_comm, eq_comm]
  | succ d ih =>
    have hpos : 0 < p.height := by omega
    simp only [freeDepth, freeTable, wp_bind]
    refine wp_bread (fun hin hok => ?_) (fun hnone hok => ?_) fun hnot hbuffer => ?_
    · -- the buffer is not one of those on the way down
      rcases (hheld _).mp hin with hold | ⟨q, hover, heq⟩
      · exact (hok.places p hp hne).table hpos hold
      · have habove : q.Above p := Place.above_iff_over.mpr (.inr hover)
        cases h.exact.inj (i, p) ⟨hi, hp⟩ (i, q) ⟨hi, habove.valid hp⟩ hne heq
        exact p.not_over_self hover
    · have hroom := (hok.places p hp hne).tableBuffer hpos
      rw [← hcl.in_use hheld, bufferable_iff] at hroom
      exact hroom hnone
    have htable : addr s (i, p) ∉ s.held ∧
        Bufferable (busy sb s i {q | q.Left p} {q | q.Over p}) (addr s (i, p)) := by
      refine ⟨fun hold => hnot ((hheld _).mpr (.inl hold)), ?_⟩
      rw [← hcl.in_use hheld, bufferable_iff]
      exact hbuffer
    -- the entries before `k` are done
    refine wp_mono (wp_loop (fun k s'' => Cleared sb i s {q | q.Left (.entry p k)} s'' ∧
      s''.held = addr s (i, p) :: s'.held ∧ s''.inode = s'.inode) ?_ ?_) ?_
    · intro k s1 hk hI
      obtain ⟨hcl1, hheld1, hinode1⟩ := hI
      have hentry : entry (s1.block (addr s (i, p))) k = addr s (i, .entry p k) := by
        rw [hcl1.table_block hsb h hi hp hne]
        exact (addrAt_entry hne).symm
      have hnext : ∀ q : Place, q.Left (.entry p k) ∨ (Place.entry p k).Above q ↔
          q.Left (.entry p (k + 1)) := by
        intro q
        constructor
        · rintro ((hin | ⟨j, hj, hbelow⟩) | hbelow)
          · exact .inl hin
          · exact .inr ⟨j, by omega, hbelow⟩
          · exact .inr ⟨k, by omega, hbelow⟩
        · rintro (hin | ⟨j, hj, hbelow⟩)
          · exact .inl (.inl hin)
          · by_cases hjk : j = k
            · exact .inr (hjk ▸ hbelow)
            · exact .inl (.inr ⟨j, by omega, hbelow⟩)
      rw [wp_bind, wp_get, hentry]
      by_cases hzero : addr s (i, .entry p k) = 0
      · rw [if_neg (fun hno => hno hzero), wp_pure]
        refine ⟨hcl1.congr fun q _ hneq => ?_, hheld1, hinode1⟩
        rw [Set.mem_ofPred_eq, Set.mem_ofPred_eq, ← hnext]
        exact (or_iff_left fun hbelow => hneq (addr_zero_below hbelow hzero)).symm
      · rw [if_pos hzero]
        refine wp_mono (ih ⟨hp, hpos, hk⟩ (by rw [Place.height]; omega) hzero hcl1 fun b => ?_) ?_
        · rw [hheld1, List.mem_cons, hheld]
          constructor
          · rintro (rfl | hold | ⟨q, hover, rfl⟩)
            · exact .inr ⟨p, p.above_self, rfl⟩
            · exact .inl hold
            · exact .inr ⟨q, Place.above_iff_over.mpr (.inr hover), rfl⟩
          · rintro (hold | ⟨q, habove, rfl⟩)
            · exact .inr (.inl hold)
            · rcases Place.above_iff_over.mp habove with rfl | hover
              · exact .inl rfl
              · exact .inr (.inr ⟨q, hover, rfl⟩)
        · intro _ s2 hs2
          obtain ⟨hcl2, hheld2, hinode2⟩ := hs2
          exact ⟨hcl2.congr fun q _ _ => hnext q, hheld2.trans hheld1, hinode2.trans hinode1⟩
    · refine ⟨(hcl.congr fun q _ _ => (or_iff_left ?_).symm).with_held, rfl, rfl⟩
      rintro ⟨j, hj, -⟩
      exact absurd hj (Nat.not_lt_zero j)
    · intro _ s1 hI
      obtain ⟨hcl1, hheld1, hinode1⟩ := hI
      refine wp_brelse hheld1 ?_
      refine wp_mono (wp_bfree_place hsb h hi hcl1.with_held hp hne (fun q hv _ => ?_)
        (fun _ => htable) hheld) ?_
      · rw [Place.over_iff hv]
        rfl
      · intro _ s2 hs2
        obtain ⟨hcl3, hheld3, hinode3⟩ := hs2
        refine ⟨hcl3.congr fun q hv _ => ?_, hheld3, hinode3.trans hinode1⟩
        rw [Set.mem_insert_iff, Set.mem_ofPred_eq, Set.mem_ofPred_eq, Place.above_iff hv]
        exact or_left_comm

end Tree

/-! ## `itrunc` -/

/-- The inode without its addresses below `k`. -/
def Inode.dropped (x : Inode) (k : Nat) : Inode :=
  { x with addrs := fun j => if j < k then 0 else x.addrs j }

theorem Inode.dropped_zero (x : Inode) : x.dropped 0 = x := by
  simp only [Inode.dropped, Nat.not_lt_zero, if_false]

theorem Inode.dropped_addrs_ne (x : Inode) {j k : Fin (NDIRECT + 2)} (hjk : j ≠ k) :
    (x.dropped (k + 1)).addrs j = (x.dropped k).addrs j := by
  have hval := Fin.val_ne_of_ne hjk
  simp only [Inode.dropped, show j.val < k.val + 1 ↔ j.val < k.val by omega]

theorem Inode.dropped_succ (x : Inode) (k : Fin (NDIRECT + 2)) :
    { x.dropped k with addrs := update (x.dropped k).addrs k 0 } = x.dropped (k + 1) := by
  have haddrs : update (x.dropped k).addrs k 0 = (x.dropped (k + 1)).addrs := by
    funext j
    by_cases hjk : j = k
    · rw [hjk, update_self]
      exact (if_pos (Nat.lt_succ_self _)).symm
    · rw [update_of_ne hjk, x.dropped_addrs_ne hjk]
  rw [haddrs]
  rfl

theorem Inode.dropped_of_zero {x : Inode} {k : Fin (NDIRECT + 2)} (hzero : x.addrs k = 0) :
    x.dropped (k + 1) = x.dropped k := by
  have hsame : update (x.dropped k).addrs k 0 = (x.dropped k).addrs := by
    refine update_eq_self_iff.mpr ?_
    exact ((if_neg (lt_irrefl _)).trans hzero).symm
  rw [← x.dropped_succ k, hsame]

/-- Inode `i` of `s` has lost what its addresses below `k` led to. -/
structure Dropped (sb : Superblock) (i : Inum) (s : State) (k : Nat) (s' : State) : Prop where
  cleared : Cleared sb i s {q | ∃ j : Fin (NDIRECT + 2), j < k ∧ (Place.root j).Above q} s'
  held : s'.held = s.held
  inode : s'.inode = update s.inode i ((s.inode i).dropped k)

theorem Dropped.start : Dropped sb i s 0 s where
  cleared := by
    refine Cleared.start.congr fun q _ _ => ⟨fun hno => absurd hno (Set.notMem_empty q), ?_⟩
    rintro ⟨j, hj, -⟩
    exact absurd hj (Nat.not_lt_zero _)
  held := rfl
  inode := by rw [Inode.dropped_zero, update_eq_self]

/-- Inode `i` is empty, and its blocks are free. -/
structure Truncated (sb : Superblock) (i : Inum) (s s' : State) : Prop
    extends Beside sb i s s' where
  inode : s'.inode i = { s.inode i with size := 0, addrs := fun _ => 0 }
  saved : onDisk sb s' i = s'.inode i
  bits : ∀ n < mapBits sb, used sb s'.block n = true ↔ used sb s.block n = true ∧
    ∀ p : Place, p.Valid → addr s (i, p) ≠ 0 → (addr s (i, p)).toNat ≠ n
  block : ∀ b, b ∉ mapOf sb s i Set.univ → b ≠ iblock sb i → s'.block b = s.block b
  log : ∀ b, b ∈ s'.log ↔ b ∈ s.log ∨ b ∈ mapOf sb s i Set.univ ∨ b = iblock sb i
  held : s'.held = s.held
  disk : s'.disk = s.disk

theorem Dropped.cleared_all (hdrop : Dropped sb i s (NDIRECT + 2) s') :
    Cleared sb i s Set.univ s' := by
  refine hdrop.cleared.congr fun q _ _ => ⟨fun _ => Set.mem_univ q, fun _ => ?_⟩
  obtain ⟨k, hk⟩ := q.exists_root_above
  exact ⟨k, k.isLt, hk⟩

section Truncate

variable (hsb : sb.WellFormed) (h : Owned sb s) (hi : i < sb.ninodes)

include hsb h hi

theorem wp_freeAddr {k : Fin (NDIRECT + 2)} {d : Nat} (hd : (Place.root k).height = d)
    (hdrop : Dropped sb i s k s') :
    wp (freeAddr i (freeDepth sb d) k) (fun _ => ¬Truncatable sb s i)
      (fun _ s'' => Dropped sb i s (k + 1) s'') s' := by
  have haddr : (s'.inode i).addrs k = addr s (i, .root k) := by
    rw [hdrop.inode, update_self]
    exact if_neg (lt_irrefl _)
  have hmem : ∀ q, q ∈ {q | ∃ j : Fin (NDIRECT + 2), j < k ∧ (Place.root j).Above q} ∪
      {q | (Place.root k).Above q} ↔
      ∃ j : Fin (NDIRECT + 2), j.val < k.val + 1 ∧ (Place.root j).Above q := by
    intro q
    constructor
    · rintro (⟨j, hj, hbelow⟩ | hbelow)
      · exact ⟨j, Nat.lt_succ_of_lt hj, hbelow⟩
      · exact ⟨k, Nat.lt_succ_self _, hbelow⟩
    · rintro ⟨j, hj, hbelow⟩
      by_cases hjk : j = k
      · exact .inr (hjk ▸ hbelow)
      · exact .inl ⟨j, Nat.lt_of_le_of_ne (Nat.lt_succ_iff.mp hj) (Fin.val_ne_of_ne hjk), hbelow⟩
  simp only [freeAddr, wp_bind, wp_get, haddr]
  by_cases hzero : addr s (i, .root k) = 0
  · -- there is nothing below
    rw [if_neg (fun hno => hno hzero), wp_pure]
    refine ⟨hdrop.cleared.congr fun q _ hne => ?_, hdrop.held, ?_⟩
    · rw [Set.mem_ofPred_eq, Set.mem_ofPred_eq, ← hmem]
      refine ⟨.inl, ?_⟩
      rintro (hin | hbelow)
      · exact hin
      · exact absurd (addr_zero_below hbelow hzero) hne
    · rw [hdrop.inode, Inode.dropped_of_zero hzero]
  · rw [if_pos hzero]
    refine wp_seq (wp_free_tree hsb h hi (show (Place.root k).Valid from trivial) hd hzero
      hdrop.cleared fun b => ?_) ?_
    · rw [hdrop.held]
      refine (or_iff_left ?_).symm
      rintro ⟨q, hno, -⟩
      exact hno
    · intro _ s1 hs1
      obtain ⟨hcl, hheld, hinode⟩ := hs1
      refine ⟨hcl.with_inode.congr fun q _ _ => hmem q, hheld.trans hdrop.held, ?_⟩
      show update s1.inode i _ = _
      rw [hinode, hdrop.inode, update_idem, update_self]
      exact congrArg _ ((s.inode i).dropped_succ k)

theorem wp_dropped {Q : Unit → State → Prop} {rest : Code Unit}
    (hrest : ∀ s', Dropped sb i s (NDIRECT + 2) s' →
      wp rest (fun _ => ¬Truncatable sb s i) Q s') :
    wp (do
      forEach NDIRECT fun k => freeAddr i (bfree sb) (k.castAdd 2)
      freeAddr i (freeTable sb (bfree sb)) single
      freeAddr i (freeTable sb (freeTable sb (bfree sb))) double
      rest) (fun _ => ¬Truncatable sb s i) Q s := by
  simp only [wp_bind]
  refine wp_mono (wp_for_each (Dropped sb i s) (fun k s1 hdrop => ?_) .start) fun _ s1 hdirect => ?_
  · have hheight : (Place.root (k.castAdd 2)).height = 0 := by
      have hk : k.val < NDIRECT := k.isLt
      simp only [Place.height, Fin.ext_iff, Fin.val_castAdd, single, double, NIRECT]
      rw [if_neg (by simp only [NDIRECT] at *; omega), if_neg (by omega)]
    exact wp_freeAddr hsb h hi hheight hdrop
  refine wp_mono (wp_freeAddr hsb h hi (k := single) height_single hdirect) fun _ s2 hsingle => ?_
  refine wp_mono (wp_freeAddr hsb h hi (k := double) height_double hsingle) fun _ s3 hdouble => ?_
  exact hrest s3 hdouble

/-- The owner of a block is not affected by what `itrunc` does to the system's blocks. -/
theorem not_mem_mapOf {P : Set Place} {o : Owner} (ho : o ∈ owners sb) (hne : addr s o ≠ 0) :
    addr s o ∉ mapOf sb s i P := by
  rintro ⟨q, -, hv, hneq, heq⟩
  exact owned_ne_map hsb h (h.exact.inside (i, q) ⟨hi, hv⟩ hneq) ho hne heq

theorem Dropped.truncated (hdrop : Dropped sb i s (NDIRECT + 2) s') {inode : Inum → Inode}
    (hinode : inode = update s.inode i { s.inode i with size := 0, addrs := fun _ => 0 }) :
    Truncated sb i s (updated sb i { s' with inode := inode }) := by
  have hcl := hdrop.cleared_all
  obtain ⟨s1, hs1⟩ : ∃ s1, s1 = updated sb i { s' with inode := inode } := ⟨_, rfl⟩
  rw [← hs1]
  have hbits : ∀ n < mapBits sb, used sb s1.block n = true ↔ used sb s.block n = true ∧
      ∀ p : Place, p.Valid → addr s (i, p) ≠ 0 → (addr s (i, p)).toNat ≠ n := by
    intro n hn
    rw [hs1, used_updated hsb hi hn]
    refine (hcl.used n hn).trans (and_congr_right fun _ => ?_)
    exact forall_congr' fun p => ⟨fun hall => hall (Set.mem_univ p), fun hall _ => hall⟩
  have hblock : ∀ b, b ∉ mapOf sb s i Set.univ → b ≠ iblock sb i → s1.block b = s.block b := by
    intro b hb hne
    rw [hs1, updated_block_ne hne]
    exact hcl.block b hb
  have howner : ∀ o ∈ owners sb, addr s o ≠ 0 → s1.block (addr s o) = s.block (addr s o) := by
    intro o ho hne
    refine hblock _ (not_mem_mapOf hsb h hi ho hne) fun heq => iblock_not_area hsb hi ?_
    exact heq ▸ h.exact.inside o ho hne
  have hself : s1.inode i = { s.inode i with size := 0, addrs := fun _ => 0 } := by
    rw [hs1]
    exact (congrFun hinode i).trans (update_self ..)
  have hother : ∀ j ≠ i, s1.inode j = s.inode j := by
    intro j hj
    rw [hs1]
    exact (congrFun hinode j).trans (update_of_ne hj _ _)
  have hgone : ∀ p, addr s1 (i, p) = 0 := by
    intro p
    obtain ⟨k, hk⟩ := p.exists_root_above
    exact addr_zero_below hk (congrArg (fun x : Inode => x.addrs k) hself)
  have hothers : ∀ o ∈ owners sb, o.1 ≠ i → addr s1 o = addr s o := by
    intro o ho hoi
    rw [addr, addr, hother _ hoi]
    refine addrAt_frame (fun p hv _ hne => ?_) ho.2
    exact howner (o.1, p) ⟨ho.1, hv⟩ hne
  refine ⟨⟨⟨?_, ?_⟩, hothers, fun o ho _ hne => howner o ho hne, ?_, hother, ?_⟩, hself, ?_, hbits,
    hblock, ?_, ?_, ?_⟩
  · refine h.exact.release (S := {o | o.1 = i}) ?_ ?_ (fun o ho hoi => hothers o ho hoi)
      (zero_not_area)
    · intro c hc
      rw [hbits _ (area_lt_mapBits hc)]
      refine and_congr_right fun _ => ⟨?_, ?_⟩
      · rintro hall o ho hoi rfl
        obtain ⟨j, p⟩ := o
        obtain rfl : j = i := hoi
        exact hall p ho.2 (fun hzero => zero_not_area (hzero ▸ hc)) rfl
      · intro hall p hv _ heq
        exact hall (i, p) ⟨hi, hv⟩ rfl (BitVec.eq_of_toNat_eq heq)
    · rintro ⟨j, p⟩ _ hoi
      obtain rfl : j = i := hoi
      exact hgone p
  · intro n hn
    have hdata := hsb.data
    have hsize := size_lt_mapBits sb
    refine (hbits n (by omega)).mpr ⟨h.system n hn, fun p hv hne heq => ?_⟩
    have harea := (h.exact.inside (i, p) ⟨hi, hv⟩ hne).1
    omega
  · intro n hn hmap
    refine Bool.eq_iff_iff.mpr ((hbits n hmap).trans ⟨fun hboth => hboth.1, fun hold => ?_⟩)
    refine ⟨hold, fun p hv hne heq => ?_⟩
    have harea := (h.exact.inside (i, p) ⟨hi, hv⟩ hne).2
    omega
  · intro j hj hne
    rw [hs1]
    refine (onDisk_updated_ne hsb hi hj hne).trans (congrArg (dinode · _) (hcl.block _ ?_))
    rintro ⟨q, -, hv, hneq, heq⟩
    have hlow := iblock_range hsb hj
    have hmap := bblock_range hsb (area_lt_mapBits (h.exact.inside (i, q) ⟨hi, hv⟩ hneq))
    rw [heq] at hlow
    omega
  · rw [hs1]
    exact onDisk_updated_self
  · intro b
    rw [hs1]
    show b ∈ listed _ s'.log ↔ _
    rw [mem_listed, hcl.log]
    tauto
  · rw [hs1]
    exact hdrop.held
  · rw [hs1]
    exact hcl.disk

/-- `itrunc` gets through exactly from the states that are `Truncatable`, with the inode empty. -/
theorem wp_itrunc : wp (itrunc sb i) (fun _ => ¬Truncatable sb s i)
    (fun _ s' => Truncatable sb s i ∧ Truncated sb i s s') s := by
  refine wp_dropped hsb h hi fun s1 hdrop => ?_
  have hcl := hdrop.cleared_all
  rw [wp_bind, wp_setInode]
  simp only [iupdate, wp_bind]
  have hbusy : {b | b ∈ s1.inUse} = busy sb s i Set.univ ∅ := by
    refine hcl.in_use fun b => ?_
    rw [hdrop.held]
    refine (or_iff_left ?_).symm
    rintro ⟨q, hno, -⟩
    exact hno
  refine wp_bread (fun hin hok => hok.inode (hdrop.held ▸ hin)) (fun hnone hok => ?_)
    fun hnot hbuffer => ?_
  · have hroom := hok.inodeBuffer
    rw [← hbusy, bufferable_iff] at hroom
    exact hroom hnone
  rw [wp_get, wp_setData]
  refine wp_logWrite (fun hfull => hcl.not_full hfull) (fun _ hops hok => ?_) fun hroom hops =>
    wp_brelse rfl ?_
  · have hpos := hok.ops
    rw [← hcl.ops] at hpos
    exact absurd hpos (by show ¬0 < s1.ops; exact Nat.not_lt.mpr (Nat.lt_succ_iff.mp hops))
  have hlength : s1.log.length < LOGSIZE ∧ s1.log.length < s1.logsize - 1 := by
    constructor
    · exact Nat.not_le.mp fun hno => hroom (.inl hno)
    · exact Nat.not_le.mp fun hno => hroom (.inr hno)
  refine ⟨⟨?_, fun p => hcl.places p (Set.mem_univ p), ?_, ?_, ?_⟩, ?_⟩
  · rw [← hcl.ops]
    exact hops
  · exact fun hin => hnot (hdrop.held.symm ▸ hin)
  · rw [← hbusy, bufferable_iff]
    exact hbuffer
  · rw [hcl.length, hcl.logsize] at hlength
    exact hlength
  · refine hdrop.truncated hsb h hi ?_
    rw [hdrop.inode, update_idem, update_self]
    simp only [Inode.dropped, Fin.is_lt, if_true]

end Truncate

/-! ## After any writes -/

/-- A call of `writei`. -/
structure WriteCall where
  src : Source
  off : BitVec 32
  n : BitVec 32

/-- Calls of `writei` on one inode, whatever they return. -/
def writeAll (sb : Superblock) (i : Inum) : List WriteCall → Code Unit
  | [] => pure ()
  | w :: rest => do
    let _ ← writei sb i w.src w.off w.n
    writeAll sb i rest

theorem wp_writeAll (hsb : sb.WellFormed) (h : Owned sb s) (hi : i < sb.ninodes)
    (ws : List WriteCall) : wp (writeAll sb i ws) Fault.any (fun _ s' => Beside sb i s s') s := by
  induction ws generalizing s with
  | nil => exact .refl h
  | cons w rest ih =>
    rw [writeAll]
    refine wp_seq (wp_writei_beside hsb h hi fun _ _ => trivial) fun _ s1 hone => ?_
    exact wp_mono (ih hone.owned) fun _ s2 htwo => hone.trans htwo

theorem Owned.used_eq (h : Owned sb s) (h' : Owned sb s')
    (haddr : ∀ o ∈ owners sb, addr s' o = addr s o) {n : Nat} (hsize : n < 2 ^ 32)
    (hn : n < sb.size) : used sb s'.block n = used sb s.block n := by
  by_cases hsystem : n < datastart sb
  · rw [h.system n hsystem, h'.system n hsystem]
  · have hnat : (BitVec.ofNat 32 n).toNat = n := by
      rw [BitVec.toNat_ofNat, Nat.mod_eq_of_lt hsize]
    have harea : BitVec.ofNat 32 n ∈ area sb := by
      show _ ∧ _
      rw [hnat]
      exact ⟨Nat.not_lt.mp hsystem, hn⟩
    have hold := h.exact.used_iff _ harea
    have hnew := h'.exact.used_iff _ harea
    rw [hnat] at hold hnew
    refine Bool.eq_iff_iff.mpr (hnew.trans (Iff.trans ?_ hold.symm))
    exact exists_congr fun o => and_congr_right fun ho => by rw [haddr o ho]

/-- A file that was empty before it was written gives back all that it took. -/
theorem Truncated.restores {s1 : State} (hsb : sb.WellFormed) (h : Owned sb s)
    (hempty : ∀ k, (s.inode i).addrs k = 0) (hwritten : Beside sb i s s1)
    (htrunc : Truncated sb i s1 s') {n : Nat} (hn : n < mapBits sb) :
    used sb s'.block n = used sb s.block n := by
  have hbeside := hwritten.trans htrunc.toBeside
  by_cases hsize : n < sb.size
  · refine h.used_eq hbeside.owned ?_ (hsize.trans hsb.size) hsize
    rintro ⟨j, p⟩ ho
    by_cases hji : j = i
    · obtain ⟨k, hk⟩ := p.exists_root_above
      rw [hji, addr_zero_below hk (hempty k)]
      exact addr_zero_below hk (congrArg (fun x : Inode => x.addrs k) htrunc.inode)
    · exact hbeside.others (j, p) ho hji
  · exact hbeside.spare n (Nat.not_lt.mp hsize) hn

theorem truncatable_of_value (hsb : sb.WellFormed) (h : Owned sb s) (hi : i < sb.ninodes)
    (hvalue : valueOf (itrunc sb i) s = some ()) : Truncatable sb s i := by
  obtain ⟨s', hrun⟩ := ok_of_value hvalue
  exact (wp_ok (wp_itrunc hsb h hi) hrun).1

/-- `itrunc` frees exactly the blocks of the inode, each once: a block that is free already would
make `bfree` panic. It gets through exactly from the states that are `Truncatable`. So a file that
is written from empty, in whatever way, and truncated leaves the free map as it was. -/
theorem itrunc_frees_exactly (hsb : sb.WellFormed) (hi : i < sb.ninodes) (h : Owned sb s) :
    (wp (itrunc sb i) Fault.never (fun _ s' => Truncated sb i s s') s ↔ Truncatable sb s i) ∧
    ((∀ k, (s.inode i).addrs k = 0) → ∀ ws, wp (writeAll sb i ws) Fault.any (fun _ s1 =>
      (wp (itrunc sb i) Fault.never (fun _ s' => Truncated sb i s1 s' ∧
        ∀ n < mapBits sb, used sb s'.block n = used sb s.block n) s1 ↔
        Truncatable sb s1 i)) s) := by
  refine ⟨wp_iff_of_exact (wp_itrunc hsb h hi), fun hempty ws => ?_⟩
  refine wp_mono (wp_writeAll hsb h hi ws) fun _ s1 hwritten => wp_iff_of_exact ?_
  refine wp_mono (wp_itrunc hsb hwritten.owned hi) fun _ s' hs' => ?_
  exact ⟨hs'.1, hs'.2, fun n hn => hs'.2.restores hsb h hempty hwritten hn⟩

/-- A disk with ten blocks of the free map. Its data area begins at block 16. -/
def wideDisk : Superblock where
  size := 10 * BPB
  ninodes := 3
  inodestart := 2
  bmapstart := 5

/-- Byte `j` of block `b` of the free map: the first 16 blocks of the disk are used, and the
100th block of every part of the disk. -/
def spreadMap (b j : Nat) : Byte :=
  if b = 0 ∧ j < 2 then 0xFF#8 else if b < 10 ∧ j = 12 then 0x10#8 else 0

/-- The disk with this free map, and zeros. -/
def spreadDisk : Disk := fun b => if 5 ≤ b.toNat then spreadMap (b.toNat - 5) else fun _ => 0

/-- Inode 1 has ten blocks, each in another part of the disk. Three operations have begun, and the
log has some blocks. -/
def spread (log : List BlockNo) : State where
  block := spreadDisk
  disk := spreadDisk
  inode i := ⟨2, 0, 0, 1, if i = 1 then 10 * 1024 else 0,
    fun k => if i = 1 ∧ k.val < 10 then BitVec.ofNat 32 (k * BPB + 100) else 0⟩
  held := []
  log := log
  logsize := 30
  ops := 3

theorem wideDisk_wellFormed : wideDisk.WellFormed where
  inodes i hi := by
    have hlt : i < 3 := hi
    show i / 16 + 2 < 5
    omega
  data := by decide
  size := by decide

theorem used_spread (log : List BlockNo) {n : Nat} (hn : n < mapBits wideDisk) :
    used wideDisk (spread log).block n = true ↔ n < 16 ∨ ∃ k < 10, n = k * BPB + 100 := by
  have hbits : ∀ m < 8, (0xFF#8).getLsbD m = true ∧ ((0x10#8).getLsbD m = true ↔ m = 4) := by
    decide
  have hmod : n % BPB % 8 < 8 := Nat.mod_lt _ (by decide)
  have hmap : n < 11 * 8192 := hn
  have hblock : (spread log).block (bblock wideDisk n) = spreadMap (n / BPB) := by
    have hnat : (bblock wideDisk n).toNat = n / BPB + 5 := by
      rw [bblock, BitVec.toNat_ofNat]
      exact Nat.mod_eq_of_lt (by show n / 8192 + 5 < 4294967296; omega)
    show (if 5 ≤ _ then spreadMap _ else _) = _
    rw [hnat, if_pos (Nat.le_add_left ..), Nat.add_sub_cancel]
  rw [used, hblock, bit, spreadMap]
  by_cases hfirst : n / BPB = 0 ∧ n % BPB / 8 < 2
  · rw [if_pos hfirst]
    refine ⟨fun _ => .inl ?_, fun _ => (hbits _ hmod).1⟩
    simp only [BPB, BSIZE] at hfirst
    omega
  · rw [if_neg hfirst]
    by_cases hsecond : n / BPB < 10 ∧ n % BPB / 8 = 12
    · rw [if_pos hsecond, (hbits _ hmod).2]
      simp only [BPB, BSIZE] at *
      constructor
      · exact fun hfour => .inr ⟨n / 8192, by omega, by omega⟩
      · rintro (hlow | ⟨k, hk, hkn⟩)
        · omega
        · omega
    · rw [if_neg hsecond]
      simp only [BPB, BSIZE] at *
      refine ⟨fun hno => absurd hno (by simp), ?_⟩
      rintro (hlow | ⟨k, hk, hkn⟩)
      · omega
      · omega

theorem addr_spread {log : List BlockNo} {o : Owner} (ho : o.2.Valid)
    (hne : addr (spread log) o ≠ 0) :
    ∃ k : Fin (NDIRECT + 2), k.val < 10 ∧ o = (1, .root k) ∧
      (addr (spread log) o).toNat = k * BPB + 100 := by
  obtain ⟨i, p⟩ := o
  have hroot : ∀ k, addr (spread log) (i, .root k) ≠ 0 → i = 1 ∧ k.val < 10 := by
    intro k hk
    by_contra hno
    exact hk (if_neg hno)
  induction p with
  | root k =>
    obtain ⟨rfl, hk⟩ := hroot k hne
    refine ⟨k, hk, rfl, ?_⟩
    show (if _ then BitVec.ofNat 32 (k * BPB + 100) else 0).toNat = _
    rw [if_pos ⟨rfl, hk⟩, BitVec.toNat_ofNat]
    exact Nat.mod_eq_of_lt (by simp only [BPB, BSIZE]; omega)
  | entry p j ih =>
    obtain ⟨hvalid, hheight⟩ := Place.Valid.table ho
    have hp : addr (spread log) (i, p) ≠ 0 := fun hzero => hne (addrAt_entry_zero hzero)
    obtain ⟨k, hk, heq, hnat⟩ := ih hvalid hp
    obtain rfl : p = .root k := congrArg Prod.snd heq
    have hdirect : ∀ k : Fin (NDIRECT + 2), k.val < 10 → (Place.root k).height = 0 := by decide
    exact absurd (hdirect k hk) (Nat.pos_iff_ne_zero.mp hheight)

theorem spread_owned (log : List BlockNo) : Owned wideDisk (spread log) := by
  refine ⟨⟨?_, ?_, ?_⟩, fun n hn => (used_spread log (hn.trans (by decide))).mpr (.inl hn)⟩
  · intro o ho hne
    obtain ⟨k, hk, -, hnat⟩ := addr_spread ho.2 hne
    show 16 ≤ _ ∧ _ < 10 * BPB
    rw [hnat]
    simp only [BPB, BSIZE]
    omega
  · intro o ho o' ho' hne heq
    obtain ⟨k, hk, rfl, hnat⟩ := addr_spread ho.2 hne
    obtain ⟨k', hk', rfl, hnat'⟩ := addr_spread ho'.2 (heq ▸ hne)
    rw [heq, hnat'] at hnat
    simp only [BPB, BSIZE] at hnat
    rw [show k = k' from Fin.ext (by omega)]
  · intro b hb
    obtain ⟨hlow, hhigh⟩ : 16 ≤ b.toNat ∧ b.toNat < 10 * BPB := hb
    rw [used_spread log (hhigh.trans (by decide))]
    constructor
    · rintro (hno | ⟨k, hk, hbk⟩)
      · omega
      · have hlt : k < NDIRECT + 2 := hk.trans (by decide)
        have haddr : addr (spread log) (1, .root ⟨k, hlt⟩) = BitVec.ofNat 32 (k * BPB + 100) :=
          if_pos ⟨rfl, hk⟩
        refine ⟨(1, .root ⟨k, hlt⟩), ⟨show 1 < 3 by decide, trivial⟩, BitVec.eq_of_toNat_eq ?_⟩
        rw [haddr, ← hbk, BitVec.toNat_ofNat, Nat.mod_eq_of_lt b.isLt]
    · rintro ⟨o, ho, rfl⟩
      have hne : addr (spread log) o ≠ 0 := by
        intro hzero
        rw [hzero] at hlow
        exact absurd hlow (by decide)
      obtain ⟨k, hk, -, hnat⟩ := addr_spread ho.2 hne
      exact .inr ⟨k, hk, hnat⟩

/-- With nothing else in the log all ten blocks are freed. Inode 2 can be written and truncated. -/
theorem itrunc_frees_exactly_spread : Truncatable wideDisk (spread []) 1 ∧
    (wp (itrunc wideDisk 1) Fault.never (fun _ s' => Truncated wideDisk 1 (spread []) s')
      (spread []) ↔ Truncatable wideDisk (spread []) 1) ∧
    ∀ ws, wp (writeAll wideDisk 2 ws) Fault.any (fun _ s1 =>
      (wp (itrunc wideDisk 2) Fault.never (fun _ s' => Truncated wideDisk 2 s1 s' ∧
        ∀ n < mapBits wideDisk, used wideDisk s'.block n = used wideDisk (spread []).block n) s1 ↔
        Truncatable wideDisk s1 2)) (spread []) :=
  ⟨truncatable_of_value wideDisk_wellFormed (spread_owned []) (by decide) (by decide +kernel),
    (itrunc_frees_exactly wideDisk_wellFormed (by decide) (spread_owned [])).1,
    (itrunc_frees_exactly wideDisk_wellFormed (by decide) (spread_owned [])).2 (by decide)⟩

/-- The blocks that two other operations have logged, of the ten that each may write. -/
def otherBlocks : List BlockNo := (List.range 20).map fun k => BitVec.ofNat 32 (1000 + k)

/-- With two other operations in the log, `itrunc` of a file in ten parts of the disk stops the
kernel. -/
theorem itrunc_too_big : Owned wideDisk (spread otherBlocks) ∧
    faultOf (itrunc wideDisk 1) (spread otherBlocks) =
      some (.panic "too big a transaction") :=
  ⟨spread_owned _, by decide +kernel⟩

end Xv6.Fs.Block
