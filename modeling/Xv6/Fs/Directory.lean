import Mathlib
import Xv6.Fs.Inode

/-!
# A directory is a finite map

A directory is a file of 16-byte entries; an entry with inode number 0 is free, and a name of
`DIRSIZ` bytes has no NUL. Here its operations are compared with a finite map from names to inode
numbers: `dirlookup` reads the map, a `dirlink` that succeeds adds to it, and the clearing of an
entry in `sys_unlink` removes from it. Free slots anywhere in the file are used again.

`strncmp` and `strncpy` are translated from `string.c`; the lemmas about them say that the names
`namecmp` finds equal are the ones that `dirent` stores.
-/

namespace Xv6.Fs.Files

open Function

variable {s s' : State} {dp i : Inum} {data de : List Byte} {name : Str} {E : Fault → Prop}
  {n : Nat} {inum : Inum}

/-! ## The string routines -/

/-- `strncmp`. A string is given without its NUL. -/
def strncmp : Nat → List Byte → List Byte → Int
  | 0, _, _ => 0
  | n + 1, p, q =>
    if p.headD 0 ≠ 0 ∧ p.headD 0 = q.headD 0 then strncmp n p.tail q.tail
    else (p.headD 0).toNat - (q.headD 0).toNat

/-- `strncpy`: the `n` bytes it writes. -/
def strncpy : Nat → List Byte → List Byte
  | 0, _ => []
  | n + 1, t => if t.headD 0 = 0 then 0 :: List.replicate n 0 else t.headD 0 :: strncpy n t.tail

/-- `namecmp`. -/
def namecmp (s t : List Byte) : Int := strncmp DIRSIZ s t

/-- What a path element can be after `skipelem`. -/
structure IsName (name : Str) : Prop where
  nonempty : name ≠ []
  short : name.length ≤ DIRSIZ
  nul : 0 ∉ name

theorem strncpy_eq {t : List Byte} (hnul : 0 ∉ t) :
    strncpy n t = t.take n ++ List.replicate (n - t.length) 0 := by
  induction n generalizing t with
  | zero => simp [strncpy]
  | succ n ih =>
    cases t with
    | nil => simp [strncpy, List.replicate_succ]
    | cons b t =>
      have hb : b ≠ 0 := fun hzero => hnul (hzero ▸ List.mem_cons_self)
      have hrest : 0 ∉ t := fun hin => hnul (List.mem_cons_of_mem _ hin)
      rw [strncpy, List.headD_cons, if_neg hb, List.tail_cons, ih hrest, List.take_succ_cons,
        List.length_cons, Nat.add_sub_add_right, List.cons_append]

theorem dirent_eq_strncpy (hname : IsName name) (inum : Inum) :
    dirent name inum = BitVec.ofNat 8 inum :: BitVec.ofNat 8 (inum / 256) ::
      strncpy DIRSIZ name := by
  rw [strncpy_eq hname.nul, dirent]

theorem takeWhile_nul (q : List Byte) : (0 :: q).takeWhile (· ≠ 0) = [] :=
  List.takeWhile_cons_of_neg (by simp)

theorem takeWhile_byte {b : Byte} (hb : b ≠ 0) (q : List Byte) :
    (b :: q).takeWhile (· ≠ 0) = b :: q.takeWhile (· ≠ 0) :=
  List.takeWhile_cons_of_pos (by simpa using hb)

theorem strncmp_zero_iff {p q : List Byte} (hp : p.length ≤ n) (hq : q.length ≤ n) :
    strncmp n p q = 0 ↔ p.takeWhile (· ≠ 0) = q.takeWhile (· ≠ 0) := by
  induction n generalizing p q with
  | zero =>
    obtain rfl : p = [] := List.length_eq_zero_iff.mp (by omega)
    obtain rfl : q = [] := List.length_eq_zero_iff.mp (by omega)
    exact iff_of_true rfl rfl
  | succ n ih =>
    have hsub : ∀ b c : Byte, ((b.toNat : Int) - c.toNat = 0) ↔ b = c := by
      intro b c
      rw [sub_eq_zero, Int.natCast_inj]
      exact ⟨BitVec.eq_of_toNat_eq, fun h => by rw [h]⟩
    have hlast : ∀ q : List Byte, (0 : Byte) = q.headD 0 ↔ [] = q.takeWhile (· ≠ 0) := by
      intro q
      cases q with
      | nil => exact iff_of_true rfl rfl
      | cons c q =>
        by_cases hc : c = 0
        · subst hc
          exact iff_of_true rfl (takeWhile_nul q).symm
        · rw [takeWhile_byte hc]
          exact iff_of_false (Ne.symm hc) (List.cons_ne_nil _ _).symm
    rw [strncmp]
    cases p with
    | nil =>
      rw [List.headD_nil, if_neg (by simp), hsub]
      exact hlast q
    | cons b p =>
      rw [List.headD_cons, List.tail_cons]
      by_cases hb : b = 0
      · subst hb
        rw [if_neg (by simp), hsub, takeWhile_nul]
        exact hlast q
      · cases q with
        | nil =>
          rw [List.headD_nil, if_neg (fun h => hb h.2), hsub, takeWhile_byte hb]
          exact iff_of_false hb (List.cons_ne_nil _ _)
        | cons c q =>
          rw [List.headD_cons, List.tail_cons, takeWhile_byte hb]
          by_cases hbc : b = c
          · subst hbc
            rw [if_pos ⟨hb, rfl⟩, takeWhile_byte hb, List.cons_inj_right]
            exact ih (by simpa using hp) (by simpa using hq)
          · rw [if_neg (fun h => hbc h.2), hsub]
            refine iff_of_false hbc fun h => ?_
            by_cases hc : c = 0
            · subst hc
              rw [takeWhile_nul] at h
              cases h
            · rw [takeWhile_byte hc] at h
              exact hbc (List.cons.inj h).1

theorem name_field_length (hde : de.length = DIRENT) : (de.drop 2).length ≤ DIRSIZ := by
  rw [List.length_drop, hde]
  decide

theorem namecmp_entries_iff {de' : List Byte} (hde : de.length = DIRENT)
    (hde' : de'.length = DIRENT) :
    namecmp (de.drop 2) (de'.drop 2) = 0 ↔ entryName de = entryName de' :=
  strncmp_zero_iff (name_field_length hde) (name_field_length hde')

theorem entry_name_dirent (hname : IsName name) (inum : Inum) :
    entryName (dirent name inum) = name := by
  have hdrop : (dirent name inum).drop 2 =
      name ++ List.replicate (DIRSIZ - name.length) 0 := by
    rw [dirent, List.take_of_length_le hname.short]
    rfl
  have hnul : ∀ b ∈ name, decide (b ≠ 0) = true := fun b hb => by
    simpa using fun hzero : b = 0 => hname.nul (hzero ▸ hb)
  rw [entryName, hdrop, List.takeWhile_append_of_pos hnul]
  cases DIRSIZ - name.length with
  | zero => exact List.append_nil _
  | succ n => rw [List.replicate_succ, takeWhile_nul, List.append_nil]

theorem two_bytes (h : n < 65536) : n % 2 ^ 8 + 256 * (n / 256 % 2 ^ 8) = n := by
  omega

theorem entry_inum_dirent (h : inum < 65536) :
    entryInum (dirent name inum) = inum := by
  simp only [entryInum, dirent, List.getD_cons_zero, List.getD_cons_succ, BitVec.toNat_ofNat]
  exact two_bytes h

theorem dirent_length (name : Str) (inum : Inum) : (dirent name inum).length = DIRENT := by
  simp only [dirent, List.length_cons, List.length_append, List.length_take,
    List.length_replicate, DIRSIZ, DIRENT]
  omega

/-! ## Entries -/

/-- Entry `k` of a directory. -/
def entryAt (data : List Byte) (k : Nat) : List Byte := (data.drop (k * DIRENT)).take DIRENT

/-- The number of entries. -/
def entryCount (data : List Byte) : Nat := data.length / DIRENT

theorem entryAt_zero (data : List Byte) : entryAt data 0 = data.take DIRENT := by
  rw [entryAt, Nat.zero_mul, List.drop_zero]

theorem entryAt_drop (data : List Byte) (k : Nat) :
    entryAt (data.drop DIRENT) k = entryAt data (k + 1) := by
  rw [entryAt, entryAt, List.drop_drop, Nat.add_one_mul, Nat.add_comm]

theorem entryAt_length {k : Nat} (h : (k + 1) * DIRENT ≤ data.length) :
    (entryAt data k).length = DIRENT := by
  rw [entryAt, List.length_take, List.length_drop]
  simp only [DIRENT] at *
  omega

theorem scanEntries_spec (found : List Byte → Bool) (hlen : data.length = n * DIRENT) (off : Nat) :
    (∃ k < n, found (entryAt data k) = true ∧ (∀ j < k, found (entryAt data j) = false) ∧
      scanEntries found n data off = some (some (off + k * DIRENT, entryInum (entryAt data k)))) ∨
    (∀ k < n, found (entryAt data k) = false) ∧ scanEntries found n data off = some none := by
  induction n generalizing data off with
  | zero => exact .inr ⟨fun k hk => absurd hk (by omega), rfl⟩
  | succ n ih =>
    have hfirst : (data.take DIRENT).length = DIRENT := by
      rw [List.length_take, hlen]
      simp only [DIRENT]
      omega
    have hrest : (data.drop DIRENT).length = n * DIRENT := by
      rw [List.length_drop, hlen]
      simp only [DIRENT]
      omega
    rw [scanEntries, if_neg (not_not.mpr hfirst), ← entryAt_zero]
    cases hfound : found (entryAt data 0) with
    | true =>
      left
      refine ⟨0, by omega, hfound, fun j hj => absurd hj (by omega), ?_⟩
      rw [if_pos rfl, Nat.zero_mul, Nat.add_zero]
    | false =>
      rw [if_neg (by simp)]
      rcases ih hrest (off + DIRENT) with ⟨k, hk, hyes, hno, hscan⟩ | ⟨hno, hscan⟩
      · left
        refine ⟨k + 1, by omega, by rwa [entryAt_drop] at hyes, fun j hj => ?_, ?_⟩
        · cases j with
          | zero => exact hfound
          | succ j => rw [← entryAt_drop]; exact hno j (by omega)
        · rw [hscan, entryAt_drop, Nat.add_assoc, Nat.add_one_mul, Nat.add_comm DIRENT]
      · right
        refine ⟨fun k hk => ?_, hscan⟩
        cases k with
        | zero => exact hfound
        | succ k => rw [← entryAt_drop]; exact hno k (by omega)

theorem entries_of_whole (hwhole : data.length % DIRENT = 0) :
    data.length = entryCount data * DIRENT ∧
      (data.length + DIRENT - 1) / DIRENT = entryCount data := by
  simp only [entryCount, DIRENT] at *
  omega

theorem scan_spec {x : Node} (found : List Byte → Bool) (hwhole : x.data.length % DIRENT = 0) :
    (∃ k < entryCount x.data, found (entryAt x.data k) = true ∧
      (∀ j < k, found (entryAt x.data j) = false) ∧
      x.scan found = some (some (k * DIRENT, entryInum (entryAt x.data k)))) ∨
    (∀ k < entryCount x.data, found (entryAt x.data k) = false) ∧ x.scan found = some none := by
  obtain ⟨hlen, hcount⟩ := entries_of_whole hwhole
  rw [Node.scan, hcount]
  simpa only [Nat.zero_add] using scanEntries_spec found hlen 0

/-! ## Writing an entry -/

theorem getElem?_overwrite {off m : Nat} (hoff : off ≤ data.length)
    (hout : m < off ∨ off + de.length ≤ m) : (overwrite data off de)[m]? = data[m]? := by
  have htake : (data.take off).length = off := by rw [List.length_take, Nat.min_eq_left hoff]
  rw [overwrite, List.append_assoc]
  rcases hout with hlow | hhigh
  · rw [List.getElem?_append_left (by omega), List.getElem?_take, if_pos hlow]
  · rw [List.getElem?_append_right (by omega), htake, List.getElem?_append_right (by omega),
      List.getElem?_drop]
    congr 1
    omega

section Overwrite

variable {k : Nat} (hk : k ≤ entryCount data) (hde : de.length = DIRENT)

include hk hde

theorem overwrite_length : (overwrite data (k * DIRENT) de).length =
    max data.length ((k + 1) * DIRENT) := by
  rw [overwrite, List.length_append, List.length_append, List.length_take, List.length_drop, hde]
  simp only [entryCount, DIRENT] at *
  omega

theorem entryAt_overwrite_same : entryAt (overwrite data (k * DIRENT) de) k = de := by
  have htake : (data.take (k * DIRENT)).length = k * DIRENT := by
    rw [List.length_take]
    simp only [entryCount, DIRENT] at *
    omega
  rw [entryAt, overwrite, List.append_assoc, List.drop_append_of_le_length (by omega),
    List.drop_of_length_le (by omega), List.nil_append, List.take_append_of_le_length (by omega),
    List.take_of_length_le (by omega)]

theorem entryAt_overwrite_ne {j : Nat} (hj : j ≠ k) :
    entryAt (overwrite data (k * DIRENT) de) j = entryAt data j := by
  have hoff : k * DIRENT ≤ data.length := by
    simp only [entryCount, DIRENT] at *
    omega
  refine List.ext_getElem? fun t => ?_
  rw [entryAt, entryAt, List.getElem?_take, List.getElem?_take, List.getElem?_drop,
    List.getElem?_drop]
  by_cases ht : t < DIRENT
  · rw [if_pos ht, if_pos ht, getElem?_overwrite hoff]
    rw [hde]
    simp only [DIRENT] at *
    omega
  · rw [if_neg ht, if_neg ht]

end Overwrite

theorem total_entry (g : Grant) (size k : Nat) :
    g.total false size (k * DIRENT) DIRENT = 0 ∨
      g.total false size (k * DIRENT) DIRENT = DIRENT := by
  simp only [Grant.total, Bool.false_eq_true, if_false, BSIZE, DIRENT]
  generalize (size + 1024 - 1) / 1024 + g.blocks = blocks
  omega

theorem wp_writei_entry {k : Nat} {Q : Int → State → Prop} (hk : k ≤ entryCount (s.node dp).data)
    (hde : de.length = DIRENT)
    (hfail : ∀ (r : Int) s', r ≠ (DIRENT : Nat) → s'.node dp = s.node dp → s'.ref = s.ref → Q r s')
    (hdone : ∀ s', s'.node dp =
      { s.node dp with data := overwrite (s.node dp).data (k * DIRENT) de } → s'.ref = s.ref →
      Q (DIRENT : Nat) s') : wp (writei dp false de (k * DIRENT)) E Q s := by
  have hoff : k * DIRENT ≤ (s.node dp).data.length := by
    simp only [entryCount, DIRENT] at *
    omega
  simp only [writei, wp_bind, wp_get]
  refine (wp_ite ..).mpr ⟨fun _ => hfail (-1) s (by decide) rfl rfl, fun _ => ?_⟩
  refine (wp_ite ..).mpr ⟨fun _ => hfail (-1) s (by decide) rfl rfl, fun _ => ?_⟩
  simp only [Bool.false_eq_true, false_and, if_false, Nat.add_zero, setNode, wp_bind, wp_set,
    wp_modify, wp_pure, hde]
  rcases total_entry (s.grants.headD {}) (s.node dp).data.length k with hzero | hall
  · rw [hzero]
    refine hfail _ _ (by decide) ?_ rfl
    show update s.node dp _ dp = s.node dp
    rw [update_self, List.take_zero, overwrite, List.append_nil, List.length_nil,
      Nat.add_zero, List.take_append_drop, List.take_of_length_le (le_max_left _ _)]
  · rw [hall]
    refine hdone _ ?_ rfl
    show update s.node dp _ dp = _
    rw [update_self, List.take_of_length_le (le_of_eq hde), List.take_of_length_le]
    rw [overwrite_length hk hde, Nat.add_one_mul]

/-! ## The map -/

/-- An entry in use, with its name and its inode number. -/
def InUseAt (data : List Byte) (k : Nat) (name : Str) (i : Inum) : Prop :=
  k < entryCount data ∧ entryInum (entryAt data k) = i ∧ i ≠ 0 ∧ entryName (entryAt data k) = name

/-- The directory holds the map: whole entries, no name twice, and the entries in use are the
bindings. -/
structure HoldsMap (data : List Byte) (m : Str → Option Inum) : Prop where
  whole : data.length % DIRENT = 0
  unique : ∀ j k name i i', InUseAt data j name i → InUseAt data k name i' → j = k
  binding : ∀ name i, m name = some i ↔ ∃ k, InUseAt data k name i

theorem named_iff {k : Nat} (hk : k < entryCount data) :
    named name (entryAt data k) = true ↔ ∃ i, InUseAt data k name i := by
  simp only [named, Bool.and_eq_true, decide_eq_true_eq, InUseAt]
  constructor
  · rintro ⟨hi, hname⟩
    exact ⟨_, hk, rfl, hi, hname⟩
  · rintro ⟨i, -, rfl, hi, hname⟩
    exact ⟨hi, hname⟩

theorem HoldsMap.scan {x : Node} {m : Str → Option Inum} (h : HoldsMap x.data m) (name : Str) :
    (m name = none ∧ x.scan (named name) = some none) ∨
      ∃ k i, m name = some i ∧ InUseAt x.data k name i ∧
        x.scan (named name) = some (some (k * DIRENT, i)) := by
  rcases scan_spec (named name) h.whole with ⟨k, hk, hyes, -, hscan⟩ | ⟨hno, hscan⟩
  · obtain ⟨i, hused⟩ := (named_iff hk).mp hyes
    refine .inr ⟨k, i, (h.binding name i).mpr ⟨k, hused⟩, hused, ?_⟩
    rw [hscan, hused.2.1]
  · refine .inl ⟨?_, hscan⟩
    cases hm : m name with
    | none => rfl
    | some i =>
      obtain ⟨k, hused⟩ := (h.binding name i).mp hm
      have hyes := (named_iff hused.1).mpr ⟨i, hused⟩
      rw [hno k hused.1] at hyes
      cases hyes

theorem inUseAt_overwrite {j k : Nat} (hk : k ≤ entryCount data) (hde : de.length = DIRENT) :
    InUseAt (overwrite data (k * DIRENT) de) j name i ↔
      if j = k then entryInum de = i ∧ i ≠ 0 ∧ entryName de = name else InUseAt data j name i := by
  have hcount : j < entryCount (overwrite data (k * DIRENT) de) ↔
      j < entryCount data ∨ j = k := by
    rw [entryCount, overwrite_length hk hde]
    simp only [entryCount, DIRENT] at *
    omega
  rw [InUseAt, hcount]
  by_cases hj : j = k
  · subst hj
    rw [if_pos rfl, entryAt_overwrite_same hk hde]
    simp
  · rw [if_neg hj, entryAt_overwrite_ne hk hde hj, InUseAt]
    simp [hj]

theorem whole_overwrite {k : Nat} (hwhole : data.length % DIRENT = 0) (hk : k ≤ entryCount data)
    (hde : de.length = DIRENT) : (overwrite data (k * DIRENT) de).length % DIRENT = 0 := by
  rw [overwrite_length hk hde]
  simp only [entryCount, DIRENT] at *
  omega

section Update

variable {m : Str → Option Inum} {k : Nat}

/-- A new entry in a free slot, or at the end, adds a binding. -/
theorem HoldsMap.link (h : HoldsMap data m) (hk : k ≤ entryCount data)
    (hfree : ∀ name i, ¬InUseAt data k name i) (hnone : m name = none) (hname : IsName name)
    (hpos : inum ≠ 0) (hlt : inum < 65536) :
    HoldsMap (overwrite data (k * DIRENT) (dirent name inum))
      (update m name (some inum)) := by
  have hde := dirent_length name inum
  have hnew : ∀ {j nm i}, InUseAt (overwrite data (k * DIRENT) (dirent name inum)) j nm i ↔
      if j = k then i = inum ∧ nm = name else InUseAt data j nm i := by
    intro j nm i
    rw [inUseAt_overwrite hk hde, entry_inum_dirent hlt, entry_name_dirent hname]
    by_cases hj : j = k
    · rw [if_pos hj, if_pos hj]
      constructor
      · rintro ⟨rfl, -, rfl⟩
        exact ⟨rfl, rfl⟩
      · rintro ⟨rfl, rfl⟩
        exact ⟨rfl, hpos, rfl⟩
    · rw [if_neg hj, if_neg hj]
  have hold : ∀ {j i}, ¬InUseAt data j name i := fun {j i} hused => by
    rw [(h.binding name i).mpr ⟨j, hused⟩] at hnone
    cases hnone
  refine ⟨whole_overwrite h.whole hk hde, fun j j' nm i i' hj hj' => ?_, fun nm i => ?_⟩
  · rw [hnew] at hj hj'
    by_cases hjk : j = k
    · by_cases hjk' : j' = k
      · rw [hjk, hjk']
      · rw [if_pos hjk] at hj
        rw [if_neg hjk', hj.2] at hj'
        exact absurd hj' hold
    · rw [if_neg hjk] at hj
      by_cases hjk' : j' = k
      · rw [if_pos hjk'] at hj'
        rw [hj'.2] at hj
        exact absurd hj hold
      · rw [if_neg hjk'] at hj'
        exact h.unique j j' nm i i' hj hj'
  · by_cases hnm : nm = name
    · subst hnm
      rw [update_self, Option.some_inj]
      constructor
      · rintro rfl
        exact ⟨k, hnew.mpr (by rw [if_pos rfl]; exact ⟨rfl, rfl⟩)⟩
      · rintro ⟨j, hj⟩
        rw [hnew] at hj
        by_cases hjk : j = k
        · rw [if_pos hjk] at hj
          exact hj.1.symm
        · rw [if_neg hjk] at hj
          exact absurd hj hold
    · rw [update_of_ne hnm, h.binding]
      refine exists_congr fun j => ?_
      rw [hnew]
      by_cases hjk : j = k
      · rw [if_pos hjk, hjk]
        exact iff_of_false (hfree nm i) fun hboth => hnm hboth.2
      · rw [if_neg hjk]

theorem HoldsMap.unlink (h : HoldsMap data m) (hused : InUseAt data k name i) :
    HoldsMap (overwrite data (k * DIRENT) (List.replicate DIRENT 0))
      (update m name none) := by
  have hk : k ≤ entryCount data := hused.1.le
  have hde : (List.replicate DIRENT (0 : Byte)).length = DIRENT := List.length_replicate
  have hnew : ∀ {j nm i}, InUseAt (overwrite data (k * DIRENT) (List.replicate DIRENT 0)) j nm i ↔
      j ≠ k ∧ InUseAt data j nm i := by
    intro j nm i
    rw [inUseAt_overwrite hk hde]
    by_cases hj : j = k
    · rw [if_pos hj]
      refine iff_of_false ?_ fun hboth => hboth.1 hj
      rintro ⟨hzero, hne, -⟩
      exact hne hzero.symm
    · rw [if_neg hj]
      exact ⟨fun hin => ⟨hj, hin⟩, fun hboth => hboth.2⟩
  refine ⟨whole_overwrite h.whole hk hde, fun j j' nm i i' hj hj' => ?_, fun nm i' => ?_⟩
  · exact h.unique j j' nm i i' (hnew.mp hj).2 (hnew.mp hj').2
  · by_cases hnm : nm = name
    · subst hnm
      rw [update_self]
      refine iff_of_false (by simp) ?_
      rintro ⟨j, hj⟩
      exact (hnew.mp hj).1 (h.unique j k nm i' i (hnew.mp hj).2 hused)
    · rw [update_of_ne hnm, h.binding]
      refine exists_congr fun j => ?_
      rw [hnew]
      refine ⟨fun hin => ⟨?_, hin⟩, fun hboth => hboth.2⟩
      rintro rfl
      exact hnm (hin.2.2.2.symm.trans hused.2.2.2)

end Update

/-! ## The operations -/

/-- The inode table is full. -/
def tableFull (f : Fault) : Prop := f = .panic "iget: no inodes"

/-- `iget` has returned: a reference more, to an inode that is read from disk if it is the only
one. -/
structure Fetched (s : State) (i : Inum) (s' : State) : Prop where
  node : s'.node = s.node
  ref : s'.ref = update s.ref i (s.ref i + 1)
  fresh : s'.ref i = 1 → s'.valid i = false

theorem wp_iget_fetched (i : Inum) : wp (iget i) tableFull (fun _ s' => Fetched s i s') s := by
  simp only [iget, wp_bind, wp_get]
  refine (wp_ite ..).mpr ⟨fun hpos => ⟨rfl, rfl, fun hone => ?_⟩, fun hzero => ?_⟩
  · have hmore : s.ref i + 1 = 1 := by simpa using hone
    omega
  · refine (wp_ite ..).mpr ⟨fun _ => rfl, fun _ => ⟨rfl, ?_, fun _ => update_self _ _ _⟩⟩
    have hnone : s.ref i = 0 := by omega
    show update s.ref i 1 = _
    rw [hnone]

theorem wp_iput_fetched (h : Fetched s i s') :
    wp (iput i) E (fun _ s'' => s''.node = s.node ∧ s''.ref = s.ref) s' := by
  have hkeep : ¬(s'.ref i = 1 ∧ s'.valid i = true ∧ (s'.node i).nlink = 0) := by
    rintro ⟨hone, hvalid, -⟩
    rw [h.fresh hone] at hvalid
    cases hvalid
  simp only [iput, dropRef, wp_bind, wp_get, if_neg hkeep, wp_modify]
  refine ⟨h.node, ?_⟩
  rw [h.ref, update_self, update_idem, Nat.add_sub_cancel,
    update_eq_self]

section Operations

variable {m : Str → Option Inum} (h : HoldsMap (s.node dp).data m) (hdir : (s.node dp).kind = .dir)

include h hdir

theorem wp_dirlookup_map (name : Str) {Q : Option (Inum × Nat) → State → Prop}
    (hnone : m name = none → Q none s)
    (hsome : ∀ k i s', m name = some i → InUseAt (s.node dp).data k name i → Fetched s i s' →
      Q (some (i, k * DIRENT)) s') : wp (dirlookup dp name) tableFull Q s := by
  simp only [dirlookup, wp_bind, wp_get, if_neg (not_not.mpr hdir)]
  rcases h.scan name with ⟨hm, hscan⟩ | ⟨k, i, hm, hused, hscan⟩
  · rw [hscan]
    exact hnone hm
  · rw [hscan]
    refine (wp_bind ..).mpr (wp_mono (wp_iget_fetched i) fun _ s' hs' => ?_)
    exact hsome k i s' hm hused hs'

/-- `dirlink` adds a binding for a name that has none, or changes nothing. -/
theorem wp_dirlink_map (hname : IsName name) (hpos : inum ≠ 0) (hlt : inum < 65536)
    {Q : Bool → State → Prop}
    (hpresent : ∀ s', m name ≠ none → s'.node = s.node → s'.ref = s.ref → Q false s')
    (hfail : ∀ s', m name = none → s'.node dp = s.node dp → Q false s')
    (hdone : ∀ s', m name = none → (s'.node dp).kind = .dir →
      HoldsMap (s'.node dp).data (update m name (some inum)) → Q true s') :
    wp (dirlink dp name inum) tableFull Q s := by
  rw [dirlink, wp_bind]
  refine wp_dirlookup_map h hdir name (fun hnone => ?_) fun k i s' hm hused hs' => ?_
  · -- the slot that is written is free, or it is a new one at the end
    obtain ⟨k, hk, hfree, hslot⟩ : ∃ k, k ≤ entryCount (s.node dp).data ∧
        (∀ name i, ¬InUseAt (s.node dp).data k name i) ∧
        ∃ slot, (s.node dp).scan (fun de => decide (entryInum de = 0)) = some slot ∧
          (slot.map Prod.fst).getD (s.node dp).data.length = k * DIRENT := by
      rcases scan_spec (fun de => decide (entryInum de = 0)) h.whole with
        ⟨k, hk, hyes, -, hscan⟩ | ⟨-, hscan⟩
      · refine ⟨k, hk.le, ?_, _, hscan, rfl⟩
        rintro name i ⟨-, rfl, hne, -⟩
        exact hne (of_decide_eq_true hyes)
      · exact ⟨entryCount (s.node dp).data, le_rfl,
          fun name i hused => absurd hused.1 (by omega), _, hscan, (entries_of_whole h.whole).1⟩
    obtain ⟨slot, hscan, hoff⟩ := hslot
    simp only [wp_bind, wp_get, hscan, hoff]
    refine wp_writei_entry hk (dirent_length name inum) (fun r s' hr hsame _ => ?_)
      fun s' hnode _ => ?_
    · rw [wp_pure, decide_eq_false hr]
      exact hfail s' hnone hsame
    · refine hdone s' hnone (by rw [hnode]; exact hdir) ?_
      rw [hnode]
      exact h.link hk hfree hnone hname hpos hlt
  · refine (wp_bind ..).mpr (wp_mono (wp_iput_fetched hs') fun _ s'' hs'' => ?_)
    exact hpresent s'' (by rw [hm]; simp) hs''.1 hs''.2

end Operations

/-! ## Runs -/

/-- A state, with the map that the directory should hold. -/
structure DirState where
  sys : State
  map : Str → Option Inum

/-- What can happen to a directory. Names are path elements of any length. -/
inductive DirEvent where
  | dirlookup (elem : Str)
  | dirlink (elem : Str) (inum : Inum)
  | unlink (elem : Str)
  | rest (s : State)

/-- Code of the file system. -/
def onFiles {α : Type} (code : Code α) : Kernel DirState α :=
  onPart (·.sys) (fun sys w => { w with sys }) code

/-- A name gets an inode number, or none. -/
def setName (name : Str) (o : Option Inum) : Kernel DirState Unit :=
  modify fun w => { w with map := update w.map name o }

/-- One event on the directory `dp`; `unlink` is the part of `sys_unlink` that clears the entry. -/
def DirEvent.perform (dp : Inum) : DirEvent → Kernel DirState Unit
  | .dirlookup elem => discard <| onFiles (Files.dirlookup dp (elem.take DIRSIZ))
  | .dirlink elem inum => do
    if ← onFiles (Files.dirlink dp (elem.take DIRSIZ) inum) then
      setName (elem.take DIRSIZ) (some inum)
  | .unlink elem => do
    match ← onFiles (Files.dirlookup dp (elem.take DIRSIZ)) with
    | none => pure ()
    | some (_, off) =>
      if (← onFiles (writei dp false (List.replicate DIRENT 0) off)) ≠ DIRENT then
        kpanic "unlink: writei"
      else setName (elem.take DIRSIZ) none
  | .rest s => modify fun w => { w with sys := s }

/-- A path element is not empty. -/
def IsElem (elem : Str) : Prop := elem ≠ [] ∧ 0 ∉ elem

/-- Elements are strings, inode numbers fit an entry, and the rest of the kernel leaves the
directory alone. -/
def DirEvent.Admitted (dp : Inum) (w : DirState) : DirEvent → Prop
  | .dirlookup elem => IsElem elem
  | .dirlink elem inum => IsElem elem ∧ 1 ≤ inum ∧ inum ≤ 65535
  | .unlink elem => IsElem elem
  | .rest s => s.node dp = w.sys.node dp

/-- The directory holds the map. -/
def DirState.Holds (dp : Inum) (w : DirState) : Prop :=
  (w.sys.node dp).kind = .dir ∧ HoldsMap (w.sys.node dp).data w.map

/-- A new directory, with nothing in it. -/
def DirState.New (dp : Inum) (w : DirState) : Prop :=
  (w.sys.node dp).kind = .dir ∧ (w.sys.node dp).data = [] ∧ ∀ name, w.map name = none

theorem IsElem.isName {elem : Str} (h : IsElem elem) : IsName (elem.take DIRSIZ) where
  nonempty hnil := by
    rcases List.take_eq_nil_iff.mp hnil with hzero | hempty
    · exact absurd hzero (by decide)
    · exact h.1 hempty
  short := List.length_take_le _ _
  nul hin := h.2 (List.mem_of_mem_take hin)

theorem DirState.New.holds {w : DirState} (h : w.New dp) : w.Holds dp := by
  refine ⟨h.1, ?_, ?_, ?_⟩
  · rw [h.2.1]
    rfl
  · rintro j k name i i' ⟨hlt, -⟩
    rw [h.2.1] at hlt
    exact absurd hlt (Nat.not_lt_zero j)
  · intro name i
    rw [h.2.2 name, h.2.1]
    refine iff_of_false (by simp) ?_
    rintro ⟨k, hlt, -⟩
    exact absurd hlt (Nat.not_lt_zero k)

theorem holds_of_reached {w : DirState}
    (h : Reachable (DirState.Holds dp) (DirEvent.Admitted dp) (DirEvent.perform dp) w) :
    w.Holds dp := by
  refine h.induct (E := fun f => tableFull f ∨ f = .panic "unlink: writei") (DirState.Holds dp)
    (fun _ hw => hw) fun w e hw hguard => ?_
  obtain ⟨hdir, hmap⟩ := hw
  cases e with
  | dirlookup elem =>
    show wp ((fun _ => ()) <$> onFiles (dirlookup dp (elem.take DIRSIZ))) _ _ w
    rw [wp_map, onFiles, wp_onPart]
    refine wp_mono_fault (wp_dirlookup_map hmap hdir _ (fun _ => ⟨hdir, hmap⟩)
      fun k i s' _ _ hs' => ?_) fun f hf => .inl hf
    rw [DirState.Holds, hs'.node]
    exact ⟨hdir, hmap⟩
  | dirlink elem inum =>
    obtain ⟨helem, hpos, hlt⟩ := hguard
    rw [DirEvent.perform, wp_bind, onFiles, wp_onPart]
    refine wp_mono_fault (wp_dirlink_map hmap hdir helem.isName (Nat.pos_iff_ne_zero.mp hpos)
      (Nat.lt_succ_of_le hlt) (fun s' _ hnode _ => ?_) (fun s' _ hnode => ?_)
      fun s' _ hkind hnew => ?_) fun f hf => .inl hf
    · show DirState.Holds dp { w with sys := s' }
      rw [DirState.Holds, hnode]
      exact ⟨hdir, hmap⟩
    · show DirState.Holds dp { w with sys := s' }
      rw [DirState.Holds, hnode]
      exact ⟨hdir, hmap⟩
    · exact ⟨hkind, hnew⟩
  | unlink elem =>
    rw [DirEvent.perform, wp_bind, onFiles, wp_onPart]
    refine wp_mono_fault (wp_dirlookup_map hmap hdir _ (fun _ => ⟨hdir, hmap⟩)
      fun k i s' _ hused hs' => ?_) fun f hf => .inl hf
    rw [← hs'.node] at hdir hmap hused
    refine (wp_bind ..).mpr ?_
    rw [onFiles, wp_onPart]
    refine wp_writei_entry hused.1.le List.length_replicate (fun r s2 hr _ _ => ?_)
      fun s2 hnode _ => ?_
    · rw [if_pos hr]
      exact .inr rfl
    · rw [if_neg (not_not.mpr rfl)]
      show DirState.Holds dp { sys := s2, map := update w.map (elem.take DIRSIZ) none }
      rw [DirState.Holds, hnode]
      exact ⟨hdir, hmap.unlink hused⟩
  | rest s =>
    show DirState.Holds dp { w with sys := s }
    rw [DirState.Holds, show s.node dp = w.sys.node dp from hguard]
    exact ⟨hdir, hmap⟩

/-- In every state of a run the directory is a finite map. No two entries in use have equal names;
`dirlookup` returns what the name was last linked to, with the offset of its entry, or null; and
`dirlink` of a name that is there fails and changes nothing. What a step does to the map is its
change at one name, so no other name is affected. -/
theorem directory_is_map {w : DirState}
    (h : Reachable (DirState.Holds dp) (DirEvent.Admitted dp) (DirEvent.perform dp) w) :
    (∀ j k, j < entryCount (w.sys.node dp).data → k < entryCount (w.sys.node dp).data →
      entryInum (entryAt (w.sys.node dp).data j) ≠ 0 →
      entryInum (entryAt (w.sys.node dp).data k) ≠ 0 →
      namecmp ((entryAt (w.sys.node dp).data j).drop 2)
        ((entryAt (w.sys.node dp).data k).drop 2) = 0 → j = k) ∧
    (∀ elem, IsElem elem → wp (dirlookup dp (elem.take DIRSIZ)) tableFull (fun r s' =>
      s'.node = w.sys.node ∧ r.map Prod.fst = w.map (elem.take DIRSIZ) ∧
      ∀ i off, r = some (i, off) → ∃ k, off = k * DIRENT ∧
        InUseAt (w.sys.node dp).data k (elem.take DIRSIZ) i) w.sys) ∧
    (∀ elem inum, IsElem elem → 1 ≤ inum → inum ≤ 65535 →
      wp (dirlink dp (elem.take DIRSIZ) inum) tableFull (fun ok s' =>
        (w.map (elem.take DIRSIZ) ≠ none → ok = false ∧ s'.node = w.sys.node ∧
          s'.ref = w.sys.ref) ∧
        HoldsMap (s'.node dp).data (if ok then
          update w.map (elem.take DIRSIZ) (some inum) else w.map)) w.sys) := by
  obtain ⟨hdir, hmap⟩ := holds_of_reached h
  have hlength : ∀ {k}, k < entryCount (w.sys.node dp).data →
      (entryAt (w.sys.node dp).data k).length = DIRENT := by
    intro k hk
    refine entryAt_length ?_
    simp only [entryCount, DIRENT] at *
    omega
  refine ⟨fun j k hj hk hinum hinum' hname => ?_, fun elem helem => ?_,
    fun elem inum helem hpos hlt => ?_⟩
  · exact hmap.unique j k _ _ _ ⟨hj, rfl, hinum, rfl⟩
      ⟨hk, rfl, hinum', ((namecmp_entries_iff (hlength hj) (hlength hk)).mp hname).symm⟩
  · refine wp_dirlookup_map hmap hdir _ (fun hnone => ?_) fun k i s' hsome hused hs' => ?_
    · exact ⟨rfl, hnone.symm, fun i off heq => by cases heq⟩
    · refine ⟨hs'.node, hsome.symm, fun i' off heq => ?_⟩
      cases heq
      exact ⟨k, rfl, hused⟩
  · refine wp_dirlink_map hmap hdir helem.isName (Nat.pos_iff_ne_zero.mp hpos)
      (Nat.lt_succ_of_le hlt) (fun s' _ hnode href => ?_) (fun s' hnone hnode => ?_)
      fun s' hnone _ hnew => ?_
    · refine ⟨fun _ => ⟨rfl, hnode, href⟩, ?_⟩
      rw [hnode]
      exact hmap
    · refine ⟨fun hsome => absurd hnone hsome, ?_⟩
      rw [hnode]
      exact hmap
    · exact ⟨fun hsome => absurd hnone hsome, hnew⟩

/-- A new directory, inode 2. -/
def newDirectory : DirState where
  sys := atRest fun i => if i = 2 then { kind := .dir, nlink := 1 } else {}
  map := fun _ => none

theorem newDirectory_new : newDirectory.New 2 := ⟨rfl, rfl, fun _ => rfl⟩

/-- Two names are linked, `ab` and `cd`; `ab` is cleared, and `ef` gets its entry. -/
@[irreducible] def relinked : DirState :=
  lastState unguarded (DirEvent.perform 2) [.dirlink [97, 98] 3, .dirlink [99, 100] 4,
    .unlink [97, 98], .dirlink [101, 102] 5] newDirectory

/-- The entries are `ef` and `cd`; `ab` is not found, and `cd` cannot be linked again. -/
theorem directory_is_map_relinked :
    (relinked.sys.node 2).data =
      [5, 0, 101, 102] ++ List.replicate 12 0 ++ [4, 0, 99, 100] ++ List.replicate 12 0 ∧
    wp (dirlookup 2 [97, 98]) tableFull (fun r _ => r = none) relinked.sys ∧
    wp (dirlink 2 [99, 100] 6) tableFull
      (fun ok s' => ok = false ∧ s'.node = relinked.sys.node) relinked.sys := by
  have hrun : Reachable (DirState.Holds 2) (DirEvent.Admitted 2) (DirEvent.perform 2) relinked := by
    unfold relinked
    exact Reachable.after (.start newDirectory_new.holds) (by simp [DirEvent.Admitted, IsElem])
  obtain ⟨-, hlookup, hlink⟩ := directory_is_map hrun
  have hgone : relinked.map [97, 98] = none := by decide +kernel
  have hthere : relinked.map [99, 100] = some 4 := by decide +kernel
  refine ⟨by decide +kernel, ?_, ?_⟩
  · refine wp_mono (hlookup [97, 98] ⟨by decide, by decide⟩) ?_
    rintro r s' ⟨-, hr, -⟩
    exact Option.map_eq_none_iff.mp (hr.trans hgone)
  · refine wp_mono (hlink [99, 100] 6 ⟨by decide, by decide⟩ (by decide) (by decide)) ?_
    rintro ok s' ⟨hfails, -⟩
    have hsome : relinked.map ([99, 100].take DIRSIZ) ≠ none := ne_of_eq_of_ne hthere (by decide)
    exact ⟨(hfails hsome).1, (hfails hsome).2.1⟩

end Xv6.Fs.Files
