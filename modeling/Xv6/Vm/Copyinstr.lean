import Xv6.Vm.System

/-!
# Copying a string from user memory

`copyinstr` copies page by page: an inner loop over the bytes of one page, an outer loop that looks
up the next page, and the counter `max` that both of them run down. Here it is compared with the
user's view of memory, a byte or nothing at each address. The string has length `k` if byte `k` is
its first NUL; `copyinstr` finds it exactly if all its bytes are mapped and it is shorter than
`max`. A page that is not looked at, behind the NUL, makes no difference.
-/

namespace Xv6.Vm

variable {s s' : State} {r va : Nat} {E : Fault → Prop} {mem : Nat → Page} {k max n : Nat}

/-! ## The source -/

/-- The inner loop of `copyinstr`, over `n` bytes of a page from offset `o`: what it writes, and
`got_null`. -/
def copyRun (page : Page) : Nat → Nat → List Byte × Bool
  | 0, _ => ([], false)
  | n + 1, o =>
    if pageByte page o = 0 then ([0], true)
    else
      let (bytes, got) := copyRun page n (o + 1)
      (pageByte page o :: bytes, got)

/-- The outer loop of `copyinstr`: what it returns, and what it writes. A round that is not
expected does not end. -/
def copyinstrLoop (pagetable : Nat) : Nat → Nat → Nat → Code (Int × List Byte)
  | 0, _, max => if max = 0 then pure (-1, []) else fault .hang
  | rounds + 1, srcva, max =>
    if max = 0 then pure (-1, [])
    else do
      let va0 := PGROUNDDOWN srcva
      let pa0 ← walkaddr pagetable va0
      if pa0 = 0 then pure (-1, [])
      else
        let n := min (PGSIZE - (srcva - va0)) max
        let s ← get
        let (bytes, got) := copyRun (s.mem pa0) n (srcva - va0)
        if got then pure (0, bytes)
        else
          let (ret, rest) ← copyinstrLoop pagetable rounds ((va0 + PGSIZE) % 2 ^ 64) (max - n)
          pure (ret, bytes ++ rest)

/-- `copyinstr`. -/
def copyinstr (pagetable srcva max : Nat) : Code (Int × List Byte) :=
  copyinstrLoop pagetable max srcva max

/-! ## The user's view -/

/-- The leaf entry for an address, with `level` levels of the table still to go. -/
def lookupFrom (mem : Nat → Page) (va : Nat) : Nat → Nat → Option Pte
  | 0, table => some (mem table (PX 0 va))
  | level + 1, table =>
    if hasFlag (mem table (PX (level + 1) va)) PTE_V then
      lookupFrom mem va level (PTE2PA (mem table (PX (level + 1) va)))
    else none

/-- The page that an address is mapped to for the user. -/
def userPage (mem : Nat → Page) (r va : Nat) : Option Nat :=
  if va < MAXVA then
    (lookupFrom mem va 2 r).bind fun pte =>
      if hasFlag pte PTE_V && hasFlag pte PTE_U then some (PTE2PA pte) else none
  else none

/-- The byte at an address that is mapped for the user. -/
def userByte (mem : Nat → Page) (r va : Nat) : Option Byte :=
  (userPage mem r va).map fun pa => pageByte (mem pa) (va % PGSIZE)

/-- A table for user memory does not map the page at 0, which is not memory. -/
def UserTable (mem : Nat → Page) (r : Nat) : Prop := ∀ va, userPage mem r va ≠ some 0

/-- At `va` there is a string of `k` bytes, all of it mapped. -/
def IsString (mem : Nat → Page) (r va k : Nat) : Prop :=
  ∀ j ≤ k, ∃ b, userByte mem r (va + j) = some b ∧ (b = 0 ↔ j = k)

/-! ## `walkaddr` -/

theorem wp_walk_lookup {level table : Nat} {Q : Option (Nat × Nat) → State → Prop}
    (hnone : lookupFrom s.mem va level table = none → Q none s)
    (hsome : ∀ page i, lookupFrom s.mem va level table = some (s.mem page i) →
      Q (some (page, i)) s) : wp (walkFrom va false level table) E Q s := by
  induction level generalizing table with
  | zero => exact hsome table (PX 0 va) rfl
  | succ level ih =>
    simp only [walkFrom, wp_bind, wp_readWord]
    rw [lookupFrom] at hnone
    simp only [lookupFrom] at hsome
    by_cases hv : hasFlag (s.mem table (PX (level + 1) va)) PTE_V = true
    · rw [if_pos hv]
      rw [if_pos hv] at hnone
      simp only [if_pos hv] at hsome
      exact ih hnone hsome
    · rw [if_neg hv] at hnone ⊢
      exact hnone rfl

theorem wp_walkaddr_userPage {Q : Nat → State → Prop} (hQ : Q ((userPage s.mem r va).getD 0) s) :
    wp (walkaddr r va) E Q s := by
  rw [userPage] at hQ
  rw [walkaddr]
  by_cases hva : va < MAXVA
  · rw [if_pos hva] at hQ
    rw [if_neg (by omega), wp_bind, walk, if_neg (by omega)]
    refine wp_walk_lookup (fun hnone => ?_) fun page i hsome => ?_
    · rw [hnone] at hQ
      exact hQ
    · rw [hsome, Option.bind_some] at hQ
      simp only [wp_bind, wp_readWord]
      cases hv : hasFlag (s.mem page i) PTE_V with
      | false => simpa [hv] using hQ
      | true =>
        cases hu : hasFlag (s.mem page i) PTE_U with
        | false => simpa [hv, hu] using hQ
        | true => simpa [hv, hu] using hQ
  · rw [if_neg hva] at hQ
    rw [if_pos (by omega)]
    exact hQ

theorem userPage_congr {va va' : Nat} (h : va / PGSIZE = va' / PGSIZE) :
    userPage mem r va = userPage mem r va' := by
  have hpx : ∀ level, PX level va = PX level va' := by
    intro level
    have hpow : 2 ^ (PGSHIFT + 9 * level) = PGSIZE * 2 ^ (9 * level) := by
      rw [pow_add]
      rfl
    rw [PX, PX, hpow, ← Nat.div_div_eq_div_mul, ← Nat.div_div_eq_div_mul, h]
  have hlookup : ∀ level table, lookupFrom mem va level table = lookupFrom mem va' level table := by
    intro level
    induction level with
    | zero =>
      intro table
      rw [lookupFrom, lookupFrom, hpx]
    | succ level ih =>
      intro table
      rw [lookupFrom, lookupFrom, hpx, ih]
  have hmax : va < MAXVA ↔ va' < MAXVA := by
    have hpages : MAXVA = 4096 * 67108864 := by decide
    simp only [PGSIZE] at h
    omega
  simp only [userPage, hmax, hlookup]

/-! ## One page -/

/-- The inner loop stops after the first NUL, or has copied all of its bytes. -/
theorem copyRun_cases (page : Page) (n o : Nat) :
    (∃ k < n, (∀ j < k, pageByte page (o + j) ≠ 0) ∧ pageByte page (o + k) = 0 ∧
      copyRun page n o = ((List.range (k + 1)).map fun j => pageByte page (o + j), true)) ∨
    ((∀ j < n, pageByte page (o + j) ≠ 0) ∧
      copyRun page n o = ((List.range n).map fun j => pageByte page (o + j), false)) := by
  induction n generalizing o with
  | zero => exact .inr ⟨fun j hj => absurd hj (Nat.not_lt_zero j), rfl⟩
  | succ n ih =>
    by_cases hnull : pageByte page o = 0
    · refine .inl ⟨0, Nat.succ_pos n, fun j hj => absurd hj (Nat.not_lt_zero j), hnull, ?_⟩
      rw [copyRun, if_pos hnull]
      simp [hnull]
    · have hshift : ∀ m, (List.range (m + 1)).map (fun j => pageByte page (o + j)) =
          pageByte page o :: (List.range m).map fun j => pageByte page (o + 1 + j) := by
        intro m
        rw [List.range_succ_eq_map, List.map_cons, List.map_map]
        refine congrArg _ (List.map_congr_left fun j _ => ?_)
        rw [Function.comp_apply, Nat.succ_eq_add_one, Nat.add_assoc, Nat.add_comm 1 j]
      have hbytes : ∀ m, (∀ j < m, pageByte page (o + 1 + j) ≠ 0) →
          ∀ j < m + 1, pageByte page (o + j) ≠ 0 := by
        intro m hrest j hj
        cases j with
        | zero => exact hnull
        | succ j =>
          rw [show o + (j + 1) = o + 1 + j by omega]
          exact hrest j (by omega)
      rw [copyRun, if_neg hnull]
      rcases ih (o + 1) with ⟨k, hk, hbefore, hat, hrun⟩ | ⟨hall, hrun⟩
      · refine .inl ⟨k + 1, by omega, hbytes k hbefore, ?_, ?_⟩
        · rw [show o + (k + 1) = o + 1 + k by omega]
          exact hat
        · rw [hrun, hshift]
      · refine .inr ⟨hbytes n hall, ?_⟩
        rw [hrun, hshift]

/-- The bytes of a page that is mapped, as the user sees them. -/
theorem userByte_of_page {va pa j : Nat} (hpage : userPage mem r va = some pa)
    (hj : va % PGSIZE + j < PGSIZE) :
    userByte mem r (va + j) = some (pageByte (mem pa) (va % PGSIZE + j)) := by
  have hdiv : (va + j) / PGSIZE = va / PGSIZE := by
    simp only [PGSIZE] at *
    omega
  have hmod : (va + j) % PGSIZE = va % PGSIZE + j := by
    simp only [PGSIZE] at *
    omega
  rw [userByte, userPage_congr hdiv, hpage, hmod]
  rfl

/-! ## Strings -/

/-- The first `n` bytes at `va`. -/
def chars (mem : Nat → Page) (r va n : Nat) : List Byte :=
  (List.range n).map fun j => (userByte mem r (va + j)).getD 0

theorem chars_add (mem : Nat → Page) (r va m n : Nat) :
    chars mem r va (m + n) = chars mem r va m ++ chars mem r (va + m) n := by
  rw [chars, List.range_add, List.map_append, List.map_map]
  refine congrArg _ (List.map_congr_left fun j _ => ?_)
  rw [Function.comp_apply, Nat.add_assoc]

theorem IsString.unique {va k' : Nat} (h : IsString mem r va k) (h' : IsString mem r va k') :
    k = k' := by
  rcases Nat.lt_trichotomy k k' with hlt | heq | hlt
  · obtain ⟨b, hb, hnull⟩ := h k le_rfl
    obtain ⟨b', hb', hnull'⟩ := h' k (by omega)
    have hsame : b = b' := Option.some.inj (hb.symm.trans hb')
    have hzero := hnull'.mp (hsame ▸ hnull.mpr rfl)
    omega
  · exact heq
  · obtain ⟨b, hb, hnull⟩ := h' k' le_rfl
    obtain ⟨b', hb', hnull'⟩ := h k' (by omega)
    have hsame : b = b' := Option.some.inj (hb.symm.trans hb')
    have hzero := hnull'.mp (hsame ▸ hnull.mpr rfl)
    omega

theorem isString_add {va : Nat} (hplain : ∀ j < n, ∃ b, userByte mem r (va + j) = some b ∧ b ≠ 0) :
    IsString mem r va (n + k) ↔ IsString mem r (va + n) k := by
  constructor
  · intro h j hj
    obtain ⟨b, hb, hnull⟩ := h (n + j) (by omega)
    refine ⟨b, by rw [Nat.add_assoc]; exact hb, hnull.trans (by omega)⟩
  · intro h j hj
    by_cases hjn : j < n
    · obtain ⟨b, hb, hne⟩ := hplain j hjn
      exact ⟨b, hb, fun hzero => absurd hzero hne, fun heq => absurd heq (by omega)⟩
    · obtain ⟨b, hb, hnull⟩ := h (j - n) (by omega)
      rw [show va + n + (j - n) = va + j by omega] at hb
      exact ⟨b, hb, hnull.trans (by omega)⟩

theorem not_isString_of_plain {va : Nat}
    (hplain : ∀ j < n, ∃ b, userByte mem r (va + j) = some b ∧ b ≠ 0) (hk : k < n) :
    ¬IsString mem r va k := by
  intro h
  obtain ⟨b, hb, hne⟩ := hplain k hk
  obtain ⟨b', hb', hnull⟩ := h k le_rfl
  rw [hb] at hb'
  exact hne (Option.some.inj hb' ▸ hnull.mpr rfl)

/-- What `copyinstr` does: it copies the string that is there, and otherwise fails after some of
its bytes. -/
def CopiesString (mem : Nat → Page) (r va max : Nat) (out : Int × List Byte) : Prop :=
  (out.1 = 0 ∧ ∃ k < max, IsString mem r va k ∧ out.2 = chars mem r va (k + 1)) ∨
  (out.1 = -1 ∧ (∀ k < max, ¬IsString mem r va k) ∧
    ∃ n ≤ max, (∀ j < n, userByte mem r (va + j) ≠ none) ∧ out.2 = chars mem r va n)

theorem CopiesString.after {va : Nat} {out : Int × List Byte}
    (hplain : ∀ j < n, ∃ b, userByte mem r (va + j) = some b ∧ b ≠ 0) (hn : n ≤ max)
    (h : CopiesString mem r (va + n) (max - n) out) :
    CopiesString mem r va max (out.1, chars mem r va n ++ out.2) := by
  rcases h with ⟨hret, k, hk, hstring, hbytes⟩ | ⟨hret, hnone, m, hm, hmapped, hbytes⟩
  · refine .inl ⟨hret, n + k, by omega, (isString_add hplain).mpr hstring, ?_⟩
    show chars mem r va n ++ out.2 = _
    rw [hbytes, Nat.add_assoc, ← chars_add]
  · refine .inr ⟨hret, fun k hk hstring => ?_, n + m, by omega, fun j hj => ?_, ?_⟩
    · by_cases hkn : k < n
      · exact not_isString_of_plain hplain hkn hstring
      · refine hnone (k - n) (by omega) ((isString_add hplain).mp ?_)
        rwa [show n + (k - n) = k by omega]
    · by_cases hjn : j < n
      · obtain ⟨b, hb, -⟩ := hplain j hjn
        rw [hb]
        simp
      · have hrest := hmapped (j - n) (by omega)
        rwa [show va + n + (j - n) = va + j by omega] at hrest
    · show chars mem r va n ++ out.2 = _
      rw [hbytes, chars_add]

theorem copiesString_none {va : Nat} (h : max = 0 ∨ userByte mem r va = none) :
    CopiesString mem r va max (-1, []) := by
  refine .inr ⟨rfl, fun k hk hstring => ?_, 0, Nat.zero_le _, fun j hj => ?_, rfl⟩
  · rcases h with hmax | hnone
    · omega
    · obtain ⟨b, hb, -⟩ := hstring 0 (Nat.zero_le _)
      rw [Nat.add_zero, hnone] at hb
      cases hb
  · exact absurd hj (Nat.not_lt_zero j)

/-- With nothing left of `max`, the address makes no difference. -/
theorem CopiesString.of_zero {va va' : Nat} {out : Int × List Byte}
    (h : CopiesString mem r va 0 out) : CopiesString mem r va' 0 out := by
  rcases h with ⟨-, k, hk, -⟩ | ⟨hret, -, n, hn, -, hbytes⟩
  · exact absurd hk (Nat.not_lt_zero k)
  · obtain rfl : n = 0 := Nat.le_zero.mp hn
    obtain ⟨ret, bytes⟩ := out
    cases hret
    cases hbytes
    exact copiesString_none (.inl rfl)

theorem lt_of_userPage {va pa : Nat} (h : userPage mem r va = some pa) :
    va < MAXVA := by
  by_contra hva
  rw [userPage, if_neg hva] at h
  cases h

theorem wp_copyinstrLoop (htable : UserTable s.mem r) {rounds srcva : Nat}
    (hrounds : max ≤ rounds) :
    wp (copyinstrLoop r rounds srcva max) Fault.never
      (fun out s' => s' = s ∧ CopiesString s.mem r srcva max out) s := by
  induction rounds generalizing srcva max with
  | zero =>
    obtain rfl : max = 0 := by omega
    exact ⟨rfl, copiesString_none (.inl rfl)⟩
  | succ rounds ih =>
    rw [copyinstrLoop]
    by_cases hmax : max = 0
    · rw [if_pos hmax]
      exact ⟨rfl, copiesString_none (.inl hmax)⟩
    rw [if_neg hmax, wp_bind]
    refine wp_walkaddr_userPage ?_
    rw [userPage_congr (round_down_page srcva), sub_round_down]
    cases hpage : userPage s.mem r srcva with
    | none =>
      rw [Option.getD_none, if_pos rfl]
      refine ⟨rfl, copiesString_none (.inr ?_)⟩
      rw [userByte, hpage]
      rfl
    | some pa =>
      have hpa : pa ≠ 0 := fun hzero => htable srcva (hzero ▸ hpage)
      rw [Option.getD_some, if_neg hpa]
      obtain ⟨n, hn⟩ : ∃ n, n = min (PGSIZE - srcva % PGSIZE) max := ⟨_, rfl⟩
      have hmod : srcva % PGSIZE < PGSIZE := Nat.mod_lt _ (by decide)
      simp only [← hn, wp_bind, wp_get]
      have hbyte : ∀ j < n, userByte s.mem r (srcva + j) =
          some (pageByte (s.mem pa) (srcva % PGSIZE + j)) := fun j hj =>
        userByte_of_page hpage (by omega)
      have hchars : ∀ k ≤ n, (List.range k).map (fun j => pageByte (s.mem pa)
          (srcva % PGSIZE + j)) = chars s.mem r srcva k := by
        intro k hk
        refine List.map_congr_left fun j hj => ?_
        rw [hbyte j (by have := List.mem_range.mp hj; omega), Option.getD_some]
      rcases copyRun_cases (s.mem pa) n (srcva % PGSIZE) with
        ⟨k, hk, hbefore, hat, hrun⟩ | ⟨hall, hrun⟩
      · -- the string ends in this page
        simp only [hrun, if_true, wp_pure]
        refine ⟨trivial, .inl ⟨rfl, k, by omega, fun j hj => ?_, hchars (k + 1) (by omega)⟩⟩
        refine ⟨_, hbyte j (by omega), fun hzero => ?_, fun heq => heq ▸ hat⟩
        by_contra hne
        exact hbefore j (by omega) hzero
      · have hplain : ∀ j < n, ∃ b, userByte s.mem r (srcva + j) = some b ∧ b ≠ 0 :=
          fun j hj => ⟨_, hbyte j hj, hall j hj⟩
        simp only [hrun, Bool.false_eq_true, if_false, wp_bind]
        have hva := lt_of_userPage hpage
        have hmaxva : MAXVA < 2 ^ 64 - PGSIZE := by decide
        -- the next page is where the string goes on, unless nothing is left of `max`
        have hnext : max - n = 0 ∨ (PGROUNDDOWN srcva + PGSIZE) % 2 ^ 64 = srcva + n := by
          simp only [PGROUNDDOWN, PGSIZE] at *
          omega
        refine wp_mono (ih (show max - n ≤ rounds by omega)) fun out s' hout => ?_
        obtain ⟨hs', hcopies⟩ := hout
        refine ⟨hs', ?_⟩
        show CopiesString s.mem r srcva max (out.1, _ ++ out.2)
        rw [hchars n le_rfl]
        refine CopiesString.after hplain (by omega) ?_
        rcases hnext with hlast | heq
        · rw [hlast] at hcopies ⊢
          exact hcopies.of_zero
        · rwa [heq] at hcopies

/-- `copyinstr` returns for every table, address and `max`. It returns 0 exactly if there is a
string of fewer than `max` bytes that is mapped with its NUL, and then this is what it has written.
Otherwise it returns -1. It never writes more than `max` bytes. -/
theorem copyinstr_exact (htable : UserTable s.mem r) (srcva max : Nat) :
    wp (copyinstr r srcva max) Fault.never (fun out s' => s' = s ∧
      (out.1 = 0 ↔ ∃ k < max, IsString s.mem r srcva k) ∧ (out.1 ≠ 0 → out.1 = -1) ∧
      (∀ k < max, IsString s.mem r srcva k → out.2 = chars s.mem r srcva (k + 1)) ∧
      out.2.length ≤ max) s := by
  refine wp_mono (wp_copyinstrLoop htable le_rfl) fun out s' hout => ?_
  obtain ⟨hs', ⟨hret, k, hk, hstring, hbytes⟩ | ⟨hret, hnone, n, hn, -, hbytes⟩⟩ := hout
  · refine ⟨hs', ⟨fun _ => ⟨k, hk, hstring⟩, fun _ => hret⟩, fun hne => absurd hret hne,
      fun k' _ hstring' => ?_, ?_⟩
    · rw [hbytes, hstring.unique hstring']
    · rw [hbytes, chars, List.length_map, List.length_range]
      exact hk
  · refine ⟨hs', ⟨fun hzero => ?_, fun ⟨k, hk, hstring⟩ => absurd hstring (hnone k hk)⟩,
      fun _ => hret, fun k hk hstring => absurd hstring (hnone k hk), ?_⟩
    · rw [hret] at hzero
      exact absurd hzero (by decide)
    · rw [hbytes, chars, List.length_map, List.length_range]
      exact hn

/-- Three tables at 0x1000, 0x2000 and 0x3000, which map the page at 0x4000 to address 0x1000 for
reading and writing. The page begins with the bytes of `word`. -/
def onePageMemory (word : BitVec 64) (pa i : Nat) : BitVec 64 :=
  if pa = 0x1000 ∧ i = 0 then link 0x2000
  else if pa = 0x2000 ∧ i = 0 then link 0x3000
  else if pa = 0x3000 ∧ i = 1 then PA2PTE 0x4000 ||| leafFlags true false true false
  else if pa = 0x4000 ∧ i = 0 then word
  else 0

/-- A state with this memory and the string "hi". -/
def stringState : State where
  mem := onePageMemory 0x6968
  freelist := 0
  pgref _ := 0
  proc _ := {}
  held := []
  failed := 0
  granted _ _ := ⟨true, true⟩

theorem stringState_userTable : UserTable stringState.mem 0x1000 := by
  have hroot : ∀ i, onePageMemory 0x6968 0x1000 i = if i = 0 then link 0x2000 else 0 := by
    intro i
    simp [onePageMemory]
  have hinner : ∀ i, onePageMemory 0x6968 0x2000 i = if i = 0 then link 0x3000 else 0 := by
    intro i
    simp [onePageMemory]
  have hleaf : ∀ i, onePageMemory 0x6968 0x3000 i =
      if i = 1 then PA2PTE 0x4000 ||| leafFlags true false true false else 0 := by
    intro i
    simp [onePageMemory]
  have hone : PTE2PA (link 0x2000) = 0x2000 ∧ hasFlag (link 0x2000) PTE_V = true := by decide
  have htwo : PTE2PA (link 0x3000) = 0x3000 ∧ hasFlag (link 0x3000) PTE_V = true := by decide
  have hzero : hasFlag 0 PTE_V = false := by decide
  have hpage : PTE2PA (PA2PTE 0x4000 ||| leafFlags true false true false) = 0x4000 := by decide
  intro va hno
  rw [userPage, if_pos (lt_of_userPage hno)] at hno
  simp only [lookupFrom, stringState, hroot] at hno
  -- The entry is the one leaf, or a word of zeros at some level.
  by_cases h2 : PX 2 va = 0
  · simp only [Nat.zero_add, Nat.reduceAdd, h2, if_true, hone, hinner] at hno
    by_cases h1 : PX 1 va = 0
    · simp only [h1, if_true, htwo, hleaf] at hno
      by_cases h0 : PX 0 va = 1
      · simp only [h0, if_true, Option.bind_some, hpage] at hno
        revert hno
        decide
      · simp only [h0, if_false, Option.bind_some, hzero, Bool.false_and] at hno
        cases hno
    · simp only [h1, if_false, hzero] at hno
      cases hno
  · simp only [h2, if_false, hzero] at hno
    cases hno

theorem copyinstr_exact_hi :
    wp (copyinstr 0x1000 0x1000 8) Fault.never (fun out s' => s' = stringState ∧
      (out.1 = 0 ↔ ∃ k < 8, IsString stringState.mem 0x1000 0x1000 k) ∧
      (out.1 ≠ 0 → out.1 = -1) ∧
      (∀ k < 8, IsString stringState.mem 0x1000 0x1000 k →
        out.2 = chars stringState.mem 0x1000 0x1000 (k + 1)) ∧
      out.2.length ≤ 8) stringState :=
  copyinstr_exact stringState_userTable 0x1000 8

/-! ## The tables of processes -/

variable {L : Layout} {g : Ghost}

theorem lookup_of_holds (h : Holds L g s) (hr : g.IsRoot r) (hva : va < MAXVA) :
    lookupFrom s.mem va 2 r = none ∧ g.pt r (va / PGSIZE) = none ∨
      lookupFrom s.mem va 2 r = some (leafOf (g.pt r (va / PGSIZE))) := by
  have hwalk : wp (walk r va false) Fault.never (fun res s' => s' = s ∧
      res = g.entry r (va / PGSIZE)) s := wp_walk h hr hva
  obtain ⟨res, s', hrun, rfl, hres⟩ := wp_returns hwalk
  have hfound : wp (walk r va false) Fault.never (fun res _ =>
      lookupFrom s'.mem va 2 r = none ∧ res = none ∨ ∃ page i, res = some (page, i) ∧
        lookupFrom s'.mem va 2 r = some (s'.mem page i)) s' := by
    rw [walk, if_neg (by omega)]
    exact wp_walk_lookup (fun hnone => .inl ⟨hnone, rfl⟩) fun page i hsome =>
      .inr ⟨page, i, rfl, hsome⟩
  rcases wp_ok hfound hrun with ⟨hnone, hno⟩ | ⟨page, i, hpage, hsome⟩
  · rw [hres, Ghost.entry, Option.map_eq_none_iff] at hno
    exact .inl ⟨hnone, h.absent r _ hno⟩
  · rw [hsome, h.entry_word (hres.symm.trans hpage)]
    exact .inr rfl

theorem Sys.userTable (h : Sys L g s) {p : Slot} (hp : (s.proc p).state ≠ .unused) :
    UserTable s.mem (s.proc p).pagetable := by
  have hslot := h.slot p hp
  intro va hzero
  have hva := lt_of_userPage hzero
  rw [userPage, if_pos hva] at hzero
  rcases lookup_of_holds h.books.holds hslot.root hva with ⟨hnone, -⟩ | hsome
  · rw [hnone] at hzero
    cases hzero
  rw [hsome, Option.bind_some] at hzero
  cases hl : g.pt (s.proc p).pagetable (va / PGSIZE) with
  | none =>
    rw [hl] at hzero
    simp only [leafOf, has_flag_zero, Bool.false_and, Bool.false_eq_true, if_false] at hzero
    cases hzero
  | some l =>
    have haddr := h.books.holds.addr _ _ _ hl
    rw [hl] at hzero
    simp only [leafOf, encode_has_v haddr, encode_has_u haddr, encode_pa haddr, Bool.true_and]
      at hzero
    cases hu : l.u with
    | false => simp [hu] at hzero
    | true =>
      have hlow : va / PGSIZE < UPAGES := by
        by_contra hhigh
        have hsafe := (hslot.top.safe _ l (Nat.not_lt.mp hhigh) hl).1
        rw [hu] at hsafe
        exact absurd hsafe (by simp)
      have huser := h.books.counted.is_user hlow hl
      have hne := (h.books.holds.page_addr (by rw [huser]; simp)).2.2
      rw [hu, if_pos rfl] at hzero
      exact hne (Option.some.inj hzero)

end Xv6.Vm
