import Xv6.Lib.Run
import Xv6.Lib.Word

/-!
# Memory of the thread kernel

`kalloc.c` and the user side of `vm.c`. A page table is the finite map of its valid leaf entries
together with the page-table pages that `walk` has allocated for it. A `pagetable_t` is the
number of the table: numbers are never used twice, so a stale pointer to a freed table stays
stale when its page is used again. What pages hold is left out; of user pages `stores` lists what
`copyout` has put there.
-/

namespace Xv6.Thread

def PGSIZE : Nat := 4096

/-- One bit less than Sv39 allows. -/
def MAXVA : Nat := 2 ^ (9 + 9 + 9 + 12 - 1)

def TRAMPOLINE : Nat := MAXVA - PGSIZE

def TRAPFRAME : Nat := TRAMPOLINE - PGSIZE

/-- `PGROUNDUP`. -/
def pgroundup (sz : Nat) : Nat := (sz + PGSIZE - 1) / PGSIZE * PGSIZE

/-- The number of a physical page. -/
abbrev Page := Nat

/-- The page of the kernel image that holds the trampoline code. -/
def trampoline : Page := 0

/-- The permission bits of a leaf entry, `PTE_R` apart, which every leaf has. -/
structure Perm where
  w : Bool := false
  x : Bool := false
  u : Bool := false
  deriving DecidableEq, Repr

/-- A valid leaf entry. -/
structure Leaf where
  page : Page
  perm : Perm
  deriving DecidableEq, Repr

/-- A page table. `nodes` holds the entries that point to lower tables, by their level and the
bits of the address above that level; `leaves` the leaf entries, by page number. -/
structure PageTable where
  root : Page
  nodes : AList (fun _ : Nat × Nat => Page)
  leaves : AList (fun _ : Nat => Leaf)

/-- A `pagetable_t`. -/
abbrev TableId := Nat

/-- Bytes that `copyout` has put in a user page, from an offset on. -/
structure Store where
  page : Page
  offset : Nat
  bytes : List Byte
  deriving DecidableEq, Repr

/-- The free list, the page tables in use and the bytes stored for the user, newest first. -/
structure Mem where
  free : List Page
  tables : TableId → Option PageTable
  nextTable : TableId
  stores : List Store := []

/-- Code over memory. -/
abbrev MemCode (α : Type) := Kernel Mem α

/-- `kalloc`. -/
def kalloc : MemCode (Option Page) := do
  let m ← get
  match m.free with
  | [] => pure none
  | page :: rest => do
    set { m with free := rest }
    pure (some page)

/-- `kfree` of an allocated page. -/
def kfree (page : Page) : MemCode Unit :=
  modify fun m => { m with free := page :: m.free }

/-- Follow a `pagetable_t`. -/
def table (t : TableId) : MemCode PageTable := do
  let m ← get
  match m.tables t with
  | some pt => pure pt
  | none => fault .wild

/-- Write to the pages of a table. -/
def setTable (t : TableId) (pt : PageTable) : MemCode Unit :=
  modify fun m => { m with tables := Function.update m.tables t (some pt) }

/-- Where the entry for `va` at a level above 0 is kept. -/
def nodeKey (level va : Nat) : Nat × Nat := (level, va / 2 ^ (12 + 9 * level))

/-- One iteration of the loop of `walk`: is there a lower table for `va`, after an allocation
where one is asked for? -/
def walkLevel (t : TableId) (va : Nat) (alloc : Bool) (level : Nat) : MemCode Bool := do
  let pt ← table t
  match pt.nodes.lookup (nodeKey level va) with
  | some _ => pure true
  | none =>
    if alloc then do
      match ← kalloc with
      | none => pure false
      | some page => do
        setTable t { pt with nodes := pt.nodes.insert (nodeKey level va) page }
        pure true
    else pure false

/-- `walk`: whether there is a level-0 entry for `va`. -/
def walk (t : TableId) (va : Nat) (alloc : Bool) : MemCode Bool :=
  if MAXVA ≤ va then kpanic "walk"
  else do
    if ← walkLevel t va alloc 2 then walkLevel t va alloc 1 else pure false

/-- Read the level-0 entry for `va`; `none` when `PTE_V` is not set. -/
def readLeaf (t : TableId) (va : Nat) : MemCode (Option Leaf) := do
  let pt ← table t
  pure (pt.leaves.lookup (va / PGSIZE))

/-- Write a valid level-0 entry for `va`. -/
def writeLeaf (t : TableId) (va : Nat) (leaf : Leaf) : MemCode Unit := do
  let pt ← table t
  setTable t { pt with leaves := pt.leaves.insert (va / PGSIZE) leaf }

/-- Write 0 to the level-0 entry for `va`. -/
def clearLeaf (t : TableId) (va : Nat) : MemCode Unit := do
  let pt ← table t
  setTable t { pt with leaves := pt.leaves.erase (va / PGSIZE) }

/-- `walkaddr`. -/
def walkaddr (t : TableId) (va : Nat) : MemCode (Option Page) :=
  if MAXVA ≤ va then pure none
  else do
    if ← walk t va false then
      match ← readLeaf t va with
      | none => pure none
      | some leaf => pure (if leaf.perm.u then some leaf.page else none)
    else pure none

/-- The loop of `mappages`, with `n` pages left. -/
def mapFrom (t : TableId) (perm : Perm) : Nat → Nat → Page → MemCode Bool
  | 0, _, _ => pure true
  | n + 1, a, pa => do
    if ← walk t a true then
      match ← readLeaf t a with
      | some _ => kpanic "mappages: remap"
      | none => do
        writeLeaf t a { page := pa, perm := perm }
        mapFrom t perm n (a + PGSIZE) (pa + 1)
    else pure false

/-- `mappages`. -/
def mappages (t : TableId) (va size : Nat) (pa : Page) (perm : Perm) : MemCode Bool :=
  if va % PGSIZE ≠ 0 then kpanic "mappages: va not aligned"
  else if size % PGSIZE ≠ 0 then kpanic "mappages: size not aligned"
  else if size = 0 then kpanic "mappages: size"
  else mapFrom t perm (size / PGSIZE) va pa

/-- The loop body of `uvmunmap`. -/
def unmapPage (t : TableId) (doFree : Bool) (a : Nat) : MemCode Unit := do
  if ← walk t a false then
    match ← readLeaf t a with
    | none => kpanic "uvmunmap: not mapped"
    | some leaf => do
      if doFree then kfree leaf.page
      clearLeaf t a
  else kpanic "uvmunmap: walk"

/-- `uvmunmap`. -/
def uvmunmap (t : TableId) (va npages : Nat) (doFree : Bool) : MemCode Unit :=
  if va % PGSIZE ≠ 0 then kpanic "uvmunmap: not aligned"
  else loop npages fun i => unmapPage t doFree (va + i * PGSIZE)

/-- `uvmcreate`. -/
def uvmcreate : MemCode (Option TableId) := do
  match ← kalloc with
  | none => pure none
  | some page => do
    let m ← get
    set { m with
      tables := Function.update m.tables m.nextTable (some ⟨page, ∅, ∅⟩)
      nextTable := m.nextTable + 1 }
    pure (some m.nextTable)

/-- `uvmfirst`. The result of `mappages` is not looked at. -/
def uvmfirst (t : TableId) : MemCode Unit := do
  match ← kalloc with
  | none => fault .wild
  | some page => do
    let _ ← mappages t 0 PGSIZE page { w := true, x := true, u := true }

/-- `uvmdealloc`. -/
def uvmdealloc (t : TableId) (oldsz newsz : Nat) : MemCode Nat :=
  if oldsz ≤ newsz then pure oldsz
  else do
    if pgroundup newsz < pgroundup oldsz then
      uvmunmap t (pgroundup newsz) ((pgroundup oldsz - pgroundup newsz) / PGSIZE) true
    pure newsz

/-- The loop of `uvmalloc`, at address `a` with `n` pages left. -/
def allocFrom (t : TableId) (oldsz : Nat) (xperm : Perm) : Nat → Nat → MemCode Bool
  | 0, _ => pure true
  | n + 1, a => do
    match ← kalloc with
    | none => do
      let _ ← uvmdealloc t a oldsz
      pure false
    | some page => do
      if ← mappages t a PGSIZE page { xperm with u := true } then
        allocFrom t oldsz xperm n (a + PGSIZE)
      else
        kfree page
        let _ ← uvmdealloc t a oldsz
        pure false

/-- `uvmalloc`: the new size, or 0. -/
def uvmalloc (t : TableId) (oldsz newsz : Nat) (xperm : Perm) : MemCode Nat :=
  if newsz < oldsz then pure oldsz
  else do
    let start := pgroundup oldsz
    if ← allocFrom t start xperm ((newsz - start + PGSIZE - 1) / PGSIZE) start then pure newsz
    else pure 0

/-- `kfree` of every page of a list. -/
def freeAll : List Page → MemCode Unit
  | [] => pure ()
  | page :: rest => do
    kfree page
    freeAll rest

/-- `freewalk` of a whole table. -/
def freewalk (t : TableId) : MemCode Unit := do
  let pt ← table t
  if pt.leaves.entries ≠ [] then kpanic "freewalk: leaf"
  else
    freeAll (pt.nodes.entries.map fun e => e.2)
    kfree pt.root
    modify fun m => { m with tables := Function.update m.tables t none }

/-- `uvmfree`. -/
def uvmfree (t : TableId) (sz : Nat) : MemCode Unit := do
  if 0 < sz then uvmunmap t 0 (pgroundup sz / PGSIZE) true
  freewalk t

/-- The loop of `uvmcopy`, at address `i` with `n` pages left. -/
def copyFrom (old new : TableId) : Nat → Nat → MemCode Bool
  | 0, _ => pure true
  | n + 1, i => do
    if ← walk old i false then
      match ← readLeaf old i with
      | none => kpanic "uvmcopy: page not present"
      | some leaf => do
        match ← kalloc with
        | none => do
          uvmunmap new 0 (i / PGSIZE) true
          pure false
        | some page => do
          if ← mappages new i PGSIZE page leaf.perm then copyFrom old new n (i + PGSIZE)
          else
            kfree page
            uvmunmap new 0 (i / PGSIZE) true
            pure false
    else kpanic "uvmcopy: pte should exist"

/-- `uvmcopy`. -/
def uvmcopy (old new : TableId) (sz : Nat) : MemCode Bool :=
  copyFrom old new (pgroundup sz / PGSIZE) 0

/-- `uvmclear`. -/
def uvmclear (t : TableId) (va : Nat) : MemCode Unit := do
  if ← walk t va false then
    match ← readLeaf t va with
    | none => pure ()
    | some leaf => writeLeaf t va { leaf with perm := { leaf.perm with u := false } }
  else kpanic "uvmclear"

/-- The `memmove` of `copyout` to a user page. -/
def store (page : Page) (offset : Nat) (bytes : List Byte) : MemCode Unit :=
  modify fun m => { m with stores := ⟨page, offset, bytes⟩ :: m.stores }

/-- The loop of `copyout` over `n` pages, with `src` to go to an offset of page `v` and on. -/
def copyoutFrom (t : TableId) : Nat → Nat → Nat → List Byte → MemCode Bool
  | 0, _, _, _ => pure true
  | n + 1, v, offset, src =>
    if MAXVA ≤ v * PGSIZE then pure false
    else do
      if ← walk t (v * PGSIZE) false then
        match ← readLeaf t (v * PGSIZE) with
        | none => pure false
        | some leaf =>
          if leaf.perm.u && leaf.perm.w then do
            store leaf.page offset (src.take (PGSIZE - offset))
            copyoutFrom t n (v + 1) 0 (src.drop (PGSIZE - offset))
          else pure false
      else pure false

/-- `copyout` of `src` to address `dstva`: whether it could write all pages. -/
def copyout (t : TableId) (dstva : Nat) (src : List Byte) : MemCode Bool :=
  if src = [] then pure true
  else copyoutFrom t ((dstva + src.length - 1) / PGSIZE + 1 - dstva / PGSIZE) (dstva / PGSIZE)
    (dstva % PGSIZE) src

/-- The bytes that `copyout` has stored between two states, in order. -/
def Mem.stored (m m' : Mem) : List Byte :=
  (m'.stores.take (m'.stores.length - m.stores.length)).reverse.flatMap Store.bytes

/-! ## What the operations do to the leaves -/

variable {m m' m'' : Mem} {t : TableId} {va : Nat} {E : Fault → Prop}

namespace Mem

/-- Table `t` is in use. -/
def Live (m : Mem) (t : TableId) : Prop := (m.tables t).isSome

/-- The leaf of table `t` for page `v`. -/
def leaf (m : Mem) (t : TableId) (v : Nat) : Option Leaf :=
  (m.tables t).bind fun pt => pt.leaves.lookup v

/-- Table `t` has a lower table at `k`. -/
def Node (m : Mem) (t : TableId) (k : Nat × Nat) : Prop := ∃ pt ∈ m.tables t, k ∈ pt.nodes

end Mem

/-- The leaf of table `t` for page `v` has become `l`; all other leaves are as before. -/
structure Wrote (t : TableId) (v : Nat) (l : Option Leaf) (m m' : Mem) : Prop where
  live : ∀ t', m'.Live t' ↔ m.Live t'
  next : m'.nextTable = m.nextTable
  leaf : ∀ t' v', m'.leaf t' v' = if t' = t ∧ v' = v then l else m.leaf t' v'

/-- The same tables with the same leaves. -/
structure SameLeaves (m m' : Mem) : Prop where
  live : ∀ t, m'.Live t ↔ m.Live t
  next : m'.nextTable = m.nextTable
  leaf : ∀ t v, m'.leaf t v = m.leaf t v

theorem SameLeaves.wrote {v : Nat} {l : Option Leaf} (h : SameLeaves m m')
    (h' : Wrote t v l m' m'') : Wrote t v l m m'' where
  live t' := (h'.live t').trans (h.live t')
  next := h'.next.trans h.next
  leaf t' v' := by rw [h'.leaf, h.leaf]

theorem same_leaves_free (free : List Page) : SameLeaves m { m with free := free } :=
  ⟨fun _ => Iff.rfl, rfl, fun _ _ => rfl⟩

theorem wrote_set {pt : PageTable} {v : Nat} {l : Option Leaf} (ht : m.tables t = some pt)
    {leaves : AList fun _ : Nat => Leaf}
    (hleaves : ∀ v', leaves.lookup v' = if v' = v then l else pt.leaves.lookup v') :
    Wrote t v l m
      { m with tables := Function.update m.tables t (some { pt with leaves := leaves }) } where
  live t' := by
    by_cases h : t' = t
    · subst h
      simp [Mem.Live, ht]
    · simp [Mem.Live, h]
  next := rfl
  leaf t' v' := by
    by_cases h : t' = t
    · subst h
      simp [Mem.leaf, ht, hleaves]
    · simp [Mem.leaf, h]

theorem wp_table {Q : PageTable → Mem → Prop} (hlive : m.Live t)
    (h : ∀ pt, m.tables t = some pt → Q pt m) : wp (table t) E Q m := by
  obtain ⟨pt, hpt⟩ := Option.isSome_iff_exists.mp hlive
  simp only [table, wp_bind, wp_get, hpt, wp_pure]
  exact h pt hpt

theorem wp_read_leaf {Q : Option Leaf → Mem → Prop} (hlive : m.Live t)
    (h : Q (m.leaf t (va / PGSIZE)) m) : wp (readLeaf t va) E Q m := by
  unfold readLeaf
  rw [wp_bind]
  refine wp_table hlive fun pt hpt => ?_
  simpa [Mem.leaf, hpt] using h

/-- No page has been allocated or freed: the free list and the lower tables are as before. -/
structure SamePages (t : TableId) (m m' : Mem) : Prop where
  free : m'.free = m.free
  nodes : ∀ key, m'.Node t key ↔ m.Node t key

theorem wp_clear_leaf (hlive : m.Live t) :
    wp (clearLeaf t va) E (fun _ m' => Wrote t (va / PGSIZE) none m m' ∧ SamePages t m m') m := by
  unfold clearLeaf
  rw [wp_bind]
  refine wp_table hlive fun pt hpt => ⟨wrote_set hpt fun v' => ?_, rfl, ?_⟩
  · split
    next h => rw [h, AList.lookup_erase]
    next h => exact AList.lookup_erase_ne h
  · simp [Mem.Node, hpt]

theorem wp_walk_read (hlive : m.Live t) (hpanic : MAXVA ≤ va → E (.panic "walk"))
    {Q : Bool → Mem → Prop} (h : ∀ found, Q found m) : wp (walk t va false) E Q m := by
  have hlevel : ∀ {Q : Bool → Mem → Prop} level, (∀ found, Q found m) →
      wp (walkLevel t va false level) E Q m := by
    intro Q level hQ
    unfold walkLevel
    rw [wp_bind]
    refine wp_table hlive fun pt _ => ?_
    cases pt.nodes.lookup (nodeKey level va) with
    | some page => exact hQ true
    | none => exact hQ false
  unfold walk
  split
  next hva => exact hpanic hva
  next =>
    rw [wp_bind]
    refine hlevel 2 fun found => ?_
    cases found with
    | false => exact h false
    | true => exact hlevel 1 h

theorem wp_walk_found (hlive : m.Live t) (hva : va < MAXVA)
    (hnodes : ∀ key ∈ [nodeKey 2 va, nodeKey 1 va], m.Node t key) {Q : Bool → Mem → Prop}
    (h : Q true m) : wp (walk t va false) E Q m := by
  have hlevel : ∀ {Q : Bool → Mem → Prop} level, m.Node t (nodeKey level va) → Q true m →
      wp (walkLevel t va false level) E Q m := by
    intro Q level hnode hQ
    unfold walkLevel
    rw [wp_bind]
    refine wp_table hlive fun pt hpt => ?_
    have hmem : nodeKey level va ∈ pt.nodes := by simpa [Mem.Node, hpt] using hnode
    obtain ⟨page, hpage⟩ := Option.isSome_iff_exists.mp (AList.lookup_isSome.mpr hmem)
    rw [hpage]
    exact hQ
  unfold walk
  rw [if_neg (by omega), wp_bind]
  exact hlevel 2 (hnodes _ (by simp)) (hlevel 1 (hnodes _ (by simp)) h)

/-- The panics of `uvmunmap` for one page. -/
def unmapPanics : Fault → Prop :=
  panics ["walk", "uvmunmap: walk", "uvmunmap: not mapped", "uvmunmap: not aligned"]

theorem wp_unmap_page {doFree : Bool} (hlive : m.Live t) :
    wp (unmapPage t doFree va) unmapPanics
      (fun _ m' => Wrote t (va / PGSIZE) none m m') m := by
  simp only [unmapPage, wp_bind]
  refine wp_walk_read hlive (fun _ => panics_of_mem (by simp)) fun found => ?_
  cases found with
  | false => exact panics_of_mem (by simp)
  | true =>
    simp only [if_true, wp_bind]
    refine wp_read_leaf hlive ?_
    cases m.leaf t (va / PGSIZE) with
    | none => exact panics_of_mem (by simp)
    | some l =>
      cases doFree with
      | false => exact wp_mono (wp_clear_leaf hlive) fun _ _ h => h.1
      | true =>
        have hsame := same_leaves_free (m := m) (l.page :: m.free)
        show wp (clearLeaf t va) _ _ { m with free := l.page :: m.free }
        exact wp_mono (wp_clear_leaf hlive) fun _ _ h => hsame.wrote h.1

theorem wp_uvmunmap_one {doFree : Bool} (hlive : m.Live t) :
    wp (uvmunmap t va 1 doFree) unmapPanics
      (fun _ m' => Wrote t (va / PGSIZE) none m m') m := by
  simp only [uvmunmap, wp_ite, wp_kpanic, loop, loopFrom, wp_bind, wp_pure, Nat.zero_mul,
    Nat.add_zero]
  exact ⟨fun _ => panics_of_mem (by simp), fun _ => wp_unmap_page hlive⟩

/-! ## When `uvmunmap` of one page returns -/

/-- `uvmunmap` of the page at `va` finds what it needs. -/
structure Unmappable (m : Mem) (t : TableId) (va : Nat) : Prop where
  aligned : va % PGSIZE = 0
  below : va < MAXVA
  nodes : ∀ key ∈ [nodeKey 2 va, nodeKey 1 va], m.Node t key
  leaf : m.leaf t (va / PGSIZE) ≠ none

/-- Memory without the leaf of table `t` for page `v`. -/
def Mem.unmap (m : Mem) (t : TableId) (v : Nat) : Mem :=
  { m with
    tables := Function.update m.tables t
      ((m.tables t).map fun pt => { pt with leaves := pt.leaves.erase v }) }

theorem Unmappable.live (h : Unmappable m t va) : m.Live t := by
  have hleaf := h.leaf
  unfold Mem.leaf at hleaf
  unfold Mem.Live
  cases htable : m.tables t with
  | none => simp [htable] at hleaf
  | some pt => rfl

theorem leaf_unmap (m : Mem) (t : TableId) (v : Nat) (t' : TableId) (v' : Nat) :
    (m.unmap t v).leaf t' v' = if t' = t ∧ v' = v then none else m.leaf t' v' := by
  by_cases ht : t' = t
  · subst ht
    cases htable : m.tables t' with
    | none => simp [Mem.leaf, Mem.unmap, htable]
    | some pt =>
      by_cases hv : v' = v
      · subst hv
        simp [Mem.leaf, Mem.unmap, htable]
      · simp [Mem.leaf, Mem.unmap, htable, hv, AList.lookup_erase_ne]
  · simp [Mem.leaf, Mem.unmap, ht]

theorem node_unmap (m : Mem) (t : TableId) (v : Nat) (t' : TableId) (key : Nat × Nat) :
    (m.unmap t v).Node t' key ↔ m.Node t' key := by
  by_cases ht : t' = t
  · subst ht
    simp [Mem.Node, Mem.unmap]
  · simp [Mem.Node, Mem.unmap, ht]

/-- `walk` without an allocation finds an entry if the tables above it are there. -/
theorem wp_walk_look (hlive : m.Live t) (hva : va < MAXVA) {Q : Bool → Mem → Prop}
    (h : ∀ found, (found = true ↔ ∀ key ∈ [nodeKey 2 va, nodeKey 1 va], m.Node t key) →
      Q found m) : wp (walk t va false) E Q m := by
  have hlevel : ∀ {Q : Bool → Mem → Prop} level,
      (∀ found, (found = true ↔ m.Node t (nodeKey level va)) → Q found m) →
      wp (walkLevel t va false level) E Q m := by
    intro Q level hQ
    unfold walkLevel
    rw [wp_bind]
    refine wp_table hlive fun pt hpt => ?_
    have hnode : m.Node t (nodeKey level va) ↔ nodeKey level va ∈ pt.nodes := by
      simp [Mem.Node, hpt]
    cases hkey : pt.nodes.lookup (nodeKey level va) with
    | some page =>
      refine hQ true ?_
      rw [hnode, ← AList.lookup_isSome, hkey]
      simp
    | none =>
      refine hQ false ?_
      rw [hnode, ← AList.lookup_isSome, hkey]
      simp
  unfold walk
  rw [if_neg (by omega), wp_bind]
  refine hlevel 2 fun found hfound => ?_
  cases found with
  | false =>
    refine h false ⟨fun hf => (by cases hf), fun hnodes => ?_⟩
    exact hfound.mpr (hnodes _ (by simp))
  | true =>
    refine hlevel 1 fun found hfound' => h found ?_
    simp only [List.mem_cons, List.not_mem_nil, or_false, forall_eq_or_imp, forall_eq]
    rw [hfound']
    exact ⟨fun hnode => ⟨hfound.mp rfl, hnode⟩, fun hnodes => hnodes.2⟩

theorem wp_clear_leaf_unmap (hlive : m.Live t) {Q : Unit → Mem → Prop}
    (h : Q () (m.unmap t (va / PGSIZE))) : wp (clearLeaf t va) E Q m := by
  unfold clearLeaf
  rw [wp_bind]
  refine wp_table hlive fun pt hpt => ?_
  simpa [setTable, Mem.unmap, hpt] using h

theorem wp_uvmunmap_unmap (h : Unmappable m t va) {Q : Unit → Mem → Prop}
    (hQ : Q () (m.unmap t (va / PGSIZE))) : wp (uvmunmap t va 1 false) E Q m := by
  simp only [uvmunmap, h.aligned, ne_eq, not_true, if_false, loop, loopFrom, unmapPage, wp_bind,
    wp_pure, Nat.zero_mul, Nat.add_zero]
  refine wp_walk_found h.live h.below h.nodes ?_
  simp only [if_true, wp_bind]
  refine wp_read_leaf h.live ?_
  cases hleaf : m.leaf t (va / PGSIZE) with
  | none => exact absurd hleaf h.leaf
  | some l => exact wp_clear_leaf_unmap h.live hQ

/-- What is known once `uvmunmap` of one page has returned. -/
theorem wp_uvmunmap_any : wp (uvmunmap t va 1 false) Fault.any
    (fun _ m' => Unmappable m t va ∧ m' = m.unmap t (va / PGSIZE)) m := by
  simp only [uvmunmap, loop, loopFrom, unmapPage, wp_ite, wp_kpanic, Fault.any_iff, implies_true,
    true_and, ne_eq, not_not, wp_bind, wp_pure, Nat.zero_mul, Nat.add_zero]
  intro haligned
  by_cases hva : va < MAXVA
  · by_cases hlive : m.Live t
    · refine wp_walk_look hlive hva fun found hfound => ⟨fun hyes => ?_, trivial⟩
      refine wp_read_leaf hlive ?_
      cases hleaf : m.leaf t (va / PGSIZE) with
      | none => exact trivial
      | some l =>
        refine wp_clear_leaf_unmap hlive ⟨⟨haligned, hva, hfound.mp hyes, ?_⟩, rfl⟩
        simp [hleaf]
    · have hnone : m.tables t = none := by simpa [Mem.Live] using hlive
      simp [walk, walkLevel, table, hnone, not_le.mpr hva]
  · simp [walk, not_lt.mp hva]

end Xv6.Thread
