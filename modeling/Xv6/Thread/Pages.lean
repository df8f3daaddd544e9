import Xv6.Thread.Memory
import Mathlib.Data.Multiset.AddSub
import Mathlib.Data.Finset.Card

/-!
# The pages of a page table

The pages of a table are its root, its lower tables and the pages that its leaves map. `Mem.total`
adds the free list to them, and no operation on the table loses a page: what `walk` takes for a
lower table or `uvmalloc` for a leaf comes from the free list, and what `uvmunmap` frees goes back
to it. The specifications below also say how many pages are taken, so that running out of memory
has an exact condition: the lower tables that a range of addresses lacks, and the pages of the
range itself.
-/

namespace Xv6.Thread

open Function (update update_of_ne update_self)

variable {m m' m'' : Mem} {t : TableId} {va : Nat} {E : Fault → Prop} {v n newsz oldsz : Nat}
  {keys : Finset (Nat × Nat)} {l : Leaf}

/-! ## Accounting -/

/-- The pages of a table. -/
def PageTable.pages (pt : PageTable) : Multiset Page :=
  pt.root ::ₘ ((pt.nodes.entries.map fun e => e.2 : List Page) +
    (pt.leaves.entries.map fun e => e.2.page : List Page))

namespace Mem

/-- The pages of table `t`, if it is in use. -/
def held (m : Mem) (t : TableId) : Multiset Page :=
  match m.tables t with
  | some pt => pt.pages
  | none => 0

/-- The free pages and the pages of table `t`. -/
def total (m : Mem) (t : TableId) : Multiset Page := m.free + m.held t

/-- Memory after a write to the pages of table `t`. -/
def put (m : Mem) (t : TableId) (free : List Page) (pt : PageTable) : Mem :=
  { m with free := free, tables := update m.tables t (some pt) }

end Mem

/-- Nothing but the table `t` and the free list has changed. -/
structure On (t : TableId) (m m' : Mem) : Prop where
  apart : ∀ t', t' ≠ t → m'.tables t' = m.tables t'
  next : m'.nextTable = m.nextTable
  live : m'.Live t ↔ m.Live t

theorem On.refl (t : TableId) (m : Mem) : On t m m := ⟨fun _ _ => rfl, rfl, Iff.rfl⟩

theorem On.trans (h : On t m m') (h' : On t m' m'') : On t m m'' :=
  ⟨fun t' ht' => (h'.apart t' ht').trans (h.apart t' ht'), h'.next.trans h.next,
    h'.live.trans h.live⟩

theorem On.with_free (h : On t m m') (free : List Page) : On t m { m' with free := free } :=
  ⟨h.apart, h.next, h.live⟩

section Put

variable {free : List Page} {pt pt' : PageTable}

theorem on_put (ht : m.tables t = some pt) : On t m (m.put t free pt') where
  apart t' ht' := update_of_ne ht' _ _
  next := rfl
  live := by simp [Mem.Live, Mem.put, ht]

@[simp]
theorem put_leaf (v : Nat) : (m.put t free pt').leaf t v = pt'.leaves.lookup v := by
  simp [Mem.leaf, Mem.put]

@[simp]
theorem put_node (key : Nat × Nat) : (m.put t free pt').Node t key ↔ key ∈ pt'.nodes := by
  simp [Mem.Node, Mem.put]

@[simp]
theorem put_total : (m.put t free pt').total t = free + pt'.pages := by
  simp [Mem.total, Mem.held, Mem.put]

@[simp]
theorem put_free : (m.put t free pt').free = free := rfl

theorem total_cons (m : Mem) (t : TableId) (page : Page) (free : List Page) :
    Mem.total { m with free := page :: free } t = page ::ₘ Mem.total { m with free := free } t := by
  simp only [Mem.total]
  rw [← Multiset.cons_coe, Multiset.cons_add]
  rfl

theorem total_of_table (ht : m.tables t = some pt) : m.total t = m.free + pt.pages := by
  simp [Mem.total, Mem.held, ht]

theorem leaf_of_table (ht : m.tables t = some pt) (v : Nat) : m.leaf t v = pt.leaves.lookup v := by
  simp [Mem.leaf, ht]

theorem node_of_table (ht : m.tables t = some pt) (key : Nat × Nat) :
    m.Node t key ↔ key ∈ pt.nodes := by
  simp [Mem.Node, ht]

theorem pages_insert_node {key : Nat × Nat} (h : key ∉ pt.nodes) (page : Page) :
    PageTable.pages { pt with nodes := pt.nodes.insert key page } = page ::ₘ pt.pages := by
  simp only [PageTable.pages, AList.entries_insert_of_notMem h, List.map_cons]
  rw [← Multiset.cons_coe, Multiset.cons_add, Multiset.cons_swap]

theorem pages_insert_leaf (h : v ∉ pt.leaves) (l : Leaf) :
    PageTable.pages { pt with leaves := pt.leaves.insert v l } = l.page ::ₘ pt.pages := by
  simp only [PageTable.pages, AList.entries_insert_of_notMem h, List.map_cons]
  rw [← Multiset.cons_coe, Multiset.add_cons, Multiset.cons_swap]

theorem perm_kerase {α : Type} {β : α → Type} [DecidableEq α] {l : List (Sigma β)} {a : α} {b : β a}
    (h : l.dlookup a = some b) : l.Perm (⟨a, b⟩ :: l.kerase a) := by
  induction l with
  | nil => cases h
  | cons e rest ih =>
    by_cases he : a = e.1
    · subst he
      rw [List.dlookup_cons_eq] at h
      cases h
      rw [List.kerase_cons_eq rfl]
    · rw [List.dlookup_cons_ne _ _ he] at h
      rw [List.kerase_cons_ne he]
      exact ((ih h).cons e).trans (List.Perm.swap _ _ _)

theorem pages_erase_leaf (h : pt.leaves.lookup v = some l) :
    pt.pages = l.page ::ₘ PageTable.pages { pt with leaves := pt.leaves.erase v } := by
  have hperm : (pt.leaves.entries.map fun e => e.2.page).Perm
      (l.page :: (pt.leaves.erase v).entries.map fun e => e.2.page) :=
    (perm_kerase h).map fun e => e.2.page
  have hcoe : (↑(pt.leaves.entries.map fun e => e.2.page) : Multiset Page) =
      l.page ::ₘ ↑((pt.leaves.erase v).entries.map fun e => e.2.page) :=
    Multiset.coe_eq_coe.mpr hperm
  simp only [PageTable.pages]
  rw [hcoe, Multiset.add_cons, Multiset.cons_swap]

/-- The pages of a table with the permissions of a leaf changed. -/
theorem pages_change_leaf (perm : Perm) (h : pt.leaves.lookup v = some l) :
    PageTable.pages { pt with leaves := pt.leaves.insert v { l with perm := perm } } =
      pt.pages := by
  rw [pages_erase_leaf h]
  simp only [PageTable.pages, AList.entries_insert, List.map_cons]
  rw [← Multiset.cons_coe, Multiset.add_cons, Multiset.cons_swap]
  rfl

end Put

/-! ## `walk` -/

instance (m : Mem) (t : TableId) (key : Nat × Nat) : Decidable (m.Node t key) :=
  match h : m.tables t with
  | none => .isFalse fun ⟨_, hpt, _⟩ => by cases h.symm.trans hpt
  | some pt => decidable_of_iff (key ∈ pt.nodes) (node_of_table h key).symm

/-- The lower tables that are not there. -/
def Mem.lack (m : Mem) (t : TableId) (keys : Finset (Nat × Nat)) : Finset (Nat × Nat) :=
  keys.filter fun key => ¬ m.Node t key

/-- What a search for the lower tables in `keys` does that allocates the missing ones. -/
structure Reached (t : TableId) (keys : Finset (Nat × Nat)) (m : Mem) (found : Bool) (m' : Mem) :
    Prop where
  on : On t m m'
  leaf : ∀ v, m'.leaf t v = m.leaf t v
  total : m'.total t = m.total t
  keep : ∀ key, m.Node t key → m'.Node t key
  only : ∀ key, m'.Node t key → m.Node t key ∨ key ∈ keys
  enough : found = true ↔ (m.lack t keys).card ≤ m.free.length
  has : found = true → ∀ key ∈ keys, m'.Node t key
  used : found = true → m'.free.length + (m.lack t keys).card = m.free.length

/-- After a search, what is lacking of other lower tables is what was lacking besides. -/
theorem lack_union (keys' : Finset (Nat × Nat)) (hkeep : ∀ key, m.Node t key → m'.Node t key)
    (honly : ∀ key, m'.Node t key → m.Node t key ∨ key ∈ keys)
    (hhas : ∀ key ∈ keys, m'.Node t key) :
    (m.lack t (keys ∪ keys')).card = (m.lack t keys).card + (m'.lack t keys').card := by
  have hunion : m.lack t (keys ∪ keys') = m.lack t keys ∪ m'.lack t keys' := by
    ext key
    have := hkeep key
    have := honly key
    have := hhas key
    simp only [Mem.lack, Finset.mem_filter, Finset.mem_union]
    tauto
  rw [hunion, Finset.card_union_of_disjoint]
  rw [Finset.disjoint_left]
  intro key hkey hkey'
  simp only [Mem.lack, Finset.mem_filter] at hkey hkey'
  exact hkey'.2 (hhas key hkey.1)

theorem Reached.trans {keys' : Finset (Nat × Nat)} {found : Bool} (h : Reached t keys m true m')
    (h' : Reached t keys' m' found m'') :
    Reached t (keys ∪ keys') m found m'' := by
  have hlack := lack_union keys' h.keep h.only (h.has rfl)
  have hused := h.used rfl
  refine ⟨h.on.trans h'.on, fun v => (h'.leaf v).trans (h.leaf v), h'.total.trans h.total,
    fun key hkey => h'.keep key (h.keep key hkey), fun key hkey => ?_, ?_,
    fun hfound key hkey => ?_, fun hfound => ?_⟩
  · rw [Finset.mem_union]
    have := h.only key
    have := h'.only key hkey
    tauto
  · rw [h'.enough, hlack]
    omega
  · rcases Finset.mem_union.mp hkey with hkey | hkey
    · exact h'.keep key (h.has rfl key hkey)
    · exact h'.has hfound key hkey
  · have := h'.used hfound
    omega

/-- A search that stops early has not found what it would have looked for next. -/
theorem Reached.stop {keys' : Finset (Nat × Nat)} (h : Reached t keys m false m') :
    Reached t (keys ∪ keys') m false m' := by
  have hmore : (m.lack t keys).card ≤ (m.lack t (keys ∪ keys')).card :=
    Finset.card_le_card (Finset.filter_subset_filter _ Finset.subset_union_left)
  have hshort : ¬ (m.lack t keys).card ≤ m.free.length := fun hle => by cases h.enough.mpr hle
  refine { h with
    only := fun key hkey => (h.only key hkey).imp_right fun hin => Finset.mem_union_left _ hin
    enough := ⟨fun hno => (by cases hno), fun hle => absurd hle (by omega)⟩
    has := fun hno => (by cases hno), used := fun hno => (by cases hno) }

theorem wp_walk_level_reach (level : Nat) (hlive : m.Live t) :
    wp (walkLevel t va true level) E (Reached t {nodeKey level va} m) m := by
  unfold walkLevel
  rw [wp_bind]
  refine wp_table hlive fun pt hpt => ?_
  have hnode := node_of_table hpt
  cases hkey : pt.nodes.lookup (nodeKey level va) with
  | some page =>
    have hmem : m.Node t (nodeKey level va) :=
      (hnode _).mpr (AList.lookup_isSome.mp (by simp [hkey]))
    have hlack : m.lack t {nodeKey level va} = ∅ := by
      simp [Mem.lack, Finset.filter_singleton, hmem]
    refine ⟨.refl t m, fun _ => rfl, rfl, fun _ h => h, fun _ h => .inl h, by simp [hlack], ?_, ?_⟩
    · intro _ key hin
      rw [Finset.mem_singleton.mp hin]
      exact hmem
    · intro _
      simp [hlack]
  | none =>
    have hmem : nodeKey level va ∉ pt.nodes := AList.lookup_eq_none.mp hkey
    have hlack : m.lack t {nodeKey level va} = {nodeKey level va} := by
      simp [Mem.lack, Finset.filter_singleton, hnode, hmem]
    simp only [if_true, wp_bind, kalloc, wp_get]
    cases hfree : m.free with
    | nil =>
      refine ⟨.refl t m, fun _ => rfl, rfl, fun _ h => h, fun _ h => .inl h, ?_, by simp, by simp⟩
      simp [hlack, hfree]
    | cons page rest =>
      simp only [wp_bind, wp_set, setTable, wp_modify, wp_pure]
      show Reached t _ m true (m.put t rest
        { pt with nodes := pt.nodes.insert (nodeKey level va) page })
      refine ⟨on_put hpt, fun v => ?_, ?_, fun key h => ?_, fun key h => ?_, ?_, ?_, ?_⟩
      · rw [put_leaf, leaf_of_table hpt]
      · rw [put_total, total_of_table hpt, pages_insert_node hmem, hfree, ← Multiset.cons_coe,
          Multiset.add_cons, Multiset.cons_add]
      · rw [put_node, AList.mem_insert]
        exact .inr ((hnode key).mp h)
      · rw [put_node, AList.mem_insert] at h
        rw [hnode, Finset.mem_singleton]
        exact h.symm
      · simp [hlack, hfree]
      · intro _ key hin
        rw [put_node, AList.mem_insert]
        exact .inl (Finset.mem_singleton.mp hin)
      · intro _
        simp [hlack, hfree]

/-- The lower tables of an address. -/
def tablesFor (va : Nat) : Finset (Nat × Nat) := {nodeKey 2 va} ∪ {nodeKey 1 va}

/-- `walk` with `alloc` set, on a table in use: it finds an entry exactly if there is memory for
the lower tables that are missing. -/
theorem wp_walk_reach (hlive : m.Live t) (hwalk : MAXVA ≤ va → E (.panic "walk")) :
    wp (walk t va true) E (fun found m' => va < MAXVA ∧ Reached t (tablesFor va) m found m') m := by
  unfold walk
  split
  next hva => exact hwalk hva
  next hva =>
    refine wp_seq (wp_walk_level_reach 2 hlive) fun found m1 h1 => ?_
    cases found with
    | false => exact ⟨by omega, h1.stop⟩
    | true =>
      refine wp_mono (wp_walk_level_reach 1 (h1.on.live.mpr hlive)) fun found m2 h2 => ?_
      exact ⟨by omega, h1.trans h2⟩

/-! ## `mappages` -/

/-- What `mappages` of one page does. -/
structure MapsOne (t : TableId) (va : Nat) (l : Leaf) (m : Mem) (done : Bool) (m' : Mem) :
    Prop where
  below : va < MAXVA
  on : On t m m'
  failed : done = false → ∀ v, m'.leaf t v = m.leaf t v
  fresh : done = true → m.leaf t (va / PGSIZE) = none
  wrote : done = true → ∀ v, m'.leaf t v = if v = va / PGSIZE then some l else m.leaf t v
  total : m'.total t = if done then l.page ::ₘ m.total t else m.total t
  keep : ∀ key, m.Node t key → m'.Node t key
  only : ∀ key, m'.Node t key → m.Node t key ∨ key ∈ tablesFor va
  enough : done = true ↔ (m.lack t (tablesFor va)).card ≤ m.free.length
  has : done = true → ∀ key ∈ tablesFor va, m'.Node t key
  used : done = true → m'.free.length + (m.lack t (tablesFor va)).card = m.free.length

theorem wp_mappages_one {pa : Page} {perm : Perm} (hlive : m.Live t) (haligned : va % PGSIZE = 0)
    (hwalk : MAXVA ≤ va → E (.panic "walk"))
    (hremap : m.leaf t (va / PGSIZE) ≠ none → E (.panic "mappages: remap")) :
    wp (mappages t va PGSIZE pa perm) E (MapsOne t va ⟨pa, perm⟩ m) m := by
  have hsize : PGSIZE / PGSIZE = 1 := rfl
  simp only [mappages, haligned, Nat.mod_self, hsize, mapFrom, ne_eq, not_true, if_false,
    show ¬ PGSIZE = 0 by decide, wp_bind]
  refine wp_mono (wp_walk_reach hlive hwalk) ?_
  rintro found m1 ⟨hbelow, h1⟩
  cases found with
  | false =>
    exact ⟨hbelow, h1.on, fun _ => h1.leaf, fun h => (by cases h), fun h => (by cases h), h1.total,
      h1.keep, h1.only, h1.enough, fun h => (by cases h), fun h => (by cases h)⟩
  | true =>
    have hlive1 := h1.on.live.mpr hlive
    simp only [if_true, wp_bind]
    refine wp_read_leaf hlive1 ?_
    rw [h1.leaf]
    cases hleaf : m.leaf t (va / PGSIZE) with
    | some l => exact hremap (by simp [hleaf])
    | none =>
      simp only [writeLeaf, wp_bind]
      refine wp_table hlive1 fun pt hpt => ?_
      simp only [setTable, wp_modify, wp_pure]
      have hnone : va / PGSIZE ∉ pt.leaves := by
        rw [← AList.lookup_eq_none, ← leaf_of_table hpt, h1.leaf, hleaf]
      show MapsOne t va ⟨pa, perm⟩ m true (m1.put t m1.free
        { pt with leaves := pt.leaves.insert (va / PGSIZE) ⟨pa, perm⟩ })
      refine ⟨hbelow, h1.on.trans (on_put hpt), fun h => (by cases h), fun _ => hleaf,
        fun _ v => ?_, ?_, fun key h => ?_, fun key h => ?_, h1.enough, fun _ key h => ?_, h1.used⟩
      · rw [put_leaf, ← h1.leaf, leaf_of_table hpt]
        split
        next heq => rw [heq, AList.lookup_insert]
        next hne => exact AList.lookup_insert_ne hne
      · rw [put_total, pages_insert_leaf hnone, Multiset.add_cons, ← total_of_table hpt, h1.total]
        rfl
      · rw [put_node, ← node_of_table hpt]
        exact h1.keep key h
      · rw [put_node, ← node_of_table hpt] at h
        exact h1.only key h
      · rw [put_node, ← node_of_table hpt]
        exact h1.has rfl key h

/-! ## `uvmunmap` -/

theorem total_unmap (h : m.leaf t v = some l) :
    m.total t = l.page ::ₘ (m.unmap t v).total t := by
  unfold Mem.leaf at h
  cases ht : m.tables t with
  | none => simp [ht] at h
  | some pt =>
    have hlookup : pt.leaves.lookup v = some l := by simpa [ht] using h
    rw [total_of_table ht, pages_erase_leaf hlookup, Multiset.add_cons]
    simp [Mem.total, Mem.held, Mem.unmap, ht]

theorem on_unmap (m : Mem) (t : TableId) (v : Nat) : On t m (m.unmap t v) where
  apart t' ht' := update_of_ne ht' _ _
  next := rfl
  live := by simp [Mem.Live, Mem.unmap]

/-- What `uvmunmap` of `n` pages from page `v` on does, when it frees them. -/
structure Unmapped (t : TableId) (v n : Nat) (m m' : Mem) : Prop where
  on : On t m m'
  leaf : ∀ v', m'.leaf t v' = if v ≤ v' ∧ v' < v + n then none else m.leaf t v'
  node : ∀ key, m'.Node t key ↔ m.Node t key
  total : m'.total t = m.total t
  free : m'.free.length = m.free.length + n

theorem wp_unmap_page_free (h : Unmappable m t va ∨ ∀ f, E f) :
    wp (unmapPage t true va) E (fun _ => Unmapped t (va / PGSIZE) 1 m) m := by
  have hfree : ∀ l, m.Live t → m.leaf t (va / PGSIZE) = some l →
      wp (clearLeaf t va) E (fun _ => Unmapped t (va / PGSIZE) 1 m)
        { m with free := l.page :: m.free } := by
    intro l hlive hl
    have hlive' : Mem.Live { m with free := l.page :: m.free } t := hlive
    refine wp_clear_leaf_unmap hlive' ?_
    refine ⟨(on_unmap m t _).with_free _, fun v' => ?_, fun key => ?_, ?_, rfl⟩
    · have hrange : (va / PGSIZE ≤ v' ∧ v' < va / PGSIZE + 1) ↔ v' = va / PGSIZE := by omega
      have hleaf := leaf_unmap m t (va / PGSIZE) t v'
      simp only [true_and] at hleaf
      simp only [hrange]
      exact hleaf
    · exact node_unmap m t _ t key
    · rw [total_unmap hl]
      exact total_cons (m.unmap t (va / PGSIZE)) t l.page m.free
  unfold unmapPage
  rw [wp_bind]
  by_cases hmap : Unmappable m t va
  · refine wp_walk_found hmap.live hmap.below hmap.nodes ?_
    simp only [if_true, wp_bind]
    refine wp_read_leaf hmap.live ?_
    cases hleaf : m.leaf t (va / PGSIZE) with
    | none => exact absurd hleaf hmap.leaf
    | some l => exact hfree l hmap.live hleaf
  · have hany : ∀ f, E f := h.resolve_left hmap
    by_cases hlive : m.Live t
    · refine wp_walk_read hlive (fun _ => hany _) fun found => ?_
      cases found with
      | false => exact hany _
      | true =>
        simp only [if_true, wp_bind]
        refine wp_read_leaf hlive ?_
        cases hleaf : m.leaf t (va / PGSIZE) with
        | none => exact hany _
        | some l => exact hfree l hlive hleaf
    · have hnone : m.tables t = none := by simpa [Mem.Live] using hlive
      simp [walk, walkLevel, table, hnone, wp_ite, hany]

theorem page_of_mul (v : Nat) : v * PGSIZE / PGSIZE = v := Nat.mul_div_cancel v (by decide)

theorem Unmapped.trans (h : Unmapped t v n m m') (h' : Unmapped t (v + n) 1 m' m'') :
    Unmapped t v (n + 1) m m'' := by
  refine ⟨h.on.trans h'.on, fun v' => ?_, fun key => (h'.node key).trans (h.node key),
    h'.total.trans h.total, ?_⟩
  · rw [h'.leaf, h.leaf]
    by_cases hlast : v' = v + n
    · rw [if_pos (by omega), if_pos (by omega)]
    · have hsame : (v ≤ v' ∧ v' < v + (n + 1)) ↔ (v ≤ v' ∧ v' < v + n) := by omega
      rw [if_neg (by omega)]
      simp only [hsame]
  · rw [h'.free, h.free]
    omega

/-- `uvmunmap` of a range that it frees: the pages must be mapped, unless faults do not matter. -/
theorem wp_uvmunmap_range (h : (∀ i < n, Unmappable m t ((v + i) * PGSIZE)) ∨ ∀ f, E f) :
    wp (uvmunmap t (v * PGSIZE) n true) E (fun _ => Unmapped t v n m) m := by
  have haligned : v * PGSIZE % PGSIZE = 0 := Nat.mul_mod_left _ _
  simp only [uvmunmap, haligned, ne_eq, not_true, if_false]
  refine wp_loop (fun k m' => Unmapped t v k m m') (fun k m' hk hm' => ?_) ?_
  · have hva : v * PGSIZE + k * PGSIZE = (v + k) * PGSIZE := by ring
    rw [hva]
    have hpage : Unmappable m' t ((v + k) * PGSIZE) ∨ ∀ f, E f := by
      refine h.imp_left fun hall => ?_
      obtain ⟨halign, hbelow, hnodes, hleaf⟩ := hall k hk
      refine ⟨halign, hbelow, fun key hkey => (hm'.node key).mpr (hnodes key hkey), ?_⟩
      rw [page_of_mul] at hleaf ⊢
      rw [hm'.leaf, if_neg (by omega)]
      exact hleaf
    have hone := wp_unmap_page_free hpage
    rw [page_of_mul] at hone
    exact wp_mono hone fun _ m'' hm'' => hm'.trans hm''
  · exact ⟨.refl t m, fun v' => by rw [if_neg (by omega)], fun _ => Iff.rfl, rfl, rfl⟩

/-! ## `uvmalloc` and `uvmdealloc` -/

/-- The number of pages of a process of size `sz`. -/
def npages (sz : Nat) : Nat := (sz + PGSIZE - 1) / PGSIZE

theorem pgroundup_eq (sz : Nat) : pgroundup sz = npages sz * PGSIZE := rfl

theorem npages_mul (v : Nat) : npages (v * PGSIZE) = v := by
  unfold npages
  simp only [PGSIZE]
  omega

theorem npages_mono {a b : Nat} (h : a ≤ b) : npages a ≤ npages b :=
  Nat.div_le_div_right (by omega)

theorem Unmapped.refl (t : TableId) (v : Nat) (m : Mem) : Unmapped t v 0 m m :=
  ⟨.refl t m, fun v' => by rw [if_neg (by omega)], fun _ => Iff.rfl, rfl, rfl⟩

/-- `uvmdealloc`: the pages between the sizes are freed, if the new one is smaller. -/
theorem wp_uvmdealloc
    (h : (∀ v, npages newsz ≤ v → v < npages oldsz → Unmappable m t (v * PGSIZE)) ∨ ∀ f, E f) :
    wp (uvmdealloc t oldsz newsz) E (fun r m' => r = min oldsz newsz ∧
      Unmapped t (npages newsz) (npages oldsz - npages newsz) m m') m := by
  unfold uvmdealloc
  split
  next hle =>
    rw [wp_pure, Nat.sub_eq_zero_of_le (npages_mono hle)]
    exact ⟨(min_eq_left hle).symm, .refl t _ m⟩
  next hlt =>
    rw [pgroundup_eq, pgroundup_eq]
    dsimp only
    have hmin : newsz = min oldsz newsz := (min_eq_right (by omega)).symm
    split
    next hpages =>
      rw [← Nat.sub_mul, page_of_mul]
      refine wp_seq (wp_uvmunmap_range (h.imp_left fun hall i hi => ?_)) fun _ m' hm' => ⟨hmin, hm'⟩
      exact hall _ (by omega) (by omega)
    next hpages =>
      have hsame : npages oldsz - npages newsz = 0 := by
        have := Nat.le_of_mul_le_mul_right (not_lt.mp hpages) (by decide : 0 < PGSIZE)
        omega
      rw [wp_pure, hsame]
      exact ⟨hmin, .refl t _ m⟩

/-- The lower tables of `n` pages from page `v` on. -/
def rangeTables (v n : Nat) : Finset (Nat × Nat) :=
  (Finset.range n).biUnion fun i => tablesFor ((v + i) * PGSIZE)

theorem range_tables_zero (v : Nat) : rangeTables v 0 = ∅ := rfl

theorem range_tables_succ (v n : Nat) :
    rangeTables v (n + 1) = tablesFor (v * PGSIZE) ∪ rangeTables (v + 1) n := by
  ext key
  simp only [rangeTables, Finset.mem_biUnion, Finset.mem_range, Finset.mem_union]
  constructor
  · rintro ⟨i, hi, hkey⟩
    cases i with
    | zero => exact .inl hkey
    | succ i =>
      refine .inr ⟨i, by omega, ?_⟩
      rwa [show v + 1 + i = v + (i + 1) by omega]
  · rintro (hkey | ⟨i, hi, hkey⟩)
    · exact ⟨0, by omega, hkey⟩
    · refine ⟨i + 1, by omega, ?_⟩
      rwa [show v + (i + 1) = v + 1 + i by omega]

/-- `n` pages from page `v` on have been allocated. -/
structure Allocated (t : TableId) (perm : Perm) (v n : Nat) (m m' : Mem) : Prop where
  on : On t m m'
  old : ∀ v', ¬ (v ≤ v' ∧ v' < v + n) → m'.leaf t v' = m.leaf t v'
  new : ∀ v', v ≤ v' → v' < v + n → m.leaf t v' = none ∧ v' * PGSIZE < MAXVA ∧
    ∃ page, m'.leaf t v' = some ⟨page, perm⟩
  total : m'.total t = m.total t
  keep : ∀ key, m.Node t key → m'.Node t key
  has : ∀ key ∈ rangeTables v n, m'.Node t key
  used : m'.free.length + (n + (m.lack t (rangeTables v n)).card) = m.free.length

/-- An allocation has been undone: the pages from `v0` up to `v` are not mapped. -/
structure Undone (t : TableId) (v0 v : Nat) (m m' : Mem) : Prop where
  on : On t m m'
  leaf : ∀ v', m'.leaf t v' = if v0 ≤ v' ∧ v' < v then none else m.leaf t v'
  total : m'.total t = m.total t
  keep : ∀ key, m.Node t key → m'.Node t key

/-- The pages from `v0` up to `v` have been mapped by this allocation. -/
def Filled (t : TableId) (v0 v : Nat) (m : Mem) : Prop :=
  ∀ v', v0 ≤ v' → v' < v → Unmappable m t (v' * PGSIZE)

/-- Giving up takes away the pages that have been mapped. -/
theorem wp_give_up {v0 : Nat} (hv : v0 ≤ v) (hfilled : Filled t v0 v m) :
    wp (do
      let _ ← uvmdealloc t (v * PGSIZE) (v0 * PGSIZE)
      pure false) E (fun ok m' => ok = false ∧ Undone t v0 v m m') m := by
  rw [wp_bind]
  have hdealloc : wp (uvmdealloc t (v * PGSIZE) (v0 * PGSIZE)) E _ m :=
    wp_uvmdealloc (.inl (by rw [npages_mul, npages_mul]; exact hfilled))
  rw [npages_mul, npages_mul] at hdealloc
  refine wp_mono hdealloc fun _ m' hm' => ⟨rfl, hm'.2.on, fun v' => ?_, hm'.2.total, fun key =>
    (hm'.2.node key).mpr⟩
  rw [hm'.2.leaf, show v0 + (v - v0) = v by omega]

/-- One iteration of the loop of `uvmalloc`, up to giving up: a new page is mapped at `a`. -/
def allocPage (t : TableId) (perm : Perm) (a : Nat) : MemCode Bool := do
  match ← kalloc with
  | none => pure false
  | some page => do
    if ← mappages t a PGSIZE page perm then pure true
    else
      kfree page
      pure false

theorem alloc_from_succ (t : TableId) (oldsz : Nat) (xperm : Perm) (n a : Nat) :
    allocFrom t oldsz xperm (n + 1) a = (do
      if ← allocPage t { xperm with u := true } a then allocFrom t oldsz xperm n (a + PGSIZE)
      else
        let _ ← uvmdealloc t a oldsz
        pure false) := by
  simp only [allocFrom, allocPage, bind_assoc]
  congr 1
  funext o
  cases o with
  | none => simp
  | some page =>
    simp only [bind_assoc]
    congr 1
    funext done
    cases done with
    | true => simp
    | false => simp

/-- What an attempt to map a new page at page `v` does. -/
structure TookPage (t : TableId) (perm : Perm) (v : Nat) (m : Mem) (done : Bool) (m' : Mem) :
    Prop where
  on : On t m m'
  total : m'.total t = m.total t
  keep : ∀ key, m.Node t key → m'.Node t key
  only : ∀ key, m'.Node t key → m.Node t key ∨ key ∈ tablesFor (v * PGSIZE)
  enough : done = true ↔ 1 + (m.lack t (tablesFor (v * PGSIZE))).card ≤ m.free.length
  failed : done = false → ∀ v', m'.leaf t v' = m.leaf t v'
  below : done = true → v * PGSIZE < MAXVA
  fresh : done = true → m.leaf t v = none
  new : done = true → ∃ page, m'.leaf t v = some ⟨page, perm⟩
  old : done = true → ∀ v', v' ≠ v → m'.leaf t v' = m.leaf t v'
  has : done = true → ∀ key ∈ tablesFor (v * PGSIZE), m'.Node t key
  used : done = true →
    m'.free.length + (1 + (m.lack t (tablesFor (v * PGSIZE))).card) = m.free.length

theorem wp_alloc_page {perm : Perm} (hlive : m.Live t)
    (hwalk : MAXVA ≤ v * PGSIZE → E (.panic "walk"))
    (hremap : m.leaf t v ≠ none → E (.panic "mappages: remap")) :
    wp (allocPage t perm (v * PGSIZE)) E (TookPage t perm v m) m := by
  simp only [allocPage, kalloc, wp_bind, wp_get]
  cases hfree : m.free with
  | nil =>
    refine ⟨.refl t m, rfl, fun _ h => h, fun _ h => .inl h, ?_, fun _ _ => rfl,
      fun h => (by cases h), fun h => (by cases h), fun h => (by cases h), fun h => (by cases h),
      fun h => (by cases h), fun h => (by cases h)⟩
    simp [hfree]
  | cons page rest =>
    simp only [wp_bind, wp_set, wp_pure]
    obtain ⟨m1, hm1⟩ : ∃ m1 : Mem, m1 = { m with free := rest } := ⟨_, rfl⟩
    rw [← hm1]
    have hleaf1 : ∀ v', m1.leaf t v' = m.leaf t v' := by rw [hm1]; exact fun _ => rfl
    have hnode1 : ∀ key, m1.Node t key ↔ m.Node t key := by rw [hm1]; exact fun _ => Iff.rfl
    have hlack1 : ∀ keys, m1.lack t keys = m.lack t keys := by rw [hm1]; exact fun _ => rfl
    have hlen1 : m.free.length = m1.free.length + 1 := by rw [hm1, hfree, List.length_cons]
    have htotal1 : m.total t = page ::ₘ m1.total t := by
      rw [hm1, ← total_cons, ← hfree]
    have hon1 : On t m m1 := by
      rw [hm1]
      exact (On.refl t m).with_free rest
    refine wp_mono (wp_mappages_one (hon1.live.mpr hlive) (Nat.mul_mod_left _ _) hwalk
      (by rw [page_of_mul, hleaf1]; exact hremap)) fun done m2 h2 => ?_
    have hkeep : ∀ key, m.Node t key → m2.Node t key :=
      fun key hkey => h2.keep key ((hnode1 key).mpr hkey)
    have honly : ∀ key, m2.Node t key → m.Node t key ∨ key ∈ tablesFor (v * PGSIZE) :=
      fun key hkey => (h2.only key hkey).imp_left (hnode1 key).mp
    have henough := h2.enough
    have htotal2 := h2.total
    rw [hlack1] at henough
    cases done with
    | false =>
      simp only [Bool.false_eq_true, if_false, wp_bind, kfree, wp_modify, wp_pure]
      refine ⟨hon1.trans (h2.on.with_free _), ?_, hkeep, honly, ?_, fun _ v' => ?_,
        fun h => (by cases h), fun h => (by cases h), fun h => (by cases h), fun h => (by cases h),
        fun h => (by cases h), fun h => (by cases h)⟩
      · rw [total_cons, htotal1, htotal2]
        rfl
      · rw [henough]
        omega
      · exact (h2.failed rfl v').trans (hleaf1 v')
    | true =>
      have hwrote := h2.wrote rfl
      have hfresh := h2.fresh rfl
      have hused := h2.used rfl
      rw [page_of_mul] at hfresh hwrote
      simp only [if_true, wp_pure]
      refine ⟨hon1.trans h2.on, ?_, hkeep, honly, ?_, fun h => (by cases h), fun _ => h2.below,
        fun _ => ?_, fun _ => ?_, fun _ v' hv' => ?_, fun _ => h2.has rfl, fun _ => ?_⟩
      · rw [htotal2, htotal1]
        rfl
      · rw [henough]
        omega
      · rw [← hleaf1, hfresh]
      · exact ⟨page, by rw [hwrote, if_pos rfl]⟩
      · rw [hwrote, if_neg hv', hleaf1]
      · rw [hlack1] at hused
        omega

/-- What the loop of `uvmalloc` does: it allocates all pages exactly if there is memory for them
and for the lower tables that are missing. -/
theorem wp_alloc_from {xperm : Perm} {v0 : Nat} (hv : v0 ≤ v) (hlive : m.Live t)
    (hfilled : Filled t v0 v m) (hwalk : ∀ i < n, MAXVA ≤ (v + i) * PGSIZE → E (.panic "walk"))
    (hremap : ∀ i < n, m.leaf t (v + i) ≠ none → E (.panic "mappages: remap")) :
    wp (allocFrom t (v0 * PGSIZE) xperm n (v * PGSIZE)) E (fun ok m' =>
      (ok = true ↔ n + (m.lack t (rangeTables v n)).card ≤ m.free.length) ∧
      (ok = true → Allocated t { xperm with u := true } v n m m') ∧
      (ok = false → Undone t v0 v m m')) m := by
  induction n generalizing m v with
  | zero =>
    refine ⟨by simp [range_tables_zero, Mem.lack], fun _ => ?_, fun h => (by cases h)⟩
    exact ⟨.refl t m, fun _ _ => rfl, fun v' _ _ => by omega, rfl, fun _ h => h,
      by simp [range_tables_zero], by simp [range_tables_zero, Mem.lack]⟩
  | succ n ih =>
    rw [alloc_from_succ]
    refine wp_seq (wp_alloc_page hlive (hwalk 0 (by omega)) (hremap 0 (by omega)))
      fun done m1 h1 => ?_
    cases done with
    | false =>
      have hfilled1 : Filled t v0 v m1 := by
        intro v' hlow hhigh
        obtain ⟨halign, hbelow, hnodes, hleaf⟩ := hfilled v' hlow hhigh
        refine ⟨halign, hbelow, fun key hkey => h1.keep key (hnodes key hkey), ?_⟩
        rw [h1.failed rfl]
        exact hleaf
      have hmore : (m.lack t (tablesFor (v * PGSIZE))).card ≤
          (m.lack t (rangeTables v (n + 1))).card := by
        rw [range_tables_succ]
        exact Finset.card_le_card (Finset.filter_subset_filter _ Finset.subset_union_left)
      rw [if_neg (by simp)]
      refine wp_mono (wp_give_up hv hfilled1) ?_
      rintro ok m' ⟨rfl, hundone⟩
      refine ⟨⟨fun h => (by cases h), fun hle => by cases h1.enough.mpr (by omega)⟩,
        fun h => (by cases h), fun _ => ⟨h1.on.trans hundone.on, fun v' => ?_,
          hundone.total.trans h1.total, fun key hkey => hundone.keep key (h1.keep key hkey)⟩⟩
      rw [hundone.leaf, h1.failed rfl]
    | true =>
      obtain ⟨page, hpage⟩ := h1.new rfl
      have hold := h1.old rfl
      have hused := h1.used rfl
      have hfilled1 : Filled t v0 (v + 1) m1 := by
        intro v' hlow hhigh
        by_cases hlast : v' = v
        · subst hlast
          refine ⟨Nat.mul_mod_left _ _, h1.below rfl, fun key hkey => h1.has rfl key ?_, ?_⟩
          · simpa [tablesFor] using hkey
          · rw [page_of_mul, hpage]
            simp
        · obtain ⟨halign, hbelow, hnodes, hleaf⟩ := hfilled v' hlow (by omega)
          refine ⟨halign, hbelow, fun key hkey => h1.keep key (hnodes key hkey), ?_⟩
          rw [page_of_mul] at hleaf ⊢
          rw [hold v' hlast]
          exact hleaf
      have hlack := lack_union (rangeTables (v + 1) n) h1.keep h1.only (h1.has rfl)
      rw [← range_tables_succ] at hlack
      rw [if_pos rfl, show v * PGSIZE + PGSIZE = (v + 1) * PGSIZE by ring]
      refine wp_mono (ih (by omega) (h1.on.live.mpr hlive) hfilled1 (fun i hi => ?_)
        fun i hi => ?_) fun ok m' h' => ?_
      · rw [show v + 1 + i = v + (i + 1) by omega]
        exact hwalk (i + 1) (by omega)
      · rw [hold _ (by omega), show v + 1 + i = v + (i + 1) by omega]
        exact hremap (i + 1) (by omega)
      obtain ⟨henough, hall, hundone⟩ := h'
      refine ⟨?_, fun hok => ?_, fun hfail => ?_⟩
      · rw [henough, hlack]
        omega
      · have hrest := hall hok
        refine ⟨h1.on.trans hrest.on, fun v' hout => ?_, fun v' hlow hhigh => ?_,
          hrest.total.trans h1.total, fun key hkey => hrest.keep key (h1.keep key hkey),
          fun key hkey => ?_, ?_⟩
        · rw [hrest.old v' (by omega), hold v' (by omega)]
        · by_cases hfirst : v' = v
          · subst hfirst
            refine ⟨h1.fresh rfl, h1.below rfl, page, ?_⟩
            rw [hrest.old v' (by omega), hpage]
          · obtain ⟨hnone, hnew⟩ := hrest.new v' (by omega) (by omega)
            rw [hold v' hfirst] at hnone
            exact ⟨hnone, hnew⟩
        · rw [range_tables_succ] at hkey
          rcases Finset.mem_union.mp hkey with hkey | hkey
          · exact hrest.keep key (h1.has rfl key hkey)
          · exact hrest.has key hkey
        · have := hrest.used
          rw [hlack]
          omega
      · have hback := hundone hfail
        refine ⟨h1.on.trans hback.on, fun v' => ?_, hback.total.trans h1.total,
          fun key hkey => hback.keep key (h1.keep key hkey)⟩
        rw [hback.leaf]
        by_cases hfirst : v' = v
        · subst hfirst
          rw [if_pos (by omega), if_neg (by omega), h1.fresh rfl]
        · have hsame : (v0 ≤ v' ∧ v' < v + 1) ↔ (v0 ≤ v' ∧ v' < v) := by omega
          simp only [hsame, hold v' hfirst]

/-- The number of pages that `uvmalloc` takes to go from one size to the next. -/
def Mem.cost (m : Mem) (t : TableId) (oldsz newsz : Nat) : Nat :=
  npages newsz - npages oldsz +
    (m.lack t (rangeTables (npages oldsz) (npages newsz - npages oldsz))).card

/-- The same table, apart from its lower tables. -/
structure SameTable (t : TableId) (m m' : Mem) : Prop where
  on : On t m m'
  leaf : ∀ v, m'.leaf t v = m.leaf t v
  total : m'.total t = m.total t
  keep : ∀ key, m.Node t key → m'.Node t key

theorem count_pages (h : oldsz ≤ newsz) :
    (newsz - npages oldsz * PGSIZE + PGSIZE - 1) / PGSIZE = npages newsz - npages oldsz := by
  simp only [npages, PGSIZE]
  omega

/-- `uvmalloc` allocates the pages between the sizes exactly if there is memory for them, and
otherwise leaves the table as it was. -/
theorem wp_uvmalloc {xperm : Perm} (hle : oldsz ≤ newsz) (hlive : m.Live t)
    (hwalk : ∀ v, npages oldsz ≤ v → v < npages newsz → MAXVA ≤ v * PGSIZE → E (.panic "walk"))
    (hremap : ∀ v, npages oldsz ≤ v → v < npages newsz → m.leaf t v ≠ none →
      E (.panic "mappages: remap")) :
    wp (uvmalloc t oldsz newsz xperm) E (fun r m' =>
      m.cost t oldsz newsz ≤ m.free.length ∧ r = newsz ∧
          Allocated t { xperm with u := true } (npages oldsz) (npages newsz - npages oldsz) m m' ∨
        m.free.length < m.cost t oldsz newsz ∧ r = 0 ∧ SameTable t m m') m := by
  unfold uvmalloc
  rw [if_neg (by omega)]
  dsimp only
  rw [wp_bind, pgroundup_eq, count_pages hle]
  refine wp_mono (wp_alloc_from le_rfl hlive (fun v' _ _ => by omega) (fun i hi => ?_)
    fun i hi => ?_) fun ok m' h' => ?_
  · exact hwalk _ (by omega) (by omega)
  · exact hremap _ (by omega) (by omega)
  obtain ⟨henough, hall, hundone⟩ := h'
  cases ok with
  | true =>
    rw [if_pos rfl, wp_pure]
    exact .inl ⟨henough.mp rfl, rfl, hall rfl⟩
  | false =>
    rw [if_neg (by simp), wp_pure]
    have hback := hundone rfl
    refine .inr ⟨?_, rfl, hback.on, fun v => ?_, hback.total, hback.keep⟩
    · by_contra hno
      cases henough.mpr (not_lt.mp hno)
    · rw [hback.leaf, if_neg (by omega)]

/-! ## Creation and release -/

/-- The new table `t` has a root from the free list and nothing else. -/
structure Created (t : TableId) (m m' : Mem) : Prop where
  number : t = m.nextTable
  apart : ∀ t', t' ≠ t → m'.tables t' = m.tables t'
  live : m'.Live t
  leaf : ∀ v, m'.leaf t v = none
  total : m'.total t = m.free

theorem wp_uvmcreate_total :
    wp uvmcreate E (fun r m' => (r = none → m' = m) ∧ ∀ t, r = some t → Created t m m') m := by
  simp only [uvmcreate, kalloc, wp_bind, wp_get]
  cases hfree : m.free with
  | nil => exact ⟨fun _ => rfl, fun t ht => by cases ht⟩
  | cons page rest =>
    refine ⟨fun h => (by cases h), fun t ht => ?_⟩
    obtain rfl : m.nextTable = t := Option.some.inj ht
    refine ⟨rfl, fun t' ht' => update_of_ne ht' _ _, ?_, fun v => ?_, ?_⟩
    · simp [Mem.Live]
    · simp [Mem.leaf]
    · simp only [Mem.total, Mem.held, PageTable.pages, update_self, AList.empty_entries,
        List.map_nil, Multiset.coe_nil, add_zero]
      rw [hfree, Multiset.add_cons, add_zero, Multiset.cons_coe]

/-- The pages of table `t` have gone to the free list. -/
structure Freed (t : TableId) (m m' : Mem) : Prop where
  apart : ∀ t', t' ≠ t → m'.tables t' = m.tables t'
  gone : m'.tables t = none
  free : (m'.free : Multiset Page) = m.total t

theorem wp_free_all (pages : List Page) {Q : Unit → Mem → Prop}
    (h : Q () { m with free := pages.reverse ++ m.free }) : wp (freeAll pages) E Q m := by
  induction pages generalizing m with
  | nil => exact h
  | cons page rest ih =>
    simp only [freeAll, kfree, wp_bind, wp_modify]
    refine ih ?_
    simpa using h

/-- Once `freewalk` has returned, all pages of the table are free. -/
theorem wp_freewalk_total : wp (freewalk t) Fault.any (fun _ => Freed t m) m := by
  simp only [freewalk, table, wp_bind, wp_get]
  cases ht : m.tables t with
  | none => exact trivial
  | some pt =>
    simp only [wp_pure, wp_ite, wp_kpanic, wp_bind]
    refine ⟨fun _ => trivial, fun hleaves => ?_⟩
    refine wp_free_all _ ?_
    simp only [kfree, wp_modify]
    refine ⟨fun t' ht' => update_of_ne ht' _ _, update_self .., ?_⟩
    have hempty : pt.leaves.entries = [] := not_not.mp hleaves
    rw [total_of_table ht, PageTable.pages, hempty, List.map_nil, Multiset.coe_nil,
      Multiset.add_zero, ← Multiset.cons_coe, ← Multiset.coe_add, Multiset.add_cons,
      Multiset.coe_reverse, add_comm]

theorem wp_uvmfree_total (sz : Nat) : wp (uvmfree t sz) Fault.any (fun _ => Freed t m) m := by
  unfold uvmfree
  split
  next =>
    rw [wp_bind, show (0 : Nat) = 0 * PGSIZE from rfl]
    refine wp_mono (wp_uvmunmap_range (.inr fun _ => trivial)) fun _ m1 h1 => ?_
    refine wp_mono wp_freewalk_total fun _ m2 h2 => ⟨fun t' ht' => ?_, h2.gone, ?_⟩
    · rw [h2.apart t' ht', h1.on.apart t' ht']
    · rw [h2.free, h1.total]
  next => exact wp_freewalk_total

end Xv6.Thread
