import Xv6.Thread.Memory

/-!
# Page tables in use

Only `uvmcreate` brings a page table into use and only `freewalk` ends its use. Every other
function of `vm.c` leaves the set of tables alone, whatever it does to their entries, and none
gives back a table behind the back of another owner.
-/

namespace Xv6.Thread

variable {α : Type} {m m' m'' : Mem} {t : TableId} {E : Fault → Prop}

/-- Every fault but the one that leaves a pointer to a freed table behind. -/
def undangled : Fault → Prop := fun f => f ≠ .dangling

@[simp] theorem undangled_panic (message : String) : undangled (.panic message) := by
  simp [undangled]

@[simp] theorem undangled_wild : undangled .wild := by simp [undangled]

@[simp] theorem undangled_hang : undangled .hang := by simp [undangled]

/-- A panic with any message leaves no such pointer behind. -/
theorem undangled_of_panics {messages : List String} {f : Fault} (h : panics messages f) :
    undangled f := by
  obtain ⟨message, -, rfl⟩ := h
  exact undangled_panic message

/-- The tables in use. -/
def Mem.live (m : Mem) : Set TableId := { t | m.Live t }

/-- No table has come or gone. -/
structure Settled (m m' : Mem) : Prop where
  live : m'.live = m.live
  next : m.nextTable ≤ m'.nextTable

instance : Std.Refl Settled := ⟨fun _ => ⟨rfl, le_refl _⟩⟩

instance : IsTrans Mem Settled :=
  ⟨fun _ _ _ h h' => ⟨h'.live.trans h.live, h.next.trans h'.next⟩⟩

/-- One step after another. -/
theorem Settled.trans (h : Settled m m') (h' : Settled m' m'') : Settled m m'' :=
  IsTrans.trans _ _ _ h h'

/-- An entry is written, in a table that stays in use. -/
theorem Wrote.settled {v : Nat} {l : Option Leaf} (h : Wrote t v l m m') : Settled m m' :=
  ⟨Set.ext h.live, h.next.ge⟩

/-- Writing to a table in use. -/
theorem settled_set {pt : PageTable} (hlive : m.Live t) (free : List Page) :
    Settled m { m with free := free, tables := Function.update m.tables t (some pt) } := by
  refine ⟨Set.ext fun t' => ?_, le_refl _⟩
  by_cases h : t' = t
  · subst h
    exact iff_of_true (by simp [Mem.live, Mem.Live]) hlive
  · simp [Mem.live, Mem.Live, h]

/-- `kalloc` takes a page, not a table. -/
theorem settled_kalloc : Respects Settled E kalloc := by
  refine .get fun m => ?_
  cases m.free with
  | nil => exact ⟨rfl, le_refl _⟩
  | cons page rest => exact ⟨rfl, le_refl _⟩

/-- `kfree` gives back a page, not a table. -/
theorem settled_kfree (page : Page) : Respects Settled E (kfree page) :=
  fun _ => ⟨rfl, le_refl _⟩

/-- Code that starts by following the pointer to a table. -/
theorem settled_table {next : PageTable → MemCode α}
    (h : ∀ m pt, m.tables t = some pt → wp (next pt) undangled (fun _ m' => Settled m m') m) :
    Respects Settled undangled (table t >>= next) := by
  intro m
  simp only [table, wp_bind, wp_get]
  cases ht : m.tables t with
  | none => exact undangled_wild
  | some pt => exact h m pt ht

section

variable (t)

/-- One level of `walk` may allocate a page of the table that it walks. -/
theorem settled_walk_level (va : Nat) (alloc : Bool) (level : Nat) :
    Respects Settled undangled (walkLevel t va alloc level) := by
  refine settled_table fun m pt hpt => ?_
  have hlive : m.Live t := by simp [Mem.Live, hpt]
  split
  next => exact Std.Refl.refl m
  next =>
    split
    next =>
      rw [wp_bind]
      unfold kalloc
      simp only [wp_bind, wp_get]
      cases m.free with
      | nil => exact Std.Refl.refl m
      | cons page rest => exact settled_set hlive rest
    next => exact Std.Refl.refl m

/-- `walk` panics beyond `MAXVA`, and otherwise looks or allocates at two levels. -/
theorem settled_walk (va : Nat) (alloc : Bool) :
    Respects Settled undangled (walk t va alloc) := by
  refine .ite (.kpanic (undangled_panic _)) ?_
  exact .bind (settled_walk_level _ _ _ _) fun _ => .ite (settled_walk_level _ _ _ _) (.pure false)

/-- Reading an entry changes nothing. -/
theorem settled_read_leaf (va : Nat) :
    Respects Settled undangled (readLeaf t va) :=
  settled_table fun m _ _ => Std.Refl.refl m

/-- An entry is written only through a pointer to a table in use. -/
theorem settled_write_leaf (va : Nat) (leaf : Leaf) :
    Respects Settled undangled (writeLeaf t va leaf) :=
  settled_table fun m pt hpt => settled_set (by simp [Mem.Live, hpt]) m.free

/-- The same for an entry that is set to 0. -/
theorem settled_clear_leaf (va : Nat) :
    Respects Settled undangled (clearLeaf t va) :=
  settled_table fun m pt hpt => settled_set (by simp [Mem.Live, hpt]) m.free

/-- `walkaddr` only looks. -/
theorem settled_walkaddr (va : Nat) :
    Respects Settled undangled (walkaddr t va) := by
  refine .ite (.pure none) (.bind (settled_walk _ _ _) fun _ => .ite ?_ (.pure none))
  refine .bind (settled_read_leaf _ _) fun leaf => ?_
  cases leaf with
  | none => exact .pure none
  | some leaf => exact .pure _

/-- By induction on the pages to go. -/
theorem settled_map_from (perm : Perm) (n a : Nat) (pa : Page) :
    Respects Settled undangled (mapFrom t perm n a pa) := by
  induction n generalizing a pa with
  | zero => exact .pure true
  | succ n ih =>
    refine .bind (settled_walk _ _ _) fun _ => .ite ?_ (.pure false)
    refine .bind (settled_read_leaf _ _) fun leaf => ?_
    cases leaf with
    | none => exact .bind (settled_write_leaf _ _ _) fun _ => ih _ _
    | some leaf => exact .kpanic (undangled_panic _)

/-- The panics of `mappages` come before its loop. -/
theorem settled_mappages (va size : Nat) (pa : Page) (perm : Perm) :
    Respects Settled undangled (mappages t va size pa perm) := by
  refine .ite (.kpanic (undangled_panic _)) ?_
  refine .ite (.kpanic (undangled_panic _)) ?_
  exact .ite (.kpanic (undangled_panic _)) (settled_map_from _ _ _ _ _)

/-- The page is given back before its entry is cleared, and both leave the tables alone. -/
theorem settled_unmap_page (doFree : Bool) (a : Nat) :
    Respects Settled undangled (unmapPage t doFree a) := by
  refine .bind (settled_walk _ _ _) fun _ => .ite ?_ (.kpanic (undangled_panic _))
  refine .bind (settled_read_leaf _ _) fun leaf => ?_
  cases leaf with
  | none => exact .kpanic (undangled_panic _)
  | some leaf =>
    refine .ite (.bind (settled_kfree _) fun _ => ?_) ?_
    · exact settled_clear_leaf t a
    · exact settled_clear_leaf t a

/-- `uvmunmap` ends no table, even when it empties one. -/
theorem settled_uvmunmap (va npages : Nat) (doFree : Bool) :
    Respects Settled undangled (uvmunmap t va npages doFree) :=
  .ite (.kpanic (undangled_panic _)) (.count fun _ => settled_unmap_page _ _ _)

/-- A null page from `kalloc` makes `uvmfirst` write to address 0. -/
theorem settled_uvmfirst : Respects Settled undangled (uvmfirst t) := by
  refine .bind settled_kalloc fun page => ?_
  cases page with
  | none => exact .fault undangled_wild
  | some page => exact .bind (settled_mappages _ _ _ _ _) fun _ => .pure ()

/-- `uvmdealloc` is `uvmunmap` of whole pages, or nothing. -/
theorem settled_uvmdealloc (oldsz newsz : Nat) :
    Respects Settled undangled (uvmdealloc t oldsz newsz) :=
  .ite (.pure oldsz) (.ite (.bind (settled_uvmunmap _ _ _ _) fun _ => .pure newsz) (.pure newsz))

/-- When memory runs out, what was allocated goes through `uvmdealloc`. -/
theorem settled_alloc_from (oldsz : Nat) (xperm : Perm) (n a : Nat) :
    Respects Settled undangled (allocFrom t oldsz xperm n a) := by
  induction n generalizing a with
  | zero => exact .pure true
  | succ n ih =>
    refine .bind settled_kalloc fun page => ?_
    cases page with
    | none => exact .bind (settled_uvmdealloc _ _ _) fun _ => .pure false
    | some page =>
      refine .bind (settled_mappages _ _ _ _ _) fun _ => .ite (ih _) ?_
      exact .bind (settled_kfree page) fun _ =>
        .bind (settled_uvmdealloc _ _ _) fun _ => .pure false

/-- Success and failure of `uvmalloc` alike. -/
theorem settled_uvmalloc (oldsz newsz : Nat) (xperm : Perm) :
    Respects Settled undangled (uvmalloc t oldsz newsz xperm) :=
  .ite (.pure oldsz) (.bind (settled_alloc_from _ _ _ _ _) fun _ => .ite (.pure newsz) (.pure 0))

end

/-- When memory runs out, what was copied goes through `uvmunmap`; the new table stays. -/
theorem settled_copy_from (old new : TableId) (n i : Nat) :
    Respects Settled undangled (copyFrom old new n i) := by
  induction n generalizing i with
  | zero => exact .pure true
  | succ n ih =>
    refine .bind (settled_walk _ _ _) fun _ => .ite ?_ (.kpanic (undangled_panic _))
    refine .bind (settled_read_leaf _ _) fun leaf => ?_
    cases leaf with
    | none => exact .kpanic (undangled_panic _)
    | some leaf =>
      refine .bind settled_kalloc fun page => ?_
      cases page with
      | none => exact .bind (settled_uvmunmap _ _ _ _) fun _ => .pure false
      | some page =>
        refine .bind (settled_mappages _ _ _ _ _) fun _ => .ite (ih _) ?_
        exact .bind (settled_kfree page) fun _ =>
          .bind (settled_uvmunmap _ _ _ _) fun _ => .pure false

/-- `uvmcopy` fills a table that is in use already. -/
theorem settled_uvmcopy (old new : TableId) (sz : Nat) :
    Respects Settled undangled (uvmcopy old new sz) :=
  settled_copy_from _ _ _ _

/-- `uvmclear` rewrites one entry. -/
theorem settled_uvmclear (t : TableId) (va : Nat) :
    Respects Settled undangled (uvmclear t va) := by
  refine .bind (settled_walk _ _ _) fun _ => .ite ?_ (.kpanic (undangled_panic _))
  refine .bind (settled_read_leaf _ _) fun leaf => ?_
  cases leaf with
  | none => exact .pure ()
  | some leaf => exact settled_write_leaf _ _ _

/-- Bytes are stored to pages, not to tables. -/
theorem settled_copyout_from (t : TableId) (n v offset : Nat) (src : List Byte) :
    Respects Settled undangled (copyoutFrom t n v offset src) := by
  have hstore (page : Page) (offset : Nat) (bytes : List Byte) :
      Respects Settled undangled (store page offset bytes) := fun _ => ⟨rfl, le_rfl⟩
  induction n generalizing v offset src with
  | zero => exact .pure true
  | succ n ih =>
    refine .ite (.pure false) (.bind (settled_walk _ _ _) fun _ => .ite ?_ (.pure false))
    refine .bind (settled_read_leaf _ _) fun leaf => ?_
    cases leaf with
    | none => exact .pure false
    | some leaf => exact .ite (.bind (hstore _ _ _) fun _ => ih _ _ _) (.pure false)

/-- `copyout` of nothing does not even look. -/
theorem settled_copyout (t : TableId) (dstva : Nat) (src : List Byte) :
    Respects Settled undangled (copyout t dstva src) :=
  .ite (.pure true) (settled_copyout_from _ _ _ _ _)

/-! ## Creation and release -/

/-- Numbers of tables in use are below the next number. -/
def Mem.Numbered (m : Mem) : Prop := ∀ t ∈ m.live, t < m.nextTable

/-- With the same tables in use the next number is still above them. -/
theorem Settled.numbered (h : Settled m m') (hm : m.Numbered) : m'.Numbered := by
  intro t ht
  rw [h.live] at ht
  exact (hm t ht).trans_le h.next

/-- The table `t` has come into use. -/
structure Added (t : TableId) (m m' : Mem) : Prop where
  fresh : t ∉ m.live
  live : m'.live = insert t m.live
  next : m.nextTable ≤ m'.nextTable
  numbered : m'.Numbered

/-- The table `t` is no longer in use. -/
structure Removed (t : TableId) (m m' : Mem) : Prop where
  live : m'.live = m.live \ {t}
  next : m.nextTable ≤ m'.nextTable

/-- What follows the creation leaves the tables alone. -/
theorem Added.settled (h : Added t m m') (h' : Settled m' m'') : Added t m m'' :=
  ⟨h.fresh, h'.live.trans h.live, h.next.trans h'.next, h'.numbered h.numbered⟩

/-- A table that came and went again. -/
theorem Added.removed (h : Added t m m') (h' : Removed t m' m'') : Settled m m'' := by
  refine ⟨?_, h.next.trans h'.next⟩
  rw [h'.live, h.live, Set.insert_sdiff_of_mem _ (Set.mem_singleton t),
    Set.sdiff_singleton_eq_self h.fresh]

/-- What comes before the creation leaves the tables alone. -/
theorem Settled.added (h : Settled m m') (h' : Added t m' m'') : Added t m m'' :=
  ⟨h.live ▸ h'.fresh, by rw [h'.live, h.live], h.next.trans h'.next, h'.numbered⟩

/-- What comes before the release leaves the tables alone. -/
theorem Settled.removed (h : Settled m m') (h' : Removed t m' m'') : Removed t m m'' :=
  ⟨by rw [h'.live, h.live], h.next.trans h'.next⟩

/-- With fewer tables in use the next number is above them all the more. -/
theorem Removed.numbered (h : Removed t m m') (hm : m.Numbered) : m'.Numbered := by
  intro t' ht'
  rw [h.live] at ht'
  exact (hm t' ht'.1).trans_le h.next

/-- The pages of a table go back one by one. -/
theorem settled_free_all (pages : List Page) : Respects Settled E (freeAll pages) := by
  induction pages with
  | nil => exact .pure ()
  | cons page rest ih => exact .bind (settled_kfree page) fun _ => ih

/-- `freewalk` panics on a table with entries, and ends the use of an empty one. -/
theorem wp_freewalk : wp (freewalk t) undangled (fun _ m' => Removed t m m') m := by
  simp only [freewalk, table, wp_bind, wp_get]
  cases m.tables t with
  | none => exact undangled_wild
  | some pt =>
    simp only [wp_pure, wp_ite, wp_kpanic, wp_bind]
    refine ⟨fun _ => undangled_panic _, fun _ => ?_⟩
    refine (settled_free_all _).next fun _ m1 h1 => (settled_kfree pt.root).next fun _ m2 h2 => ?_
    have hall := h1.trans h2
    refine hall.removed ⟨Set.ext fun t' => ?_, le_refl _⟩
    by_cases h : t' = t
    · subst h
      simp [Mem.live, Mem.Live]
    · simp [Mem.live, Mem.Live, h]

/-- `uvmfree` unmaps the pages below the size, and then frees the table. -/
theorem wp_uvmfree (sz : Nat) : wp (uvmfree t sz) undangled (fun _ m' => Removed t m m') m := by
  simp only [uvmfree]
  split
  next =>
    rw [wp_bind]
    exact (settled_uvmunmap _ _ _ _).next fun _ m1 h1 =>
      wp_mono wp_freewalk fun _ _ h => h1.removed h
  next => exact wp_freewalk

/-- `uvmcreate` numbers its table with the next number, or changes nothing. -/
theorem wp_uvmcreate (hm : m.Numbered) :
    wp uvmcreate E (fun r m' => (r = none → m' = m) ∧ ∀ t, r = some t → Added t m m') m := by
  simp only [uvmcreate, kalloc, wp_bind, wp_get]
  cases m.free with
  | nil => exact ⟨fun _ => rfl, by simp⟩
  | cons page rest =>
    refine ⟨by simp, fun t ht => ?_⟩
    obtain rfl : m.nextTable = t := Option.some.inj ht
    have hlive : ∀ tables, tables = Function.update m.tables m.nextTable
        (some (⟨page, ∅, ∅⟩ : PageTable)) →
        Mem.live ⟨rest, tables, m.nextTable + 1, m.stores⟩ = insert m.nextTable m.live := by
      rintro tables rfl
      refine Set.ext fun t' => ?_
      by_cases h : t' = m.nextTable
      · subst h
        simp [Mem.live, Mem.Live]
      · simp [Mem.live, Mem.Live, h]
    refine ⟨fun h => absurd (hm _ h) (lt_irrefl _), hlive _ rfl,
      Nat.le_succ _, fun t' ht' => ?_⟩
    rw [show Mem.live _ = _ from hlive _ rfl] at ht'
    rcases ht' with rfl | ht'
    · exact Nat.lt_succ_self _
    · exact (hm t' ht').trans (Nat.lt_succ_self _)

end Xv6.Thread
