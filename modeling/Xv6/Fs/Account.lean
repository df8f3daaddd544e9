import Xv6.Fs.Symlink
import Xv6.Lib.Count

/-!
# Reference counts between open files, directories and calls

`Accounted s l k` says that the reference count of every inode is the number of open files and
working directories that point to it plus the references `l` of the call that is running, which
has locked `k`. An inode that a file or a process points to is therefore never freed under it, and
`Calm` says what that leaves for a call to change: no inode in use changes its type, and symbolic
links and directories keep their contents unless the call makes or removes names.
-/

namespace Xv6.Fs.Files

open Function

variable {α : Type} {s s' s'' s0 : State} {p : Pid} {i j ip dp : Inum} {l l' k k' : List Inum}
  {lost : Inum → Prop} {d : Prop} {x : Option Inum} {name path : Str}

/-- The machine may stop, but not by an access outside a buffer. -/
def tame : Fault → Prop
  | .wild => False
  | .panic _ | .hang | .dangling => True

/-- An open file that refers to an inode. -/
def File.live (f : File) : Prop := 0 < f.ref ∧ f.type ≠ .none

instance (f : File) : Decidable f.live := inferInstanceAs (Decidable (_ ∧ _))

/-- The number of open files on an inode. -/
def State.files (s : State) (i : Inum) : Nat :=
  (Finset.univ.filter fun f => (s.file f).live ∧ (s.file f).ip = i).card

/-- The number of processes whose working directory an inode is. -/
def State.cwds (s : State) (i : Inum) : Nat :=
  (Finset.univ.filter fun p => (s.proc p).cwd = i).card

/-- A file or a process refers to the inode. -/
def State.InUse (s : State) (i : Inum) : Prop := 0 < s.files i + s.cwds i

/-- The references are those of files, processes and `l`, and the locks are `k`. An inode without
links is in use or about to be freed, unless it was `lost` from the start. -/
structure Accounted (lost : Inum → Prop) (s : State) (l k : List Inum) : Prop where
  refs : ∀ i, s.ref i = s.files i + s.cwds i + l.count i
  locks : ∀ i, s.locked i = decide (i ∈ k)
  held : ∀ i ∈ k, 0 < s.ref i ∧ s.valid i = true
  filled : ∀ i, 0 < s.ref i → s.valid i = true → (s.node i).kind ≠ .free
  kept : ∀ i, s.InUse i → (s.node i).kind ≠ .free
  linked : ∀ i, ¬ lost i → (s.node i).kind ≠ .free → (s.node i).nlink = 0 →
    0 < s.ref i ∧ s.valid i = true
  closed : ∀ f, (s.file f).ref = 0 → (s.file f).type = .none

/-- What a call changes: directories only if `d`, and symbolic links only `x`. -/
structure Calm (d : Prop) (x : Option Inum) (s s' : State) : Prop where
  file : s'.file = s.file
  proc : s'.proc = s.proc
  kind : ∀ i, s.InUse i → (s'.node i).kind = (s.node i).kind
  link : ∀ i, some i ≠ x → (s'.node i).kind = .symlink →
    (s.node i).kind = .symlink ∧ (s'.node i).data = (s.node i).data
  dir : ¬ d → ∀ i, (s'.node i).kind = .dir →
    (s.node i).kind = .dir ∧ (s'.node i).data = (s.node i).data

/-- The state of a running call that started in `s0`. -/
structure Within (lost : Inum → Prop) (d : Prop) (x : Option Inum) (s0 : State) (l k : List Inum)
    (s : State) : Prop where
  accounted : Accounted lost s l k
  calm : Calm d x s0 s

/-- The open files depend on the file table only. -/
theorem files_congr (h : s'.file = s.file) : s'.files = s.files := by
  unfold State.files
  rw [h]

/-- The working directories depend on the processes only. -/
theorem cwds_congr (h : s'.proc = s.proc) : s'.cwds = s.cwds := by
  unfold State.cwds
  rw [h]

/-- So an inode is in use by these two tables. -/
theorem in_use_congr (hfile : s'.file = s.file) (hproc : s'.proc = s.proc) (i : Inum) :
    s'.InUse i ↔ s.InUse i := by
  unfold State.InUse
  rw [files_congr hfile, cwds_congr hproc]

/-- Nothing happens. -/
theorem Calm.refl (s : State) : Calm d x s s :=
  ⟨rfl, rfl, fun _ _ => rfl, fun _ _ h => ⟨h, rfl⟩, fun _ _ h => ⟨h, rfl⟩⟩

/-- One step after another. -/
theorem Calm.trans (h : Calm d x s s') (h' : Calm d x s' s'') : Calm d x s s'' := by
  refine ⟨h'.file.trans h.file, h'.proc.trans h.proc, fun i hi => ?_, fun i hx hkind => ?_,
    fun hd i hkind => ?_⟩
  · exact (h'.kind i ((in_use_congr h.file h.proc i).mpr hi)).trans (h.kind i hi)
  · obtain ⟨hkind', hdata'⟩ := h'.link i hx hkind
    obtain ⟨hkind'', hdata⟩ := h.link i hx hkind'
    exact ⟨hkind'', hdata'.trans hdata⟩
  · obtain ⟨hkind', hdata'⟩ := h'.dir hd i hkind
    obtain ⟨hkind'', hdata⟩ := h.dir hd i hkind'
    exact ⟨hkind'', hdata'.trans hdata⟩

/-- Nothing changes that the relation is about. -/
theorem Calm.of_node (hnode : s'.node = s.node) (hfile : s'.file = s.file)
    (hproc : s'.proc = s.proc) : Calm d x s s' := by
  refine ⟨hfile, hproc, fun i _ => ?_, fun i _ hkind => ?_, fun _ i hkind => ?_⟩
  · rw [hnode]
  · rw [hnode] at hkind ⊢
    exact ⟨hkind, rfl⟩
  · rw [hnode] at hkind ⊢
    exact ⟨hkind, rfl⟩

/-- Only fields of `i` change, and not its type. -/
theorem Calm.of_update {y : Node} (hnode : s'.node = update s.node i y)
    (hfile : s'.file = s.file) (hproc : s'.proc = s.proc) (hkind : y.kind = (s.node i).kind)
    (hlink : some i ≠ x → (s.node i).kind = .symlink → y.data = (s.node i).data)
    (hdir : ¬ d → (s.node i).kind = .dir → y.data = (s.node i).data) : Calm d x s s' := by
  have hself : s'.node i = y := by rw [hnode, update_self]
  have hother : ∀ j, j ≠ i → s'.node j = s.node j := by
    intro j hj
    rw [hnode, update_of_ne hj]
  refine ⟨hfile, hproc, fun j _ => ?_, fun j hx hj => ?_, fun hd j hj => ?_⟩
  · by_cases hji : j = i
    · rw [hji, hself, hkind]
    · rw [hother j hji]
  · by_cases hji : j = i
    · rw [hji, hself] at hj ⊢
      rw [hji] at hx
      exact ⟨hkind.symm.trans hj, hlink hx (hkind.symm.trans hj)⟩
    · rw [hother j hji] at hj ⊢
      exact ⟨hj, rfl⟩
  · by_cases hji : j = i
    · rw [hji, hself] at hj ⊢
      exact ⟨hkind.symm.trans hj, hdir hd (hkind.symm.trans hj)⟩
    · rw [hother j hji] at hj ⊢
      exact ⟨hj, rfl⟩

/-- The inode table, the files and the processes are as before. -/
structure SameTable (s s' : State) : Prop where
  file : s'.file = s.file
  proc : s'.proc = s.proc
  ref : s'.ref = s.ref
  valid : s'.valid = s.valid
  locked : s'.locked = s.locked

namespace Accounted

/-- The order of references and locks does not matter. -/
theorem perm (h : Accounted lost s l k) (hl : l.Perm l') (hk : ∀ i, i ∈ k ↔ i ∈ k') :
    Accounted lost s l' k' := by
  refine { h with refs := fun i => ?_, locks := fun i => ?_, held := fun i hi => ?_ }
  · rw [h.refs, hl.count_eq]
  · rw [h.locks]
    simp only [hk i]
  · exact h.held i ((hk i).mpr hi)

/-- An inode that the code holds has a reference. -/
theorem ref_pos (h : Accounted lost s (i :: l) k) : 0 < s.ref i := by
  rw [h.refs, List.count_cons_self]
  omega

/-- So has an inode of an open file or a working directory. -/
theorem ref_of_in_use (h : Accounted lost s l k) (hi : s.InUse i) : 0 < s.ref i := by
  rw [h.refs]
  exact Nat.lt_of_lt_of_le hi (Nat.le_add_right _ _)

/-- A change of fields of inodes, but not of their types. -/
theorem of_same (h : Accounted lost s l k) (hsame : SameTable s s')
    (hkind : ∀ i, (s'.node i).kind = (s.node i).kind)
    (hnlink : ∀ i, (s'.node i).nlink = (s.node i).nlink ∨ i ∈ k) : Accounted lost s' l k := by
  refine ⟨?_, ?_, ?_, ?_, ?_, ?_, ?_⟩
  · rw [hsame.ref, files_congr hsame.file, cwds_congr hsame.proc]
    exact h.refs
  · rw [hsame.locked]
    exact h.locks
  · rw [hsame.ref, hsame.valid]
    exact h.held
  · intro i hr hv
    rw [hsame.ref] at hr
    rw [hsame.valid] at hv
    rw [hkind]
    exact h.filled i hr hv
  · intro i hi
    rw [hkind]
    exact h.kept i ((in_use_congr hsame.file hsame.proc i).mp hi)
  · intro i hi hfree hzero
    rw [hkind] at hfree
    rw [hsame.ref, hsame.valid]
    rcases hnlink i with hold | hlocked
    · exact h.linked i hi hfree (hold ▸ hzero)
    · exact h.held i hlocked
  · rw [hsame.file]
    exact h.closed

/-- One entry of the inode table changes, and what the call has of it. -/
theorem of_inode (h : Accounted lost s l k) (hfile : s'.file = s.file) (hproc : s'.proc = s.proc)
    (hothers : ∀ j, j ≠ i → s'.ref j = s.ref j ∧ s'.valid j = s.valid j ∧
      s'.locked j = s.locked j ∧ s'.node j = s.node j)
    (hcall : ∀ j, j ≠ i → l'.count j = l.count j ∧ (j ∈ k' ↔ j ∈ k))
    (hrefs : s'.ref i = s.files i + s.cwds i + l'.count i)
    (hlocks : s'.locked i = decide (i ∈ k')) (hheld : i ∈ k' → 0 < s'.ref i ∧ s'.valid i = true)
    (hfilled : 0 < s'.ref i → s'.valid i = true → (s'.node i).kind ≠ .free)
    (hkept : s.InUse i → (s'.node i).kind ≠ .free)
    (hlinked : ¬ lost i → (s'.node i).kind ≠ .free → (s'.node i).nlink = 0 →
      0 < s'.ref i ∧ s'.valid i = true) : Accounted lost s' l' k' := by
  have huse := in_use_congr hfile hproc
  suffices hall : ∀ j, (s'.ref j = s.files j + s.cwds j + l'.count j ∧
      s'.locked j = decide (j ∈ k') ∧ (j ∈ k' → 0 < s'.ref j ∧ s'.valid j = true)) ∧
      (0 < s'.ref j → s'.valid j = true → (s'.node j).kind ≠ .free) ∧
      (s.InUse j → (s'.node j).kind ≠ .free) ∧
      (¬ lost j → (s'.node j).kind ≠ .free → (s'.node j).nlink = 0 →
        0 < s'.ref j ∧ s'.valid j = true) by
    refine ⟨fun j => ?_, fun j => (hall j).1.2.1, fun j => (hall j).1.2.2, fun j => (hall j).2.1,
      fun j hj => (hall j).2.2.1 ((huse j).mp hj), fun j => (hall j).2.2.2, ?_⟩
    · rw [files_congr hfile, cwds_congr hproc]
      exact (hall j).1.1
    · rw [hfile]
      exact h.closed
  intro j
  by_cases hj : j = i
  · subst hj
    exact ⟨⟨hrefs, hlocks, hheld⟩, hfilled, hkept, hlinked⟩
  · obtain ⟨href, hvalid, hlocked, hnode⟩ := hothers j hj
    simp only [href, hvalid, hlocked, hnode, hcall j hj]
    exact ⟨⟨h.refs j, h.locks j, h.held j⟩, h.filled j, h.kept j, h.linked j⟩

end Accounted

/-! ## The inode table -/

section Table

variable {Q : Unit → State → Prop}

/-- `iget` takes a reference, or panics when the table is full. -/
theorem account_iget (h : Within lost d x s0 l k s)
    (hQ : ∀ s', Within lost d x s0 (i :: l) k s' → s'.node = s.node → Q () s') :
    wp (iget i) tame Q s := by
  have ha := h.accounted
  simp only [iget, wp_bind, wp_get]
  split
  next hpos =>
    refine hQ _ ⟨ha.of_inode (i := i) rfl rfl (fun j hj => ⟨update_of_ne hj _ _, rfl, rfl, rfl⟩)
      (fun j hj => ⟨List.count_cons_of_ne (Ne.symm hj), Iff.rfl⟩) ?_ (ha.locks i) (fun hi => ?_)
      (fun _ => ha.filled i hpos) (ha.kept i) fun hi hfree hzero => ?_,
      h.calm.trans (Calm.of_node rfl rfl rfl)⟩ rfl
    · rw [List.count_cons_self, ← Nat.add_assoc, ← ha.refs]
      exact update_self ..
    · exact ⟨by simp, (ha.held i hi).2⟩
    · exact ⟨by simp, (ha.linked i hi hfree hzero).2⟩
  next hnone =>
    have hzero : s.ref i = 0 := by omega
    split
    next => trivial
    next =>
      refine hQ _ ⟨ha.of_inode (i := i) rfl rfl
        (fun j hj => ⟨update_of_ne hj _ _, update_of_ne hj _ _, rfl, rfl⟩)
        (fun j hj => ⟨List.count_cons_of_ne (Ne.symm hj), Iff.rfl⟩) ?_ (ha.locks i) (fun hi => ?_)
        (fun _ hv => ?_) (ha.kept i) fun hi hfree hz => ?_,
        h.calm.trans (Calm.of_node rfl rfl rfl)⟩ rfl
      · rw [List.count_cons_self, ← Nat.add_assoc, ← ha.refs, hzero]
        exact update_self ..
      · exact absurd (ha.held i hi).1 hnone
      · exact absurd (hv.symm.trans (update_self ..)) (by decide)
      · exact absurd (ha.linked i hi hfree hz).1 hnone

/-- `ilock` takes the lock of an inode that is not free, or panics. -/
theorem account_ilock (h : Within lost d x s0 l k s)
    (hQ : ∀ s', Within lost d x s0 l (i :: k) s' → i ∉ k → (s.node i).kind ≠ .free →
      s'.node = s.node → Q () s') : wp (ilock i) tame Q s := by
  have ha := h.accounted
  simp only [ilock, wp_bind, wp_get]
  split
  next => trivial
  next hpos =>
    split
    next => trivial
    next hunlocked =>
      have hk : i ∉ k := by
        intro hk
        rw [ha.locks] at hunlocked
        exact hunlocked (decide_eq_true hk)
      split
      next => trivial
      next hold =>
        have hkind : (s.node i).kind ≠ .free := by
          intro hfree
          cases hv : s.valid i with
          | false => exact hold ⟨hv, hfree⟩
          | true => exact ha.filled i (by omega) hv hfree
        refine hQ _ ⟨ha.of_inode (i := i) rfl rfl
          (fun j hj => ⟨rfl, update_of_ne hj _ _, update_of_ne hj _ _, rfl⟩)
          (fun j hj => ⟨rfl, List.mem_cons.trans (or_iff_right hj)⟩) (ha.refs i) ?_ (fun _ => ?_)
          (fun _ _ => hkind) (fun _ => hkind) fun hi hfree hzero => ?_,
          h.calm.trans (Calm.of_node rfl rfl rfl)⟩ hk hkind rfl
        · rw [decide_eq_true List.mem_cons_self]
          exact update_self ..
        · exact ⟨Nat.not_lt.mp hpos, update_self ..⟩
        · exact ⟨(ha.linked i hi hfree hzero).1, update_self ..⟩

/-- `iunlock` gives the lock back. -/
theorem account_iunlock (h : Within lost d x s0 l (i :: k) s) (hk : i ∉ k)
    (hQ : ∀ s', Within lost d x s0 l k s' → s'.node = s.node → Q () s') :
    wp (iunlock i) tame Q s := by
  have ha := h.accounted
  simp only [iunlock, wp_bind, wp_get]
  split
  next => trivial
  next =>
    refine hQ _ ⟨ha.of_inode (i := i) rfl rfl (fun j hj => ⟨rfl, rfl, update_of_ne hj _ _, rfl⟩)
      (fun j hj => ⟨rfl, (List.mem_cons.trans (or_iff_right hj)).symm⟩) (ha.refs i) ?_
      (fun hi => absurd hi hk) (ha.filled i) (ha.kept i) (ha.linked i),
      h.calm.trans (Calm.of_node rfl rfl rfl)⟩ rfl
    rw [decide_eq_false hk]
    exact update_self ..

/-- `iput` may free the inode, if nothing refers to it. -/
theorem account_iput (h : Within lost d x s0 (i :: l) k s) (hk : i ∈ k → 1 < s.ref i)
    (hQ : ∀ s', Within lost d x s0 l k s' → (∀ j ∈ k, s'.node j = s.node j) →
      (s.ref i = 1 → s.valid i = true → (s.node i).nlink = 0 → (s'.node i).kind = .free) →
      Q () s') : wp (iput i) tame Q s := by
  have ha := h.accounted
  have hpos := ha.ref_pos
  have hrefs : update s.ref i (s.ref i - 1) i = s.files i + s.cwds i + l.count i := by
    rw [update_self, ha.refs, List.count_cons_self]
    omega
  have hcall : ∀ j, j ≠ i → l.count j = (i :: l).count j ∧ (j ∈ k ↔ j ∈ k) := fun j hj =>
    ⟨(List.count_cons_of_ne (Ne.symm hj)).symm, Iff.rfl⟩
  simp only [iput, dropRef, wp_bind, wp_get]
  split
  next hlast =>
    obtain ⟨hone, hvalid, hnlink⟩ := hlast
    split
    next => trivial
    next hunlocked =>
      have hne : ∀ j ∈ k, j ≠ i := by
        rintro j hj rfl
        have hmore := hk hj
        omega
      have hcount := ha.refs i
      rw [List.count_cons_self, hone] at hcount
      have hunused : ¬ s.InUse i := by
        unfold State.InUse
        omega
      simp only [itrunc, setNode, wp_bind, wp_modify, update_self, update_idem]
      obtain ⟨y, hy⟩ : ∃ y : Node, y = { s.node i with data := [], kind := .free } := ⟨_, rfl⟩
      have hfreed : y.kind = .free := by rw [hy]
      rw [← hy]
      have hnode : ∀ j, j ≠ i → update s.node i y j = s.node j := fun j hj =>
        update_of_ne hj _ _
      have hself : update s.node i y i = y := update_self ..
      refine hQ _ ⟨?_, h.calm.trans ⟨rfl, rfl, fun j hj => ?_, fun j _ hj => ?_,
        fun _ j hj => ?_⟩⟩ (fun j hj => hnode j (hne j hj)) fun _ _ _ => ?_
      · refine ha.of_inode (i := i) rfl rfl
          (fun j hj => ⟨update_of_ne hj _ _, update_of_ne hj _ _, rfl, hnode j hj⟩) hcall hrefs
          (ha.locks i) (fun hi => absurd rfl (hne i hi)) (fun _ hv => ?_)
          (fun hi => absurd hi hunused) fun _ hfree => ?_
        · exact absurd (hv.symm.trans (update_self ..)) (by decide)
        · exact absurd ((congrArg Node.kind hself).trans hfreed) hfree
      · dsimp only
        rw [hnode j fun hji => hunused (hji ▸ hj)]
      · dsimp only at hj ⊢
        by_cases hji : j = i
        · rw [hji, hself, hfreed] at hj
          cases hj
        · rw [hnode j hji] at hj ⊢
          exact ⟨hj, rfl⟩
      · dsimp only at hj ⊢
        by_cases hji : j = i
        · rw [hji, hself, hfreed] at hj
          cases hj
        · rw [hnode j hji] at hj ⊢
          exact ⟨hj, rfl⟩
      · exact (congrArg Node.kind hself).trans hfreed
  next hkeep =>
    rw [wp_modify]
    have hleft : 0 < update s.ref i (s.ref i - 1) i ↔ 1 < s.ref i := by
      rw [update_self, Nat.sub_pos_iff_lt]
    refine hQ _ ⟨ha.of_inode (i := i) rfl rfl (fun j hj => ⟨update_of_ne hj _ _, rfl, rfl, rfl⟩)
      hcall hrefs (ha.locks i) (fun hi => ?_) (fun _ => ha.filled i hpos) (ha.kept i)
      fun hi hfree hzero => ?_, h.calm.trans (Calm.of_node rfl rfl rfl)⟩ (fun _ _ => rfl)
      fun h1 h2 h3 => absurd ⟨h1, h2, h3⟩ hkeep
    · exact ⟨hleft.mpr (hk hi), (ha.held i hi).2⟩
    · have hv := (ha.linked i hi hfree hzero).2
      have hone : s.ref i ≠ 1 := fun hone => hkeep ⟨hone, hv, hzero⟩
      exact ⟨hleft.mpr (by omega), hv⟩

/-- What is left of the references, as seen from the start of the call. -/
theorem Within.ref_eq (h : Within lost d x s0 l k s) (j : Inum) :
    s.ref j = s0.files j + s0.cwds j + l.count j := by
  rw [h.accounted.refs, files_congr h.calm.file, cwds_congr h.calm.proc]

/-- `iunlock` and then `iput`; the inode was valid, as it was locked. -/
theorem account_iunlockput (h : Within lost d x s0 (i :: l) (i :: k) s) (hk : i ∉ k)
    (hQ : ∀ s', Within lost d x s0 l k s' → (∀ j ∈ k, s'.node j = s.node j) →
      (s.ref i = 1 → (s.node i).nlink = 0 → (s'.node i).kind = .free) → Q () s') :
    wp (iunlockput i) tame Q s := by
  unfold iunlockput
  rw [wp_bind]
  have hvalid : wp (iunlock i) tame (fun _ s1 => s1.valid = s.valid) s := by
    simp only [iunlock, wp_bind, wp_get]
    split
    · trivial
    · rfl
  have hunlock := account_iunlock h hk (Q := fun _ s1 => Within lost d x s0 (i :: l) k s1 ∧
    s1.node = s.node) fun s1 h1 hn => ⟨h1, hn⟩
  refine wp_mono (wp_and hunlock hvalid) fun _ s1 hs1 => ?_
  obtain ⟨⟨h1, hnode⟩, hvalid⟩ := hs1
  refine account_iput h1 (fun hin => absurd hin hk) fun s2 h2 hsame hfreed => ?_
  refine hQ s2 h2 (fun j hj => ?_) fun hone hzero => ?_
  · rw [hsame j hj, hnode]
  · refine hfreed ?_ ?_ (by rw [hnode, hzero])
    · rw [h1.ref_eq, ← h.ref_eq, hone]
    · rw [hvalid]
      exact (h.accounted.held i List.mem_cons_self).2

/-- `idup` takes one more reference to an inode in use. -/
theorem account_idup (h : Within lost d x s0 l k s) (hi : s.InUse i)
    (hQ : ∀ s', Within lost d x s0 (i :: l) k s' → s'.node = s.node → Q () s') :
    wp (idup i) tame Q s := by
  have ha := h.accounted
  have hpos := ha.ref_of_in_use hi
  have hsame : wp (idup i) tame Q s ↔ wp (iget i) tame Q s := by
    simp only [idup, iget, wp_bind, wp_get, wp_modify]
    rw [if_pos hpos]
    rfl
  rw [hsame]
  exact account_iget h hQ

/-- Fields of a locked inode change, but not its type. -/
theorem account_set_node {f : Node → Node} (h : Within lost d x s0 l k s) (hk : i ∈ k)
    (hkind : (f (s.node i)).kind = (s.node i).kind)
    (hdata : (f (s.node i)).data = (s.node i).data)
    (hQ : ∀ s', Within lost d x s0 l k s' →
      s'.node = update s.node i (f (s.node i)) → s'.ref = s.ref → Q () s') :
    wp (setNode i f) tame Q s := by
  refine hQ _ ⟨h.accounted.of_same ⟨rfl, rfl, rfl, rfl, rfl⟩ (fun j => ?_) fun j => ?_,
    h.calm.trans (Calm.of_update rfl rfl rfl hkind (fun _ _ => hdata) fun _ _ => hdata)⟩ rfl rfl
  · show (update s.node i (f (s.node i)) j).kind = _
    by_cases hj : j = i
    · rw [hj, update_self, hkind]
    · rw [update_of_ne hj]
  · show (update s.node i (f (s.node i)) j).nlink = _ ∨ _
    by_cases hj : j = i
    · right
      rw [hj]
      exact hk
    · left
      rw [update_of_ne hj]

/-- `writei` to an inode whose contents may change. -/
theorem account_writei {user : Bool} {src : List Byte} {off : Nat} {Q : Int → State → Prop}
    (h : Within lost d x s0 l k s) (hlink : some i ≠ x → (s.node i).kind ≠ .symlink)
    (hdir : (s.node i).kind = .dir → d)
    (hQ : ∀ r s', Within lost d x s0 l k s' → (∀ j, j ≠ i → s'.node j = s.node j) →
      (s'.node i).kind = (s.node i).kind → (s'.node i).nlink = (s.node i).nlink → Q r s') :
    wp (writei i user src off) tame Q s := by
  refine wp_writei (hQ _ s h (fun _ _ => rfl) rfl rfl) fun tot spilt _ _ _ => ?_
  obtain ⟨y, hy⟩ : ∃ y : Node, y = { s.node i with
      data := (overwrite (s.node i).data off (src.take (tot + spilt))).take
        (max (s.node i).data.length (off + tot)) } := ⟨_, rfl⟩
  have hkind : y.kind = (s.node i).kind := by rw [hy]
  have hnlink : y.nlink = (s.node i).nlink := by rw [hy]
  rw [← hy]
  -- only the contents of `i` change
  have hsame : ∀ j, (update s.node i y j).kind = (s.node j).kind ∧
      (update s.node i y j).nlink = (s.node j).nlink := by
    intro j
    by_cases hj : j = i
    · subst hj
      rw [update_self]
      exact ⟨hkind, hnlink⟩
    · rw [update_of_ne hj]
      exact ⟨rfl, rfl⟩
  refine hQ _ _ ⟨h.accounted.of_same ⟨rfl, rfl, rfl, rfl, rfl⟩ (fun j => (hsame j).1)
    fun j => Or.inl (hsame j).2, h.calm.trans (Calm.of_update rfl rfl rfl hkind
      (fun hx hl => absurd hl (hlink hx)) fun hd hdr => absurd (hdir hdr) hd)⟩
    (fun j hj => update_of_ne hj _ _) (hsame i).1 (hsame i).2

end Table

/-! ## Directories and paths -/

/-- `dirlookup` holds the inode that it finds. -/
theorem account_dirlookup {Q : Option (Inum × Nat) → State → Prop}
    (h : Within lost d x s0 l k s)
    (hnone : (s.node dp).kind = .dir → Q none s)
    (hsome : ∀ i off s', (s.node dp).kind = .dir → Within lost d x s0 (i :: l) k s' →
      s'.node = s.node → Q (some (i, off)) s') :
    wp (dirlookup dp name) tame Q s := by
  simp only [dirlookup, wp_bind, wp_get]
  split
  next => trivial
  next hdir =>
    have hkind : (s.node dp).kind = .dir := not_not.mp hdir
    cases (s.node dp).scan (named name) with
    | none => trivial
    | some found =>
      cases found with
      | none => exact hnone hkind
      | some entry =>
        obtain ⟨off, i⟩ := entry
        rw [wp_bind]
        exact account_iget h fun s' h' hnode => hsome i off s' hkind h' hnode

/-- `dirlink` changes the contents of its directory only, and gives back what it looks up. -/
theorem account_dirlink {inum : Inum} {Q : Bool → State → Prop} (hd : d)
    (h : Within lost d x s0 l k s)
    (hQ : ∀ r s', Within lost d x s0 l k s' →
      (∀ j ∈ k, (s'.node j).kind = (s.node j).kind ∧ (s'.node j).nlink = (s.node j).nlink ∧
        (j ≠ dp → s'.node j = s.node j)) → Q r s') :
    wp (dirlink dp name inum) tame Q s := by
  unfold dirlink
  rw [wp_bind]
  refine account_dirlookup h (fun hkind => ?_) fun i off s1 _ h1 hnode => ?_
  · dsimp only
    rw [wp_bind, wp_get]
    cases (s.node dp).scan fun de => decide (entryInum de = 0) with
    | none => trivial
    | some slot =>
      dsimp only
      rw [wp_bind]
      refine account_writei h (fun _ hlink => ?_) (fun _ => hd) fun r s1 h1 hother hk hn => ?_
      · rw [hkind] at hlink
        cases hlink
      · refine hQ _ s1 h1 fun j _ => ?_
        by_cases hj : j = dp
        · subst hj
          exact ⟨hk, hn, fun hne => absurd rfl hne⟩
        · rw [hother j hj]
          exact ⟨rfl, rfl, fun _ => rfl⟩
  · dsimp only
    rw [wp_bind]
    refine account_iput h1 (fun hi => ?_) fun s2 h2 hsame _ => hQ _ s2 h2 fun j hj => ?_
    · have hpos := (h.accounted.held i hi).1
      have href := h.ref_eq i
      rw [h1.ref_eq, List.count_cons_self]
      omega
    · rw [hsame j hj, hnode]
      exact ⟨rfl, rfl, fun _ => rfl⟩

/-- `namex` holds a reference to what it has found, and no lock. -/
theorem account_namex_loop {parent : Bool} {n : Nat} {Q : Option (Inum × Str) → State → Prop}
    (h : Within lost d x s0 (i :: l) [] s)
    (hnone : ∀ s', Within lost d x s0 l [] s' → Q none s')
    (hsome : ∀ j name s', Within lost d x s0 (j :: l) [] s' → Q (some (j, name)) s') :
    wp (namexLoop parent n i path) tame Q s := by
  induction n generalizing i path s with
  | zero => trivial
  | succ n ih =>
    unfold namexLoop
    cases skipelem path with
    | none =>
      dsimp only
      split
      next =>
        rw [wp_bind]
        exact account_iput h (fun hi => by cases hi) fun s1 h1 _ _ => hnone s1 h1
      next => exact hsome i [] s h
    | some elem =>
      obtain ⟨name, rest⟩ := elem
      dsimp only
      rw [wp_bind]
      refine account_ilock h fun s1 h1 hk _ _ => ?_
      rw [wp_bind, wp_get]
      split
      next =>
        rw [wp_bind]
        exact account_iunlockput h1 hk fun s2 h2 _ _ => hnone s2 h2
      next =>
        split
        next =>
          rw [wp_bind]
          exact account_iunlock h1 hk fun s2 h2 _ => hsome i name s2 h2
        next =>
          rw [wp_bind]
          refine account_dirlookup h1 (fun _ => ?_) fun next off s2 _ h2 _ => ?_
          · dsimp only
            rw [wp_bind]
            exact account_iunlockput h1 hk fun s2 h2 _ _ => hnone s2 h2
          · dsimp only
            rw [wp_bind]
            have hswap : Within lost d x s0 (i :: next :: l) [i] s2 :=
              ⟨h2.accounted.perm (List.Perm.swap i next l) fun _ => Iff.rfl, h2.calm⟩
            exact account_iunlockput hswap hk fun s3 h3 _ _ => ih h3

/-- The order of references and locks does not matter. -/
theorem Within.perm (h : Within lost d x s0 l k s) (hl : l.Perm l') (hk : ∀ i, i ∈ k ↔ i ∈ k') :
    Within lost d x s0 l' k' s :=
  ⟨h.accounted.perm hl hk, h.calm⟩

/-- A change outside the table and the inodes. -/
theorem Within.same (h : Within lost d x s0 l k s) (hsame : SameTable s s')
    (hnode : s'.node = s.node) : Within lost d x s0 l k s' := by
  refine ⟨h.accounted.of_same hsame (fun i => ?_) fun i => Or.inl ?_,
    h.calm.trans (Calm.of_node hnode hsame.file hsame.proc)⟩
  · rw [hnode]
  · rw [hnode]

/-- A working directory is in use. -/
theorem in_use_cwd (s : State) (p : Pid) : s.InUse (s.proc p).cwd := by
  have hmem : p ∈ Finset.univ.filter fun q => (s.proc q).cwd = (s.proc p).cwd :=
    Finset.mem_filter.mpr ⟨Finset.mem_univ p, rfl⟩
  have hpos : 0 < s.cwds (s.proc p).cwd := Finset.card_pos.mpr ⟨p, hmem⟩
  unfold State.InUse
  omega

/-- `namex` holds what it returns and nothing else, however it ends. -/
theorem account_namex {parent : Bool} {Q : Option (Inum × Str) → State → Prop}
    (h : Within lost d x s0 l [] s) (hnone : ∀ s', Within lost d x s0 l [] s' → Q none s')
    (hsome : ∀ j name s', Within lost d x s0 (j :: l) [] s' → Q (some (j, name)) s') :
    wp (namex p path parent) tame Q s := by
  simp only [namex, wp_bind, wp_get]
  split
  next =>
    rw [wp_bind]
    exact account_iget h fun s1 h1 _ => account_namex_loop h1 hnone hsome
  next =>
    rw [wp_bind]
    exact account_idup h (in_use_cwd s p) fun s1 h1 _ => account_namex_loop h1 hnone hsome

/-- So does `namei`. -/
theorem account_namei {Q : Option Inum → State → Prop} (h : Within lost d x s0 l [] s)
    (hnone : ∀ s', Within lost d x s0 l [] s' → Q none s')
    (hsome : ∀ j s', Within lost d x s0 (j :: l) [] s' → Q (some j) s') :
    wp (namei p path) tame Q s := by
  unfold namei
  rw [wp_bind]
  exact account_namex h hnone fun j _ s' h' => hsome j s' h'

/-! ## New inodes -/

/-- Once it is locked, a new inode counts as any other. -/
theorem Within.settle (h : Within (fun j => lost j ∨ j = i) d x s0 l k s) (hk : i ∈ k) :
    Within lost d x s0 l k s := by
  refine ⟨{ h.accounted with linked := fun j hj hfree hzero => ?_ }, h.calm⟩
  by_cases hji : j = i
  · rw [hji]
    exact h.accounted.held i hk
  · exact h.accounted.linked j (fun hor => hor.elim hj hji) hfree hzero

/-- The exception for `i` is not needed when it is no symbolic link. -/
theorem Within.narrow (h : Within lost d (some i) s0 l k s) (hkind : (s.node i).kind ≠ .symlink) :
    Within lost d none s0 l k s := by
  refine ⟨h.accounted, { h.calm with link := fun j _ hj => h.calm.link j ?_ hj }⟩
  rintro ⟨⟩
  exact hkind hj

/-- The inode that `ialloc` finds was not in use. It has no link yet. -/
theorem account_ialloc {kind : Kind} {Q : Option Inum → State → Prop}
    (h : Within lost d none s0 l k s) (hkind : kind ≠ .free) (hd : d) (hnone : Q none s)
    (hsome : ∀ i s', Within (fun j => lost j ∨ j = i) d (some i) s0 (i :: l) k s' →
      (s.node i).kind = .free → s'.node = update s.node i { kind := kind } →
      Q (some i) s') : wp (ialloc kind) tame Q s := by
  have ha := h.accounted
  simp only [ialloc, wp_bind, wp_get]
  cases hfind : (List.range' 1 (s.ninodes - 1)).find? fun i => decide ((s.node i).kind = .free) with
  | none => exact hnone
  | some i =>
    have hfree : (s.node i).kind = .free := by
      have hfound := List.find?_some hfind
      exact of_decide_eq_true hfound
    have hunused : ∀ j, s.InUse j → j ≠ i := by
      rintro j hj rfl
      exact ha.kept j hj hfree
    simp only [setNode, wp_bind, wp_modify]
    obtain ⟨y, hy⟩ : ∃ y : Node, y = { kind := kind } := ⟨_, rfl⟩
    rw [← hy]
    have hfilled : y.kind ≠ .free := by
      rw [hy]
      exact hkind
    have hother : ∀ j, j ≠ i → update s.node i y j = s.node j := fun j hj =>
      update_of_ne hj _ _
    have hmade : Within (fun j => lost j ∨ j = i) d (some i) s0 l k
        { s with node := update s.node i y } := by
      refine ⟨{ ha with
        filled := fun j hr hv => ?_, kept := fun j hj => ?_, linked := fun j hj hf hz => ?_ }, ?_⟩
      · dsimp only
        by_cases hji : j = i
        · rw [hji, update_self]
          exact hfilled
        · rw [hother j hji]
          exact ha.filled j hr hv
      · dsimp only
        rw [hother j (hunused j hj)]
        exact ha.kept j hj
      · have hji : j ≠ i := fun hji => hj (Or.inr hji)
        dsimp only at hf hz
        rw [hother j hji] at hf hz
        exact ha.linked j (fun hl => hj (Or.inl hl)) hf hz
      · have hcalm : Calm d (some i) s0 s := { h.calm with
          link := fun j _ => h.calm.link j (fun hsome => by cases hsome) }
        refine hcalm.trans ⟨rfl, rfl, fun j hj => ?_, fun j hj hl => ?_, fun hnd => absurd hd hnd⟩
        · dsimp only
          rw [hother j (hunused j hj)]
        · have hji : j ≠ i := fun hji => hj (congrArg some hji)
          dsimp only at hl ⊢
          rw [hother j hji] at hl ⊢
          exact ⟨hl, rfl⟩
    refine account_iget hmade fun s' h' hnode => hsome i s' h' hfree ?_
    rw [hnode, hy]

/-- The entries of a new directory. -/
theorem account_link_dots {Q : Bool → State → Prop} (hd : d) (h : Within lost d x s0 l k s)
    (hQ : ∀ r s', Within lost d x s0 l k s' →
      (∀ j ∈ k, (s'.node j).kind = (s.node j).kind) → Q r s') :
    wp (linkDots ip dp) tame Q s := by
  unfold linkDots
  rw [wp_bind]
  refine account_dirlink hd h fun r s1 h1 hsame1 => ?_
  split
  next =>
    refine account_dirlink hd h1 fun r s2 h2 hsame2 => hQ r s2 h2 fun j hj => ?_
    exact (hsame2 j hj).1.trans (hsame1 j hj).1
  next => exact hQ false s1 h1 fun j hj => (hsame1 j hj).1

/-- What `create` returns: an inode of the type it was asked for, or a device in place of a file.
A symbolic link is new, and empty. -/
structure Made (kind : Kind) (s0 : State) (ip : Inum) (s : State) : Prop where
  type : (s.node ip).kind = kind ∨ kind = .file ∧ (s.node ip).kind = .device
  empty : kind = .symlink → ¬ s0.InUse ip ∧ (s.node ip).data = []

/-- A new inode that gets no name is freed again. -/
theorem account_create_fail {Q : Option Inum → State → Prop} (hne : dp ≠ ip)
    (h : Within lost d (some ip) s0 [ip, dp] [ip, dp] s) (hnew : ¬ s0.InUse ip)
    (hQ : ∀ s', Within lost d none s0 [] [] s' → Q none s') :
    wp (do
      setNode ip fun x => { x with nlink := 0 }
      iunlockput ip
      iunlockput dp
      pure none : Code (Option Inum)) tame Q s := by
  rw [wp_bind]
  refine account_set_node h List.mem_cons_self rfl rfl fun s1 h1 hnode1 _ => ?_
  rw [wp_bind]
  refine account_iunlockput h1 (by simp [hne.symm]) fun s2 h2 _ hfreed => ?_
  -- the only reference is the one of this call
  have hcount := h1.ref_eq ip
  unfold State.InUse at hnew
  rw [List.count_cons_self, List.count_singleton, if_neg (by simpa using hne)] at hcount
  have hfree : (s2.node ip).kind = .free := by
    refine hfreed (by omega) ?_
    rw [hnode1, update_self]
  have hnarrow : Within lost d none s0 [dp] [dp] s2 := h2.narrow fun hlink => by
    rw [hfree] at hlink
    cases hlink
  rw [wp_bind]
  exact account_iunlockput hnarrow (by simp) fun s3 h3 _ _ => hQ s3 h3

/-- The new inode gets its name. -/
theorem account_create_in {kind : Kind} {major minor : Int} {Q : Option Inum → State → Prop}
    (hd : d) (hne : dp ≠ ip) (hnew : ¬ s0.InUse ip)
    (h : Within (fun j => lost j ∨ j = ip) d (some ip) s0 [ip, dp] [dp] s)
    (hnode : s.node ip = { kind := kind })
    (hnone : ∀ s', Within lost d none s0 [] [] s' → Q none s')
    (hsome : ∀ s', Within lost d (some ip) s0 [ip] [ip] s' → Made kind s0 ip s' → Q (some ip) s') :
    wp (createIn dp name kind major minor ip) tame Q s := by
  unfold createIn
  rw [wp_bind]
  refine account_ilock h fun s1 h1 hk _ hnode1 => ?_
  rw [wp_bind]
  refine account_set_node (h1.settle List.mem_cons_self) List.mem_cons_self rfl rfl
    fun s2 h2 hnode2 _ => ?_
  have hkind2 : (s2.node ip).kind = kind := by
    rw [hnode2, update_self, hnode1, hnode]
  have hdata2 : (s2.node ip).data = [] := by
    rw [hnode2, update_self, hnode1, hnode]
  -- the end of the call, with the new inode as `hk3` and `hempty` say
  have hend : ∀ (t : State) (made : Bool), Within lost d (some ip) s0 [ip, dp] [ip, dp] t →
      (t.node ip).kind = kind → (kind = .symlink → (t.node ip).data = []) →
      wp (do
        let linked ← if made then dirlink dp name ip else pure false
        if linked then
          if kind = .dir then
            setNode dp fun x => { x with nlink := short (x.nlink + 1) }
          iunlockput dp
          pure (some ip)
        else
          setNode ip fun x => { x with nlink := 0 }
          iunlockput ip
          iunlockput dp
          pure none : Code (Option Inum)) tame Q t := by
    intro t made ht hkind hempty
    have hdone : ∀ u : State, Within lost d (some ip) s0 [ip, dp] [ip, dp] u →
        u.node ip = t.node ip →
        wp (do
          iunlockput dp
          pure (some ip) : Code (Option Inum)) tame Q u := by
      intro u hu hsame
      rw [wp_bind]
      have hswap : Within lost d (some ip) s0 [dp, ip] [dp, ip] u :=
        hu.perm (List.Perm.swap dp ip []) fun j => (List.Perm.swap dp ip []).mem_iff
      refine account_iunlockput hswap (by simp [hne]) fun v hv hrest _ => hsome v hv ?_
      have hip : v.node ip = t.node ip := (hrest ip List.mem_cons_self).trans hsame
      refine ⟨Or.inl ?_, fun hlink => ⟨hnew, ?_⟩⟩
      · rw [hip, hkind]
      · rw [hip, hempty hlink]
    cases made with
    | false => exact account_create_fail hne ht hnew hnone
    | true =>
      dsimp only
      rw [if_pos rfl, wp_bind]
      refine account_dirlink hd ht fun linked u hu hrest => ?_
      have hip : u.node ip = t.node ip := (hrest ip List.mem_cons_self).2.2 hne.symm
      cases linked with
      | false => exact account_create_fail hne hu hnew hnone
      | true =>
        rw [if_pos rfl]
        split
        next =>
          rw [wp_bind]
          refine account_set_node hu (List.mem_cons_of_mem _ List.mem_cons_self) rfl rfl
            fun v hv hnodev _ => hdone v hv ?_
          rw [hnodev, update_of_ne hne.symm, hip]
        next => exact hdone u hu hip
  refine (wp_ite _ _ _).mpr ⟨fun hdir => ?_, fun _ => hend s2 true h2 hkind2 fun _ => hdata2⟩
  rw [wp_bind]
  refine account_link_dots hd h2 fun made s3 h3 hkinds => hend s3 made h3 ?_ fun hlink => ?_
  · rw [hkinds ip List.mem_cons_self, hkind2]
  · rw [hdir] at hlink
    cases hlink

/-- `create` returns an inode that it holds, locked. -/
theorem account_create {kind : Kind} {major minor : Int} {Q : Option Inum → State → Prop}
    (hd : d) (hkind : kind ≠ .free) (h : Within lost d none s0 [] [] s)
    (hnone : ∀ s', Within lost d none s0 [] [] s' → Q none s')
    (hsome : ∀ ip s', Within lost d (some ip) s0 [ip] [ip] s' → Made kind s0 ip s' →
      Q (some ip) s') :
    wp (create p path kind major minor) tame Q s := by
  unfold create
  rw [wp_bind]
  refine account_namex h hnone fun dp name s1 h1 => ?_
  dsimp only
  rw [wp_bind]
  refine account_ilock h1 fun s2 h2 _ _ _ => ?_
  rw [wp_bind]
  refine account_dirlookup h2 (fun _ => ?_) fun ip off s3 _ h3 _ => ?_
  · dsimp only
    rw [wp_bind]
    refine account_ialloc h2 hkind hd ?_ fun ip s3 h3 hfree hnode => ?_
    · rw [wp_bind]
      exact account_iunlockput h2 (by simp) fun s3 h3 _ _ => hnone s3 h3
    · have hne : dp ≠ ip := by
        rintro rfl
        obtain ⟨hr, hv⟩ := h2.accounted.held dp List.mem_cons_self
        exact h2.accounted.filled dp hr hv hfree
      refine account_create_in hd hne (fun huse => ?_) h3 ?_ hnone (hsome ip)
      · refine h2.accounted.kept ip ?_ hfree
        exact (in_use_congr h2.calm.file h2.calm.proc ip).mpr huse
      · rw [hnode, update_self]
  · dsimp only
    rw [wp_bind]
    refine account_iunlockput (h3.perm (List.Perm.swap dp ip []) fun _ => Iff.rfl) (by simp)
      fun s4 h4 _ _ => ?_
    rw [wp_bind]
    refine account_ilock h4 fun s5 h5 _ _ _ => ?_
    rw [wp_bind, wp_get]
    split
    next hold =>
      obtain ⟨rfl, htype⟩ := hold
      refine hsome ip s5 ⟨h5.accounted, { h5.calm with
        link := fun j _ => h5.calm.link j (fun hsome => by cases hsome) }⟩
        ⟨?_, fun hlink => by cases hlink⟩
      exact htype.imp id fun hdev => ⟨rfl, hdev⟩
    next =>
      rw [wp_bind]
      exact account_iunlockput h5 (by simp) fun s6 h6 _ _ => hnone s6 h6

end Xv6.Fs.Files
