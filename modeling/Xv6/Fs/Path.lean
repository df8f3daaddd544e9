import Mathlib
import Xv6.Fs.Inode

/-!
# Walking a path

What a path means is given by its components: the non-empty pieces between slashes, each cut to
`DIRSIZ` bytes. `skipelem` takes them off one at a time, and `namex` looks them up one after another
from the root or the current directory. Whatever the outcome, the only reference that is left over
is the one for the inode it returns.
-/

namespace Xv6.Fs.Files

open Function

variable {s s1 s2 : State} {p : Pid} {i j : Inum} {l k : List Inum} {path rest name : Str}
  {parent : Bool} {E : Fault → Prop} {Q : Unit → State → Prop}

/-! ## What a path names -/

/-- The inode that a directory has under a name. -/
def State.lookup (s : State) (dp : Inum) (name : Str) : Option Inum :=
  match (s.node dp).scan (named name) with
  | some (some (_, i)) => some i
  | some none | none => none

/-- The inode that `n` steps at most along a path lead to. -/
def State.walk (s : State) : Nat → Inum → Str → Option Inum
  | 0, _, _ => none
  | n + 1, ip, path =>
    match skipelem path with
    | none => some ip
    | some (name, rest) =>
      if (s.node ip).kind = .dir then
        match s.lookup ip name with
        | none => none
        | some next => s.walk n next rest
      else none

/-- Where a path starts. -/
def State.origin (s : State) (p : Pid) (path : Str) : Inum :=
  if path.head? = some slash then ROOTINO else (s.proc p).cwd

/-- The inode that a path names for the process `p`. -/
def State.namei (s : State) (p : Pid) (path : Str) : Option Inum :=
  s.walk (path.length + 1) (s.origin p path) path

/-! ## The state between two calls -/

/-- No lock is held, what is in use is allocated, and an inode that has lost its last link is still
in use. -/
structure Settled (s : State) : Prop where
  unlocked : ∀ i, s.locked i = false
  valid : ∀ i, s.valid i = true → 0 < s.ref i → (s.node i).kind ≠ .free
  cwd : ∀ p, 0 < s.ref (s.proc p).cwd
  root : (s.node ROOTINO).kind ≠ .free → (s.node ROOTINO).nlink = 0 → 0 < s.ref ROOTINO
  entry : ∀ dp name i, s.lookup dp name = some i → (s.node i).kind ≠ .free →
    (s.node i).nlink = 0 → 0 < s.ref i
  closed : ∀ f, (s.file f).ref = 0 → (s.file f).type = .none

/-- Nothing on a path makes the kernel panic: there is room in the inode table, directories have
whole entries, and what they name is allocated. -/
structure Sane (s : State) : Prop where
  room : s.active + 2 ≤ NINODE
  whole : ∀ i name, (s.node i).kind = .dir → (s.node i).scan (named name) ≠ none
  root : (s.node ROOTINO).kind ≠ .free
  cwd : ∀ p, (s.node (s.proc p).cwd).kind ≠ .free
  entry : ∀ dp name i, (s.node dp).kind = .dir → s.lookup dp name = some i →
    (s.node i).kind ≠ .free

/-- The inodes that are in the table only for the references of `l`. -/
def newcomers (s : State) (l : List Inum) : Finset Inum := l.toFinset.filter fun i => s.ref i = 0

/-- State `s1` differs from `s` in the references `l` and the locks `k`, and in which inodes have
been filled in from disk. -/
structure Holding (s : State) (l k : List Inum) (s1 : State) : Prop where
  node : s1.node = s.node
  ninodes : s1.ninodes = s.ninodes
  file : s1.file = s.file
  proc : s1.proc = s.proc
  ops : s1.ops = s.ops + 1
  ref : ∀ i, s1.ref i = s.ref i + l.count i
  locked : ∀ i, s1.locked i = decide (i ∈ k)
  valid : ∀ i, s1.valid i = true → 0 < s1.ref i → (s.node i).kind ≠ .free
  active : s1.active = s.active + (newcomers s l).card

theorem Holding.ref_pos (h : Holding s (i :: l) k s1) : 0 < s1.ref i := by
  rw [h.ref, List.count_cons_self]
  omega

/-- The valid inodes in use stay so when the count of one that is in use changes. -/
theorem Holding.valid_update (h : Holding s l k s1) (hpos : 0 < s1.ref i) {n : Nat} (j : Inum)
    (hv : s1.valid j = true) (hr : 0 < update s1.ref i n j) : (s.node j).kind ≠ .free := by
  refine h.valid j hv ?_
  by_cases hj : j = i
  · rw [hj]
    exact hpos
  · rwa [update_of_ne hj] at hr

/-! ## The inode table -/

theorem newcomers_cons (s : State) (i : Inum) (l : List Inum) :
    newcomers s (i :: l) =
      if s.ref i = 0 then insert i (newcomers s l) else newcomers s l := by
  unfold newcomers
  rw [List.toFinset_cons, Finset.filter_insert]

theorem mem_newcomers : i ∈ newcomers s l ↔ i ∈ l ∧ s.ref i = 0 := by
  unfold newcomers
  rw [Finset.mem_filter, List.mem_toFinset]

theorem Holding.swap (h : Holding s [i, j] k s1) : Holding s [j, i] k s1 := by
  refine { h with ref := fun x => ?_, active := ?_ }
  · rw [h.ref, (List.Perm.swap j i []).count_eq]
  · have hset : newcomers s [i, j] = newcomers s [j, i] := by
      ext x
      rw [mem_newcomers, mem_newcomers, (List.Perm.swap j i []).mem_iff]
    rw [h.active, hset]

/-- How many entries of the table one more reference takes. -/
theorem newcomers_card (h : Holding s l k s1) (i : Inum) :
    (newcomers s (i :: l)).card = (newcomers s l).card + if s1.ref i = 0 then 1 else 0 := by
  rw [newcomers_cons]
  have href := h.ref i
  by_cases hzero : s.ref i = 0
  · rw [if_pos hzero]
    by_cases hmem : i ∈ l
    · have hcount := List.count_pos_iff.mpr hmem
      rw [if_neg (by omega), Finset.insert_eq_of_mem (mem_newcomers.mpr ⟨hmem, hzero⟩)]
      rfl
    · have hcount := List.count_eq_zero_of_not_mem hmem
      rw [if_pos (by omega),
        Finset.card_insert_of_notMem fun hin => hmem (mem_newcomers.mp hin).1]
  · rw [if_neg hzero, if_neg (by omega)]
    rfl

theorem count_cons_update {ref : Inum → Nat} (h : ∀ j, ref j = s.ref j + l.count j) (i j : Inum) :
    update ref i (ref i + 1) j = s.ref j + (i :: l).count j := by
  by_cases hj : j = i
  · subst hj
    rw [update_self, h, List.count_cons_self]
    omega
  · rw [update_of_ne hj, h, List.count_cons_of_ne (Ne.symm hj)]

theorem wp_iget (h : Holding s l k s1) (hfull : NINODE ≤ s1.active → E (.panic "iget: no inodes"))
    (hQ : ∀ s2, Holding s (i :: l) k s2 → Q () s2) : wp (iget i) E Q s1 := by
  have hcard := newcomers_card h i
  have hactive := h.active
  simp only [iget, wp_bind, wp_get]
  split
  next hpos =>
    refine hQ _ { h with
      ref := count_cons_update h.ref i, valid := fun j hv hr => ?_, active := ?_ }
    · exact h.valid_update hpos j hv hr
    · dsimp only
      rw [hcard, if_neg (by omega), hactive]
      rfl
  next hzero =>
    have hnone : s1.ref i = 0 := by omega
    split
    next hfull' => exact hfull hfull'
    next =>
      refine hQ _ { h with ref := fun j => ?_, valid := fun j hv hr => ?_, active := ?_ }
      · have hupdate := count_cons_update h.ref i j
        rw [hnone] at hupdate
        exact hupdate
      · dsimp only at hv hr
        by_cases hj : j = i
        · rw [hj, update_self] at hv
          cases hv
        · rw [update_of_ne hj] at hv hr
          exact h.valid j hv hr
      · dsimp only
        rw [hcard, if_pos hnone, hactive]
        omega

theorem wp_idup (h : Holding s l k s1) (hpos : 0 < s1.ref i)
    (hQ : ∀ s2, Holding s (i :: l) k s2 → Q () s2) :
    wp (idup i) E Q s1 := by
  have hcard := newcomers_card h i
  refine hQ _ { h with ref := count_cons_update h.ref i, valid := fun j hv hr => ?_, active := ?_ }
  · exact h.valid_update hpos j hv hr
  · dsimp only
    rw [hcard, if_neg (by omega), h.active]
    rfl

theorem wp_ilock (h : Holding s (i :: l) k s1) (hk : i ∉ k)
    (hfree : (s.node i).kind = .free → E (.panic "ilock: no type"))
    (hQ : ∀ s2, Holding s (i :: l) (i :: k) s2 → (s.node i).kind ≠ .free → Q () s2) :
    wp (ilock i) E Q s1 := by
  have hpos := h.ref_pos
  simp only [ilock, wp_bind, wp_get]
  rw [if_neg (by omega), if_neg (by rw [h.locked]; simpa using hk)]
  split
  next hfresh =>
    rw [h.node] at hfresh
    exact hfree hfresh.2
  next hold =>
    have hkind : (s.node i).kind ≠ .free := by
      intro hkind
      rw [h.node] at hold
      cases hv : s1.valid i with
      | false => exact hold ⟨hv, hkind⟩
      | true => exact h.valid i hv hpos hkind
    refine hQ _ { h with locked := fun j => ?_, valid := fun j hv hr => ?_ } hkind
    · dsimp only
      by_cases hj : j = i
      · subst hj
        simp
      · rw [update_of_ne hj, h.locked]
        simp [hj]
    · dsimp only at hv hr
      by_cases hj : j = i
      · rw [hj]
        exact hkind
      · rw [update_of_ne hj] at hv
        exact h.valid j hv hr

theorem wp_iunlock (h : Holding s (i :: l) (i :: k) s1) (hk : i ∉ k)
    (hQ : ∀ s2, Holding s (i :: l) k s2 → Q () s2) : wp (iunlock i) E Q s1 := by
  have hpos := h.ref_pos
  simp only [iunlock, wp_bind, wp_get]
  rw [if_neg (by rw [h.locked]; simp; omega)]
  refine hQ _ { h with locked := fun j => ?_ }
  dsimp only
  by_cases hj : j = i
  · subst hj
    simp [hk]
  · rw [update_of_ne hj, h.locked]
    simp [hj]

/-- A reference is given back, to an inode that is not freed by that. -/
theorem wp_iput (h : Holding s (i :: l) k s1)
    (hkeep : (s.node i).kind ≠ .free → (s.node i).nlink = 0 → 0 < s.ref i)
    (hQ : ∀ s2, Holding s l k s2 → Q () s2) : wp (iput i) E Q s1 := by
  have hpos := h.ref_pos
  have href := h.ref i
  rw [List.count_cons_self] at href
  have hlast : ¬ (s1.ref i = 1 ∧ s1.valid i = true ∧ (s1.node i).nlink = 0) := by
    rintro ⟨hone, hvalid, hnlink⟩
    rw [h.node] at hnlink
    have hkept := hkeep (h.valid i hvalid hpos) hnlink
    omega
  simp only [iput, dropRef, wp_bind, wp_get]
  rw [if_neg hlast, wp_modify]
  have hother : ∀ j, j ≠ i → (i :: l).count j = l.count j := fun j hj =>
    List.count_cons_of_ne (Ne.symm hj)
  have hrefs : ∀ j, update s1.ref i (s1.ref i - 1) j = s.ref j + l.count j := by
    intro j
    by_cases hj : j = i
    · subst hj
      rw [update_self]
      omega
    · rw [update_of_ne hj, h.ref, hother j hj]
  refine hQ _ { h with ref := hrefs, valid := fun j hv hr => ?_, active := ?_ }
  · exact h.valid_update hpos j hv hr
  · dsimp only
    have hactive := h.active
    rw [newcomers_cons] at hactive
    by_cases hzero : s.ref i = 0
    · rw [if_pos hzero] at hactive
      by_cases hmem : i ∈ l
      · have hcount := List.count_pos_iff.mpr hmem
        rw [if_neg (by omega), hactive,
          Finset.insert_eq_of_mem (mem_newcomers.mpr ⟨hmem, hzero⟩)]
      · have hcount := List.count_eq_zero_of_not_mem hmem
        rw [if_pos (by omega), hactive,
          Finset.card_insert_of_notMem fun hin => hmem (mem_newcomers.mp hin).1]
        omega
    · rw [if_neg hzero] at hactive
      rw [if_neg (by omega), hactive]

theorem wp_iunlockput (h : Holding s (i :: l) (i :: k) s1) (hk : i ∉ k)
    (hkeep : (s.node i).kind ≠ .free → (s.node i).nlink = 0 → 0 < s.ref i)
    (hQ : ∀ s2, Holding s l k s2 → Q () s2) : wp (iunlockput i) E Q s1 := by
  unfold iunlockput
  rw [wp_bind]
  exact wp_iunlock h hk fun s2 h2 => wp_iput h2 hkeep hQ

/-! ## Paths -/

theorem skipelem_length {name : Str} (h : skipelem path = some (name, rest)) :
    rest.length < path.length := by
  unfold skipelem at h
  split at h
  next => cases h
  next b tail hdrop =>
    cases h
    have hpath : (path.dropWhile (· = slash)).length ≤ path.length :=
      (List.dropWhile_sublist _).length_le
    have hb : b ≠ slash := by
      have hhead := List.head?_dropWhile_not (fun x => decide (x = slash)) path
      rw [hdrop] at hhead
      simpa using hhead
    rw [hdrop, List.length_cons] at hpath
    rw [List.dropWhile_cons_of_pos (by simpa using hb)]
    have hrest : ((tail.dropWhile (· ≠ slash)).dropWhile (· = slash)).length ≤ tail.length :=
      ((List.dropWhile_sublist _).trans (List.dropWhile_sublist _)).length_le
    simp only [ne_eq, decide_not] at hrest ⊢
    omega

/-- What is known about an inode that a path has led to. -/
structure Followed (s : State) (i : Inum) : Prop where
  kept : (s.node i).kind ≠ .free → (s.node i).nlink = 0 → 0 < s.ref i
  allocated : Sane s → (s.node i).kind ≠ .free

theorem followed_lookup (hs : Settled s) {dp : Inum} {name : Str}
    (hkind : (s.node dp).kind = .dir) (h : s.lookup dp name = some i) : Followed s i :=
  ⟨hs.entry dp name i h, fun hsane => hsane.entry dp name i hkind h⟩

theorem followed_origin (hs : Settled s) (p : Pid) (path : Str) : Followed s (s.origin p path) := by
  unfold State.origin
  split
  · exact ⟨hs.root, fun hsane => hsane.root⟩
  · exact ⟨fun _ _ => hs.cwd p, fun hsane => hsane.cwd p⟩

theorem Holding.room (h : Holding s [i] k s1) (hfull : NINODE ≤ s1.active) : ¬ Sane s := by
  intro hsane
  have hroom := hsane.room
  have hcard : (newcomers s [i]).card ≤ 1 :=
    (Finset.card_filter_le _ _).trans (by simp)
  rw [h.active] at hfull
  omega

theorem wp_dirlookup {name : Str} {Q : Option (Inum × Nat) → State → Prop}
    (h : Holding s [i] k s1) (hkind : (s.node i).kind = .dir)
    (hnone : s.lookup i name = none → Q none s1)
    (hsome : ∀ j off s2, s.lookup i name = some j → Holding s [j, i] k s2 → Q (some (j, off)) s2) :
    wp (dirlookup i name) (fun _ => ¬ Sane s) Q s1 := by
  simp only [dirlookup, wp_bind, wp_get]
  rw [h.node, if_neg (not_not.mpr hkind)]
  cases hscan : (s.node i).scan (named name) with
  | none => exact fun hsane => hsane.whole i name hkind hscan
  | some found =>
    cases found with
    | none => exact hnone (by simp only [State.lookup, hscan])
    | some entry =>
      obtain ⟨off, j⟩ := entry
      rw [wp_bind]
      refine wp_iget h h.room fun s2 h2 => ?_
      exact hsome j off s2 (by simp only [State.lookup, hscan]) h2

/-! ## Components -/

/-- The non-empty pieces of a path between slashes. -/
def segments (path : Str) : List Str := (path.splitOn slash).filter (· ≠ [])

/-- The components of a path. -/
def components (path : Str) : List Str := (segments path).map (·.take DIRSIZ)

/-- The names that `skipelem` gives, until it returns 0. -/
def elements (path : Str) : List Str :=
  match h : skipelem path with
  | none => []
  | some (name, rest) =>
    have : rest.length < path.length := skipelem_length h
    name :: elements rest
termination_by path.length

theorem segments_slash (path : Str) : segments (slash :: path) = segments path := by
  have hsplit : (slash :: path).splitOn slash = [] :: path.splitOn slash :=
    List.splitOn_append_cons_self_of_not_mem List.not_mem_nil path
  rw [segments, hsplit]
  rfl

theorem segments_dropWhile (path : Str) :
    segments (path.dropWhile (· = slash)) = segments path := by
  induction path with
  | nil => rfl
  | cons b path ih =>
    by_cases hb : b = slash
    · subst hb
      rw [List.dropWhile_cons_of_pos (by simp), ih, segments_slash]
    · rw [List.dropWhile_cons_of_neg (by simpa using hb)]

/-- A piece without slashes at the start of a path is its first segment. -/
theorem segments_append {seg : Str} (hne : seg ≠ []) (hseg : slash ∉ seg)
    (hrest : rest = [] ∨ rest.head? = some slash) :
    segments (seg ++ rest) = seg :: segments rest := by
  cases rest with
  | nil =>
    rw [List.append_nil, segments, List.splitOn_eq_singleton hseg]
    simp [segments, hne]
  | cons b rest =>
    obtain rfl : b = slash := by simpa using hrest
    rw [segments, List.splitOn_append_cons_self_of_not_mem hseg,
      List.filter_cons_of_pos (by simpa using hne), segments_slash]
    rfl

theorem head_dropWhile_ne (path : Str) :
    path.dropWhile (· ≠ slash) = [] ∨ (path.dropWhile (· ≠ slash)).head? = some slash := by
  cases h : path.dropWhile (· ≠ slash) with
  | nil => exact .inl rfl
  | cons b tail =>
    have hhead := List.head?_dropWhile_not (fun x => decide (x ≠ slash)) path
    rw [h] at hhead
    right
    simpa using hhead

theorem head_dropWhile_eq (path : Str) : (path.dropWhile (· = slash)).head? ≠ some slash := by
  intro h
  have hhead := List.head?_dropWhile_not (fun x => decide (x = slash)) path
  rw [h] at hhead
  simp at hhead

/-- A path that does not start with a slash starts with a segment. -/
theorem segments_cons {b : Byte} (hb : b ≠ slash) (path : Str) :
    segments (b :: path) = (b :: path).takeWhile (· ≠ slash) ::
      segments ((b :: path).dropWhile (· ≠ slash)) := by
  have hsplit := List.takeWhile_append_dropWhile (p := fun x => decide (x ≠ slash)) (l := b :: path)
  have hne : (b :: path).takeWhile (· ≠ slash) ≠ [] := by
    rw [List.takeWhile_cons_of_pos (by simpa using hb)]
    exact List.cons_ne_nil _ _
  have hseg : slash ∉ (b :: path).takeWhile (· ≠ slash) := by
    intro hin
    have := List.mem_takeWhile_imp hin
    simp at this
  conv_lhs => rw [← hsplit]
  exact segments_append hne hseg (head_dropWhile_ne _)

theorem components_of_none (h : skipelem path = none) : components path = [] := by
  unfold skipelem at h
  split at h
  next hdrop =>
    rw [components, ← segments_dropWhile, hdrop]
    rfl
  next => cases h

/-- `skipelem` takes off the first component, and the slashes that follow it. -/
theorem components_of_some (h : skipelem path = some (name, rest)) :
    components path = name :: components rest ∧ (rest = [] ↔ components rest = []) := by
  unfold skipelem at h
  split at h
  next => cases h
  next b tail hdrop =>
    have hb : b ≠ slash := by
      have hhead := head_dropWhile_eq path
      rw [hdrop] at hhead
      simpa using hhead
    simp only [Option.some.injEq, Prod.mk.injEq] at h
    obtain ⟨rfl, hrest⟩ := h
    refine ⟨?_, fun hnil => by rw [hnil]; rfl, fun hnil => ?_⟩
    · rw [components, ← segments_dropWhile path, hdrop, segments_cons hb, List.map_cons,
        ← segments_dropWhile (List.dropWhile _ (b :: tail)), hrest]
      rfl
    · cases hcons : rest with
      | nil => rfl
      | cons c more =>
        have hc : c ≠ slash := by
          have hhead := head_dropWhile_eq ((b :: tail).dropWhile (· ≠ slash))
          rw [hrest, hcons] at hhead
          simpa using hhead
        rw [hcons, components, segments_cons hc] at hnil
        cases hnil

theorem elements_eq (path : Str) : elements path = components path := by
  induction path using elements.induct with
  | case1 path h =>
    rw [components_of_none h, elements]
    split
    next => rfl
    next name rest hsome =>
      rw [h] at hsome
      cases hsome
  | case2 path name rest h _ ih =>
    rw [(components_of_some h).1, ← ih, elements]
    split
    next hnone =>
      rw [h] at hnone
      cases hnone
    next name' rest' hsome =>
      rw [h] at hsome
      cases hsome
      rfl

/-! ## What the components lead to -/

/-- The inode that names lead to, looked up one after another in directories. -/
def State.follow (s : State) : Inum → List Str → Option Inum
  | ip, [] => some ip
  | ip, name :: names =>
    if (s.node ip).kind = .dir then (s.lookup ip name).bind (s.follow · names) else none

/-- What `namex` is asked for: with `parent`, the directory that all names but the last lead to, and
the last name. -/
def State.resolve (s : State) (parent : Bool) (ip : Inum) (names : List Str) :
    Option (Inum × Str) :=
  if parent then
    match names.getLast? with
    | none => none
    | some name => (s.follow ip names.dropLast).bind fun dp =>
      if (s.node dp).kind = .dir then some (dp, name) else none
  else (s.follow ip names).map (·, [])

theorem resolve_nil (s : State) (i : Inum) :
    s.resolve parent i [] = if parent then none else some (i, []) := rfl

theorem resolve_cons {names : List Str} (hdir : (s.node i).kind = .dir)
    (hmore : ¬(parent = true ∧ names = [])) :
    s.resolve parent i (name :: names) = (s.lookup i name).bind (s.resolve parent · names) := by
  cases parent with
  | false =>
    simp only [State.resolve, Bool.false_eq_true, if_false, State.follow, if_pos hdir]
    cases s.lookup i name with
    | none => rfl
    | some j => rfl
  | true =>
    cases names with
    | nil => exact absurd ⟨rfl, rfl⟩ hmore
    | cons next names =>
      simp only [State.resolve, if_true, List.getLast?_cons_cons, List.dropLast_cons_cons,
        State.follow, if_pos hdir]
      cases s.lookup i name with
      | none => cases (next :: names).getLast? <;> rfl
      | some j => rfl

theorem resolve_last (hdir : (s.node i).kind = .dir) :
    s.resolve true i [name] = some (i, name) := by
  simp [State.resolve, State.follow, hdir]

theorem resolve_not_dir {names : List Str} (hdir : (s.node i).kind ≠ .dir) :
    s.resolve parent i (name :: names) = none := by
  cases parent with
  | false => simp [State.resolve, State.follow, hdir]
  | true =>
    cases names with
    | nil => simp [State.resolve, State.follow, hdir]
    | cons next names =>
      simp only [State.resolve, if_true, List.dropLast_cons_cons, State.follow, if_neg hdir]
      cases (name :: next :: names).getLast? <;> rfl

/-- The loop of `namex`, from an inode it holds a reference to. -/
theorem wp_namex_components (hs : Settled s) {Q : Option (Inum × Str) → State → Prop} {n : Nat}
    (hn : path.length < n) (h : Holding s [i] [] s1) (hi : Followed s i)
    (hnone : ∀ s2, s.resolve parent i (components path) = none → Holding s [] [] s2 → Q none s2)
    (hsome : ∀ j name s2, s.resolve parent i (components path) = some (j, name) →
      Followed s j → Holding s [j] [] s2 → Q (some (j, name)) s2) :
    wp (namexLoop parent n i path) (fun _ => ¬ Sane s) Q s1 := by
  induction n generalizing i path s1 with
  | zero => omega
  | succ n ih =>
    unfold namexLoop
    cases hskip : skipelem path with
    | none =>
      rw [components_of_none hskip, resolve_nil] at hnone hsome
      cases parent with
      | false => exact hsome i [] s1 rfl hi h
      | true =>
        rw [if_pos rfl, wp_bind]
        exact wp_iput h hi.kept fun s2 h2 => hnone s2 rfl h2
    | some elem =>
      obtain ⟨name, rest⟩ := elem
      obtain ⟨hcomponents, hlast⟩ := components_of_some hskip
      have hlength := skipelem_length hskip
      rw [hcomponents] at hnone hsome
      dsimp only
      rw [wp_bind]
      refine wp_ilock h (by simp) (fun hfree hsane => hi.allocated hsane hfree)
        fun s2 h2 _ => ?_
      rw [wp_bind, wp_get, h2.node]
      by_cases hdir : (s.node i).kind = .dir
      · rw [if_neg (not_not.mpr hdir)]
        by_cases hstop : parent = true ∧ rest = []
        · -- one level early
          obtain ⟨rfl, rfl⟩ := hstop
          rw [if_pos ⟨rfl, rfl⟩, wp_bind]
          refine wp_iunlock h2 (by simp) fun s3 h3 => ?_
          exact hsome i name s3 (by rw [hlast.mp rfl, resolve_last hdir]) hi h3
        · have hresolve : s.resolve parent i (name :: components rest) =
              (s.lookup i name).bind (s.resolve parent · (components rest)) :=
            resolve_cons hdir fun hboth => hstop ⟨hboth.1, hlast.mpr hboth.2⟩
          rw [hresolve] at hnone hsome
          rw [if_neg hstop, wp_bind]
          refine wp_dirlookup h2 hdir (fun hlookup => ?_) fun next off s3 hlookup h3 => ?_
          · rw [wp_bind]
            refine wp_iunlockput h2 (by simp) hi.kept fun s3 h3 => ?_
            exact hnone s3 (by rw [hlookup, Option.bind_none]) h3
          · rw [hlookup, Option.bind_some] at hnone hsome
            rw [wp_bind]
            refine wp_iunlockput h3.swap (by simp) hi.kept fun s4 h4 => ?_
            exact ih (by omega) h4 (followed_lookup hs hdir hlookup) hnone hsome
      · rw [if_pos hdir, wp_bind]
        refine wp_iunlockput h2 (by simp) hi.kept fun s3 h3 => ?_
        exact hnone s3 (resolve_not_dir hdir) h3

/-- `namex` starts at the root or at the current directory. -/
theorem wp_namex (hs : Settled s) {Q : Option (Inum × Str) → State → Prop}
    (h : Holding s [] [] s1)
    (hnone : ∀ s2, s.resolve parent (s.origin p path) (components path) = none →
      Holding s [] [] s2 → Q none s2)
    (hsome : ∀ j name s2, s.resolve parent (s.origin p path) (components path) = some (j, name) →
      Followed s j → Holding s [j] [] s2 → Q (some (j, name)) s2) :
    wp (namex p path parent) (fun _ => ¬ Sane s) Q s1 := by
  have hloop : ∀ s2, Holding s [s.origin p path] [] s2 →
      wp (namexLoop parent (path.length + 1) (s.origin p path) path) (fun _ => ¬ Sane s) Q s2 :=
    fun s2 h2 => wp_namex_components hs (by omega) h2 (followed_origin hs p path) hnone hsome
  unfold namex
  rw [wp_bind, wp_get, h.proc]
  unfold State.origin at hloop
  split
  next hslash =>
    rw [if_pos hslash] at hloop
    rw [wp_bind]
    refine wp_iget h (fun hfull hsane => ?_) fun s2 h2 => hloop s2 h2
    have hroom := hsane.room
    rw [h.active] at hfull
    simp only [newcomers, List.toFinset_nil, Finset.filter_empty, Finset.card_empty] at hfull
    omega
  next hslash =>
    rw [if_neg hslash] at hloop
    rw [wp_bind]
    refine wp_idup h ?_ fun s2 h2 => hloop s2 h2
    rw [h.ref]
    exact Nat.lt_of_lt_of_le (hs.cwd p) (Nat.le_add_right _ _)

/-- `State.walk` follows the components, if it has enough steps. -/
theorem walk_eq_follow {n : Nat} (hn : path.length < n) :
    s.walk n i path = s.follow i (components path) := by
  induction n generalizing i path with
  | zero => omega
  | succ n ih =>
    unfold State.walk
    cases hskip : skipelem path with
    | none => rw [components_of_none hskip, State.follow]
    | some elem =>
      obtain ⟨name, rest⟩ := elem
      have hlength := skipelem_length hskip
      rw [(components_of_some hskip).1, State.follow]
      by_cases hdir : (s.node i).kind = .dir
      · simp only [if_pos hdir]
        cases s.lookup i name with
        | none => rfl
        | some next => exact ih (by omega)
      · simp only [if_neg hdir]

theorem namei_eq_follow :
    s.namei p path = s.follow (s.origin p path) (components path) :=
  walk_eq_follow (by omega)

theorem wp_namei (hs : Settled s) {Q : Option Inum → State → Prop} (h : Holding s [] [] s1)
    (hnone : ∀ s2, s.namei p path = none → Holding s [] [] s2 → Q none s2)
    (hsome : ∀ j s2, s.namei p path = some j → Followed s j → Holding s [j] [] s2 →
      Q (some j) s2) : wp (namei p path) (fun _ => ¬ Sane s) Q s1 := by
  rw [namei_eq_follow] at hnone hsome
  unfold namei
  rw [wp_bind]
  refine wp_namex hs h (fun s2 hresolve h2 => hnone s2 ?_ h2)
    fun j name s2 hresolve hj h2 => hsome j s2 ?_ hj h2
  · exact Option.map_eq_none_iff.mp hresolve
  · obtain ⟨_, hfound, heq⟩ := Option.map_eq_some_iff.mp hresolve
    cases heq
    exact hfound

/-! ## The references that are left -/

/-- Inodes are as before, but for a reference to what was found. -/
structure Keeps (s : State) (found : Option Inum) (s' : State) : Prop where
  node : s'.node = s.node
  ref : ∀ i, s'.ref i = s.ref i + if found = some i then 1 else 0
  locked : s'.locked = s.locked

theorem Holding.start (hs : Settled s) : Holding s [] [] { s with ops := s.ops + 1 } where
  node := rfl
  ninodes := rfl
  file := rfl
  proc := rfl
  ops := rfl
  ref _ := rfl
  locked i := by rw [hs.unlocked]; rfl
  valid := hs.valid
  active := rfl

theorem Holding.keeps_none (hs : Settled s) (h : Holding s [] [] s1) : Keeps s none s1 := by
  refine ⟨h.node, fun i => by rw [h.ref]; rfl, ?_⟩
  funext i
  rw [h.locked, hs.unlocked]
  rfl

theorem Holding.keeps_some (hs : Settled s) (h : Holding s [j] [] s1) : Keeps s (some j) s1 := by
  refine ⟨h.node, fun i => ?_, ?_⟩
  · rw [h.ref, List.count_singleton]
    simp
  · funext i
    rw [h.locked, hs.unlocked]
    rfl

/-- Iterating `skipelem` gives the components of a path. `namei` returns what they lead to, and
`nameiparent` the directory that all but the last lead to, with the last; a reference to it is all
that they leave behind. They stop only if the inode table is full or a directory is broken. -/
theorem namex_follows_path (hs : Settled s) (p : Pid) (path : Str) :
    elements path = components path ∧
    wp (do beginOp; namei p path) (fun _ => ¬ Sane s) (fun found s' =>
      found = s.follow (s.origin p path) (components path) ∧ Keeps s found s') s ∧
    wp (do beginOp; nameiparent p path) (fun _ => ¬ Sane s) (fun found s' =>
      found = s.resolve true (s.origin p path) (components path) ∧
        Keeps s (found.map Prod.fst) s') s := by
  refine ⟨elements_eq path, ?_, ?_⟩
  · rw [beginOp, wp_bind, wp_modify]
    refine wp_namei hs (.start hs) (fun s2 hnone h2 => ?_) fun j s2 hsome _ h2 => ?_
    · exact ⟨(namei_eq_follow.symm.trans hnone).symm, h2.keeps_none hs⟩
    · exact ⟨(namei_eq_follow.symm.trans hsome).symm, h2.keeps_some hs⟩
  · rw [beginOp, wp_bind, wp_modify]
    refine wp_namex hs (.start hs) (fun s2 hnone h2 => ?_) fun j name s2 hsome _ h2 => ?_
    · exact ⟨hnone.symm, h2.keeps_none hs⟩
    · exact ⟨hsome.symm, h2.keeps_some hs⟩

/-- With a link to every inode that is not free, the state before the first call is settled. -/
theorem atRest_settled {node : Inum → Node} (h : ∀ i, (node i).kind ≠ .free → (node i).nlink ≠ 0) :
    Settled (atRest node) := by
  refine ⟨fun _ => rfl, fun i hv => (by cases hv), fun p => ?_,
    fun hkind hnlink => absurd hnlink (h _ hkind),
    fun dp name i _ hkind hnlink => absurd hnlink (h i hkind), fun _ _ => rfl⟩
  show 0 < if ROOTINO = ROOTINO then NPROC else 0
  decide

/-- A root directory with a directory `d`, which has a file `f`. -/
def twoLevels : State := atRest fun i =>
  if i = 1 then { kind := .dir, nlink := 1, data := dirent [100] 2 }
  else if i = 2 then { kind := .dir, nlink := 1, data := dirent [102] 3 }
  else if i = 3 then { kind := .file, nlink := 1 }
  else {}

theorem twoLevels_settled : Settled twoLevels := by
  refine atRest_settled fun i => ?_
  split
  · decide
  · split
    · decide
    · split
      · decide
      · decide

/-- The path `//d/f/` leads to the file, by way of the directory. -/
theorem namex_follows_path_twoLevels :
    components [47, 47, 100, 47, 102, 47] = [[100], [102]] ∧
    wp (do beginOp; nameiparent 0 [47, 47, 100, 47, 102, 47]) (fun _ => ¬ Sane twoLevels)
      (fun found s' => found = some (2, [102]) ∧
        Keeps twoLevels (found.map Prod.fst) s') twoLevels := by
  have hcomponents : components [47, 47, 100, 47, 102, 47] = [[100], [102]] := by decide
  have hresolve : twoLevels.resolve true (twoLevels.origin 0 [47, 47, 100, 47, 102, 47])
      [[100], [102]] = some (2, [102]) := by decide
  refine ⟨hcomponents, wp_mono (namex_follows_path twoLevels_settled 0 _).2.2 ?_⟩
  intro found s' hfound
  rwa [hcomponents, hresolve] at hfound

end Xv6.Fs.Files
