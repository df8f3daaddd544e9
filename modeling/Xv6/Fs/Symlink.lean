import Xv6.Fs.Path
import Xv6.Fs.Sysfile

/-!
# Symbolic links in `sys_open`

`State.namei` and `State.chain` say without locks and reference counts what a path names and where
its symbolic links lead. The code agrees with them as long as it holds, besides the references and
locks that were there before, exactly the ones that `Holding` lists: nothing is freed on the way,
so nothing it looks at changes. `sys_open` then opens what the chain leads to within ten inodes,
and gives back everything it has taken when it fails.
-/

namespace Xv6.Fs.Files

open Function

variable {s s1 s2 : State} {p : Pid} {i j : Inum} {l k : List Inum} {path rest : Str} {n m : Nat}
  {q : Str} {omode : BitVec 32}

/-! ## Chains -/

/-- The string in a symbolic link. -/
def Node.target (x : Node) : Str := x.data.takeWhile (· ≠ 0)

/-- The path at step `i` of a chain of symbolic links, as long as there is one. -/
def State.chain (s : State) (p : Pid) (path : Str) : Nat → Option Str
  | 0 => some path
  | i + 1 =>
    match s.chain p path i with
    | none => none
    | some q =>
      match s.namei p q with
      | none => none
      | some ip => if (s.node ip).kind = .symlink then some (s.node ip).target else none

/-- The inode at step `i` of the chain. -/
def State.chainInode (s : State) (p : Pid) (path : Str) (i : Nat) : Option Inum :=
  (s.chain p path i).bind (s.namei p)

/-- Symbolic links hold a NUL-terminated path of at most `MAXPATH` bytes. -/
def LinksFit (s : State) : Prop :=
  ∀ i, (s.node i).kind = .symlink → (s.node i).data.length ≤ MAXPATH ∧ 0 ∈ (s.node i).data

/-! ## Chains of links -/

theorem chain_succ (h : s.chainInode p path n = some i) (hlink : (s.node i).kind = .symlink) :
    s.chain p path (n + 1) = some (s.node i).target := by
  obtain ⟨q, hq, hname⟩ := Option.bind_eq_some_iff.mp h
  simp only [State.chain, hq, hname, if_pos hlink]

theorem chain_links (h : s.chain p path m = some q) (hn : n < m) :
    ∃ i, s.chainInode p path n = some i ∧ (s.node i).kind = .symlink := by
  induction m generalizing q with
  | zero => omega
  | succ m ih =>
    unfold State.chain at h
    cases hm : s.chain p path m with
    | none =>
      rw [hm] at h
      cases h
    | some q' =>
      rcases Nat.lt_succ_iff_lt_or_eq.mp hn with hlt | rfl
      · exact ih hm hlt
      · rw [hm] at h
        cases hname : s.namei p q' with
        | none =>
          simp only [hname] at h
          cases h
        | some i =>
          simp only [hname] at h
          split at h
          next hlink => exact ⟨i, by simp only [State.chainInode, hm, Option.bind_some, hname],
            hlink⟩
          next => cases h

theorem chain_end (h : s.chainInode p path n = some i) (hkind : (s.node i).kind ≠ .symlink)
    (hm : s.chain p path m = some q) : m ≤ n := by
  by_contra hlt
  obtain ⟨i', hi', hlink⟩ := chain_links hm (by omega : n < m)
  rw [h] at hi'
  cases hi'
  exact hkind hlink

theorem chain_dangling (h : s.chainInode p path n = none) (hm : s.chain p path m = some q) :
    m ≤ n := by
  by_contra hlt
  obtain ⟨i', hi', -⟩ := chain_links hm (by omega : n < m)
  rw [h] at hi'
  cases hi'

theorem chain_of_inode (h : s.chainInode p path n = some i) :
    ∃ q, s.chain p path n = some q := by
  obtain ⟨q, hq, -⟩ := Option.bind_eq_some_iff.mp h
  exact ⟨q, hq⟩

/-- The inode where the chain ends is the only one that is not a link. -/
theorem chain_end_unique (h : s.chainInode p path n = some i) (hkind : (s.node i).kind ≠ .symlink)
    (h' : s.chainInode p path m = some j) (hkind' : (s.node j).kind ≠ .symlink) : i = j := by
  obtain ⟨q, hq⟩ := chain_of_inode h
  obtain ⟨q', hq'⟩ := chain_of_inode h'
  obtain rfl : n = m := Nat.le_antisymm (chain_end h' hkind' hq) (chain_end h hkind hq')
  exact Option.some.inj (h.symm.trans h')

/-- A chain that ends at an inode has no path that names nothing. -/
theorem chain_end_named (h : s.chainInode p path n = some i) (hkind : (s.node i).kind ≠ .symlink)
    (hq : s.chain p path m = some q) :
    s.namei p q ≠ none := by
  intro hnone
  have hdangling : s.chainInode p path m = none := by
    simp only [State.chainInode, hq, Option.bind_some, hnone]
  obtain ⟨q', hq'⟩ := chain_of_inode h
  obtain rfl : m = n := Nat.le_antisymm (chain_end h hkind hq) (chain_dangling hdangling hq')
  rw [hdangling] at h
  cases h

theorem read_link {x : Node} (hsize : x.data.length ≤ MAXPATH) :
    x.read 0 x.data.length = x.data := by
  have hsmall : ¬ (x.data.length < 0 ∨ 2 ^ 32 ≤ 0 + x.data.length) := by
    unfold MAXPATH at hsize
    omega
  rw [Node.read, if_neg hsmall, List.drop_zero, List.take_length]

theorem cstring_content {x : Node} (buf : List Byte) (hfit : 0 ∈ x.data)
    (hsize : x.data.length ≤ MAXPATH) :
    cstring (overwrite buf 0 (x.read 0 x.data.length)) = some x.target := by
  have hbuf : overwrite buf 0 (x.read 0 x.data.length) = x.data ++ buf.drop x.data.length := by
    rw [read_link hsize, overwrite, List.take_zero, List.nil_append, Nat.zero_add]
  -- the NUL is in the content, so the rest of the buffer is not reached
  have hstop : (x.data.takeWhile (· ≠ 0)).length ≠ x.data.length := by
    intro hlength
    have hall := (List.takeWhile_sublist (p := (· ≠ 0)) (l := x.data)).eq_of_length hlength
    rw [← hall] at hfit
    simpa using List.mem_takeWhile_imp hfit
  rw [hbuf, cstring, if_pos (List.mem_append_left _ hfit), List.takeWhile_append, if_neg hstop]
  rfl

/-- The loop over the links, from step `n` of the chain on. It ends at an inode of the chain that
is not a link or is the tenth, or where a path names nothing. -/
theorem wp_follow_links (hs : Settled s) (hlinks : LinksFit s) {Q : Option Inum → State → Prop}
    {cnt : Nat} {buf : List Byte} (hn : n + cnt = 9) (hi : s.chainInode p path n = some i)
    (hfollowed : Followed s i) (h : Holding s [i] [i] s1)
    (hnone : ∀ m q s2, m ≤ 9 → s.chain p path m = some q → s.namei p q = none →
      Holding s [] [] s2 → Q none s2)
    (hsome : ∀ m j s2, m ≤ 9 → s.chainInode p path m = some j →
      ((s.node j).kind = .symlink → m = 9) → Followed s j → Holding s [j] [j] s2 →
      Q (some j) s2) :
    wp (followLinks p (cnt + 1) i buf) (fun _ => ¬ Sane s) Q s1 := by
  induction cnt generalizing n i buf s1 with
  | zero =>
    unfold followLinks
    rw [wp_bind, wp_get, if_neg (by simp)]
    exact hsome n i s1 (by omega) hi (fun _ => by omega) hfollowed h
  | succ cnt ih =>
    unfold followLinks
    rw [wp_bind, wp_get, h.node]
    by_cases hlink : (s.node i).kind = .symlink
    · obtain ⟨hsize, hnul⟩ := hlinks i hlink
      rw [if_pos ⟨hlink, by omega⟩]
      have hcontent := cstring_content buf hnul hsize
      dsimp only
      rw [read_link hsize] at hcontent ⊢
      rw [if_neg (by omega), wp_bind]
      refine wp_iunlockput h (by simp) hfollowed.kept fun s2 h2 => ?_
      rw [hcontent]
      have hchain := chain_succ hi hlink
      rw [wp_bind]
      refine wp_namei hs h2 (fun s3 hname h3 => ?_) fun j s3 hname hj h3 => ?_
      · exact hnone (n + 1) _ s3 (by omega) hchain hname h3
      · rw [wp_bind]
        refine wp_ilock h3 (by simp) (fun hfree hsane => hj.allocated hsane hfree)
          fun s4 h4 _ => ?_
        refine ih (n := n + 1) (by omega) ?_ hj h4
        simp only [State.chainInode, hchain, Option.bind_some, hname]
    · rw [if_neg fun hand => hlink hand.1]
      exact hsome n i s1 (by omega) hi (fun hl => absurd hl hlink) hfollowed h

/-! ## The end of `sys_open` -/

/-- Nothing is left of a call: no lock, no reference. -/
structure Released (s s' : State) : Prop where
  node : s'.node = s.node
  ref : s'.ref = s.ref
  locked : ∀ i, s'.locked i = false
  file : s'.file = s.file
  proc : s'.proc = s.proc
  ops : s'.ops = s.ops

/-- The inode is a device without a driver, or there is no file or descriptor for it. -/
def CannotOpen (s : State) (p : Pid) (ip : Inum) : Prop :=
  ((s.node ip).kind = .device ∧ ((s.node ip).major < 0 ∨ NDEV ≤ (s.node ip).major)) ∨
    (∀ f, (s.file f).ref ≠ 0) ∨ ∀ fd, (s.proc p).ofile fd ≠ none

/-- The new descriptor `fd` is open on `ip`. -/
structure OpenedOn (s : State) (p : Pid) (ip : Inum) (omode : BitVec 32) (fd : Fd) (f : FileId)
    (s' : State) : Prop where
  unusedFd : (s.proc p).ofile fd = none
  unusedFile : (s.file f).ref = 0
  ofile : (s'.proc p).ofile fd = some f
  fileRef : (s'.file f).ref = 1
  inode : (s'.file f).ip = ip
  type : (s'.file f).type = if (s.node ip).kind = .device then .device else .inode
  readable : (s'.file f).readable = !hasFlag omode O_WRONLY
  writable : (s'.file f).writable = (hasFlag omode O_WRONLY || hasFlag omode O_RDWR)
  others : ∀ g, g ≠ f → s'.file g = s.file g
  kinds : ∀ i, (s'.node i).kind = (s.node i).kind
  ref : ∀ i, s'.ref i = s.ref i + [ip].count i
  locked : ∀ i, s'.locked i = false

/-- `sys_open` goes on with `ip`: it opens it, or cannot open it. -/
def GoesOnWith (s : State) (p : Pid) (ip : Inum) (omode : BitVec 32) (r : Int) (s' : State) :
    Prop :=
  (CannotOpen s p ip → r = -1) ∧
    (¬ CannotOpen s p ip → ∃ (fd : Fd) (f : FileId), r = (fd : Nat) ∧ OpenedOn s p ip omode fd f s')

theorem Holding.released (h : Holding s [] [] s1) : Released s { s1 with ops := s1.ops - 1 } :=
  ⟨h.node, funext fun i => h.ref i, fun i => h.locked i, h.file, h.proc, by
    show s1.ops - 1 = s.ops
    rw [h.ops]
    rfl⟩

theorem wp_fileclose_unused {E : Fault → Prop} {Q : Unit → State → Prop} {f : FileId}
    (href : (s.file f).ref = 1) (htype : (s.file f).type = .none)
    (hQ : Q () { s with
      file := update s.file f { s.file f with ref := 0, type := .none } }) :
    wp (fileclose f) E Q s := by
  simp only [fileclose, setFile, wp_bind, wp_get]
  rw [if_neg (by omega), if_neg (by omega), htype]
  exact hQ

theorem wp_open_inode {E : Fault → Prop} (hs : Settled s) (h : Holding s [i] [i] s1)
    (hi : Followed s i) :
    wp (openInode p i omode) E (fun r s' => GoesOnWith s p i omode r s' ∧
      (r = -1 → Released s s')) s1 := by
  have hfail : CannotOpen s p i → ∀ s2, Holding s [i] [i] s2 →
      wp (do
        iunlockput i
        endOp
        pure (-1) : Code Int) E (fun r s' => GoesOnWith s p i omode r s' ∧
          (r = -1 → Released s s')) s2 := by
    intro hcannot s2 h2
    rw [wp_bind]
    refine wp_iunlockput h2 (by simp) hi.kept fun s3 h3 => ?_
    exact ⟨⟨fun _ => rfl, fun hcan => absurd hcannot hcan⟩, fun _ => h3.released⟩
  unfold openInode
  rw [wp_bind, wp_get, h.node]
  split
  next hdevice => exact hfail (Or.inl hdevice) s1 h
  next hdevice =>
    rw [wp_bind]
    refine wp_filealloc (fun hfull => ?_) fun f hunused => ?_
    · rw [h.file] at hfull
      exact hfail (Or.inr (Or.inl hfull)) s1 h
    · rw [h.file] at hunused ⊢
      rw [wp_bind]
      refine wp_fdalloc (fun hfull => ?_) fun fd hfree => ?_
      · rw [h.proc] at hfull
        -- `fileclose` finds a file of type `FD_NONE`, and leaves it as it was
        have hclosed := hs.closed f hunused
        have hback : update (update s.file f { s.file f with ref := 1 }) f
            { s.file f with ref := 0, type := .none } = s.file := by
          have hsame : ({ s.file f with ref := 0, type := .none } : File) = s.file f := by
            rw [← hunused, ← hclosed]
          rw [update_idem, hsame, update_eq_self]
        rw [wp_bind]
        refine wp_fileclose_unused (by simp) (by simpa using hclosed) ?_
        refine hfail (Or.inr (Or.inr hfull)) _ { h with file := ?_ }
        simpa using hback
      · rw [h.proc] at hfree ⊢
        have hcan : ¬ CannotOpen s p i := by
          rintro (hbad | hfull | hfull)
          · exact hdevice hbad
          · exact hfull f hunused
          · exact hfull fd hfree
        -- what is left to do, whether or not the file has been truncated
        have hend : ∀ t : State, t.ref = s1.ref → t.locked = s1.locked →
            (t.proc p).ofile fd = some f →
            t.file = update s.file f
              (({ s.file f with ref := 1 } : File).opened (s.node i) i omode) →
            (∀ x, (t.node x).kind = (s.node x).kind) →
            wp (do
              iunlock i
              endOp
              pure (fd : Int) : Code Int) E (fun r s' => GoesOnWith s p i omode r s' ∧
                (r = -1 → Released s s')) t := by
          intro t href hlocked hofile hfiles hkinds
          have hfile : t.file f =
              ({ s.file f with ref := 1 } : File).opened (s.node i) i omode := by
            rw [hfiles, update_self]
          have hpos := h.ref_pos
          simp only [iunlock, endOp, wp_bind, wp_get]
          rw [href, hlocked, if_neg (by rw [h.locked]; simp; omega)]
          refine ⟨⟨fun hcannot => absurd hcannot hcan, fun _ => ⟨fd, f, rfl, ?_⟩⟩, fun hr => ?_⟩
          · refine ⟨hfree, hunused, hofile, ?_, congrArg File.ip hfile, ?_,
              congrArg File.readable hfile, congrArg File.writable hfile, fun g hg => ?_, hkinds,
              fun x => h.ref x, fun x => ?_⟩
            · exact (congrArg File.ref hfile).trans (File.opened_ref ..)
            · exact (congrArg File.type hfile).trans (File.opened_type ..)
            · show t.file g = s.file g
              rw [hfiles, update_of_ne hg]
            · show update s1.locked i false x = false
              by_cases hx : x = i
              · rw [hx, update_self]
              · rw [update_of_ne hx, h.locked]
                simp [hx]
          · have hnonneg : (0 : Int) ≤ ((fd : Nat) : Int) := Int.natCast_nonneg _
            omega
        simp only [setFile, itrunc, setNode, wp_bind, wp_modify, update_self,
          update_idem]
        split
        next =>
          refine hend _ rfl rfl (by simp) rfl fun x => ?_
          dsimp only
          rw [h.node]
          by_cases hx : x = i
          · rw [hx, update_self]
          · rw [update_of_ne hx]
        next => exact hend _ rfl rfl (by simp) rfl fun x => by rw [h.node]

/-! ## The whole call -/

/-- The path names a directory, and is not opened for reading only. -/
def Refused (s : State) (p : Pid) (path : Str) (omode : BitVec 32) : Prop :=
  ∃ ip, s.namei p path = some ip ∧ (s.node ip).kind = .dir ∧ omode ≠ 0

/-- What `sys_open` of a path without `O_CREATE` does. -/
structure ResolvesLinks (s : State) (p : Pid) (path : Str) (omode : BitVec 32) (r : Int)
    (s' : State) : Prop where
  /-- The first inode of the chain that is not a link is opened, if it is among the first ten. -/
  followed : hasFlag omode O_NOFOLLOW = false → ∀ n ≤ 9, ∀ ip, s.chainInode p path n = some ip →
    (s.node ip).kind ≠ .symlink → ¬ Refused s p path omode → GoesOnWith s p ip omode r s'
  dangling : hasFlag omode O_NOFOLLOW = false → ∀ n ≤ 9, ∀ q, s.chain p path n = some q →
    s.namei p q = none → r = -1
  tooLong : hasFlag omode O_NOFOLLOW = false →
    (∀ n ≤ 9, ∃ ip, s.chainInode p path n = some ip ∧ (s.node ip).kind = .symlink) → r = -1
  notFollowed : hasFlag omode O_NOFOLLOW = true → ∀ ip, s.namei p path = some ip →
    ¬ Refused s p path omode → GoesOnWith s p ip omode r s'
  missing : s.namei p path = none → r = -1
  refused : Refused s p path omode → r = -1
  released : r = -1 → Released s s'

/-- What `sys_open` without `O_CREATE` does, whatever its path argument. -/
def OpenOutcome (s : State) (p : Pid) (arg : Option (List Byte)) (omode : BitVec 32) (r : Int)
    (s' : State) : Prop :=
  match argstr arg with
  | none => r = -1 ∧ s' = s
  | some path => ResolvesLinks s p path omode r s'

/-- A call of `sys_open` has that outcome, or stops the machine over a broken directory or a full
inode table. -/
structure OpensRight (s : State) (p : Pid) (arg : Option (List Byte)) (omode : BitVec 32) :
    Prop where
  run : wp (sysOpen p arg omode) (fun _ => ¬ Sane s) (OpenOutcome s p arg omode) s

theorem wp_open_follow (hs : Settled s)
    (hlinks : hasFlag omode O_NOFOLLOW = false → (s.node i).kind = .symlink → LinksFit s)
    (hname : s.namei p path = some i) (hi : Followed s i) (h : Holding s [i] [i] s1)
    (haccepted : ¬ Refused s p path omode) :
    wp (openFollow p i path omode) (fun _ => ¬ Sane s) (ResolvesLinks s p path omode) s1 := by
  have hstart : s.chainInode p path 0 = some i := by
    simp only [State.chainInode, State.chain, Option.bind_some, hname]
  have hfound : ∀ ip, s.namei p path = some ip → i = ip := fun ip hip =>
    Option.some.inj (hname.symm.trans hip)
  unfold openFollow
  rw [wp_bind, wp_get, h.node]
  split
  next hfollow =>
    obtain ⟨hflag, hlink⟩ := hfollow
    rw [wp_bind]
    refine wp_follow_links hs (hlinks hflag hlink) (n := 0) rfl hstart hi h
      (fun m q s2 hm hq hmissing h2 => ?_) fun m j s2 hm hj hlast hfollowed h2 => ?_
    · refine ⟨fun _ n _ ip hip hkind _ => ?_, fun _ _ _ _ _ _ => rfl, fun _ _ => rfl,
        fun hno => ?_, fun _ => rfl, fun _ => rfl, fun _ => h2.released⟩
      · exact absurd hmissing (chain_end_named hip hkind hq)
      · rw [hflag] at hno
        cases hno
    · rw [wp_bind, wp_get, h2.node]
      split
      next hstill =>
        obtain rfl := hlast hstill
        obtain ⟨q, hq⟩ := chain_of_inode hj
        rw [wp_bind]
        refine wp_iunlockput h2 (by simp) hfollowed.kept fun s3 h3 => ?_
        refine ⟨fun _ n hn ip hip hkind _ => ?_, fun _ _ _ _ _ _ => rfl, fun _ _ => rfl,
          fun hno => ?_, fun _ => rfl, fun _ => rfl, fun _ => h3.released⟩
        · -- the tenth inode is a link, so the chain does not end within ten
          obtain rfl : n = 9 := Nat.le_antisymm hn (chain_end hip hkind hq)
          obtain rfl := Option.some.inj (hip.symm.trans hj)
          exact absurd hstill hkind
        · rw [hflag] at hno
          cases hno
      next hend =>
        refine wp_mono (wp_open_inode hs h2 hfollowed) fun r s' hr => ?_
        refine ⟨fun _ n _ ip hip hkind _ => ?_, fun _ n _ q hq hnone => ?_, fun _ hall => ?_,
          fun hno => ?_, fun hnone => ?_, fun href => absurd href haccepted, hr.2⟩
        · rw [chain_end_unique hip hkind hj hend]
          exact hr.1
        · exact absurd hnone (chain_end_named hj hend hq)
        · obtain ⟨ip, hip, hstill⟩ := hall m hm
          obtain rfl := Option.some.inj (hip.symm.trans hj)
          exact absurd hstill hend
        · rw [hflag] at hno
          cases hno
        · rw [hname] at hnone
          cases hnone
  next hnot =>
    refine wp_mono (wp_open_inode hs h hi) fun r s' hr => ?_
    have hend : hasFlag omode O_NOFOLLOW = false → (s.node i).kind ≠ .symlink :=
      fun hflag hlink => hnot ⟨hflag, hlink⟩
    refine ⟨fun hflag n _ ip hip hkind _ => ?_, fun hflag n _ q hq hnone => ?_,
      fun hflag hall => ?_, fun _ ip hip _ => ?_, fun hnone => ?_,
      fun href => absurd href haccepted, hr.2⟩
    · rw [chain_end_unique hip hkind hstart (hend hflag)]
      exact hr.1
    · exact absurd hnone (chain_end_named hstart (hend hflag) hq)
    · obtain ⟨ip, hip, hstill⟩ := hall 0 (by omega)
      obtain rfl := Option.some.inj (hip.symm.trans hstart)
      exact absurd hstill (hend hflag)
    · rw [← hfound ip hip]
      exact hr.1
    · rw [hname] at hnone
      cases hnone

/-- The call, when the links fit as far as they are followed. -/
theorem wp_sys_open (hs : Settled s) {arg : Option (List Byte)}
    (hcreate : hasFlag omode O_CREATE = false)
    (hlinks : ∀ path ip, argstr arg = some path → s.namei p path = some ip →
      hasFlag omode O_NOFOLLOW = false → (s.node ip).kind = .symlink → LinksFit s) :
    wp (sysOpen p arg omode) (fun _ => ¬ Sane s) (OpenOutcome s p arg omode) s := by
  unfold sysOpen OpenOutcome
  cases harg : argstr arg with
  | none => exact ⟨rfl, rfl⟩
  | some path =>
    dsimp only
    rw [wp_bind, hcreate, if_neg Bool.false_ne_true]
    have hbegin : Holding s [] [] { s with ops := s.ops + 1 } :=
      ⟨rfl, rfl, rfl, rfl, rfl, fun _ => rfl, fun i => hs.unlocked i, hs.valid, rfl⟩
    refine (wp_bind _ _).mpr (wp_namei hs hbegin (fun s2 hname h2 => ?_)
      fun i s2 hname hi h2 => ?_)
    · refine ⟨fun _ n _ ip hip hkind _ => ?_, fun _ _ _ _ _ _ => rfl, fun _ _ => rfl,
        fun _ ip hip _ => ?_, fun _ => rfl, fun _ => rfl, fun _ => h2.released⟩
      · exact absurd hname (chain_end_named (m := 0) hip hkind rfl)
      · rw [hname] at hip
        cases hip
    · rw [wp_bind]
      refine wp_ilock h2 (by simp) (fun hfree hsane => hi.allocated hsane hfree)
        fun s3 h3 _ => ?_
      rw [wp_bind, wp_get, h3.node]
      split
      next hdir =>
        rw [wp_bind]
        refine wp_iunlockput h3 (by simp) hi.kept fun s4 h4 => ?_
        have hrefused : Refused s p path omode := ⟨i, hname, hdir⟩
        exact ⟨fun _ _ _ _ _ _ haccepted => absurd hrefused haccepted, fun _ _ _ _ _ _ => rfl,
          fun _ _ => rfl, fun _ _ _ haccepted => absurd hrefused haccepted, fun _ => rfl,
          fun _ => rfl, fun _ => h4.released⟩
      next hdir =>
        refine wp_open_follow hs (hlinks path i harg hname) hname hi h3 ?_
        rintro ⟨ip, hip, hkind, hmode⟩
        obtain rfl := Option.some.inj (hname.symm.trans hip)
        exact hdir ⟨hkind, hmode⟩

/-- `sys_open` without `O_CREATE` opens what the symbolic links lead to, and gives back all it has
taken when it returns -1. -/
theorem open_resolves_links (hs : Settled s) (hlinks : LinksFit s) {arg : Option (List Byte)}
    {omode : BitVec 32} (hcreate : hasFlag omode O_CREATE = false) : OpensRight s p arg omode :=
  ⟨wp_sys_open hs hcreate fun _ _ _ _ _ _ => hlinks⟩

/-- A root directory with a link `l` to `/f`, a file `f`, and a link `c` to itself. -/
def linked : State := atRest fun i =>
  if i = 1 then
    { kind := .dir, nlink := 1, data := dirent [108] 2 ++ dirent [102] 3 ++ dirent [99] 4 }
  else if i = 2 then { kind := .symlink, nlink := 1, data := [slash, 102, 0] }
  else if i = 3 then { kind := .file, nlink := 1 }
  else if i = 4 then { kind := .symlink, nlink := 1, data := [99, 0] }
  else {}

/-- Every inode of `linked` has a link, and the two symbolic links end in a NUL. -/
theorem linked_nodes (i : Inum) : ((linked.node i).kind ≠ .free → (linked.node i).nlink ≠ 0) ∧
    ((linked.node i).kind = .symlink →
      (linked.node i).data.length ≤ MAXPATH ∧ 0 ∈ (linked.node i).data) := by
  unfold linked atRest
  dsimp only
  split
  · decide
  · split
    · decide
    · split
      · decide
      · split
        · decide
        · decide

theorem linked_settled : Settled linked := atRest_settled fun i => (linked_nodes i).1

/-- The link `l` is followed to `f`, and the link `c` is given up. -/
theorem open_resolves_links_linked :
    valueOf (sysOpen 0 (some [108]) O_RDWR) linked = some 0 ∧
      valueOf (sysOpen 0 (some [99]) O_RDWR) linked = some (-1) ∧
      OpensRight linked 0 (some [108]) O_RDWR ∧ OpensRight linked 0 (some [99]) O_RDWR := by
  have hlinks : LinksFit linked := fun i => (linked_nodes i).2
  refine ⟨by decide +kernel, by decide +kernel, ?_, ?_⟩
  · exact open_resolves_links linked_settled hlinks (by decide)
  · exact open_resolves_links linked_settled hlinks (by decide)

end Xv6.Fs.Files
