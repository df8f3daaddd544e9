import Xv6.Fs.Descriptors

/-!
# Who writes symbolic links and directories

Two laws about runs of system calls. Symbolic links fit the buffer that `sys_open` reads them into
as long as no call writes to one: `sys_symlink` makes links that fit, but a link can be opened with
`O_NOFOLLOW` and then written. No descriptor lets a directory be written as long as no symbolic
link that leads to a directory is opened for writing: `sys_open` refuses a directory before it
follows links, and not again afterwards.
-/

namespace Xv6.Fs.Files

variable {s s' : State} {p : Pid} {e : Event} {arg : Option (List Byte)} {omode : BitVec 32}
  {lost : Inum → Prop} {w d : Prop} {fresh : Kind → Bool → Prop}

/-- The calls that make and remove names: those that use `create`, `sys_link` and `sys_unlink`. -/
def Call.names : Call → Bool
  | .open _ omode => hasFlag omode O_CREATE
  | .link _ _ | .unlink _ | .mkdir _ | .mknod _ _ _ | .symlink _ _ => true
  | .read _ _ _ _ | .write _ _ _ | .dup _ | .close _ | .chdir _ => false

/-- The file that a descriptor of `p` is open on can be written, and is no device. -/
def State.Writes (s : State) (p : Pid) (fd : Int) (f : FileId) : Prop :=
  ∃ n : Fd, fd = (n : Nat) ∧ (s.proc p).ofile n = some f ∧ (s.file f).writable = true ∧
    (s.file f).type = .inode

/-- What one event does, when links are written only if `w` and directories only if `d`. -/
theorem done_step (h : Accounted lost s [] []) (hnames : e.call.names = true → d)
    (hlink : ∀ fd src driver f, e.call = .write fd src driver → s.Writes e.p fd f →
      (s.node (s.file f).ip).kind = .symlink → w)
    (hdir : ∀ f, (s.file f).live → (s.file f).writable = true →
      (s.node (s.file f).ip).kind = .dir → d)
    (hfresh : ∀ arg omode K, e.call = .open arg omode →
      (hasFlag omode O_CREATE = true → K ≠ .dir) → fresh K (writes omode)) :
    wp (step e) Fault.any (fun _ s' => Done lost w d fresh s s') s := by
  have hany : ∀ c, tame c → Fault.any c := fun _ _ => trivial
  have hgrants : Accounted lost { s with grants := e.grants } [] [] :=
    h.of_same ⟨rfl, rfl, rfl, rfl, rfl⟩ (fun _ => rfl) fun _ => Or.inl rfl
  -- the events differ from the calls in the grants, which nothing here depends on
  suffices hcall : wp (syscall e.p e.call) Fault.any
      (fun _ s' => Done lost w d fresh { s with grants := e.grants } s')
      { s with grants := e.grants } by
    unfold step
    rw [wp_bind, wp_modify]
    refine wp_mono hcall fun _ s' hs' => Done.trans ?_ hs'
    exact ⟨fun _ _ hi => Or.inl ⟨hi, rfl⟩, fun _ _ hi => ⟨hi, rfl⟩,
      fun _ hl => Or.inl ⟨hl, rfl, rfl, rfl⟩⟩
  cases hcall : e.call with
  | «open» arg omode =>
    rw [hcall] at hnames
    refine done_open hany (Or.inr trivial) hnames (fun hcreate K hK => ?_)
      (fun hcreate K => ?_) hgrants
    · exact hfresh arg omode K hcall fun _ => hK
    · refine hfresh arg omode K hcall fun hc => ?_
      rw [hcreate] at hc
      cases hc
  | read fd n mapped driver => exact wp_mono_fault (done_read hgrants) hany
  | write fd src driver =>
    refine wp_mono_fault (done_write hgrants (fun n f hn hfile hw htype => ?_) hdir) hany
    exact hlink fd src driver f hcall ⟨n, hn, hfile, hw, htype⟩
  | dup fd => exact wp_mono_fault (done_dup hgrants) hany
  | close fd => exact wp_mono_fault (done_close hgrants) hany
  | link old new => exact wp_mono_fault (done_link (hnames (by rw [hcall]; rfl)) hgrants) hany
  | unlink path => exact wp_mono_fault (done_unlink (hnames (by rw [hcall]; rfl)) hgrants) hany
  | mkdir path =>
    exact wp_mono_fault (done_make (hnames (by rw [hcall]; rfl)) (Or.inl rfl) hgrants) hany
  | mknod path major minor =>
    exact wp_mono_fault (done_make (hnames (by rw [hcall]; rfl)) (Or.inr rfl) hgrants) hany
  | chdir path => exact wp_mono_fault (done_chdir hgrants) hany
  | symlink target path =>
    exact wp_mono_fault (done_symlink (hnames (by rw [hcall]; rfl)) hgrants) hany

/-! ## Links fit the buffer -/

/-- A state between two calls in which links fit. Nothing is asked of inodes without links. -/
structure FittingImage (s : State) : Prop where
  accounted : Accounted (fun _ => True) s [] []
  fit : LinksFit s

/-- The event is no write to a symbolic link. -/
def SparesLinks (s : State) (e : Event) : Prop :=
  ∀ fd src driver f, e.call = .write fd src driver → s.Writes e.p fd f →
    (s.node (s.file f).ip).kind ≠ .symlink

theorem fitting_step (h : FittingImage s) (hguard : SparesLinks s e) :
    wp (step e) Fault.any (fun _ s' => FittingImage s') s := by
  have hdone : wp (step e) Fault.any
      (fun _ s' => Done (fun _ => True) False True (fun _ _ => True) s s') s :=
    done_step h.accounted (fun _ => trivial)
      (fun fd src driver f hc hw hkind => hguard fd src driver f hc hw hkind)
      (fun _ _ _ _ => trivial) fun _ _ _ _ _ => trivial
  refine wp_mono hdone fun _ s' hs' => ⟨hs'.accounted, fun i hi => ?_⟩
  rcases hs'.ends.link id i hi with ⟨hkind, hdata⟩ | hfits
  · rw [hdata]
    exact h.fit i hkind
  · exact hfits

theorem open_tame (h : FittingImage s) : faultOf (sysOpen p arg omode) s ≠ some .wild := by
  have hopen : wp (sysOpen p arg omode) tame
      (fun _ s' => Done (fun _ => True) False True (fun _ _ => True) s s') s :=
    done_open (fun _ hc => hc) (Or.inl h.fit) (fun _ => trivial) (fun _ _ _ => trivial)
      (fun _ _ => trivial) h.accounted
  intro hwild
  unfold wp at hopen
  rw [fault_of_eq hwild] at hopen
  exact hopen

/-- As long as no symbolic link is written, links fit, and `sys_open` can follow them. -/
theorem links_fit (h : Reachable FittingImage SparesLinks step s) :
    LinksFit s ∧ ∀ p arg omode, faultOf (sysOpen p arg omode) s ≠ some .wild := by
  have hs : FittingImage s := h.induct (E := Fault.any) FittingImage (fun _ hi => hi)
    fun _ _ hI hguard => fitting_step hI hguard
  exact ⟨hs.fit, fun _ _ _ => open_tame hs⟩

theorem linked_cwds (i : Inum) : linked.ref i = linked.files i + linked.cwds i + [].count i := by
  have hfiles : linked.files i = 0 := by
    refine Finset.card_eq_zero.mpr (Finset.filter_eq_empty_iff.mpr fun f _ hf => ?_)
    exact absurd hf.1.1 (Nat.lt_irrefl 0)
  rw [hfiles, List.count_nil, Nat.zero_add, Nat.add_zero]
  show (if i = ROOTINO then NPROC else 0) = (Finset.univ.filter fun _ : Pid => ROOTINO = i).card
  by_cases hi : i = ROOTINO
  · rw [if_pos hi, Finset.filter_true_of_mem fun _ _ => hi.symm, Finset.card_univ]
    exact (Fintype.card_fin NPROC).symm
  · rw [if_neg hi, Finset.filter_false_of_mem fun _ _ h => hi h.symm, Finset.card_empty]

/-- The state `linked` has its accounts right, whatever is lost. -/
theorem linked_accounted (lost : Inum → Prop) : Accounted lost linked [] [] := by
  refine ⟨linked_cwds, fun _ => rfl, fun _ hi => (by cases hi), fun i _ hv => (by cases hv),
    fun i hi => ?_, fun i _ hfree hzero => absurd hzero ((linked_nodes i).1 hfree), fun _ _ => rfl⟩
  have hpos := hi
  unfold State.InUse at hpos
  have hroot : i = ROOTINO := by
    by_contra hne
    have href := linked_cwds i
    rw [List.count_nil] at href
    have hzero : linked.ref i = 0 := if_neg hne
    omega
  rw [hroot]
  decide

theorem linked_fitting : FittingImage linked :=
  ⟨linked_accounted _, fun i => (linked_nodes i).2⟩

/-- Make a link, and read it as a link. -/
theorem links_fit_made :
    valueOf (step ⟨0, .symlink (some [slash, 102, 0]) (some [109]), []⟩) linked = some 0 ∧
      LinksFit (lastState unguarded step [⟨0, .symlink (some [slash, 102, 0]) (some [109]), []⟩]
        linked) := by
  have hvalue : valueOf (step ⟨0, .symlink (some [slash, 102, 0]) (some [109]), []⟩) linked =
      some 0 := by decide +kernel
  refine ⟨hvalue, (links_fit (.next (.start linked_fitting) ?_ (step_of_value_of hvalue))).1⟩
  exact fun _ _ _ _ hc => by cases hc

/-- A link opened with `O_NOFOLLOW` can be written, and then `sys_open` leaves its buffer. -/
theorem link_overwritten :
    FittingImage linked ∧
      ((lastState unguarded step [⟨0, .open (some [108]) (O_NOFOLLOW ||| O_RDWR), []⟩,
        ⟨0, .write 0 [65, 65, 65] 0, []⟩] linked).node 2).kind = .symlink ∧
      0 ∉ ((lastState unguarded step [⟨0, .open (some [108]) (O_NOFOLLOW ||| O_RDWR), []⟩,
        ⟨0, .write 0 [65, 65, 65] 0, []⟩] linked).node 2).data ∧
      faultOf (sysOpen 0 (some [108]) 0)
        (lastState unguarded step [⟨0, .open (some [108]) (O_NOFOLLOW ||| O_RDWR), []⟩,
          ⟨0, .write 0 [65, 65, 65] 0, []⟩] linked) = some .wild := by
  refine ⟨linked_fitting, ?_, ?_, ?_⟩
  · decide +kernel
  · decide +kernel
  · decide +kernel

/-! ## Directories are not written -/

/-- No file that is open on a directory can be written. -/
def DirectoriesReadOnly (s : State) : Prop :=
  ∀ f, (s.file f).live → (s.file f).writable = true → (s.node (s.file f).ip).kind ≠ .dir

/-- A state between two calls in which every allocated inode has a link or is in use. -/
structure SoundImage (s : State) : Prop where
  accounted : Accounted (fun _ => False) s [] []
  readOnly : DirectoriesReadOnly s

/-- If the event opens a symbolic link for writing, and follows it, then it does not come to a
directory, and the links fit. -/
def OpensNoDirectory (s : State) (e : Event) : Prop :=
  ∀ arg omode path ip, e.call = .open arg omode → writes omode = true →
    hasFlag omode O_CREATE = false → hasFlag omode O_NOFOLLOW = false → argstr arg = some path →
    s.namei e.p path = some ip → (s.node ip).kind = .symlink →
    LinksFit s ∧ ∀ n ≤ 9, ∀ ip', s.chainInode e.p path n = some ip' → (s.node ip').kind ≠ .dir

theorem Accounted.settled (h : Accounted (fun _ => False) s [] []) : Settled s := by
  refine ⟨fun i => ?_, fun i hv hr => h.filled i hr hv, fun p => h.ref_of_in_use (in_use_cwd s p),
    fun hfree hzero => (h.linked ROOTINO id hfree hzero).1,
    fun _ _ i _ hfree hzero => (h.linked i id hfree hzero).1, h.closed⟩
  rw [h.locks]
  rfl

/-- Either the chain of links ends within ten inodes, or it is broken or too long. -/
theorem chain_outcome {path : Str} {ip : Inum} (hname : s.namei p path = some ip)
    (hlink : (s.node ip).kind = .symlink) :
    (∃ n ≤ 9, ∃ ip', s.chainInode p path n = some ip' ∧ (s.node ip').kind ≠ .symlink) ∨
      (∃ n ≤ 9, ∃ q, s.chain p path n = some q ∧ s.namei p q = none) ∨
      ∀ n ≤ 9, ∃ ip', s.chainInode p path n = some ip' ∧ (s.node ip').kind = .symlink := by
  have hstart : s.chainInode p path 0 = some ip := by
    simp only [State.chainInode, State.chain, Option.bind_some, hname]
  -- follow the chain as long as it is made of links
  have hrun : ∀ m : Nat, (∃ n ≤ m, ∃ ip', s.chainInode p path n = some ip' ∧
      (s.node ip').kind ≠ .symlink) ∨ (∃ n ≤ m, ∃ q, s.chain p path n = some q ∧
        s.namei p q = none) ∨
      ∀ n ≤ m, ∃ ip', s.chainInode p path n = some ip' ∧ (s.node ip').kind = .symlink := by
    intro m
    induction m with
    | zero =>
      right
      right
      intro n hn
      rw [Nat.le_zero.mp hn]
      exact ⟨ip, hstart, hlink⟩
    | succ m ih =>
      rcases ih with ⟨n, hn, hend⟩ | ⟨n, hn, hbroken⟩ | hlinks
      · exact Or.inl ⟨n, by omega, hend⟩
      · exact Or.inr (Or.inl ⟨n, by omega, hbroken⟩)
      · obtain ⟨last, hlast, hkind⟩ := hlinks m (Nat.le_refl m)
        have hchain := chain_succ hlast hkind
        cases hnext : s.namei p (s.node last).target with
        | none => exact Or.inr (Or.inl ⟨m + 1, Nat.le_refl _, _, hchain, hnext⟩)
        | some next =>
          have hinode : s.chainInode p path (m + 1) = some next := by
            simp only [State.chainInode, hchain, Option.bind_some, hnext]
          by_cases hkind' : (s.node next).kind = .symlink
          · right
            right
            intro n hn
            rcases Nat.lt_or_ge n (m + 1) with hlt | hge
            · exact hlinks n (by omega)
            · rw [Nat.le_antisymm hn hge]
              exact ⟨next, hinode, hkind'⟩
          · exact Or.inl ⟨m + 1, Nat.le_refl _, next, hinode, hkind'⟩
  exact hrun 9

theorem walk_congr (hnode : s'.node = s.node) (n : Nat) (i : Inum) (path : Str) :
    s'.walk n i path = s.walk n i path := by
  induction n generalizing i path with
  | zero => rfl
  | succ n ih =>
    unfold State.walk State.lookup
    simp only [hnode, ih]

section

variable (hnode : s'.node = s.node) (hproc : s'.proc = s.proc) (path : Str)

include hnode hproc path

/-- What a path names depends on inodes and working directories only. -/
theorem namei_congr :
    s'.namei p path = s.namei p path := by
  unfold State.namei State.origin
  rw [walk_congr hnode, hproc]

theorem chain_congr (n : Nat) :
    s'.chain p path n = s.chain p path n := by
  induction n with
  | zero => rfl
  | succ n ih =>
    unfold State.chain
    simp only [ih, hnode, namei_congr hnode hproc]

theorem chain_inode_congr
    (n : Nat) : s'.chainInode p path n = s.chainInode p path n := by
  have hnamei : s'.namei p = s.namei p := funext fun q => namei_congr hnode hproc q
  unfold State.chainInode
  rw [chain_congr hnode hproc, hnamei]

end

/-- A file that a call opens for writing without `O_CREATE` is on no directory. -/
theorem opened_no_directory {path : Str} {r : Int} (hread : DirectoriesReadOnly s)
    (hmode : writes omode = true) (hout : ResolvesLinks s p path omode r s')
    (hguard : hasFlag omode O_NOFOLLOW = false → ∀ ip, s.namei p path = some ip →
      (s.node ip).kind = .symlink →
      ∀ n ≤ 9, ∀ ip', s.chainInode p path n = some ip' → (s.node ip').kind ≠ .dir) :
    DirectoriesReadOnly s' := by
  -- nothing has changed, or there is one new file on an inode that is no directory
  have hfailed : r = -1 → DirectoriesReadOnly s' := by
    intro hr f hlive hw
    have hreleased := hout.released hr
    rw [hreleased.file] at hlive hw ⊢
    rw [hreleased.node]
    exact hread f hlive hw
  have hopened : ∀ ip, (s.node ip).kind ≠ .dir → GoesOnWith s p ip omode r s' →
      DirectoriesReadOnly s' := by
    intro ip hkind hgoes
    by_cases hcannot : CannotOpen s p ip
    · exact hfailed (hgoes.1 hcannot)
    · obtain ⟨fd, f, _, hon⟩ := hgoes.2 hcannot
      intro g hlive hw
      rw [hon.kinds]
      by_cases hg : g = f
      · rw [hg, hon.inode]
        exact hkind
      · rw [hon.others g hg] at hlive hw ⊢
        exact hread g hlive hw
  have hnonzero : omode ≠ 0 := by
    rintro rfl
    exact absurd hmode (by decide)
  by_cases hrefused : Refused s p path omode
  · exact hfailed (hout.refused hrefused)
  · cases hname : s.namei p path with
    | none => exact hfailed (hout.missing hname)
    | some ip =>
      have hdir : (s.node ip).kind ≠ .dir := fun hdir => hrefused ⟨ip, hname, hdir, hnonzero⟩
      cases hflag : hasFlag omode O_NOFOLLOW with
      | true => exact hopened ip hdir (hout.notFollowed hflag ip hname hrefused)
      | false =>
        by_cases hlink : (s.node ip).kind = .symlink
        · rcases chain_outcome hname hlink with ⟨n, hn, ip', hip', hend⟩ | ⟨n, hn, q, hq, hnone⟩ |
              hall
          · exact hopened ip' (hguard hflag ip hname hlink n hn ip' hip')
              (hout.followed hflag n hn ip' hip' hend hrefused)
          · exact hfailed (hout.dangling hflag n hn q hq hnone)
          · exact hfailed (hout.tooLong hflag hall)
        · refine hopened ip hdir (hout.followed hflag 0 (by omega) ip ?_ hlink hrefused)
          simp only [State.chainInode, State.chain, Option.bind_some, hname]

/-- A call that makes no names leaves directories as they are. -/
theorem directories_kept (h : SoundImage s) (hnames : e.call.names = false) :
    wp (step e) Fault.any (fun _ s' => ∀ i, (s'.node i).kind = .dir →
      (s.node i).kind = .dir ∧ (s'.node i).data = (s.node i).data) s := by
  have hdone : wp (step e) Fault.any
      (fun _ s' => Done (fun _ => False) True False (fun _ _ => True) s s') s := by
    refine done_step h.accounted (fun hn => ?_) (fun _ _ _ _ _ _ _ => trivial)
      (fun f hlive hw hkind => h.readOnly f hlive hw hkind) fun _ _ _ _ _ => trivial
    rw [hnames] at hn
    cases hn
  exact wp_mono hdone fun _ s' hs' => hs'.ends.dir id

/-- The accounts stay right, and files that were not open before are not on directories, unless
the event opens an existing name for writing. -/
theorem sound_step_other (h : SoundImage s)
    (hother : ∀ arg omode, e.call = .open arg omode → writes omode = true →
      hasFlag omode O_CREATE = true) :
    wp (step e) Fault.any (fun _ s' => SoundImage s') s := by
  have hdone : wp (step e) Fault.any (fun _ s' => Done (fun _ => False) True True
      (fun K writable => writable = true → K ≠ .dir) s s') s := by
    refine done_step h.accounted (fun _ => trivial) (fun _ _ _ _ _ _ _ => trivial)
      (fun _ _ _ _ => trivial) fun arg omode K hc hK hw => ?_
    exact hK (hother arg omode hc hw)
  refine wp_mono hdone fun _ s' hs' => ⟨hs'.accounted, fun f hlive hw => ?_⟩
  rcases hs'.ends.file f hlive with hr | hnew
  · rw [hr.kind]
    rw [hr.writable] at hw
    exact h.readOnly f hr.live hw
  · exact hnew hw

theorem sound_step (h : SoundImage s) (hguard : OpensNoDirectory s e) :
    wp (step e) Fault.any (fun _ s' => SoundImage s') s := by
  by_cases hother : ∀ arg omode, e.call = .open arg omode → writes omode = true →
      hasFlag omode O_CREATE = true
  · exact sound_step_other h hother
  · push Not at hother
    obtain ⟨arg, omode, hcall, hmode, hcreate⟩ := hother
    replace hcreate := Bool.eq_false_iff.mpr hcreate
    -- what the call does to the accounts, and what it opens, are known separately
    have hbooks : wp (step e) Fault.any
        (fun _ s' => Done (fun _ => False) True True (fun _ _ => True) s s') s :=
      done_step h.accounted (fun _ => trivial) (fun _ _ _ _ _ _ _ => trivial)
        (fun _ _ _ _ => trivial) fun _ _ _ _ _ => trivial
    have hopen : wp (step e) Fault.any (fun _ s' => DirectoriesReadOnly s') s := by
      unfold step
      rw [wp_bind, wp_modify, hcall]
      obtain ⟨t, ht⟩ : ∃ t : State, t = { s with grants := e.grants } := ⟨_, rfl⟩
      have hnode : t.node = s.node := by rw [ht]
      have hproc : t.proc = s.proc := by rw [ht]
      have hread : DirectoriesReadOnly t := by
        rw [ht]
        exact h.readOnly
      have hsettled : Settled t := by
        rw [ht]
        exact (h.accounted.of_same ⟨rfl, rfl, rfl, rfl, rfl⟩ (fun _ => rfl)
          fun _ => Or.inl rfl :
            Accounted (fun _ => False) { s with grants := e.grants } [] []).settled
      have hfit : LinksFit s → LinksFit t := by
        rw [ht]
        exact id
      rw [← ht]
      have houtcome : wp (sysOpen e.p arg omode) (fun _ => ¬ Sane t)
          (OpenOutcome t e.p arg omode) t := by
        refine wp_sys_open hsettled hcreate fun path ip hpath hname hflag hlink => hfit ?_
        rw [namei_congr hnode hproc] at hname
        rw [hnode] at hlink
        exact (hguard arg omode path ip hcall hmode hcreate hflag hpath hname hlink).1
      refine wp_mono (wp_mono_fault houtcome fun _ _ => trivial) fun r s' hout => ?_
      unfold OpenOutcome at hout
      cases hpath : argstr arg with
      | none =>
        rw [hpath] at hout
        rw [hout.2]
        exact hread
      | some path =>
        rw [hpath] at hout
        refine opened_no_directory hread hmode hout fun hflag ip hname hlink n hn ip' hip' => ?_
        rw [namei_congr hnode hproc] at hname
        rw [chain_inode_congr hnode hproc] at hip'
        rw [hnode] at hlink ⊢
        exact (hguard arg omode path ip hcall hmode hcreate hflag hpath hname hlink).2 n hn ip' hip'
    exact wp_mono (wp_and hbooks hopen) fun _ s' hs' => ⟨hs'.1.accounted, hs'.2⟩

/-- As long as no symbolic link to a directory is opened for writing, no descriptor can write a
directory, and directories change only by calls that make and remove names. -/
theorem directories_written_by_names_only (h : Reachable SoundImage OpensNoDirectory step s) :
    DirectoriesReadOnly s ∧ ∀ e r s', e.call.names = false → step e s = .ok (r, s') →
      ∀ i, (s'.node i).kind = .dir →
        (s.node i).kind = .dir ∧ (s'.node i).data = (s.node i).data := by
  have hs : SoundImage s := h.induct (E := Fault.any) SoundImage (fun _ hi => hi)
    fun _ _ hI hguard => sound_step hI hguard
  exact ⟨hs.readOnly, fun e r s' hnames hstep => wp_ok (directories_kept hs hnames) hstep⟩

theorem linked_sound : SoundImage linked :=
  ⟨linked_accounted _, fun _ hlive => absurd hlive.1 (Nat.lt_irrefl 0)⟩

/-- The link `l` to the file `f` may be opened for writing. -/
theorem directories_written_by_names_only_linked :
    valueOf (step ⟨0, .open (some [108]) O_RDWR, []⟩) linked = some 0 ∧
      DirectoriesReadOnly
        (lastState unguarded step [⟨0, .open (some [108]) O_RDWR, []⟩] linked) := by
  have hvalue : valueOf (step ⟨0, .open (some [108]) O_RDWR, []⟩) linked = some 0 := by
    decide +kernel
  refine ⟨hvalue, (directories_written_by_names_only
    (.next (.start linked_sound) ?_ (step_of_value_of hvalue))).1⟩
  intro arg omode path ip hcall _ _ _ hpath _ _
  refine ⟨linked_fitting.fit, ?_⟩
  cases hcall
  have hname : path = [108] := Option.some.inj (hpath.symm.trans (by decide))
  rw [hname]
  decide +kernel

/-- A link to the root directory opened for writing lets the root directory be written. -/
theorem directory_opened_for_writing :
    SoundImage linked ∧
      (lastState unguarded step [⟨0, .symlink (some [slash, 0]) (some [114]), []⟩,
        ⟨0, .open (some [114]) O_RDWR, []⟩] linked).file ⟨0, by decide⟩ =
          { type := .inode, ref := 1, readable := true, writable := true, ip := ROOTINO } ∧
      ((lastState unguarded step [⟨0, .symlink (some [slash, 0]) (some [114]), []⟩,
        ⟨0, .open (some [114]) O_RDWR, []⟩] linked).node ROOTINO).kind = .dir ∧
      ((lastState unguarded step [⟨0, .symlink (some [slash, 0]) (some [114]), []⟩,
        ⟨0, .open (some [114]) O_RDWR, []⟩,
        ⟨0, .write 0 [7] 0, []⟩] linked).node ROOTINO).data.head? = some 7 := by
  refine ⟨linked_sound, ?_, ?_, ?_⟩
  · decide +kernel
  · decide +kernel
  · decide +kernel

/-! ## References are put back -/

/-- Whatever calls the processes make and however they fail, between two calls no inode is locked
and the references to an inode are those of the open files and the current directories. So an
inode in use is not free, and one that has lost its last name stays allocated only while it is in
use, unless it was lost in the image already. -/
theorem references_put_back (h : Reachable (fun s => Accounted lost s [] []) unguarded step s)
    (i : Inum) :
    s.locked i = false ∧ s.ref i = s.files i + s.cwds i ∧
      (s.InUse i → (s.node i).kind ≠ .free) ∧
      (¬ lost i → (s.node i).kind ≠ .free → (s.node i).nlink = 0 → s.InUse i) := by
  have hs : Accounted lost s [] [] := by
    refine h.induct (E := Fault.any) (fun s => Accounted lost s [] []) (fun _ hi => hi) ?_
    intro s e hI _
    have hdone : wp (step e) Fault.any
        (fun _ s' => Done lost True True (fun _ _ => True) s s') s :=
      done_step hI (fun _ => trivial) (fun _ _ _ _ _ _ _ => trivial) (fun _ _ _ _ => trivial)
        fun _ _ _ _ _ => trivial
    exact wp_mono hdone fun _ _ hs' => hs'.accounted
  have href : s.ref i = s.files i + s.cwds i := by simpa using hs.refs i
  refine ⟨by simpa using hs.locks i, href, hs.kept i, fun hlost hkind hzero => ?_⟩
  rw [State.InUse, ← href]
  exact (hs.linked i hlost hkind hzero).1

/-- A file is created, and its only name removed while it is open. -/
def nameless : State :=
  lastState unguarded step [⟨0, .open (some [109]) (O_CREATE ||| O_RDWR), []⟩,
    ⟨0, .unlink (some [109]), []⟩] linked

theorem references_put_back_nameless : nameless.ref 5 = 1 ∧ nameless.InUse 5 := by
  have hlinked : Reachable (fun s => Accounted (fun _ => False) s [] []) unguarded step linked :=
    .start (linked_accounted _)
  have hopen : _ ∧ _ ∧ _ ∧ (_ → _ → _ → nameless.InUse 5) :=
    references_put_back (hlinked.last_state _) 5
  exact ⟨by decide +kernel, hopen.2.2.2 id (by decide +kernel) (by decide +kernel)⟩

end Xv6.Fs.Files
