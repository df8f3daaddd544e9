import Xv6.Fs.Account

/-!
# What system calls do to links, directories and open files

Each system call keeps the accounts, and `Ends` says what else it can have done when it returns:
a symbolic link has the contents it had or is a new one that fits, a directory has the entries it
had unless the call makes or removes names, and a file that is open was open before on an inode of
the same type or is new.
-/

namespace Xv6.Fs.Files

open Function

variable {s s' s'' s0 : State} {p : Pid} {i ip dp : Inum} {l l' k : List Inum} {f : FileId}
  {lost : Inum → Prop} {e d : Prop} {x : Option Inum} {fresh : Kind → Bool → Prop} {y : File}
  {E : Fault → Prop} {fd : Int} {n : Nat} {omode : BitVec 32}

/-- A symbolic link whose contents fit the buffer of `sys_open`. -/
def Node.Fits (x : Node) : Prop := x.data.length ≤ MAXPATH ∧ 0 ∈ x.data

/-- An open file was open before, and refers to an inode of the same type. -/
structure Remains (s s' : State) (f : FileId) : Prop where
  live : (s.file f).live
  ip : (s'.file f).ip = (s.file f).ip
  writable : (s'.file f).writable = (s.file f).writable
  kind : (s'.node (s'.file f).ip).kind = (s.node (s.file f).ip).kind

/-- What a call has changed when it returns: the contents of old links only if `e`, and of
directories only if `d`. A new file satisfies `fresh`. -/
structure Ends (e d : Prop) (fresh : Kind → Bool → Prop) (s s' : State) : Prop where
  link : ¬ e → ∀ i, (s'.node i).kind = .symlink →
    ((s.node i).kind = .symlink ∧ (s'.node i).data = (s.node i).data) ∨ (s'.node i).Fits
  dir : ¬ d → ∀ i, (s'.node i).kind = .dir →
    (s.node i).kind = .dir ∧ (s'.node i).data = (s.node i).data
  file : ∀ f, (s'.file f).live →
    Remains s s' f ∨ fresh (s'.node (s'.file f).ip).kind (s'.file f).writable

/-- The call has kept the accounts. -/
structure Done (lost : Inum → Prop) (e d : Prop) (fresh : Kind → Bool → Prop) (s s' : State) :
    Prop where
  accounted : Accounted lost s' [] []
  ends : Ends e d fresh s s'

theorem Ends.trans (h : Ends e d fresh s s') (h' : Ends e d fresh s' s'') :
    Ends e d fresh s s'' := by
  refine ⟨fun he i hi => ?_, fun hd i hi => ?_, fun f hf => ?_⟩
  · rcases h'.link he i hi with ⟨hkind, hdata⟩ | hfits
    · rcases h.link he i hkind with ⟨hkind', hdata'⟩ | hfits
      · exact Or.inl ⟨hkind', hdata.trans hdata'⟩
      · unfold Node.Fits at hfits ⊢
        rw [hdata]
        exact Or.inr hfits
    · exact Or.inr hfits
  · obtain ⟨hkind', hdata'⟩ := h'.dir hd i hi
    obtain ⟨hkind, hdata⟩ := h.dir hd i hkind'
    exact ⟨hkind, hdata'.trans hdata⟩
  · rcases h'.file f hf with hr | hnew
    · rcases h.file f hr.live with hr' | hnew
      · exact Or.inl ⟨hr'.live, hr.ip.trans hr'.ip, hr.writable.trans hr'.writable,
          hr.kind.trans hr'.kind⟩
      · right
        rw [hr.kind, hr.writable]
        exact hnew
    · exact Or.inr hnew

theorem in_use_file (h : (s.file f).live) : s.InUse (s.file f).ip := by
  have hmem : f ∈ Finset.univ.filter fun g => (s.file g).live ∧ (s.file g).ip = (s.file f).ip :=
    Finset.mem_filter.mpr ⟨Finset.mem_univ f, h, rfl⟩
  have hpos : 0 < s.files (s.file f).ip := Finset.card_pos.mpr ⟨f, hmem⟩
  unfold State.InUse
  omega

/-- A call that leaves the tables of files and processes alone. -/
theorem Calm.ends (h : Calm d x s s')
    (hx : ¬ e → ∀ i, x = some i → (s'.node i).kind = .symlink → (s'.node i).Fits) :
    Ends e d fresh s s' := by
  refine ⟨fun he i hi => ?_, h.dir, fun f hf => Or.inl ?_⟩
  · by_cases hxi : some i = x
    · exact Or.inr (hx he i hxi.symm hi)
    · exact Or.inl (h.link i hxi hi)
  · rw [h.file] at hf
    refine ⟨hf, ?_, ?_, ?_⟩
    · rw [h.file]
    · rw [h.file]
    · rw [h.file, h.kind _ (in_use_file hf)]

theorem Ends.refl (s : State) : Ends e d fresh s s :=
  (Calm.refl s : Calm d none s s).ends fun _ _ hx => by cases hx

theorem Ends.of_file (hnode : s'.node = s.node) (hother : ∀ g, g ≠ f → s'.file g = s.file g)
    (hf : (s'.file f).live →
      Remains s s' f ∨ fresh (s'.node (s'.file f).ip).kind (s'.file f).writable) :
    Ends e d fresh s s' := by
  refine ⟨fun _ i hi => Or.inl ?_, fun _ i hi => ?_, fun g hg => ?_⟩
  · rw [hnode] at hi ⊢
    exact ⟨hi, rfl⟩
  · rw [hnode] at hi ⊢
    exact ⟨hi, rfl⟩
  · by_cases hgf : g = f
    · rw [hgf] at hg ⊢
      exact hf hg
    · have hsame := hother g hgf
      rw [hsame] at hg
      refine Or.inl ⟨hg, ?_, ?_, ?_⟩
      · rw [hsame]
      · rw [hsame]
      · rw [hsame, hnode]

theorem Within.done (h : Within lost d none s0 [] [] s) : Done lost e d fresh s0 s :=
  ⟨h.accounted, h.calm.ends fun _ _ hx => by cases hx⟩

theorem Done.trans (h : Ends e d fresh s s') (h' : Done lost e d fresh s' s'') :
    Done lost e d fresh s s'' :=
  ⟨h'.accounted, h.trans h'.ends⟩

theorem Accounted.within (h : Accounted lost s l k) (d : Prop) : Within lost d none s l k s :=
  ⟨h, Calm.refl s⟩

section Ops

variable {Q : Unit → State → Prop}

theorem account_begin_op (h : Within lost d x s0 l k s)
    (hQ : ∀ s', Within lost d x s0 l k s' → s'.node = s.node → Q () s') :
    wp beginOp tame Q s :=
  hQ _ (h.same ⟨rfl, rfl, rfl, rfl, rfl⟩ rfl) rfl

theorem account_end_op (h : Within lost d x s0 l k s)
    (hQ : ∀ s', Within lost d x s0 l k s' → Q () s') : wp endOp tame Q s :=
  hQ _ (h.same ⟨rfl, rfl, rfl, rfl, rfl⟩ rfl)

end Ops

/-- The way out of most calls: give the inode back and return. -/
theorem account_leave {r : Int} {Q : Int → State → Prop}
    (h : Within lost d x s0 (i :: l) (i :: k) s) (hk : i ∉ k)
    (hQ : ∀ s', Within lost d x s0 l k s' → Q r s') :
    wp (do
      iunlockput i
      endOp
      pure r : Code Int) tame Q s := by
  rw [wp_bind]
  refine account_iunlockput h hk fun s1 h1 _ _ => ?_
  rw [wp_bind]
  exact account_end_op h1 fun s2 h2 => hQ s2 h2

/-! ## Calls that make and remove names -/

section Names

variable {arg arg' : Option (List Byte)}

theorem done_make {kind : Kind} {major minor : Int} (hd : d) (hkind : kind = .dir ∨ kind = .device)
    (h : Accounted lost s [] []) :
    wp (sysMake p arg kind major minor) tame (fun _ s' => Done lost e d fresh s s') s := by
  unfold sysMake
  rw [wp_bind]
  refine account_begin_op (h.within d) fun s1 h1 _ => ?_
  cases argstr arg with
  | none =>
    dsimp only
    rw [wp_bind]
    exact account_end_op h1 fun s2 h2 => h2.done
  | some path =>
    dsimp only
    rw [wp_bind]
    refine account_create hd ?_ h1 (fun s2 h2 => ?_) fun ip s2 h2 hmade => ?_
    · rintro rfl
      rcases hkind with hkind | hkind <;> cases hkind
    · dsimp only
      rw [wp_bind]
      exact account_end_op h2 fun s3 h3 => h3.done
    · refine account_leave (h2.narrow fun hlink => ?_) (by simp) fun s3 h3 => h3.done
      rcases hmade.type with htype | ⟨_, htype⟩
      · rw [← htype, hlink] at hkind
        rcases hkind with hkind | hkind <;> cases hkind
      · rw [htype] at hlink
        cases hlink

theorem account_unlink_again {Q : Int → State → Prop} (h : Within lost d x s0 (ip :: l) [] s)
    (hQ : ∀ s', Within lost d x s0 l [] s' → Q (-1) s') :
    wp (unlinkAgain ip) tame Q s := by
  unfold unlinkAgain
  rw [wp_bind]
  refine account_ilock h fun s1 h1 _ _ _ => ?_
  rw [wp_bind]
  refine account_set_node h1 List.mem_cons_self rfl rfl fun s2 h2 _ _ => ?_
  exact account_leave h2 (by simp) hQ

theorem done_link (hd : d) (h : Accounted lost s [] []) :
    wp (sysLink p arg arg') tame (fun _ s' => Done lost e d fresh s s') s := by
  have hrefl : Done lost e d fresh s s := ⟨h, Ends.refl s⟩
  unfold sysLink
  cases argstr arg with
  | none => exact hrefl
  | some old =>
    cases argstr arg' with
    | none => exact hrefl
    | some new =>
      dsimp only
      rw [wp_bind]
      refine account_begin_op (h.within d) fun s1 h1 _ => ?_
      rw [wp_bind]
      refine account_namei h1 (fun s2 h2 => ?_) fun ip s2 h2 => ?_
      · dsimp only
        rw [wp_bind]
        exact account_end_op h2 fun s3 h3 => h3.done
      · dsimp only
        rw [wp_bind]
        refine account_ilock h2 fun s3 h3 _ _ _ => ?_
        rw [wp_bind, wp_get]
        split
        next => exact account_leave h3 (by simp) fun s4 h4 => h4.done
        next =>
          rw [wp_bind]
          refine account_set_node h3 List.mem_cons_self rfl rfl fun s4 h4 _ _ => ?_
          rw [wp_bind]
          refine account_iunlock h4 (by simp) fun s5 h5 _ => ?_
          rw [wp_bind]
          refine account_namex h5 (fun s6 h6 => ?_) fun dp name s6 h6 => ?_
          · exact account_unlink_again h6 fun s7 h7 => h7.done
          · dsimp only
            rw [wp_bind]
            refine account_ilock h6 fun s7 h7 _ _ _ => ?_
            rw [wp_bind]
            refine account_dirlink hd h7 fun linked s8 h8 _ => ?_
            cases linked with
            | true =>
              rw [if_pos rfl, wp_bind]
              refine account_iunlockput h8 (by simp) fun s9 h9 _ _ => ?_
              rw [wp_bind]
              refine account_iput h9 (by simp) fun t ht _ _ => ?_
              rw [wp_bind]
              exact account_end_op ht fun u hu => hu.done
            | false =>
              rw [if_neg Bool.false_ne_true, wp_bind]
              refine account_iunlockput h8 (by simp) fun s9 h9 _ _ => ?_
              exact account_unlink_again h9 fun t ht => ht.done

theorem account_remove_entry {off : Nat} {Q : Int → State → Prop} (hd : d)
    (h : Within lost d x s0 [ip, dp] [ip, dp] s) (hne : dp ≠ ip) (hdir : (s.node dp).kind = .dir)
    (hQ : ∀ r s', Within lost d x s0 [] [] s' → Q r s') :
    wp (removeEntry dp ip off) tame Q s := by
  unfold removeEntry
  rw [wp_bind]
  refine account_writei h (fun _ hlink => ?_) (fun _ => hd) fun r s1 h1 _ _ _ => ?_
  · rw [hdir] at hlink
    cases hlink
  · split
    next => trivial
    next =>
      rw [wp_bind, wp_get]
      have hend : ∀ t, Within lost d x s0 [ip, dp] [ip, dp] t →
          wp (do
            iunlockput dp
            setNode ip fun x => { x with nlink := short (x.nlink - 1) }
            iunlockput ip
            endOp
            pure 0 : Code Int) tame Q t := by
        intro t ht
        have hswap : Within lost d x s0 [dp, ip] [dp, ip] t :=
          ht.perm (List.Perm.swap dp ip []) fun j => (List.Perm.swap dp ip []).mem_iff
        rw [wp_bind]
        refine account_iunlockput hswap (by simp [hne]) fun u hu _ _ => ?_
        rw [wp_bind]
        refine account_set_node hu List.mem_cons_self rfl rfl fun v hv _ _ => ?_
        exact account_leave hv (by simp) fun w hw => hQ 0 w hw
      split
      next =>
        rw [wp_bind]
        exact account_set_node h1 (List.mem_cons_of_mem _ List.mem_cons_self) rfl rfl
          fun t ht _ _ => hend t ht
      next => exact hend s1 h1

theorem done_unlink (hd : d) (h : Accounted lost s [] []) :
    wp (sysUnlink p arg) tame (fun _ s' => Done lost e d fresh s s') s := by
  unfold sysUnlink
  cases argstr arg with
  | none => exact ⟨h, Ends.refl s⟩
  | some path =>
    dsimp only
    rw [wp_bind]
    refine account_begin_op (h.within d) fun s1 h1 _ => ?_
    rw [wp_bind]
    refine account_namex h1 (fun s2 h2 => ?_) fun dp name s2 h2 => ?_
    · dsimp only
      rw [wp_bind]
      exact account_end_op h2 fun s3 h3 => h3.done
    · dsimp only
      rw [wp_bind]
      refine account_ilock h2 fun s3 h3 _ _ _ => ?_
      split
      next => exact account_leave h3 (by simp) fun s4 h4 => h4.done
      next =>
        rw [wp_bind]
        refine account_dirlookup h3 (fun _ => ?_) fun ip off s4 hdir h4 hnode4 => ?_
        · exact account_leave h3 (by simp) fun s4 h4 => h4.done
        · dsimp only
          rw [wp_bind]
          refine account_ilock h4 fun s5 h5 hk _ hnode5 => ?_
          have hne : dp ≠ ip := fun heq => hk (heq ▸ List.mem_cons_self)
          have hremove : wp (removeEntry dp ip off) tame
              (fun _ s' => Done lost e d fresh s s') s5 := by
            refine account_remove_entry hd h5 hne ?_ fun _ t ht => ht.done
            rw [hnode5, hnode4, hdir]
          rw [wp_bind, wp_get]
          split
          next => trivial
          next =>
            split
            next =>
              cases (s5.node ip).isdirempty with
              | none => trivial
              | some empty =>
                cases empty with
                | false =>
                  dsimp only
                  rw [wp_bind]
                  refine account_iunlockput h5 hk fun t ht _ _ => ?_
                  exact account_leave ht (by simp) fun u hu => hu.done
                | true => exact hremove
            next => exact hremove

/-- A link that gets its contents fits, and one that does not is freed. -/
theorem done_symlink (hd : d) (h : Accounted lost s [] []) :
    wp (sysSymlink p arg arg') tame (fun _ s' => Done lost e d fresh s s') s := by
  have hrefl : Done lost e d fresh s s := ⟨h, Ends.refl s⟩
  unfold sysSymlink
  cases htarget : argstr arg with
  | none => exact hrefl
  | some target =>
    cases argstr arg' with
    | none => exact hrefl
    | some path =>
      have hshort : target.length < MAXPATH := by
        unfold argstr at htarget
        split at htarget
        next => cases htarget
        next =>
          split at htarget
          next hlt =>
            cases htarget
            exact hlt
          next => cases htarget
      dsimp only
      unfold symlink
      rw [wp_bind]
      refine account_begin_op (h.within d) fun s1 h1 _ => ?_
      rw [wp_bind]
      refine account_create hd (by decide) h1 (fun s2 h2 => ?_) fun ip s2 h2 hmade => ?_
      · dsimp only
        rw [wp_bind]
        exact account_end_op h2 fun s3 h3 => h3.done
      · obtain ⟨hnew, hempty⟩ := hmade.empty rfl
        dsimp only
        rw [wp_bind]
        have hkept : wp (writei ip false (target ++ [0]) 0) tame
            (fun _ t => Within lost d (some ip) s [ip] [ip] t) s2 :=
          account_writei h2 (fun hne => absurd rfl hne) (fun _ => hd) fun _ t ht _ _ _ => ht
        have hcontents : wp (writei ip false (target ++ [0]) 0) tame
            (fun r t => r = (target ++ [0]).length → (t.node ip).data = target ++ [0]) s2 := by
          refine wp_writei (fun hr => ?_) fun tot spilt hspilt _ _ htot => ?_
          · have hnonneg := Int.natCast_nonneg (target ++ [0]).length
            omega
          · have htot' : tot = (target ++ [0]).length := Int.natCast_inj.mp htot
            dsimp only
            rw [update_self, hempty, hspilt rfl, htot', Nat.add_zero, List.take_length]
            simp [overwrite]
        refine wp_mono (wp_and hkept hcontents) fun r t hwritten => ?_
        obtain ⟨ht, hdata⟩ := hwritten
        split
        next =>
          rw [wp_bind]
          refine account_set_node ht List.mem_cons_self rfl rfl fun u hu hnode _ => ?_
          rw [wp_bind]
          refine account_iunlockput hu (by simp) fun v hv _ hfreed => ?_
          have hcount := hu.ref_eq ip
          unfold State.InUse at hnew
          rw [List.count_cons_self, List.count_nil] at hcount
          have hfree : (v.node ip).kind = .free := by
            refine hfreed (by omega) ?_
            rw [hnode, update_self]
          have hnarrow : Within lost d none s [] [] v := hv.narrow fun hlink => by
            rw [hfree] at hlink
            cases hlink
          rw [wp_bind]
          exact account_end_op hnarrow fun w hw => hw.done
        next hall =>
          have hfull : (t.node ip).data = target ++ [0] := hdata (not_not.mp hall)
          have hfits : (t.node ip).Fits := by
            unfold Node.Fits
            rw [hfull, List.length_append]
            exact ⟨hshort, by simp⟩
          have hends : Ends e d fresh s t := ht.calm.ends fun _ i hi _ => by
            cases hi
            exact hfits
          exact account_leave (ht.accounted.within d) (by simp) fun u hu => Done.trans hends hu.done

end Names

/-! ## The tables of files and processes -/

/-- The inodes and their table are as before. -/
structure SameInodes (s s' : State) : Prop where
  node : s'.node = s.node
  ref : s'.ref = s.ref
  valid : s'.valid = s.valid
  locked : s'.locked = s.locked

/-- References pass between files, processes and the call. -/
theorem Accounted.pass (h : Accounted lost s l k) (hsame : SameInodes s s')
    (hcount : ∀ i, s'.files i + s'.cwds i + l'.count i = s.files i + s.cwds i + l.count i)
    (hkept : ∀ i, s'.InUse i → ¬ s.InUse i → (s.node i).kind ≠ .free)
    (hclosed : ∀ f, (s'.file f).ref = 0 → (s'.file f).type = .none) :
    Accounted lost s' l' k := by
  refine ⟨fun i => ?_, ?_, ?_, ?_, fun i hi => ?_, ?_, hclosed⟩
  · rw [hsame.ref, h.refs, hcount]
  · rw [hsame.locked]
    exact h.locks
  · rw [hsame.ref, hsame.valid]
    exact h.held
  · rw [hsame.ref, hsame.valid, hsame.node]
    exact h.filled
  · rw [hsame.node]
    by_cases hold : s.InUse i
    · exact h.kept i hold
    · exact hkept i hi hold
  · rw [hsame.ref, hsame.valid, hsame.node]
    exact h.linked

/-- What a file adds to the count of an inode. -/
def File.share (y : File) (i : Inum) : Nat := if y.live ∧ y.ip = i then 1 else 0

theorem File.share_of_not_live (h : ¬ y.live) (i : Inum) : y.share i = 0 :=
  if_neg fun hand => h hand.1

theorem File.share_of_live (h : y.live) (i : Inum) : y.share i = [y.ip].count i := by
  unfold File.share
  rw [List.count_singleton]
  by_cases hi : y.ip = i
  · rw [if_pos ⟨h, hi⟩, if_pos (by simpa using hi)]
  · rw [if_neg fun hand => hi hand.2, if_neg (by simpa using hi)]

theorem File.share_congr {z : File} (hlive : z.live ↔ y.live) (hip : z.ip = y.ip) (i : Inum) :
    z.share i = y.share i := by
  unfold File.share
  simp only [hlive, hip]

theorem files_set (h : s'.file = update s.file f y) (i : Inum) :
    s'.files i + (s.file f).share i = s.files i + y.share i := by
  unfold State.files File.share
  rw [h]
  exact card_update (fun z : File => z.live ∧ z.ip = i) s.file f y

section

variable (h : Accounted lost s l k) (hsame : SameInodes s s')

include h hsame

/-- An assignment to a file, and what it means for the references. -/
theorem Accounted.set_file
    (hproc : s'.proc = s.proc) (hfile : s'.file = update s.file f y)
    (hcount : ∀ i, y.share i + l'.count i = (s.file f).share i + l.count i)
    (hkept : y.live → (s.node y.ip).kind ≠ .free) (hclosed : y.ref = 0 → y.type = .none) :
    Accounted lost s' l' k := by
  refine h.pass hsame (fun i => ?_) (fun i hi hold => ?_) fun g hg => ?_
  · have hfiles := files_set hfile i
    have hrest := hcount i
    rw [cwds_congr hproc]
    omega
  · have hfiles := files_set hfile i
    unfold State.InUse at hi hold
    rw [cwds_congr hproc] at hi
    by_cases hlive : y.live ∧ y.ip = i
    · rw [← hlive.2]
      exact hkept hlive.1
    · unfold File.share at hfiles
      rw [if_neg hlive] at hfiles
      omega
  · rw [hfile] at hg ⊢
    by_cases hgf : g = f
    · rw [hgf, update_self] at hg ⊢
      exact hclosed hg
    · rw [update_of_ne hgf] at hg ⊢
      exact h.closed g hg

/-- An assignment to a file that keeps what it refers to. -/
theorem Accounted.touch_file
    (hproc : s'.proc = s.proc) (hfile : s'.file = update s.file f y)
    (hlive : y.live ↔ (s.file f).live) (hip : y.ip = (s.file f).ip)
    (hclosed : y.ref = 0 → y.type = .none) : Accounted lost s' l k := by
  refine h.set_file hsame hproc hfile (fun i => ?_) (fun hy => ?_) hclosed
  · rw [File.share_congr hlive hip]
  · rw [hip]
    exact h.kept _ (in_use_file (hlive.mp hy))

theorem Accounted.set_proc
    (hfile : s'.file = s.file) (hcwd : ∀ p, (s'.proc p).cwd = (s.proc p).cwd) :
    Accounted lost s' l k := by
  have hcwds : s'.cwds = s.cwds := by
    unfold State.cwds
    simp only [hcwd]
  refine h.pass hsame (fun i => ?_) (fun i hi hold => ?_) fun g => ?_
  · rw [files_congr hfile, hcwds]
  · unfold State.InUse at hi hold
    rw [files_congr hfile, hcwds] at hi
    exact absurd hi hold
  · rw [hfile]
    exact h.closed g

end

theorem Accounted.locked_kind (h : Accounted lost s l k) (hk : i ∈ k) : (s.node i).kind ≠ .free :=
  h.filled i (h.held i hk).1 (h.held i hk).2

theorem cwd_set_ofile (ofile : Fd → Option FileId) (q : Pid) :
    (update s.proc p { s.proc p with ofile := ofile } q).cwd = (s.proc q).cwd := by
  by_cases hq : q = p
  · rw [hq, update_self]
  · rw [update_of_ne hq]

/-- A file that is still open after a change of its other fields. -/
theorem Ends.touch_file (hnode : s'.node = s.node) (hfile : s'.file = update s.file f y)
    (hlive : y.live → (s.file f).live) (hip : y.ip = (s.file f).ip)
    (hwritable : y.writable = (s.file f).writable) :
    Ends e d fresh s s' := by
  have hself : s'.file f = y := by rw [hfile, update_self]
  refine Ends.of_file (f := f) hnode (fun g hg => ?_) fun hl => Or.inl ⟨?_, ?_, ?_, ?_⟩
  · rw [hfile, update_of_ne hg]
  · rw [hself] at hl
    exact hlive hl
  · rw [hself, hip]
  · rw [hself, hwritable]
  · rw [hself, hip, hnode]

/-! ## Calls on open files -/

section Files

variable {arg : Option (List Byte)}

theorem wp_argfd {Q : Option (Fd × FileId) → State → Prop} (hnone : Q none s)
    (hsome : ∀ (n : Fd) f, fd = (n : Nat) → (s.proc p).ofile n = some f → Q (some (n, f)) s) :
    wp (argfd p fd) E Q s := by
  simp only [argfd, wp_bind, wp_get]
  split
  next hlt =>
    split
    next => exact hnone
    next hneg =>
      cases hfile : (s.proc p).ofile ⟨fd.toNat, hlt⟩ with
      | none => exact hnone
      | some f => exact hsome ⟨fd.toNat, hlt⟩ f (Int.toNat_of_nonneg (by omega)).symm hfile
  next => exact hnone

theorem done_fileclose {Q : Unit → State → Prop} (h : Accounted lost s [] [])
    (hQ : ∀ s', Done lost e d fresh s s' → Q () s') : wp (fileclose f) tame Q s := by
  simp only [fileclose, setFile, wp_bind, wp_get]
  split
  next => trivial
  next hopen =>
    split
    next hmore =>
      rw [wp_modify]
      refine hQ _ ⟨h.touch_file ⟨rfl, rfl, rfl, rfl⟩ rfl rfl ?_ rfl fun hz => ?_,
        Ends.touch_file rfl rfl (fun hl => ?_) rfl rfl⟩
      · unfold File.live
        dsimp only
        constructor
        · exact fun hl => ⟨by omega, hl.2⟩
        · exact fun hl => ⟨hmore, hl.2⟩
      · dsimp only at hz
        omega
      · exact ⟨by omega, hl.2⟩
    next =>
      rw [wp_bind, wp_modify]
      obtain ⟨y, hy⟩ : ∃ y : File, y = { s.file f with ref := 0, type := .none } := ⟨_, rfl⟩
      have hdead : ¬ y.live := fun hl => absurd hl.1 (by rw [hy]; exact Nat.lt_irrefl 0)
      have hnone : y.ref = 0 → y.type = .none := fun _ => by rw [hy]
      rw [← hy]
      -- the file is gone, and its reference belongs to the call
      have hgone : Ends e d fresh s { s with file := update s.file f y } :=
        Ends.touch_file rfl rfl (fun hl => absurd hl hdead) (by rw [hy]) (by rw [hy])
      have hput : (s.file f).type ≠ .none → wp (do
          beginOp
          iput (s.file f).ip
          endOp : Code Unit) tame Q { s with file := update s.file f y } := by
        intro htype
        have hlive : (s.file f).live := ⟨by omega, htype⟩
        have hpassed : Accounted lost { s with file := update s.file f y }
            [(s.file f).ip] [] := by
          refine h.set_file ⟨rfl, rfl, rfl, rfl⟩ rfl rfl (fun i => ?_)
            (fun hl => absurd hl hdead) hnone
          rw [File.share_of_not_live hdead, File.share_of_live hlive]
          exact Nat.add_comm _ _
        rw [wp_bind]
        refine account_begin_op (hpassed.within d) fun s1 h1 _ => ?_
        rw [wp_bind]
        refine account_iput h1 (by simp) fun s2 h2 _ _ => ?_
        exact account_end_op h2 fun s3 h3 => hQ s3 (Done.trans hgone h3.done)
      cases htype : (s.file f).type with
      | none =>
        have hold : ¬ (s.file f).live := fun hl => hl.2 htype
        refine hQ _ ⟨h.set_file ⟨rfl, rfl, rfl, rfl⟩ rfl rfl (fun i => ?_)
          (fun hl => absurd hl hdead) hnone, hgone⟩
        rw [File.share_of_not_live hdead, File.share_of_not_live hold]
      | inode => exact hput (by rw [htype]; exact fun hn => by cases hn)
      | device => exact hput (by rw [htype]; exact fun hn => by cases hn)

theorem done_set_fd (p : Pid) (fd : Fd) (o : Option FileId) (h : Accounted lost s [] []) :
    Done lost e d fresh s { s with
      proc := update s.proc p { s.proc p with
        ofile := update (s.proc p).ofile fd o } } :=
  ⟨h.set_proc ⟨rfl, rfl, rfl, rfl⟩ rfl fun q => cwd_set_ofile _ q,
    ⟨fun _ _ hi => Or.inl ⟨hi, rfl⟩, fun _ _ hi => ⟨hi, rfl⟩,
      fun _ hl => Or.inl ⟨hl, rfl, rfl, rfl⟩⟩⟩

theorem done_close (h : Accounted lost s [] []) :
    wp (sysClose p fd) tame (fun _ s' => Done lost e d fresh s s') s := by
  unfold sysClose
  rw [wp_bind]
  refine wp_argfd ⟨h, Ends.refl s⟩ fun n f _ _ => ?_
  dsimp only
  rw [wp_bind]
  have hset : Done lost e d fresh s _ := done_set_fd p n none h
  rw [setFd, wp_modify, wp_bind]
  exact done_fileclose hset.accounted fun s' hs' => Done.trans hset.ends hs'

theorem done_dup (h : Accounted lost s [] []) :
    wp (sysDup p fd) tame (fun _ s' => Done lost e d fresh s s') s := by
  unfold sysDup
  rw [wp_bind]
  refine wp_argfd ⟨h, Ends.refl s⟩ fun n f _ _ => ?_
  dsimp only
  rw [wp_bind]
  refine wp_fdalloc (fun _ => ⟨h, Ends.refl s⟩) fun n' _ => ?_
  have hset : Done lost e d fresh s _ := done_set_fd p n' (some f) h
  simp only [filedup, setFile, wp_bind, wp_get]
  split
  next => trivial
  next hopen =>
    rw [wp_modify, wp_pure]
    refine Done.trans hset.ends ⟨hset.accounted.touch_file (f := f) ⟨rfl, rfl, rfl, rfl⟩ rfl rfl ?_
      rfl fun hz => ?_, Ends.touch_file rfl rfl (fun hl => ?_) rfl rfl⟩
    · unfold File.live
      dsimp only
      constructor
      · exact fun hl => ⟨by omega, hl.2⟩
      · exact fun hl => ⟨by omega, hl.2⟩
    · dsimp only at hz
      omega
    · exact ⟨by dsimp only; omega, hl.2⟩

theorem account_set_off {g : File → Nat} {Q : Unit → State → Prop} (h : Accounted lost s l k)
    (hQ : ∀ s', Accounted lost s' l k → Ends e d fresh s s' → s'.node = s.node →
      (∀ f', (s'.file f').ip = (s.file f').ip) → Q () s') :
    wp (setFile f fun x => { x with off := g x }) tame Q s := by
  rw [setFile, wp_modify]
  refine hQ _ (h.touch_file ⟨rfl, rfl, rfl, rfl⟩ rfl rfl Iff.rfl rfl (h.closed f))
    (Ends.touch_file rfl rfl id rfl rfl) rfl fun f' => ?_
  dsimp only
  by_cases hf : f' = f
  · rw [hf, update_self]
  · rw [update_of_ne hf]

theorem done_read {driver : Int} {mapped : Bool} (h : Accounted lost s [] []) :
    wp (sysRead p fd n mapped driver) tame (fun _ s' => Done lost e d fresh s s') s := by
  have hrefl : Done lost e d fresh s s := ⟨h, Ends.refl s⟩
  unfold sysRead
  rw [wp_bind]
  refine wp_argfd hrefl fun _ f _ _ => ?_
  simp only [fileread, wp_bind, wp_get]
  split
  next => exact hrefl
  next =>
    cases (s.file f).type with
    | none => trivial
    | device =>
      dsimp only
      split
      next => exact hrefl
      next => exact hrefl
    | inode =>
      dsimp only
      rw [wp_bind]
      refine account_ilock (h.within d) fun s1 h1 hk _ _ => ?_
      split
      next =>
        rw [wp_bind]
        refine account_set_off h1.accounted fun s2 h2 (hends : Ends e d fresh s1 s2) _ _ => ?_
        rw [wp_bind]
        refine account_iunlock (h2.within d) hk fun s3 h3 _ => ?_
        exact Done.trans ((h1.calm.ends fun _ _ hx => by cases hx).trans hends) h3.done
      next =>
        rw [wp_bind]
        exact account_iunlock h1 hk fun s2 h2 _ => h2.done

/-- Every round of `filewrite` changes the contents of its inode only. -/
theorem done_filewrite_loop {src : List Byte} (h : Accounted lost s [] [])
    (hlink : (s.node (s.file f).ip).kind = .symlink → e)
    (hdir : (s.node (s.file f).ip).kind = .dir → d) :
    wp (filewriteLoop f n src) tame (fun _ s' => Done lost e d fresh s s') s := by
  induction n generalizing s src with
  | zero => trivial
  | succ n ih =>
    unfold filewriteLoop
    split
    next => exact ⟨h, Ends.refl s⟩
    next =>
      obtain ⟨ip, hip⟩ : ∃ ip, ip = (s.file f).ip := ⟨_, rfl⟩
      rw [wp_bind, wp_get, ← hip]
      rw [← hip] at hlink hdir
      rw [wp_bind]
      have hstart : Within lost d (some ip) s [] [] s := ⟨h, Calm.refl s⟩
      refine account_begin_op hstart fun s1 h1 hnode1 => ?_
      rw [wp_bind]
      refine account_ilock h1 fun s2 h2 hk _ hnode2 => ?_
      have hkind2 : (s2.node ip).kind = (s.node ip).kind := by rw [hnode2, hnode1]
      rw [wp_bind]
      refine account_writei h2 (fun hne => absurd rfl hne) (fun hd => hdir (hkind2 ▸ hd))
        fun r s3 h3 _ hkind3 _ => ?_
      have hkind : (s3.node ip).kind = (s.node ip).kind := hkind3.trans hkind2
      have hends : Ends e d fresh s s3 := by
        refine h3.calm.ends fun he i hi hl => ?_
        cases hi
        exact absurd (hlink (hkind ▸ hl)) he
      -- the end of the round, once the offset has been moved or not
      have hend : ∀ t : State, Accounted lost t [] [ip] → Ends e d fresh s t →
          t.node = s3.node → (t.file f).ip = ip →
          wp (do
            iunlock ip
            endOp
            if r = ((src.take maxChunk).length : Int) then filewriteLoop f n (src.drop maxChunk)
            else pure false : Code Bool) tame (fun _ s' => Done lost e d fresh s s') t := by
        intro t ht hst hnode hfile
        rw [wp_bind]
        refine account_iunlock (ht.within d) hk fun u hu hnodeu => ?_
        rw [wp_bind, endOp, wp_modify]
        obtain ⟨v, hv⟩ : ∃ v : State, v = { u with ops := u.ops - 1 } := ⟨_, rfl⟩
        have hnodev : v.node = s3.node := by rw [hv, hnodeu, hnode]
        have hfilev : (v.file f).ip = ip := by rw [hv, hu.calm.file, hfile]
        have hsame : SameTable u v := by
          rw [hv]
          exact ⟨rfl, rfl, rfl, rfl, rfl⟩
        have hdone : Done lost e d fresh s v :=
          Done.trans hst (hu.same hsame (by rw [hv])).done
        rw [← hv]
        split
        next =>
          refine wp_mono (ih hdone.accounted ?_ ?_) fun _ s' hs' => Done.trans hdone.ends hs'
          · rw [hfilev, hnodev, hkind]
            exact hlink
          · rw [hfilev, hnodev, hkind]
            exact hdir
        next => exact hdone
      refine (wp_ite _ _ _).mpr ⟨fun _ => ?_, fun _ => ?_⟩
      · rw [wp_bind]
        refine account_set_off h3.accounted fun t ht (hst : Ends e d fresh s3 t) hnode hfiles =>
          hend t ht (hends.trans hst) hnode ?_
        rw [hfiles, h3.calm.file, hip]
      · refine hend s3 h3.accounted hends rfl ?_
        rw [h3.calm.file, hip]

theorem done_write {driver : Int} {src : List Byte} (h : Accounted lost s [] [])
    (hlink : ∀ (n : Fd) f, fd = (n : Nat) → (s.proc p).ofile n = some f →
      (s.file f).writable = true → (s.file f).type = .inode →
      (s.node (s.file f).ip).kind = .symlink → e)
    (hdir : ∀ f, (s.file f).live → (s.file f).writable = true →
      (s.node (s.file f).ip).kind = .dir → d) :
    wp (sysWrite p fd src driver) tame (fun _ s' => Done lost e d fresh s s') s := by
  have hrefl : Done lost e d fresh s s := ⟨h, Ends.refl s⟩
  unfold sysWrite
  rw [wp_bind]
  refine wp_argfd hrefl fun n f hn hfile => ?_
  simp only [filewrite, wp_bind, wp_get]
  split
  next => exact hrefl
  next hwritable =>
    rw [Bool.not_eq_false] at hwritable
    cases htype : (s.file f).type with
    | none => trivial
    | device =>
      dsimp only
      split
      next => exact hrefl
      next => exact hrefl
    | inode =>
      have hlive : (s.file f).live := by
        have hsome : (s.file f).type ≠ .none := by
          rw [htype]
          exact fun hn => by cases hn
        exact ⟨Nat.pos_of_ne_zero fun hzero => hsome (h.closed f hzero), hsome⟩
      dsimp only
      rw [wp_bind]
      have hloop : wp (filewriteLoop f (src.length + 1) src) tame
          (fun _ s' => Done lost e d fresh s s') s :=
        done_filewrite_loop h (hlink n f hn hfile hwritable htype) (hdir f hlive hwritable)
      refine wp_mono hloop fun all s' hs' => ?_
      cases all with
      | true => exact hs'
      | false => exact hs'

/-! ## open and chdir -/

theorem account_itrunc {Q : Unit → State → Prop} (h : Within lost d none s0 l k s)
    (hkind : (s.node i).kind = .file)
    (hQ : ∀ s', Within lost d none s0 l k s' → Q () s') : wp (itrunc i) tame Q s := by
  rw [itrunc, setNode, wp_modify]
  obtain ⟨y, hy⟩ : ∃ y : Node, y = { s.node i with data := [] } := ⟨_, rfl⟩
  have hykind : y.kind = (s.node i).kind := by rw [hy]
  have hynlink : y.nlink = (s.node i).nlink := by rw [hy]
  rw [← hy]
  have hsame : ∀ j, (update s.node i y j).kind = (s.node j).kind ∧
      (update s.node i y j).nlink = (s.node j).nlink := by
    intro j
    by_cases hj : j = i
    · subst hj
      rw [update_self]
      exact ⟨hykind, hynlink⟩
    · rw [update_of_ne hj]
      exact ⟨rfl, rfl⟩
  refine hQ _ ⟨h.accounted.of_same ⟨rfl, rfl, rfl, rfl, rfl⟩ (fun j => (hsame j).1)
    fun j => Or.inl (hsame j).2, h.calm.trans (Calm.of_update rfl rfl rfl hykind
      (fun _ hl => ?_) fun _ hd => ?_)⟩
  · rw [hkind] at hl
    cases hl
  · rw [hkind] at hd
    cases hd

/-- The mode lets the file be written. -/
def writes (omode : BitVec 32) : Bool := hasFlag omode O_WRONLY || hasFlag omode O_RDWR

/-- The new file takes over the reference that the call has. -/
theorem done_open_inode {Q : Int → State → Prop} (h : Accounted lost s [i] [i])
    (hfresh : fresh (s.node i).kind (writes omode))
    (hQ : ∀ r s', Done lost e d fresh s s' → Q r s') :
    wp (openInode p i omode) tame Q s := by
  unfold openInode
  rw [wp_bind, wp_get]
  split
  next => exact account_leave (h.within d) (by simp) fun s1 h1 => hQ _ s1 h1.done
  next =>
    rw [wp_bind]
    refine wp_filealloc (fun _ => ?_) fun f hunused => ?_
    · exact account_leave (h.within d) (by simp) fun s1 h1 => hQ _ s1 h1.done
    · have htype := h.closed f hunused
      have hold : ¬ (s.file f).live := fun hl => hl.2 htype
      rw [wp_bind]
      refine wp_fdalloc (fun _ => ?_) fun fd _ => ?_
      · rw [wp_bind]
        refine wp_fileclose_unused (by simp) (by simpa using htype) ?_
        -- the file is as unused as before
        obtain ⟨y, hy⟩ : ∃ y : File, y = { s.file f with ref := 0, type := .none } := ⟨_, rfl⟩
        simp only [update_self, update_idem]
        rw [← hy]
        have hdead : ¬ y.live := fun hl => absurd hl.1 (by rw [hy]; exact Nat.lt_irrefl 0)
        have hback : Accounted lost { s with file := update s.file f y } [i] [i] := by
          refine h.set_file ⟨rfl, rfl, rfl, rfl⟩ rfl rfl (fun j => ?_)
            (fun hl => absurd hl hdead) fun _ => by rw [hy]
          rw [File.share_of_not_live hdead, File.share_of_not_live hold]
        refine account_leave (hback.within d) (by simp) fun s1 h1 => hQ _ s1 (Done.trans ?_ h1.done)
        exact Ends.touch_file rfl rfl (fun hl => absurd hl hdead) (by rw [hy]) (by rw [hy])
      · rw [wp_bind, setFile, wp_modify]
        obtain ⟨y, hy⟩ : ∃ y : File,
            y = ({ s.file f with ref := 1 } : File).opened (s.node i) i omode := ⟨_, rfl⟩
        simp only [update_self, update_idem]
        rw [← hy]
        have hip : y.ip = i := by rw [hy]; rfl
        have hone : y.ref = 1 := by rw [hy, File.opened_ref]
        have hlive : y.live := by
          refine ⟨by omega, ?_⟩
          rw [hy, File.opened_type]
          split
          · exact fun hn => by cases hn
          · exact fun hn => by cases hn
        obtain ⟨t, ht⟩ : ∃ t : State, t = { s with
            file := update s.file f y
            proc := update s.proc p { s.proc p with
              ofile := update (s.proc p).ofile fd (some f) } } := ⟨_, rfl⟩
        have hopened : Accounted lost t [] [i] := by
          have hfile : Accounted lost { s with file := update s.file f y } [] [i] := by
            refine h.set_file ⟨rfl, rfl, rfl, rfl⟩ rfl rfl (fun j => ?_) (fun _ => ?_) fun hz => ?_
            · rw [File.share_of_live hlive, File.share_of_not_live hold, hip]
              exact Nat.add_comm _ _
            · rw [hip]
              exact h.locked_kind List.mem_cons_self
            · omega
          rw [ht]
          exact hfile.set_proc ⟨rfl, rfl, rfl, rfl⟩ rfl fun q => cwd_set_ofile _ q
        have hends : Ends e d fresh s t := by
          have hself : t.file f = y := by rw [ht]; exact update_self ..
          refine Ends.of_file (f := f) (by rw [ht]) (fun g hg => ?_) fun _ => Or.inr ?_
          · rw [ht]
            exact update_of_ne hg _ _
          · rw [hself, hip, ht, hy]
            exact hfresh
        rw [← ht]
        have hend : ∀ u : State, Within lost d none t [] [i] u →
            wp (do
              iunlock i
              endOp
              pure (fd : Int) : Code Int) tame Q u := by
          intro u hu
          rw [wp_bind]
          refine account_iunlock hu (by simp) fun v hv _ => ?_
          rw [wp_bind]
          exact account_end_op hv fun w hw => hQ _ w (Done.trans hends hw.done)
        split
        next htrunc =>
          rw [wp_bind]
          refine account_itrunc (hopened.within d) ?_ fun u hu => hend u hu
          rw [ht]
          exact htrunc.2
        next => exact hend t (hopened.within d)

/-- The call ends up with one locked inode, or with none. It may leave the buffer only if there are
links that do not fit. -/
theorem account_follow_links (hE : ∀ c, tame c → E c) {buf : List Byte}
    {Q : Option Inum → State → Prop} (hwild : LinksFit s0 ∨ E .wild)
    (h : Within lost d none s0 [i] [i] s) (hnone : ∀ s', Within lost d none s0 [] [] s' → Q none s')
    (hsome : ∀ j s', Within lost d none s0 [j] [j] s' → Q (some j) s') :
    wp (followLinks p n i buf) E Q s := by
  induction n generalizing i buf s with
  | zero => exact hE _ trivial
  | succ n ih =>
    unfold followLinks
    rw [wp_bind, wp_get]
    split
    next hlink =>
      -- what the link holds is what it held when the call started
      have hfits : E .wild ∨ (s.node i).Fits := by
        rcases hwild with hfit | hwild
        · obtain ⟨hkind, hdata⟩ := h.calm.link i (fun hx => by cases hx) hlink.1
          unfold Node.Fits
          rw [hdata]
          exact Or.inr (hfit i hkind)
        · exact Or.inl hwild
      dsimp only
      split
      next hlong =>
        rcases hfits with hwild | ⟨hsize, _⟩
        · exact hwild
        · rw [read_link hsize] at hlong
          omega
      next =>
        rw [wp_bind]
        refine wp_mono_fault (account_iunlockput h (by simp) fun s1 h1 _ _ => ?_) hE
        cases hpath : cstring (overwrite buf 0 ((s.node i).read 0 (s.node i).data.length)) with
        | none =>
          rcases hfits with hwild | ⟨hsize, hnul⟩
          · exact hwild
          · rw [cstring_content buf hnul hsize] at hpath
            cases hpath
        | some path =>
          dsimp only
          rw [wp_bind]
          refine wp_mono_fault (account_namei h1 (fun s2 h2 => hnone s2 h2)
            fun j s2 h2 => ?_) hE
          dsimp only
          rw [wp_bind]
          exact wp_mono_fault (account_ilock h2 fun s3 h3 _ _ _ => ih h3) hE
    next => exact hsome i s h

theorem done_open_follow (hE : ∀ c, tame c → E c) {path : Str} {Q : Int → State → Prop}
    (hwild : LinksFit s0 ∨ E .wild) (h : Within lost d none s0 [i] [i] s)
    (hfresh : fresh (s.node i).kind (writes omode))
    (hfollow : (s.node i).kind = .symlink → ∀ K, fresh K (writes omode))
    (hQ : ∀ r s', Done lost e d fresh s0 s' → Q r s') :
    wp (openFollow p i path omode) E Q s := by
  have hstart : Ends e d fresh s0 s := h.calm.ends fun _ _ hx => by cases hx
  unfold openFollow
  rw [wp_bind, wp_get]
  split
  next hlink =>
    rw [wp_bind]
    refine account_follow_links hE hwild h (fun s1 h1 => ?_) fun j s1 h1 => ?_
    · dsimp only
      rw [wp_bind]
      exact wp_mono_fault (account_end_op h1 fun s2 h2 => hQ _ s2 h2.done) hE
    · dsimp only
      rw [wp_bind, wp_get]
      split
      next =>
        exact wp_mono_fault (account_leave h1 (by simp) fun s2 h2 => hQ _ s2 h2.done) hE
      next =>
        refine wp_mono_fault (done_open_inode (e := e) (d := d) h1.accounted (hfollow hlink.2 _)
          fun r s' hs' => hQ r s' (Done.trans ?_ hs')) hE
        exact h1.calm.ends fun _ _ hx => by cases hx
  next =>
    exact wp_mono_fault (done_open_inode (e := e) (d := d) h.accounted hfresh
      fun r s' hs' => hQ r s' (Done.trans hstart hs')) hE

/-- `sys_open` with `O_CREATE` gives no directory. It leaves its buffer only if there are links
that do not fit. -/
theorem done_open (hE : ∀ c, tame c → E c) (hwild : LinksFit s ∨ E .wild)
    (hd : hasFlag omode O_CREATE = true → d)
    (hmade : hasFlag omode O_CREATE = true → ∀ K, K ≠ .dir → fresh K (writes omode))
    (hfound : hasFlag omode O_CREATE = false → ∀ K, fresh K (writes omode))
    (h : Accounted lost s [] []) :
    wp (sysOpen p arg omode) E (fun _ s' => Done lost e d fresh s s') s := by
  unfold sysOpen
  cases argstr arg with
  | none => exact ⟨h, Ends.refl s⟩
  | some path =>
    dsimp only
    rw [wp_bind]
    refine wp_mono_fault (account_begin_op (h.within d) fun s1 h1 _ => ?_) hE
    split
    next hcreate =>
      rw [wp_bind]
      refine wp_mono_fault (account_create (hd hcreate) (by decide) h1 (fun s2 h2 => ?_)
        fun ip s2 h2 hip => ?_) hE
      · dsimp only
        rw [wp_bind]
        exact wp_mono_fault (account_end_op h2 fun s3 h3 => h3.done) hE
      · have hkind : (s2.node ip).kind = .file ∨ (s2.node ip).kind = .device :=
          hip.type.imp id And.right
        have hlink : (s2.node ip).kind ≠ .symlink := by
          intro hl
          rw [hl] at hkind
          rcases hkind with hk | hk <;> cases hk
        refine done_open_follow hE hwild (h2.narrow hlink) (hmade hcreate _ fun hdir => ?_)
          (fun hl => absurd hl hlink) fun _ s3 h3 => h3
        rw [hdir] at hkind
        rcases hkind with hk | hk <;> cases hk
    next hcreate =>
      have hany := hfound (Bool.eq_false_iff.mpr hcreate)
      rw [wp_bind]
      refine wp_mono_fault (account_namei h1 (fun s2 h2 => ?_) fun ip s2 h2 => ?_) hE
      · dsimp only
        rw [wp_bind]
        exact wp_mono_fault (account_end_op h2 fun s3 h3 => h3.done) hE
      · dsimp only
        rw [wp_bind]
        refine wp_mono_fault (account_ilock h2 fun s3 h3 _ _ _ => ?_) hE
        rw [wp_bind, wp_get]
        split
        next => exact wp_mono_fault (account_leave h3 (by simp) fun s4 h4 => h4.done) hE
        next => exact done_open_follow hE hwild h3 (hany _) (fun _ => hany) fun _ s4 h4 => h4

theorem wp_iput_proc {Q : State → Prop} {proc : Pid → Process}
    (h : wp (iput i) E (fun _ t => Q t) { s with proc := proc }) :
    wp (iput i) E (fun _ t => t.proc = s.proc ∧ Q { t with proc := proc }) s := by
  simp only [iput, itrunc, setNode, dropRef, wp_bind, wp_get] at h ⊢
  split at h
  next hlast =>
    rw [if_pos hlast]
    split at h
    next hlocked =>
      rw [if_pos hlocked]
      exact h
    next hlocked =>
      rw [if_neg hlocked]
      exact ⟨rfl, h⟩
  next hlast =>
    rw [if_neg hlast]
    exact ⟨rfl, h⟩

theorem cwds_set (s : State) (p : Pid) (ip j : Inum) {proc : Pid → Process}
    (h : proc = update s.proc p { s.proc p with cwd := ip }) :
    ({ s with proc := proc } : State).cwds j + [(s.proc p).cwd].count j =
      s.cwds j + [ip].count j := by
  unfold State.cwds
  rw [h, List.count_singleton, List.count_singleton]
  simp only [beq_iff_eq]
  exact card_update (fun q : Process => q.cwd = j) s.proc p { s.proc p with cwd := ip }

/-- The process takes over the reference to its new directory, and gives up the old one. -/
theorem done_chdir (h : Accounted lost s [] []) :
    wp (sysChdir p arg) tame (fun _ s' => Done lost e d fresh s s') s := by
  unfold sysChdir
  rw [wp_bind]
  refine account_begin_op (h.within d) fun s1 h1 _ => ?_
  cases argstr arg with
  | none =>
    dsimp only
    rw [wp_bind]
    exact account_end_op h1 fun s2 h2 => h2.done
  | some path =>
    dsimp only
    rw [wp_bind]
    refine account_namei h1 (fun s2 h2 => ?_) fun ip s2 h2 => ?_
    · dsimp only
      rw [wp_bind]
      exact account_end_op h2 fun s3 h3 => h3.done
    · dsimp only
      rw [wp_bind]
      refine account_ilock h2 fun s3 h3 hk hkind hnode3 => ?_
      rw [wp_bind, wp_get]
      split
      next => exact account_leave h3 hk fun s4 h4 => h4.done
      next =>
        rw [wp_bind]
        refine account_iunlock h3 hk fun s4 h4 hnode4 => ?_
        have hproc : s3.proc = s4.proc := h3.calm.proc.trans h4.calm.proc.symm
        rw [hproc]
        obtain ⟨proc, hset⟩ : ∃ proc, proc = update s4.proc p
          { s4.proc p with cwd := ip } := ⟨_, rfl⟩
        -- `iput` runs as if the working directory had been set already
        have hpassed : Accounted lost { s4 with proc := proc } [(s4.proc p).cwd] [] := by
          refine h4.accounted.pass ⟨rfl, rfl, rfl, rfl⟩ (fun j => ?_) (fun j hj hold => ?_)
            h4.accounted.closed
          · have hcwds := cwds_set s4 p ip j hset
            rw [show ({ s4 with proc := proc } : State).files = s4.files from files_congr rfl]
            omega
          · have hcwds := cwds_set s4 p ip j hset
            have hj' : 0 < s4.files j + ({ s4 with proc := proc } : State).cwds j := hj
            unfold State.InUse at hold
            have hmem : 0 < [ip].count j := by omega
            rw [List.mem_singleton.mp (List.count_pos_iff.mp hmem), hnode4, hnode3]
            exact hkind
        have hends : Ends e d fresh s { s4 with proc := proc } :=
          Ends.trans (h4.calm.ends fun _ _ hx => by cases hx)
            ⟨fun _ _ hi => Or.inl ⟨hi, rfl⟩, fun _ _ hi => ⟨hi, rfl⟩,
              fun _ hl => Or.inl ⟨hl, rfl, rfl, rfl⟩⟩
        have hput : wp (iput (s4.proc p).cwd) tame
            (fun _ t => Within lost d none { s4 with proc := proc } [] [] t ∧ t.proc = proc)
            { s4 with proc := proc } :=
          account_iput (hpassed.within d) (by simp) fun t ht _ _ => ⟨ht, ht.calm.proc⟩
        refine wp_seq (wp_iput_proc hput) fun _ t ht => ?_
        obtain ⟨htproc, hwithin, _⟩ := ht
        have hfinal : update t.proc p { t.proc p with cwd := ip } = proc := by
          rw [htproc, hset]
        have hlast : Within lost d none { s4 with proc := proc } [] []
            { t with proc := proc, ops := t.ops - 1 } :=
          hwithin.same ⟨rfl, rfl, rfl, rfl, rfl⟩ rfl
        simp only [endOp, wp_bind, wp_modify, wp_pure]
        rw [hfinal]
        exact Done.trans hends hlast.done

end Files

end Xv6.Fs.Files
