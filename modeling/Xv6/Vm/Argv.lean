import Xv6.Lib.Pushed
import Xv6.Vm.ForkFailure

/-!
# The argument stack

`exec` pushes the argument strings on the stack page of the new image, each at an address divisible
by 16, and below them the array of pointers to them, with a null pointer at its end. The new program
gets the number of arguments in `a0` and the address of the array in `a1`. `exec_decodes` says that
what the program reads there are the arguments.
-/

namespace Xv6.Vm.Argv

open Function

open Push

variable {L : Layout} {g g' : Ghost} {s s' : State} {E : Fault → Prop} {argv : List (List Byte)}
  {v r sz : Nat} {p : Slot}

/-! ## The source -/

/-- The registers of a trapframe that `exec` sets. -/
structure Trapframe where
  epc : Nat
  sp : Nat
  a1 : Nat

/-- The memory of the machine, and the trapframes. -/
structure UserState where
  vm : State
  frame : Slot → Trapframe

/-- Code of the virtual memory system. -/
def onVm {α : Type} (code : Code α) : Kernel UserState α :=
  onPart (·.vm) (fun vm u => { u with vm }) code

/-- Assign to fields of `p->trapframe`. -/
def setFrame (p : Slot) (f : Trapframe → Trapframe) : Kernel UserState Unit :=
  modify fun u => { u with frame := update u.frame p (f (u.frame p)) }

/-- `exec` by process `p` of a file, with the strings of `argv`. -/
def exec (L : Layout) (p : Slot) (file : Reader) (argv : List (List Byte)) :
    Kernel UserState Int := do
  let u ← get
  let elf := (file 0 sizeofElfhdr).take sizeofElfhdr
  match ← onVm (execImage L p file) with
  | none => pure (-1)
  | some (pagetable, sz) =>
    match ← onVm (execArgs L pagetable sz argv) with
    | (sz, none) =>
      onVm (procFreepagetable L pagetable sz)
      pure (-1)
    | (sz, some sp) =>
      setFrame p fun t => { t with a1 := sp }
      onVm (setProc p fun t => { t with pagetable := pagetable, sz := sz })
      setFrame p fun t => { t with epc := field elf 24 8, sp := sp }
      onVm (procFreepagetable L (u.vm.proc p).pagetable (u.vm.proc p).sz)
      pure argv.length

/-- On memory, `exec` does what the model without registers does. -/
theorem wp_exec_vm {u : UserState} {file : Reader} {Q : Int → State → Prop} :
    wp (exec L p file argv) E (fun ret u' => Q ret u'.vm) u ↔
      wp (Vm.exec L p file argv) E Q u.vm := by
  simp only [exec, Vm.exec, wp_bind, wp_get, onVm, wp_onPart]
  refine wp_congr fun image s1 => ?_
  cases image with
  | none => rfl
  | some start =>
    simp only [wp_bind, wp_onPart]
    refine wp_congr fun out s2 => ?_
    obtain ⟨sz, top⟩ := out
    cases top with
    | none => simp
    | some sp => simp [setFrame]

/-! ## The stack page -/

theorem page_byte_with_bytes (page : Page) (o o' : Nat) (bytes : List Byte) :
    some (pageByte (withPageBytes page o bytes) o') =
      if o ≤ o' ∧ o' < o + bytes.length then bytes[o' - o]? else some (pageByte page o') := by
  induction bytes generalizing page o with
  | nil =>
    rw [if_neg (by simp)]
    rfl
  | cons b rest ih =>
    rw [withPageBytes, ih, page_byte_with]
    simp only [List.length_cons]
    by_cases heq : o' = o
    · rw [if_neg (by omega), if_pos heq, if_pos (by omega), heq, Nat.sub_self]
      rfl
    · rw [if_neg heq]
      by_cases hin : o + 1 ≤ o' ∧ o' < o + 1 + rest.length
      · rw [if_pos hin, if_pos (by omega), show o' - o = (o' - (o + 1)) + 1 by omega,
          List.getElem?_cons_succ]
      · rw [if_neg hin, if_neg (by omega)]

/-- Page `v` is for the user to write to, and no other address space has it. -/
def Own (sp : Space) (v : Nat) : Prop := ∃ c, sp v = some c ∧ c.perm.u = true ∧ c.perm.w = true

theorem Own.small (h : Own (space g s r) v) : (v + 1) * PGSIZE < 2 ^ 64 := by
  obtain ⟨_, hcell, -, -⟩ := h
  have hmul : (v + 1) * PGSIZE ≤ UPAGES * PGSIZE :=
    Nat.mul_le_mul_right _ (space_of_some hcell).1
  have hmax : UPAGES * PGSIZE < 2 ^ 64 := by decide
  omega

/-- The bytes of an address space after a write to one page. -/
theorem byte_update_write {sp : Space} {o : Nat} {c : Cell} {bytes : List Byte} (hc : sp v = some c)
    (hfit : o + bytes.length ≤ PGSIZE) :
    Space.byte (update sp v (some (c.write o bytes))) =
      written sp.byte (v * PGSIZE + o) bytes := by
  have hpos : 0 < PGSIZE := by decide
  funext b
  have hb := Nat.div_add_mod' b PGSIZE
  have hlt := Nat.mod_lt b hpos
  rw [Space.byte, written]
  by_cases hpage : b / PGSIZE = v
  · rw [hpage, update_self, Option.map_some, Cell.write, page_byte_with_bytes]
    rw [hpage] at hb
    by_cases hin : o ≤ b % PGSIZE ∧ b % PGSIZE < o + bytes.length
    · rw [if_pos hin, if_pos (by omega)]
      congr 1
      omega
    · rw [if_neg hin, if_neg (by omega), Space.byte, hpage, hc]
      rfl
  · rw [update_of_ne hpage, if_neg, Space.byte]
    rintro ⟨hle, hlt'⟩
    refine hpage (Nat.div_eq_of_lt_le ?_ ?_)
    · omega
    · rw [Nat.succ_mul]
      omega

theorem wp_copyout_own {o : Nat} {src : List Byte} (h : Building L r sz g s)
    (hown : Own (space g s r) v) (hsrc : src ≠ []) (hfit : o + src.length ≤ PGSIZE) :
    wp (copyout L r (v * PGSIZE + o) src) E (fun ret s' => ret = 0 ∧ s'.failed = s.failed ∧
      ∃ g', Stays L {r} g s g' s' ∧ Building L r sz g' s' ∧ Own (space g' s' r) v ∧
        (space g' s' r).byte = written (space g s r).byte (v * PGSIZE + o) src) s := by
  obtain ⟨c, hc, hu, hw⟩ := hown
  obtain ⟨hv, l, hl, rfl⟩ := space_of_some hc
  have hpos : 0 < src.length := List.length_pos_iff.mpr hsrc
  have hdiv : (v * PGSIZE + o) / PGSIZE = v := by
    rw [Nat.mul_comm, Nat.mul_add_div (by decide), Nat.div_eq_of_lt (by omega), Nat.add_zero]
  have hmod : (v * PGSIZE + o) % PGSIZE = o := by
    rw [Nat.mul_comm, Nat.mul_add_mod, Nat.mod_eq_of_lt (by omega)]
  have hva : v * PGSIZE + o < MAXVA := by
    have hmax : UPAGES * PGSIZE ≤ MAXVA := by decide
    have hnext : (v + 1) * PGSIZE ≤ UPAGES * PGSIZE := Nat.mul_le_mul_right _ hv
    rw [Nat.succ_mul] at hnext
    omega
  obtain ⟨haddr, -, huser⟩ := h.books.leaf hv hl
  have hne := (h.books.holds.page_addr (show g.use l.pa ≠ .outside by rw [huser]; simp)).2.2
  obtain ⟨q, k, he⟩ := h.books.holds.entry_of_pt hl
  have hword : s.mem q k = l.encode := by
    rw [h.books.holds.entry_word he, hl]
    rfl
  have hlw : l.w = true := hw
  -- the page is there and needs no copy
  have hrun : rePage L q k s = .ok (l.pa, s) := by
    refine run_of_wp ?_
    simp only [rePage, wp_bind, wp_readWord, wp_pure, hword, encode_has_w haddr, hlw,
      if_true, encode_pa haddr, and_self]
  obtain ⟨n, hn⟩ := Nat.exists_eq_succ_of_ne_zero (Nat.pos_iff_ne_zero.mp hpos)
  rw [copyout, hn, wp_copyout_page h.books h.root hva (by rw [hdiv]; exact hl)
    (by rw [hdiv]; exact he) hu (.inl hlw) hrun hsrc, if_neg hne, hmod,
    min_eq_right (by omega : src.length ≤ PGSIZE - o), List.drop_length, List.take_length]
  have hdone : ∀ {Q : Int → State → Prop} {m a : Nat} {s1 : State},
      wp (copyoutLoop L r m a []) E Q s1 ↔ Q 0 s1 := by
    intro Q m a s1
    cases m with
    | zero => rfl
    | succ m =>
      rw [copyoutLoop, if_pos rfl]
      rfl
  rw [hdone]
  have hcow := h.books.counted.owned r v l hv hl hlw
  have hmove := wp_write_page (E := E) (o := o) h.books h.root hv hl hcow src
  obtain ⟨g', hstays, hfailed, -, hspace⟩ := wp_memmove_moved.mp hmove
  have hperms : SamePerms (space g s r) (space g' (s.moved l.pa o src) r) := by
    rw [hspace]
    exact same_perms_update hc rfl
  refine ⟨rfl, hfailed, g', hstays, h.stays hstays (hperms.sized h.sized)
    (hperms.granted h.granted), ?_, ?_⟩
  · rw [hspace]
    exact ⟨_, update_self .., hu, hw⟩
  · rw [hspace]
    exact byte_update_write hc hfit

/-! ## The strings -/

/-- What a block of `n` bytes takes on the stack. -/
def rounded (n : Nat) : Nat := (n + 15) / 16 * 16

/-- What the strings take on the stack. -/
def stringBytes (argv : List (List Byte)) : Nat :=
  (argv.map fun arg => rounded (arg.length + 1)).sum

/-- What the strings and the array of pointers take on the stack. -/
def argBytes (argv : List (List Byte)) : Nat :=
  stringBytes argv + rounded ((argv.length + 1) * 8)

/-- The stack pointer goes down by the size of a block, rounded up. -/
theorem pushDown_eq {sp n : Nat} (halign : sp % 16 = 0) (hlt : sp < 2 ^ 64) (hle : n ≤ sp) :
    pushDown sp n + rounded n = sp ∧ pushDown sp n % 16 = 0 := by
  have hsub : (sp + 2 ^ 64 - n % 2 ^ 64) % 2 ^ 64 = sp - n := by
    rw [Nat.mod_eq_of_lt (lt_of_le_of_lt hle hlt), Nat.sub_add_comm hle, Nat.add_mod_right,
      Nat.mod_eq_of_lt (by omega)]
  simp only [pushDown, hsub, rounded]
  omega

theorem le_rounded (n : Nat) : n ≤ rounded n := by
  unfold rounded
  omega

/-- The strings with their NULs. -/
def strings (argv : List (List Byte)) : List (List Byte) := argv.map (· ++ [0])

/-- The strings are pushed, or there is not enough room for them in the page. -/
theorem wp_pushArgs {sp : Nat} {ustack : List Nat} (h : Building L r sz g s)
    (hown : Own (space g s r) v) (hv : 1 ≤ v) (hlow : v * PGSIZE ≤ sp)
    (hhigh : sp ≤ (v + 1) * PGSIZE) (halign : sp % 16 = 0) (hlt : sp < 2 ^ 64)
    (hcount : ustack.length + argv.length ≤ MAXARG) (hlen : ∀ arg ∈ argv, arg.length < PGSIZE) :
    wp (pushArgs L r (v * PGSIZE) argv sp ustack) E (fun out s' => s'.failed = s.failed ∧
      ∃ g', Stays L {r} g s g' s' ∧ Building L r sz g' s' ∧ Own (space g' s' r) v ∧
        match out with
        | none => sp < v * PGSIZE + stringBytes argv
        | some (sp', ustack') => sp' + stringBytes argv = sp ∧ v * PGSIZE ≤ sp' ∧ sp' % 16 = 0 ∧
            (∀ b, sp ≤ b → (space g' s' r).byte b = (space g s r).byte b) ∧
            ∃ addresses, ustack' = ustack ++ addresses ∧
              Pushed (space g' s' r).byte sp (strings argv) addresses sp') s := by
  induction argv generalizing g s sp ustack with
  | nil =>
    refine ⟨rfl, g, .refl h.books, h, hown, rfl, hlow, halign, fun _ _ => rfl, [], ?_, .nil sp⟩
    exact (List.append_nil _).symm
  | cons arg rest ih =>
    have harg : arg.length + 1 ≤ PGSIZE := hlen arg List.mem_cons_self
    have hpage : PGSIZE ≤ v * PGSIZE := Nat.le_mul_of_pos_left _ hv
    obtain ⟨hdown, halign'⟩ := pushDown_eq halign hlt (n := arg.length + 1) (by omega)
    obtain ⟨sp', hsp'⟩ : ∃ sp', sp' = pushDown sp (arg.length + 1) := ⟨_, rfl⟩
    rw [← hsp'] at hdown halign'
    have hround := le_rounded (arg.length + 1)
    have hbytes : stringBytes (arg :: rest) = rounded (arg.length + 1) + stringBytes rest := rfl
    rw [pushArgs, if_neg (by rw [List.length_cons] at hcount; omega)]
    simp only [← hsp']
    by_cases hbase : sp' < v * PGSIZE
    · rw [if_pos hbase, wp_pure]
      exact ⟨rfl, g, .refl h.books, h, hown, by rw [hbytes]; omega⟩
    rw [if_neg hbase, wp_bind]
    rw [Nat.succ_mul] at hhigh
    have hsrc : arg ++ [0] ≠ [] := by simp
    have hcopy := wp_copyout_own (E := E) (o := sp' - v * PGSIZE) h hown hsrc
      (by rw [List.length_append, List.length_singleton]; omega)
    rw [show v * PGSIZE + (sp' - v * PGSIZE) = sp' by omega] at hcopy
    refine wp_mono hcopy ?_
    rintro _ s1 ⟨rfl, hfailed1, g1, hstays1, hbuilding1, hown1, hwritten⟩
    rw [if_neg (by decide)]
    have hcount' : (ustack ++ [sp']).length + rest.length ≤ MAXARG := by
      rw [List.length_cons] at hcount
      rw [List.length_append, List.length_singleton]
      omega
    refine wp_mono (ih hbuilding1 hown1 (by omega) (by rw [Nat.succ_mul]; omega) halign'
      (by omega) hcount' fun a ha => hlen a (List.mem_cons_of_mem _ ha)) ?_
    rintro out s2 ⟨hfailed2, g2, hstays2, hbuilding2, hown2, hout⟩
    refine ⟨hfailed2.trans hfailed1, g2, hstays1.trans hstays2, hbuilding2, hown2, ?_⟩
    cases out with
    | none =>
      simp only at hout ⊢
      rw [hbytes]
      omega
    | some top =>
      obtain ⟨hsum, hlow2, halign2, hsame, addresses, hustack, hpushed⟩ := hout
      have hend : sp' + (arg ++ [0]).length ≤ sp := by
        rw [List.length_append, List.length_singleton]
        omega
      refine ⟨by rw [hbytes]; omega, hlow2, halign2, fun b hb => ?_, sp' :: addresses, ?_, ?_⟩
      · rw [hsame b (by omega), hwritten, written_above _ (le_trans hend hb)]
      · rw [hustack, List.append_assoc]
        rfl
      · refine .cons hend ?_ hpushed
        have hat := at_written (space g s r).byte sp' (arg ++ [0])
        rw [← hwritten] at hat
        exact hat.congr hsame

/-! ## The stack -/

theorem flatMap_leBytes_length (words : List Nat) :
    (words.flatMap (leBytes 8)).length = 8 * words.length := by
  simp only [List.length_flatMap, leBytes_length, List.map_const', List.sum_replicate_nat]
  exact Nat.mul_comm ..

/-- What `exec` leaves on the stack: the strings below `top`, and below them at `sp` the array of
their addresses and a null pointer. -/
structure Stacked (mem : Nat → Option Byte) (base top sp : Nat) (argv : List (List Byte))
    (addresses : List Nat) : Prop where
  aligned : sp % 16 = 0
  above : base ≤ sp
  array : At mem sp ((addresses ++ [0]).flatMap (leBytes 8))
  pushed : ∃ low, sp + 8 * (argv.length + 1) ≤ low ∧ Pushed mem top (strings argv) addresses low

/-- The array is pushed below the strings, or there is not enough room for it in the page. -/
theorem wp_pushArray {low : Nat} {ustack : List Nat} (h : Building L r sz g s)
    (hown : Own (space g s r) v) (hv : 1 ≤ v) (hcount : argv.length < MAXARG)
    (hlow : v * PGSIZE ≤ low) (halign : low % 16 = 0)
    (hsum : low + stringBytes argv = (v + 1) * PGSIZE)
    (hpushed : Pushed (space g s r).byte ((v + 1) * PGSIZE) (strings argv) ustack low) :
    wp (pushArray L r (v * PGSIZE) low ustack) E (fun out s' => s'.failed = s.failed ∧
      ∃ g', Stays L {r} g s g' s' ∧ Building L r sz g' s' ∧
        match out with
        | none => PGSIZE < argBytes argv
        | some sp => Own (space g' s' r) v ∧
            Stacked (space g' s' r).byte (v * PGSIZE) ((v + 1) * PGSIZE) sp argv ustack) s := by
  have hargc : ustack.length = argv.length := by
    rw [hpushed.length_eq, strings, List.length_map]
  have hfew : (argv.length + 1) * 8 ≤ PGSIZE := by
    have hmax : MAXARG * 8 ≤ PGSIZE := by decide
    omega
  have hone : PGSIZE ≤ v * PGSIZE := Nat.le_mul_of_pos_left _ hv
  have hpage : v * PGSIZE + PGSIZE = (v + 1) * PGSIZE := (Nat.succ_mul ..).symm
  have hsmall := hown.small
  obtain ⟨hdown, halign'⟩ := pushDown_eq halign (by omega) (le_trans hfew (le_trans hone hlow))
  have hround := le_rounded ((argv.length + 1) * 8)
  obtain ⟨sp, hsp⟩ : ∃ sp, sp = pushDown low ((argv.length + 1) * 8) := ⟨_, rfl⟩
  simp only [pushArray, hargc, ← hsp] at hdown halign' ⊢
  by_cases hroom : sp < v * PGSIZE
  · rw [if_pos hroom, wp_pure]
    refine ⟨rfl, g, .refl h.books, h, ?_⟩
    show PGSIZE < stringBytes argv + rounded ((argv.length + 1) * 8)
    omega
  rw [if_neg hroom, wp_bind]
  have hwords : ((ustack ++ [0]).flatMap (leBytes 8)).length = (argv.length + 1) * 8 := by
    rw [flatMap_leBytes_length, List.length_append, hargc, List.length_singleton, Nat.mul_comm]
  have hne : (ustack ++ [0]).flatMap (leBytes 8) ≠ [] := by
    rw [← List.length_pos_iff, hwords]
    omega
  have hcopy := wp_copyout_own (E := E) (o := sp - v * PGSIZE) h hown hne (by omega)
  rw [show v * PGSIZE + (sp - v * PGSIZE) = sp by omega] at hcopy
  refine wp_mono hcopy ?_
  rintro _ s' ⟨rfl, hfailed, g', hstays, hbuilding, hown', hwritten⟩
  rw [if_neg (by decide), wp_pure]
  refine ⟨hfailed, g', hstays, hbuilding, hown', halign', by omega, ?_, low, by omega,
    hpushed.congr fun b hb => ?_⟩
  · rw [hwritten]
    exact at_written _ _ _
  · rw [hwritten, written_above _ (by omega)]

/-- The arguments are on the stack, or they do not fit, or memory ran out. -/
theorem wp_execArgs (h : Building L r sz g s) (hcount : argv.length < MAXARG)
    (hlen : ∀ arg ∈ argv, arg.length < PGSIZE) :
    wp (execArgs L r sz argv) E (fun out s' => ∃ g', Stays L {r} g s g' s' ∧
      Building L r out.1 g' s' ∧
        match out.2 with
        | none => s.failed < s'.failed ∨ PGSIZE < argBytes argv
        | some sp => ∃ v addresses, 1 ≤ v ∧ out.1 = (v + 1) * PGSIZE ∧ Own (space g' s' r) v ∧
            Stacked (space g' s' r).byte (v * PGSIZE) ((v + 1) * PGSIZE) sp argv addresses) s := by
  rw [execArgs, pgroundup_eq]
  refine wp_seq (wp_stack_pages h) ?_
  intro sz1 s1 halloc
  obtain ⟨g1, hstays1, ⟨hsz1, hfailed1, hbuilding1⟩ | ⟨hsz1, -, hbuilding1, ⟨c, hc⟩, htop⟩⟩ :=
    halloc
  · rw [if_pos hsz1, wp_pure]
    exact ⟨g1, hstays1, hbuilding1, .inl hfailed1⟩
  subst hsz1
  rw [if_neg (stack_size_ne_zero _), wp_bind, stack_guard_eq]
  refine wp_mono (wp_stack_guard hbuilding1 hc) ?_
  intro _ s2 hguard
  obtain ⟨-, g2, hstays2, hbuilding2, hothers⟩ := hguard
  -- the stack page is the one above the guard page
  obtain ⟨v, hv⟩ : ∃ v, v = npages sz + 1 := ⟨_, rfl⟩
  have hbase : (npages sz + 2) * PGSIZE - USERSTACK * PGSIZE = v * PGSIZE := by
    rw [← Nat.sub_mul, hv]
    rfl
  have hown : Own (space g2 s2 r) v := by
    refine ⟨zeroCell true, ?_, rfl, rfl⟩
    rw [hothers v (by omega), hv, htop]
  have hpage : v * PGSIZE + PGSIZE = (v + 1) * PGSIZE := (Nat.succ_mul ..).symm
  have haligned : (v + 1) * PGSIZE % 16 = 0 := by
    rw [show PGSIZE = 256 * 16 by decide, ← Nat.mul_assoc, Nat.mul_mod_left]
  have hsz : npages sz + 2 = v + 1 := by omega
  rw [hsz] at hbuilding2
  rw [hbase, hsz]
  refine wp_seq (wp_pushArgs hbuilding2 hown (by omega) (by omega) le_rfl haligned hown.small
    (by simpa using hcount.le) hlen) ?_
  intro pushed s3 hpost
  obtain ⟨-, g3, hstays3, hbuilding3, hown3, hpushed⟩ := hpost
  have hall := (hstays1.trans hstays2).trans hstays3
  cases pushed with
  | none =>
    have hfull : (v + 1) * PGSIZE < v * PGSIZE + stringBytes argv := hpushed
    refine ⟨g3, hall, hbuilding3, .inr ?_⟩
    rw [argBytes]
    omega
  | some out =>
    obtain ⟨low, ustack⟩ := out
    obtain ⟨hsum, hlow, halign, -, addresses, hustack, hpushed⟩ := hpushed
    rw [List.nil_append] at hustack
    subst hustack
    simp only [wp_bind]
    refine wp_mono (wp_pushArray hbuilding3 hown3 (by omega) hcount hlow halign hsum hpushed) ?_
    intro top s4 harray
    obtain ⟨-, g4, hstays4, hbuilding4, hresult⟩ := harray
    refine ⟨g4, hall.trans hstays4, hbuilding4, ?_⟩
    cases top with
    | none => exact .inr hresult
    | some sp =>
      obtain ⟨hown4, hstacked⟩ := hresult
      exact ⟨v, ustack, by omega, rfl, hown4, hstacked⟩

/-! ## What the program reads -/

/-- The byte that a load by the user gets, unless it faults. -/
def userMemory (s : State) (r va : Nat) : Option Byte :=
  match loadByte r va s with
  | .ok (b, _) => b
  | .error _ => none

/-- A little-endian number of `n` bytes in memory. -/
def readNat (mem : Nat → Option Byte) : Nat → Nat → Option Nat
  | 0, _ => some 0
  | n + 1, va => do
    let b ← mem va
    let rest ← readNat mem n (va + 1)
    pure (b.toNat + 256 * rest)

/-- An array of `n` pointers in memory. -/
def readPointers (mem : Nat → Option Byte) : Nat → Nat → Option (List Nat)
  | 0, _ => some []
  | n + 1, va => do
    let pointer ← readNat mem 8 va
    let rest ← readPointers mem n (va + 8)
    pure (pointer :: rest)

theorem userMemory_eq (h : Books L g s) (hr : g.IsRoot r) (htop : TopSafe g r) :
    userMemory s r = (space g s r).load := by
  funext va
  rw [userMemory, load_byte_eq h hr htop]

theorem readNat_leBytes {mem : Nat → Option Byte} {n va : Nat} (h : At mem va (leBytes n v)) :
    readNat mem n va = some (v % 256 ^ n) := by
  induction n generalizing va v with
  | zero => rw [readNat, pow_zero, Nat.mod_one]
  | succ n ih =>
    have hfirst : mem va = some (BitVec.ofNat 8 v) := h 0 (by rw [leBytes_length]; omega)
    have hrest : At mem (va + 1) (leBytes n (v / 256)) := by
      intro j hj
      have hnext := h (j + 1) (by rw [leBytes, List.length_cons]; omega)
      rwa [leBytes, List.getElem?_cons_succ, Nat.add_comm j, ← Nat.add_assoc] at hnext
    have hsplit := Nat.mod_mul (x := v) (a := 256) (b := 256 ^ n)
    rw [readNat, hfirst, ih hrest, pow_succ', hsplit]
    simp

theorem readPointers_leBytes {mem : Nat → Option Byte} {va : Nat} {pointers : List Nat}
    (h : At mem va (pointers.flatMap (leBytes 8))) (hlt : ∀ a ∈ pointers, a < 2 ^ 64) :
    readPointers mem pointers.length va = some pointers := by
  induction pointers generalizing va with
  | nil => rfl
  | cons a rest ih =>
    obtain ⟨hfirst, hrest⟩ := at_append.mp (List.flatMap_cons ▸ h)
    rw [leBytes_length] at hrest
    have hsmall : a < 256 ^ 8 := hlt a List.mem_cons_self
    rw [List.length_cons, readPointers, readNat_leBytes hfirst, Nat.mod_eq_of_lt hsmall,
      ih hrest fun b hb => hlt b (List.mem_cons_of_mem _ hb)]
    rfl

/-- The stack page at `base` decodes to the arguments: at `sp` there are the addresses of the
strings and a null pointer, each string is in the page with its NUL, and nothing overlaps. -/
structure Decodes (mem : Nat → Option Byte) (base sp : Nat) (argv : List (List Byte))
    (addresses : List Nat) : Prop where
  aligned : sp % 16 = 0
  above : base ≤ sp
  array : readPointers mem (argv.length + 1) sp = some (addresses ++ [0])
  count : addresses.length = argv.length
  string : ∀ (i : Nat) arg a, argv[i]? = some arg → addresses[i]? = some a →
    a ≠ 0 ∧ base ≤ a ∧ a + arg.length + 1 ≤ base + PGSIZE ∧ At mem a (arg ++ [0])
  apart : ∀ (i j : Nat) arg arg' a a', i ≠ j → argv[i]? = some arg → addresses[i]? = some a →
    argv[j]? = some arg' → addresses[j]? = some a' →
    a + arg.length + 1 ≤ a' ∨ a' + arg'.length + 1 ≤ a
  below : ∀ a ∈ addresses, sp + 8 * (argv.length + 1) ≤ a

theorem strings_getElem {i : Nat} {arg : List Byte} (h : argv[i]? = some arg) :
    (strings argv)[i]? = some (arg ++ [0]) := by
  rw [strings, List.getElem?_map, h]
  rfl

/-- What `exec` leaves on the stack decodes to the arguments. -/
theorem Stacked.decodes {sp : Space} {a : Nat} {addresses : List Nat} (hown : Own sp v) (hv : 1 ≤ v)
    (hsmall : (v + 1) * PGSIZE < 2 ^ 64)
    (h : Stacked sp.byte (v * PGSIZE) ((v + 1) * PGSIZE) a argv addresses) :
    Decodes sp.load (v * PGSIZE) a argv addresses := by
  obtain ⟨halign, habove, harray, low, hlow, hpushed⟩ := h
  have hpage : v * PGSIZE + PGSIZE = (v + 1) * PGSIZE := (Nat.succ_mul ..).symm
  have hone : 1 ≤ v * PGSIZE := Nat.mul_pos hv (by decide)
  have hcount : addresses.length = argv.length := by
    rw [hpushed.length_eq, strings, List.length_map]
  have hend := hpushed.low_le
  -- the user reads the bytes of the page
  have hload : ∀ b, v * PGSIZE ≤ b → b < (v + 1) * PGSIZE → sp.load b = sp.byte b := by
    intro b hge hlt
    obtain ⟨c, hc, hu, -⟩ := hown
    rw [Space.load, Space.byte, Nat.div_eq_of_lt_le hge hlt, hc, Option.bind_some, if_pos hu]
    rfl
  have hread : ∀ {b : Nat} {block : List Byte}, v * PGSIZE ≤ b →
      b + block.length ≤ (v + 1) * PGSIZE → At sp.byte b block → At sp.load b block := by
    intro b block hge hle hat j hj
    rw [hload _ (by omega) (by omega), hat j hj]
  have hplace : ∀ (i : Nat) arg b, argv[i]? = some arg → addresses[i]? = some b →
      low ≤ b ∧ b + arg.length + 1 ≤ (v + 1) * PGSIZE ∧ At sp.byte b (arg ++ [0]) := by
    intro i arg b harg hb
    obtain ⟨hge, hle, hat⟩ := hpushed.block (strings_getElem harg) hb
    rw [List.length_append, List.length_singleton] at hle
    exact ⟨hge, by omega, hat⟩
  have hsome : ∀ b ∈ addresses, low ≤ b ∧ b < (v + 1) * PGSIZE := by
    intro b hb
    obtain ⟨i, hi⟩ := List.mem_iff_getElem?.mp hb
    obtain ⟨arg, harg⟩ : ∃ arg, argv[i]? = some arg := by
      have hlt := (List.getElem?_eq_some_iff.mp hi).1
      exact ⟨_, List.getElem?_eq_getElem (hcount ▸ hlt)⟩
    obtain ⟨hge, hle, -⟩ := hplace i arg b harg hi
    exact ⟨hge, by omega⟩
  have hapart : ∀ (i j : Nat) arg' b b', i < j → addresses[i]? = some b → argv[j]? = some arg' →
      addresses[j]? = some b' → b' + arg'.length + 1 ≤ b := by
    intro i j arg' b b' hij hb harg' hb'
    have hbelow := hpushed.apart hij hb (strings_getElem harg') hb'
    rwa [List.length_append, List.length_singleton, ← Nat.add_assoc] at hbelow
  have hwords : ((addresses ++ [0]).flatMap (leBytes 8)).length = 8 * (argv.length + 1) := by
    rw [flatMap_leBytes_length, List.length_append, hcount, List.length_singleton]
  refine ⟨halign, habove, ?_, hcount, ?_, ?_, fun b hb => le_trans hlow (hsome b hb).1⟩
  · have hpointers : ∀ b ∈ addresses ++ [0], b < 2 ^ 64 := by
      intro b hb
      rcases List.mem_append.mp hb with hin | hin
      · exact lt_trans (hsome b hin).2 hsmall
      · rw [List.mem_singleton.mp hin]
        decide
    have harray' := readPointers_leBytes (hread habove (by rw [hwords]; omega) harray) hpointers
    rwa [List.length_append, hcount, List.length_singleton] at harray'
  · intro i arg b harg hb
    obtain ⟨hge, hle, hat⟩ := hplace i arg b harg hb
    refine ⟨by omega, by omega, by omega, hread (by omega) ?_ hat⟩
    rw [List.length_append, List.length_singleton]
    omega
  · intro i j arg arg' b b' hne harg hb harg' hb'
    rcases Nat.lt_or_gt_of_ne hne with hij | hij
    · exact .inr (hapart i j arg' b b' hij hb harg' hb')
    · exact .inl (hapart j i arg b' b hij hb' harg hb)

/-! ## `exec` -/

/-- A process reads the address space that its slot shows. -/
theorem userMemory_view (h : Sys L g s) (hp : (s.proc p).state ≠ .unused) :
    userMemory s (s.proc p).pagetable = (view g s p).sp.load := by
  have hslot := h.slot p hp
  exact userMemory_eq h.books hslot.root hslot.top.safe

/-- A process reads what it read when its slot shows what it showed. -/
theorem userMemory_congr (h : Sys L g s) (h' : Sys L g' s') (hp : (s.proc p).state ≠ .unused)
    (hproc : s'.proc = s.proc) (hview : view g' s' = view g s) :
    userMemory s' (s.proc p).pagetable = userMemory s (s.proc p).pagetable := by
  have hread := userMemory_view h hp
  have hread' := userMemory_view h' (p := p) (by rw [hproc]; exact hp)
  rw [hview, hproc] at hread'
  rw [hread, hread']

/-- For at most `MAXARG - 1` strings, each shorter than a page, `exec` fails and leaves the old
image in use, because the file is not loaded, the arguments do not fit or memory ran out; or the
stack of the new image decodes to the arguments. -/
theorem exec_decodes {u : UserState} {p : Slot} {argv : List (List Byte)}
    (h : Sys L g u.vm) (hp : (u.vm.proc p).state ≠ .unused) (file : Reader)
    (hcount : argv.length ≤ MAXARG - 1) (hlen : ∀ arg ∈ argv, arg.length < PGSIZE) :
    wp (exec L p file argv) Fault.never (fun ret u' =>
      (ret = -1 ∧ u'.frame = u.frame ∧ u'.vm.proc = u.vm.proc ∧
        userMemory u'.vm (u.vm.proc p).pagetable = userMemory u.vm (u.vm.proc p).pagetable ∧
        ((∃ s1, execImage L p file u.vm = .ok (none, s1)) ∨ PGSIZE < argBytes argv ∨
          u.vm.failed < u'.vm.failed)) ∨
      (ret = argv.length ∧ (u'.frame p).a1 = (u'.frame p).sp ∧ ∃ base addresses,
        (u'.vm.proc p).sz = base + PGSIZE ∧
        Decodes (userMemory u'.vm (u'.vm.proc p).pagetable) base (u'.frame p).a1 argv addresses))
      u := by
  obtain ⟨image, s1, hrun, hfailed1, himage⟩ := wp_returns (wp_execImage h hp file)
  simp only [exec, wp_bind, wp_get, onVm, wp_onPart, wp_iff_of_run hrun]
  cases image with
  | none =>
    obtain ⟨hproc, g', hsys, hview⟩ := himage
    exact .inl ⟨rfl, rfl, hproc, userMemory_congr h hsys hp hproc hview, .inl ⟨s1, hrun⟩⟩
  | some start =>
    obtain ⟨r, sz⟩ := start
    obtain ⟨g1, hstarted⟩ := himage
    have hfew : argv.length < MAXARG := lt_of_le_of_lt hcount (by decide)
    simp only [wp_bind, wp_onPart]
    refine wp_mono (wp_execArgs hstarted.building hfew hlen) ?_
    intro out s2 hargs
    obtain ⟨sz', top⟩ := out
    obtain ⟨g2, hstays, hbuilding, htop⟩ := hargs
    have hstarted2 := hstarted.stays hstays hbuilding
    cases top with
    | none =>
      simp only [wp_bind, wp_onPart]
      refine wp_mono (wp_exec_bad h hstarted2) ?_
      rintro _ s3 ⟨hfailed3, hproc, g3, hsys, hview⟩
      refine .inl ⟨rfl, rfl, hproc, userMemory_congr h hsys hp hproc hview, .inr ?_⟩
      rcases htop with hmemory | hfull
      · exact .inr (lt_of_le_of_lt hfailed1 (lt_of_lt_of_eq hmemory hfailed3.symm))
      · exact .inl hfull
    | some sp =>
      obtain ⟨v, addresses, hv, rfl, hown, hstacked⟩ := htop
      have hcommit := wp_exec_commit (E := Fault.never) h hp hstarted2
      rw [wp_bind] at hcommit
      simp only [setFrame, wp_bind, wp_modify, wp_onPart]
      refine wp_mono hcommit fun _ s3 hdone => wp_mono hdone ?_
      rintro _ s' ⟨-, hproc, g', hsys, -, hview⟩
      have hsmall : (v + 1) * PGSIZE < 2 ^ 64 := hown.small
      have hread := userMemory_view hsys (p := p) (by rw [hproc]; exact hp)
      rw [hview, update_self] at hread
      have hdecodes := hstacked.decodes hown hv hsmall
      rw [← hread] at hdecodes
      refine .inr ⟨rfl, ?_, v * PGSIZE, addresses, ?_, ?_⟩
      · simp
      · simp [hproc, Nat.succ_mul]
      · simpa using hdecodes

/-- `exec` up to the stack, with the stack pointer of the new image. -/
def execTop (L : Layout) (p : Slot) (file : Reader) (argv : List (List Byte)) :
    Code (Option Nat) := do
  match ← execImage L p file with
  | none => pure none
  | some (pagetable, sz) =>
    let out ← execArgs L pagetable sz argv
    pure out.2

/-- Once the stack is built `exec` returns the number of arguments. -/
theorem exec_returns {u : UserState} {file : Reader} (sp : Nat)
    (h : valueOf (execTop L p file argv) u.vm = some (some sp)) :
    wp (exec L p file argv) Fault.any
      (fun ret u' => ret = argv.length ∧ (u'.frame p).sp = sp) u := by
  obtain ⟨s1, hrun⟩ := ok_of_value h
  have hwp : wp (execTop L p file argv) Fault.any (fun top _ => top = some sp) u.vm :=
    (wp_iff_of_run hrun).mpr rfl
  rw [execTop, wp_bind] at hwp
  simp only [exec, wp_bind, wp_get, onVm, wp_onPart]
  refine wp_mono hwp ?_
  intro image s2 hwp
  cases image with
  | none => cases hwp
  | some start =>
    simp only [wp_bind, wp_pure] at hwp
    simp only [wp_bind, wp_onPart]
    refine wp_mono hwp ?_
    rintro ⟨sz', top⟩ s3 rfl
    simp only [setFrame, wp_bind, wp_modify, wp_onPart]
    exact wp_mono (wp_any _) fun _ _ _ => wp_mono (wp_any _) fun _ _ _ => ⟨rfl, by simp⟩

/-- A file of an ELF header only. -/
def headerOnly : Reader := fun off n =>
  (([0x7f, 0x45, 0x4c, 0x46] ++ List.replicate 60 0).drop off).take n

/-- The child of a fork calls `exec` with the arguments `echo` and `hi`. -/
theorem exec_decodes_echo : ∃ u' base addresses,
    exec tightKernel 1 headerOnly [[101, 99, 104, 111], [104, 105]] ⟨forked, fun _ => ⟨0, 0, 0⟩⟩ =
      .ok (2, u') ∧ (u'.frame 1).a1 = 0x1fc0 ∧ (u'.vm.proc 1).sz = base + PGSIZE ∧
    Decodes (userMemory u'.vm (u'.vm.proc 1).pagetable) base 0x1fc0
      [[101, 99, 104, 111], [104, 105]] addresses := by
  obtain ⟨g, hsys⟩ := sys_of_reachable forked_reachable
  obtain ⟨ret, u', hrun, hpost⟩ := wp_returns (exec_decodes (g := g)
    (u := ⟨forked, fun _ => ⟨0, 0, 0⟩⟩) (p := 1) hsys (by simp [forked_live]) headerOnly
    (show [[101, 99, 104, 111], [104, 105]].length ≤ MAXARG - 1 by decide) (by decide))
  obtain ⟨rfl, hsp⟩ := wp_ok (exec_returns 0x1fc0 (by decide +kernel)) hrun
  obtain ⟨hret, -⟩ | ⟨-, htop, base, addresses, hsz, hdecodes⟩ := hpost
  · cases hret
  · rw [hsp] at htop
    rw [htop] at hdecodes
    exact ⟨u', base, addresses, hrun, htop, hsz, hdecodes⟩

end Xv6.Vm.Argv
