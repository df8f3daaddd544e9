import Xv6.Lib.Word

/-!
# Addresses and page table entries

The constants of `memlayout.h` and `riscv.h` and the bit layout of a page table entry. A `Leaf`
is the decoded form of a valid entry that maps a page; `Leaf.encode` is the word it stands for,
and the lemmas below say what the kernel's bit operations do to it.
-/

namespace Xv6.Vm

def PGSIZE : Nat := 4096
def PGSHIFT : Nat := 12
def KERNBASE : Nat := 0x80000000
def PHYSTOP : Nat := KERNBASE + 128 * 1024 * 1024
def MAXVA : Nat := 1 <<< (9 + 9 + 9 + 12 - 1)
def TRAMPOLINE : Nat := MAXVA - PGSIZE
def TRAPFRAME : Nat := TRAMPOLINE - PGSIZE

/-- `PGROUNDUP`. -/
def PGROUNDUP (sz : Nat) : Nat := (sz + PGSIZE - 1) / PGSIZE * PGSIZE

/-- `PGROUNDDOWN`. -/
def PGROUNDDOWN (a : Nat) : Nat := a / PGSIZE * PGSIZE

/-- `pte_t`. -/
abbrev Pte := BitVec 64

def PTE_V : Pte := 1 <<< 0
def PTE_R : Pte := 1 <<< 1
def PTE_W : Pte := 1 <<< 2
def PTE_X : Pte := 1 <<< 3
def PTE_U : Pte := 1 <<< 4
def PTE_COW : Pte := 1 <<< 8

/-- `PA2PTE`. -/
def PA2PTE (pa : Nat) : Pte := (BitVec.ofNat 64 pa >>> 12) <<< 10

/-- `PTE2PA`. -/
def PTE2PA (pte : Pte) : Nat := ((pte >>> 10) <<< 12).toNat

/-- `PTE_FLAGS`. -/
def PTE_FLAGS (pte : Pte) : Pte := pte &&& 0x3FF

/-- `PX(level, va)`: nine bits of index for one level of the page table. -/
def PX (level va : Nat) : Nat := va / 2 ^ (PGSHIFT + 9 * level) % 512

/-- A physical address that can stand in an entry. -/
structure PageAddr (pa : Nat) : Prop where
  aligned : pa % PGSIZE = 0
  bound : pa < PHYSTOP

/-- A valid entry that maps page `pa`. All of them are readable. -/
structure Leaf where
  pa : Nat
  w : Bool
  x : Bool
  u : Bool
  cow : Bool
  deriving DecidableEq, Repr

/-- The flag bits of a valid, readable entry. -/
def leafFlags (w x u cow : Bool) : Pte :=
  PTE_V ||| PTE_R ||| (if w then PTE_W else 0) ||| (if x then PTE_X else 0) |||
    (if u then PTE_U else 0) ||| (if cow then PTE_COW else 0)

/-- The flag bits of an entry. -/
def Leaf.flags (l : Leaf) : Pte := leafFlags l.w l.x l.u l.cow

/-- The word of an entry. -/
def Leaf.encode (l : Leaf) : Pte := PA2PTE l.pa ||| l.flags

/-- The word of an entry that points to the next table. -/
def link (pa : Nat) : Pte := PA2PTE pa ||| PTE_V

/-! ## Rounding -/

theorem round_down_page (va : Nat) : PGROUNDDOWN va / PGSIZE = va / PGSIZE := by
  rw [PGROUNDDOWN, Nat.mul_div_cancel _ (by decide)]

theorem round_down_lt {va : Nat} (hva : va < MAXVA) : PGROUNDDOWN va < MAXVA :=
  lt_of_le_of_lt (Nat.div_mul_le_self va PGSIZE) hva

theorem sub_round_down (va : Nat) : va - PGROUNDDOWN va = va % PGSIZE := by
  unfold PGROUNDDOWN PGSIZE
  omega

/-! ## Encoding -/

theorem pa2pte_of_lt {pa : Nat} (hbound : pa < 2 ^ 64) (flags : Pte) :
    PA2PTE pa ||| flags = tagged (pa / PGSIZE) flags := by
  have hshift : BitVec.ofNat 64 pa >>> 12 = BitVec.ofNat 64 (pa / PGSIZE) := by
    apply BitVec.eq_of_toNat_eq
    rw [BitVec.toNat_ushiftRight, BitVec.toNat_ofNat, BitVec.toNat_ofNat, Nat.mod_eq_of_lt hbound,
      Nat.shiftRight_eq_div_pow, Nat.mod_eq_of_lt (lt_of_le_of_lt (Nat.div_le_self _ _) hbound)]
    rfl
  rw [PA2PTE, hshift, tagged]

theorem tagged_pa_of_lt {pa : Nat} (halign : pa % PGSIZE = 0) (hbound : pa < 2 ^ 56) {flags : Pte}
    (hflags : flags.toNat < 1024) : PTE2PA (tagged (pa / PGSIZE) flags) = pa := by
  have hlow : pa / PGSIZE < 2 ^ 44 := by
    simp only [PGSIZE]
    omega
  have hnumber : (tagged (pa / PGSIZE) flags >>> 10).toNat = pa / PGSIZE :=
    tagged_number hflags (lt_trans hlow (by decide))
  rw [PTE2PA, BitVec.toNat_shiftLeft, hnumber, Nat.shiftLeft_eq]
  simp only [PGSIZE] at halign ⊢
  omega

theorem pa2pte_eq {pa : Nat} (h : PageAddr pa) (flags : Pte) :
    PA2PTE pa ||| flags = tagged (pa / PGSIZE) flags :=
  pa2pte_of_lt (lt_trans h.bound (by decide)) flags

theorem tagged_pa {pa : Nat} (h : PageAddr pa) {flags : Pte} (hflags : flags.toNat < 1024) :
    PTE2PA (tagged (pa / PGSIZE) flags) = pa :=
  tagged_pa_of_lt h.aligned (lt_trans h.bound (by decide)) hflags

theorem leaf_flags_lt : ∀ w x u cow, (leafFlags w x u cow).toNat < 1024 := by decide

@[simp] theorem link_pa {pa : Nat} (h : PageAddr pa) : PTE2PA (link pa) = pa := by
  rw [link, pa2pte_eq h, tagged_pa h (by decide)]

theorem link_has_v {pa : Nat} (h : PageAddr pa) : hasFlag (link pa) PTE_V = true := by
  rw [link, pa2pte_eq h, tagged_has_flag (by decide)]
  decide

theorem link_not_leaf {pa : Nat} (h : PageAddr pa) :
    hasFlag (link pa) (PTE_R ||| PTE_W ||| PTE_X) = false := by
  rw [link, pa2pte_eq h, tagged_has_flag (by decide)]
  decide

section Leaf

variable {l : Leaf}

section

variable (h : PageAddr l.pa)

include h

@[simp] theorem encode_pa : PTE2PA l.encode = l.pa := by
  rw [Leaf.encode, pa2pte_eq h, Leaf.flags, tagged_pa h (leaf_flags_lt ..)]

theorem encode_flags : PTE_FLAGS l.encode = l.flags := by
  have hflags : ∀ w x u cow, leafFlags w x u cow &&& 0x3FF = leafFlags w x u cow := by decide
  rw [Leaf.encode, pa2pte_eq h, PTE_FLAGS, tagged_and_low (by decide)]
  exact hflags ..

theorem encode_has_flag {flag : Pte} (hlow : flag.toNat < 1024) :
    hasFlag l.encode flag = hasFlag l.flags flag := by
  rw [Leaf.encode, pa2pte_eq h, tagged_has_flag hlow]

@[simp] theorem encode_has_v : hasFlag l.encode PTE_V = true := by
  have hflags : ∀ w x u cow, hasFlag (leafFlags w x u cow) PTE_V = true := by decide
  rw [encode_has_flag h (by decide)]
  exact hflags ..

@[simp] theorem encode_has_w : hasFlag l.encode PTE_W = l.w := by
  have hflags : ∀ w x u cow, hasFlag (leafFlags w x u cow) PTE_W = w := by decide
  rw [encode_has_flag h (by decide)]
  exact hflags ..

@[simp] theorem encode_has_u : hasFlag l.encode PTE_U = l.u := by
  have hflags : ∀ w x u cow, hasFlag (leafFlags w x u cow) PTE_U = u := by decide
  rw [encode_has_flag h (by decide)]
  exact hflags ..

@[simp] theorem encode_has_cow : hasFlag l.encode PTE_COW = l.cow := by
  have hflags : ∀ w x u cow, hasFlag (leafFlags w x u cow) PTE_COW = cow := by decide
  rw [encode_has_flag h (by decide)]
  exact hflags ..

theorem encode_is_leaf : PTE_FLAGS l.encode ≠ PTE_V := by
  have hflags : ∀ w x u cow, leafFlags w x u cow ≠ PTE_V := by decide
  rw [encode_flags h]
  exact hflags _ _ _ _

theorem encode_share :
    (l.encode &&& ~~~ PTE_W) ||| PTE_COW = ({ l with w := false, cow := true } : Leaf).encode := by
  have hflags : ∀ w x u cow, (leafFlags w x u cow &&& ~~~ PTE_W) ||| PTE_COW =
    leafFlags false x u true := by decide
  rw [Leaf.encode, Leaf.encode, pa2pte_eq h, pa2pte_eq h, tagged_and_not (by decide), tagged_or]
  exact congrArg _ (hflags ..)

theorem encode_clear_u :
    l.encode &&& ~~~ PTE_U = ({ l with u := false } : Leaf).encode := by
  have hflags : ∀ w x u cow, leafFlags w x u cow &&& ~~~ PTE_U = leafFlags w x false cow := by
    decide
  rw [Leaf.encode, Leaf.encode, pa2pte_eq h, pa2pte_eq h, tagged_and_not (by decide)]
  exact congrArg _ (hflags ..)

theorem encode_own (pa : Nat) :
    PA2PTE pa ||| ((PTE_FLAGS l.encode ||| PTE_W) &&& ~~~ PTE_COW) =
      ({ l with pa := pa, w := true, cow := false } : Leaf).encode := by
  have hflags : ∀ w x u cow, (leafFlags w x u cow ||| PTE_W) &&& ~~~ PTE_COW =
    leafFlags true x u false := by decide
  rw [encode_flags h, Leaf.encode]
  exact congrArg _ (hflags ..)

end

/-- The entry `mappages` writes when `perm` holds the flags of `l`. -/
theorem encode_map {perm : Pte} (h : perm ||| PTE_V = l.flags) :
    PA2PTE l.pa ||| perm ||| PTE_V = l.encode := by
  rw [BitVec.or_assoc, h, Leaf.encode]

end Leaf

end Xv6.Vm
