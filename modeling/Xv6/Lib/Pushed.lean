import Mathlib

/-!
# Blocks pushed on a stack that grows down

`At mem a block` says that a block lies at address `a` of a memory, some of which may not be there.
`Pushed mem top blocks addresses low` says that the blocks were pushed from `top` down to `low`,
each below the one before it. A stack that grows further down leaves them where they are, and no two
of them overlap.
-/

namespace Xv6.Push

variable {α β : Type} {mem mem' : Nat → Option α} {a : Nat}

/-- A block lies at address `a`. -/
def At (mem : Nat → Option α) (a : Nat) (block : List α) : Prop :=
  ∀ j < block.length, mem (a + j) = block[j]?

/-- The memory with a block written to it. -/
def written (mem : Nat → Option α) (a : Nat) (block : List α) : Nat → Option α := fun b =>
  if a ≤ b ∧ b < a + block.length then block[b - a]? else mem b

theorem at_written (mem : Nat → Option α) (a : Nat) (block : List α) :
    At (written mem a block) a block := by
  intro j hj
  rw [written, if_pos ⟨Nat.le_add_right a j, Nat.add_lt_add_left hj a⟩, Nat.add_sub_cancel_left]

theorem written_above (mem : Nat → Option α) {block : List α} {b : Nat}
    (h : a + block.length ≤ b) : written mem a block b = mem b :=
  if_neg fun hin => Nat.not_lt.mpr h hin.2

/-- A block stays when nothing from its address on changes. -/
theorem At.congr {block : List α} (h : At mem a block) (hsame : ∀ b, a ≤ b → mem' b = mem b) :
    At mem' a block := by
  intro j hj
  rw [hsame _ (Nat.le_add_right a j), h j hj]

theorem at_append {xs ys : List α} :
    At mem a (xs ++ ys) ↔ At mem a xs ∧ At mem (a + xs.length) ys := by
  constructor
  · intro h
    refine ⟨fun j hj => ?_, fun j hj => ?_⟩
    · have hfirst := h j (by simp; omega)
      rwa [List.getElem?_append_left hj] at hfirst
    · have hsecond := h (xs.length + j) (by simp; omega)
      rwa [List.getElem?_append_right (by omega), Nat.add_sub_cancel_left, ← Nat.add_assoc]
        at hsecond
  · rintro ⟨hfirst, hsecond⟩ j hj
    by_cases hlt : j < xs.length
    · rw [List.getElem?_append_left hlt, hfirst j hlt]
    · have hrest := hsecond (j - xs.length) (by simp at hj; omega)
      rw [List.getElem?_append_right (by omega), ← hrest]
      congr 1
      omega

/-- Blocks pushed from `top` down to `low`, with their addresses. -/
inductive Pushed (mem : Nat → Option α) : Nat → List (List α) → List Nat → Nat → Prop where
  | nil (top : Nat) : Pushed mem top [] [] top
  | cons {top a low : Nat} {block : List α} {rest : List (List α)} {addresses : List Nat}
      (hroom : a + block.length ≤ top) (hblock : At mem a block)
      (hrest : Pushed mem a rest addresses low) :
      Pushed mem top (block :: rest) (a :: addresses) low

section Pushes

variable {top low : Nat} {blocks : List (List α)} {addresses : List Nat}

section

variable (h : Pushed mem top blocks addresses low)

include h

theorem Pushed.low_le : low ≤ top := by
  induction h with
  | nil top => exact le_rfl
  | cons hroom _ _ ih => omega

theorem Pushed.length_eq :
    addresses.length = blocks.length := by
  induction h with
  | nil top => rfl
  | cons _ _ _ ih => rw [List.length_cons, List.length_cons, ih]

theorem Pushed.congr
    (hsame : ∀ b, low ≤ b → mem' b = mem b) : Pushed mem' top blocks addresses low := by
  induction h with
  | nil top => exact .nil top
  | cons hroom hblock hrest ih =>
    exact .cons hroom (hblock.congr fun b hb => hsame b (le_trans hrest.low_le hb)) (ih hsame)

theorem Pushed.block {i a : Nat} {block : List α}
    (hblock : blocks[i]? = some block) (ha : addresses[i]? = some a) :
    low ≤ a ∧ a + block.length ≤ top ∧ At mem a block := by
  induction h generalizing i with
  | nil top => simp at hblock
  | cons hroom hat hrest ih =>
    cases i with
    | zero =>
      cases hblock
      cases ha
      exact ⟨hrest.low_le, hroom, hat⟩
    | succ i =>
      obtain ⟨hlow, hhigh, hlater⟩ := ih (by simpa using hblock) (by simpa using ha)
      exact ⟨hlow, by omega, hlater⟩

theorem Pushed.apart {i j a a' : Nat} {block : List α}
    (hij : i < j) (ha : addresses[i]? = some a) (hblock : blocks[j]? = some block)
    (ha' : addresses[j]? = some a') : a' + block.length ≤ a := by
  induction h generalizing i j with
  | nil top => simp at ha
  | cons _ _ hrest ih =>
    obtain ⟨j, rfl⟩ := Nat.exists_eq_succ_of_ne_zero (Nat.ne_zero_of_lt hij)
    rw [List.getElem?_cons_succ] at hblock ha'
    cases i with
    | zero =>
      cases ha
      exact (hrest.block hblock ha').2.1
    | succ i => exact ih (Nat.lt_of_succ_lt_succ hij) (by simpa using ha) hblock ha'

end

end Pushes

end Xv6.Push
