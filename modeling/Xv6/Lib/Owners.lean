import Mathlib

/-!
# Exact ownership of blocks

A store is divided into blocks, and a map says which of them are used. Every owner has at most one
block: `addr o`, or 0. `Exact` says that the map is right: the blocks of the owners lie in the area
that is handed out, no two owners have the same block, and a block of the area is used exactly if
some owner has it. The rules say how the map stays right when an owner takes a free block and when
some owners give theirs back.
-/

namespace Xv6

variable {ω β : Type} [Zero β]

/-- The map `used` of the blocks in `area` agrees with what the owners have. -/
structure Exact (owners : Set ω) (area : Set β) (used : β → Prop) (addr : ω → β) : Prop where
  inside : ∀ o ∈ owners, addr o ≠ 0 → addr o ∈ area
  inj : ∀ o ∈ owners, ∀ o' ∈ owners, addr o ≠ 0 → addr o = addr o' → o = o'
  used_iff : ∀ b ∈ area, used b ↔ ∃ o ∈ owners, addr o = b

variable {owners : Set ω} {area : Set β} {used used' : β → Prop} {addr addr' : ω → β}

section

variable (h : Exact owners area used addr)

include h

theorem Exact.not_owned {b : β} (hb : b ∈ area)
    (hfree : ¬used b) {o : ω} (ho : o ∈ owners) : addr o ≠ b :=
  fun heq => hfree ((h.used_iff b hb).mpr ⟨o, ho, heq⟩)

theorem Exact.used_of_owned {o : ω} (ho : o ∈ owners)
    (hne : addr o ≠ 0) : used (addr o) :=
  (h.used_iff _ (h.inside o ho hne)).mpr ⟨o, ho, rfl⟩

/-- The same blocks are used, and every owner has what it had. -/
theorem Exact.congr (hused : ∀ b ∈ area, used' b ↔ used b)
    (haddr : ∀ o ∈ owners, addr' o = addr o) : Exact owners area used' addr' := by
  constructor
  · intro o ho hne
    rw [haddr o ho] at hne ⊢
    exact h.inside o ho hne
  · intro o ho o' ho' hne heq
    rw [haddr o ho] at hne heq
    rw [haddr o' ho'] at heq
    exact h.inj o ho o' ho' hne heq
  · intro b hb
    rw [hused b hb, h.used_iff b hb]
    refine exists_congr fun o => and_congr_right fun ho => ?_
    rw [haddr o ho]

/-- An owner that has nothing takes a block that is not used. -/
theorem Exact.take {o : ω} {b : β} (ho : o ∈ owners)
    (hnone : addr o = 0) (hb : b ∈ area) (hfree : ¬used b)
    (hused : ∀ c ∈ area, used' c ↔ used c ∨ c = b) (hself : addr' o = b)
    (hother : ∀ o' ∈ owners, o' ≠ o → addr' o' = addr o') (hzero : (0 : β) ∉ area) :
    Exact owners area used' addr' := by
  constructor
  · intro q hq hne
    by_cases hqo : q = o
    · rw [hqo, hself]
      exact hb
    · rw [hother q hq hqo] at hne ⊢
      exact h.inside q hq hne
  · intro q hq q' hq' hne heq
    by_cases hqo : q = o
    · by_cases hqo' : q' = o
      · rw [hqo, hqo']
      · rw [hqo, hself, hother q' hq' hqo'] at heq
        exact absurd heq.symm (h.not_owned hb hfree hq')
    · rw [hother q hq hqo] at hne heq
      by_cases hqo' : q' = o
      · rw [hqo', hself] at heq
        exact absurd heq (h.not_owned hb hfree hq)
      · rw [hother q' hq' hqo'] at heq
        exact h.inj q hq q' hq' hne heq
  · intro c hc
    rw [hused c hc]
    constructor
    · rintro (hold | rfl)
      · obtain ⟨q, hq, rfl⟩ := (h.used_iff c hc).mp hold
        have hqo : q ≠ o := by
          rintro rfl
          rw [hnone] at hc
          exact hzero hc
        exact ⟨q, hq, hother q hq hqo⟩
      · exact ⟨o, ho, hself⟩
    · rintro ⟨q, hq, rfl⟩
      by_cases hqo : q = o
      · exact .inr (by rw [hqo, hself])
      · rw [hother q hq hqo] at hc ⊢
        exact .inl ((h.used_iff _ hc).mpr ⟨q, hq, rfl⟩)

theorem Exact.release {S : Set ω}
    (hused : ∀ c ∈ area, used' c ↔ used c ∧ ∀ o ∈ owners, o ∈ S → addr o ≠ c)
    (hgone : ∀ o ∈ owners, o ∈ S → addr' o = 0)
    (hother : ∀ o ∈ owners, o ∉ S → addr' o = addr o) (hzero : (0 : β) ∉ area) :
    Exact owners area used' addr' := by
  constructor
  · intro q hq hne
    by_cases hqs : q ∈ S
    · exact absurd (hgone q hq hqs) hne
    · rw [hother q hq hqs] at hne ⊢
      exact h.inside q hq hne
  · intro q hq q' hq' hne heq
    by_cases hqs : q ∈ S
    · exact absurd (hgone q hq hqs) hne
    · by_cases hqs' : q' ∈ S
      · rw [hgone q' hq' hqs'] at heq
        exact absurd heq hne
      · rw [hother q hq hqs] at hne heq
        rw [hother q' hq' hqs'] at heq
        exact h.inj q hq q' hq' hne heq
  · intro c hc
    rw [hused c hc]
    constructor
    · rintro ⟨hold, hkept⟩
      obtain ⟨q, hq, rfl⟩ := (h.used_iff c hc).mp hold
      exact ⟨q, hq, hother q hq fun hqs => hkept q hq hqs rfl⟩
    · rintro ⟨q, hq, rfl⟩
      by_cases hqs : q ∈ S
      · rw [hgone q hq hqs] at hc
        exact absurd hc hzero
      · rw [hother q hq hqs] at hc ⊢
        have hne : addr q ≠ 0 := fun hno => hzero (hno ▸ hc)
        refine ⟨(h.used_iff _ hc).mpr ⟨q, hq, rfl⟩, fun o ho hos heq => ?_⟩
        exact hqs (h.inj q hq o ho hne heq.symm ▸ hos)

end

end Xv6
