import Mathlib.Data.Set.Insert

/-!
# A ledger of cells — who holds which

An allocator hands out cells `lo ≤ b < hi` and keeps a mark for each cell below `hi`. Holders
of cells are **slots**: `A x` is the cell in slot `x`, with `0` for an empty slot. The
ledger is **balanced** (`Ledger`) when

* every cell in a slot is one that the allocator hands out,
* no cell is in two slots,
* the marked cells are those below `lo`, those in slots, and those in `X`, the cells that
  are in transit: taken from the allocator and not yet in a slot, or out of their slot
  and not yet given back.

The four moves of a cell are `alloc`, `place`, `clear` and `free`; each keeps the ledger
balanced. Slots are of any type.
-/

namespace Ledger

open Function

variable {ι : Type}

/-- The balanced ledger of slots `A`, marks `mark` and cells in transit `X`. -/
structure Balanced (A : ι → Nat) (mark : Nat → Bool) (X : Set Nat) (lo hi : Nat) : Prop where
  pos : 0 < lo
  cell : ∀ x, A x ≠ 0 → lo ≤ A x ∧ A x < hi
  once : ∀ x y, A x ≠ 0 → A x = A y → x = y
  transit : ∀ b, b ∈ X → lo ≤ b ∧ b < hi ∧ ∀ x, A x ≠ b
  marks : ∀ b, b < hi → (mark b = true ↔ b < lo ∨ b ∈ X ∨ ∃ x, A x = b)

section Moves

variable {A A' : ι → Nat} {mark mark' : Nat → Bool} {X : Set Nat} {lo hi b : Nat} {x : ι}

section

variable (h : Balanced A mark X lo hi)
include h

/-- An unmarked cell can be handed out, and nobody holds it. -/
theorem Balanced.unmarked (hb : b < hi) (hm : mark b = false) : lo ≤ b ∧ b ∉ X ∧ ∀ x, A x ≠ b := by
  have hno : ¬ (b < lo ∨ b ∈ X ∨ ∃ x, A x = b) := by
    intro hc
    have := (h.marks b hb).mpr hc
    rw [hm] at this
    cases this
  refine ⟨?_, ?_, ?_⟩
  · exact Nat.not_lt.mp fun hlt => hno (.inl hlt)
  · exact fun hX => hno (.inr (.inl hX))
  · exact fun x hx => hno (.inr (.inr ⟨x, hx⟩))

/-- A cell in a slot is marked. -/
theorem Balanced.marked (hx : A x ≠ 0) : mark (A x) = true :=
  (h.marks _ (h.cell x hx).2).mpr (.inr (.inr ⟨x, rfl⟩))

/-- Only the slots and the marks below `hi` matter. -/
theorem Balanced.congr (hA : A' = A) (hm : ∀ c, c < hi → mark' c = mark c) : Balanced A' mark' X lo hi := by
  subst hA
  refine ⟨h.pos, h.cell, h.once, h.transit, ?_⟩
  intro c hc
  rw [hm c hc]
  exact h.marks c hc

/-- The allocator hands out an unmarked cell. -/
theorem Balanced.alloc (hb : b < hi) (hfree : mark b = false)
    (hm : ∀ c, c < hi → mark' c = if c = b then true else mark c) : Balanced A mark' (insert b X) lo hi := by
  obtain ⟨hlo, _, hslot⟩ := h.unmarked hb hfree
  refine ⟨h.pos, h.cell, h.once, ?_, ?_⟩
  · rintro c (rfl | hc)
    · exact ⟨hlo, hb, hslot⟩
    · exact h.transit c hc
  · intro c hc
    rw [hm c hc]
    split_ifs with hcb
    · exact ⟨fun _ => .inr (.inl (.inl hcb)), fun _ => rfl⟩
    · rw [h.marks c hc, Set.mem_insert_iff]
      constructor
      · rintro (h1 | h1 | h1)
        · exact .inl h1
        · exact .inr (.inl (.inr h1))
        · exact .inr (.inr h1)
      · rintro (h1 | (h1 | h1) | h1)
        · exact .inl h1
        · exact absurd h1 hcb
        · exact .inr (.inl h1)
        · exact .inr (.inr h1)

end

variable [DecidableEq ι]

/-- A cell in transit goes into an empty slot. -/
theorem Balanced.place (h : Balanced A mark X lo hi) (hb : b ∈ X) (hx : A x = 0)
    (hA : A' = update A x b) : Balanced A' mark (X \ {b}) lo hi := by
  subst hA
  obtain ⟨hlo, hhi, hslot⟩ := h.transit b hb
  have hb0 : b ≠ 0 := fun h0 => absurd hlo (by have := h.pos; omega)
  have hold : ∀ y, y ≠ x → update A x b y = A y := fun y hy => update_of_ne hy _ _
  refine ⟨h.pos, ?_, ?_, ?_, ?_⟩
  · intro y hy
    by_cases hyx : y = x
    · subst hyx
      rw [update_self]
      exact ⟨hlo, hhi⟩
    · rw [hold y hyx] at hy ⊢
      exact h.cell y hy
  · intro y z hy hyz
    by_cases hyx : y = x
    · subst hyx
      by_cases hzy : z = y
      · exact hzy.symm
      · rw [update_self, hold z hzy] at hyz
        exact absurd hyz.symm (hslot z)
    · by_cases hzx : z = x
      · subst hzx
        rw [update_self, hold y hyx] at hyz
        exact absurd hyz (hslot y)
      · rw [hold y hyx, hold z hzx] at hyz
        rw [hold y hyx] at hy
        exact h.once y z hy hyz
  · rintro c ⟨hc, hcb⟩
    obtain ⟨h1, h2, h3⟩ := h.transit c hc
    refine ⟨h1, h2, ?_⟩
    intro y hy
    by_cases hyx : y = x
    · subst hyx
      rw [update_self] at hy
      exact hcb hy.symm
    · rw [hold y hyx] at hy
      exact h3 y hy
  · intro c hc
    rw [h.marks c hc]
    constructor
    · rintro (h1 | h1 | ⟨y, h1⟩)
      · exact .inl h1
      · by_cases hcb : c = b
        · exact .inr (.inr ⟨x, by rw [update_self, hcb]⟩)
        · exact .inr (.inl ⟨h1, hcb⟩)
      · by_cases hyx : y = x
        · subst hyx
          exact .inl (by have := h.pos; omega)
        · exact .inr (.inr ⟨y, by rw [hold y hyx]; exact h1⟩)
    · rintro (h1 | ⟨h1, _⟩ | ⟨y, h1⟩)
      · exact .inl h1
      · exact .inr (.inl h1)
      · by_cases hyx : y = x
        · subst hyx
          rw [update_self] at h1
          exact .inr (.inl (h1 ▸ hb))
        · rw [hold y hyx] at h1
          exact .inr (.inr ⟨y, h1⟩)

omit [DecidableEq ι] in
/-- Some slots are cleared; their cells are in transit. -/
theorem Balanced.clear (h : Balanced A mark X lo hi) (hA : ∀ y, A' y = A y ∨ A' y = 0) :
    Balanced A' mark (X ∪ {c | c ≠ 0 ∧ ∃ y, A y = c ∧ A' y = 0}) lo hi := by
  have hkeep : ∀ y, A' y ≠ 0 → A' y = A y := fun y hy => (hA y).resolve_right hy
  have hnz : ∀ y, A' y ≠ 0 → A y ≠ 0 := fun y hy => hkeep y hy ▸ hy
  refine ⟨h.pos, ?_, ?_, ?_, ?_⟩
  · intro y hy
    rw [hkeep y hy]
    exact h.cell y (hnz y hy)
  · intro y z hy hyz
    have hz : A' z ≠ 0 := hyz ▸ hy
    rw [hkeep y hy, hkeep z hz] at hyz
    exact h.once y z (hnz y hy) hyz
  · rintro c (hc | ⟨hc0, y, hy, hy'⟩)
    · obtain ⟨h1, h2, h3⟩ := h.transit c hc
      have hc0 : c ≠ 0 := by have := h.pos; omega
      exact ⟨h1, h2, fun z hz => h3 z (hkeep z (hz ▸ hc0) ▸ hz)⟩
    · have hy0 : A y ≠ 0 := hy ▸ hc0
      refine ⟨hy ▸ (h.cell y hy0).1, hy ▸ (h.cell y hy0).2, ?_⟩
      intro z hz
      -- `z` would be a second slot with the cell of `y`
      have hz0 : A' z ≠ 0 := hz ▸ hc0
      have heq : y = z := h.once y z hy0 (by rw [hy, ← hkeep z hz0, hz])
      exact hz0 (heq ▸ hy')
  · intro c hc
    rw [h.marks c hc]
    constructor
    · rintro (h1 | h1 | ⟨y, h1⟩)
      · exact .inl h1
      · exact .inr (.inl (.inl h1))
      · by_cases hc0 : c = 0
        · exact .inl (by have := h.pos; omega)
        · rcases hA y with hy | hy
          · exact .inr (.inr ⟨y, hy.trans h1⟩)
          · exact .inr (.inl (.inr ⟨hc0, y, h1, hy⟩))
    · rintro (h1 | (h1 | ⟨_, y, h1, _⟩) | ⟨y, h1⟩)
      · exact .inl h1
      · exact .inr (.inl h1)
      · exact .inr (.inr ⟨y, h1⟩)
      · by_cases hc0 : c = 0
        · exact .inl (by have := h.pos; omega)
        · exact .inr (.inr ⟨y, (hkeep y (h1 ▸ hc0)).symm.trans h1⟩)

omit [DecidableEq ι] in
/-- A cell in transit goes back to the allocator. -/
theorem Balanced.free (h : Balanced A mark X lo hi) (hb : b ∈ X)
    (hm : ∀ c, c < hi → mark' c = if c = b then false else mark c) : Balanced A mark' (X \ {b}) lo hi := by
  obtain ⟨hlo, _, hslot⟩ := h.transit b hb
  refine ⟨h.pos, h.cell, h.once, fun c hc => h.transit c hc.1, ?_⟩
  intro c hc
  rw [hm c hc]
  split_ifs with hcb
  · constructor
    · exact nofun
    · rintro (h1 | ⟨_, h1⟩ | ⟨y, h1⟩)
      · omega
      · exact absurd hcb h1
      · exact absurd (h1.trans hcb) (hslot y)
  · rw [h.marks c hc]
    constructor
    · rintro (h1 | h1 | h1)
      · exact .inl h1
      · exact .inr (.inl ⟨h1, hcb⟩)
      · exact .inr (.inr h1)
    · rintro (h1 | ⟨h1, _⟩ | h1)
      · exact .inl h1
      · exact .inr (.inl h1)
      · exact .inr (.inr h1)

end Moves

end Ledger
