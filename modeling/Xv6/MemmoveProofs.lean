import Mathlib

/-!
# `memmove` of the kernel and of the user library

Both move `n` bytes from `src` to `dst`, one byte a round, in a memory that they overwrite while they read it. The
kernel (`kern/string.c`) looks at the ranges and starts at the end if the destination begins inside the source.
The user library (`lib/ulib/ulib.c`) always starts at the front, and its `n` is an `int`.

A loop that starts at the front reads a byte that it has written `dst - src` bytes before, so it repeats the first
`dst - src` bytes of the source (`copyUp_apply`).
-/

namespace Xv6Memmove

open Function UInt32

abbrev Mem := UInt32 → UInt8

/-- `while(n-- > 0) *d++ = *s++;` -/
def copyUp : (n : Nat) → (d s : UInt32) → Mem → Mem
  | 0, _, _, m => m
  | n + 1, d, s, m => copyUp n (d + 1) (s + 1) (update m d (m s))

/-- `while(n-- > 0) *--d = *--s;` -/
def copyDown : (n : Nat) → (d s : UInt32) → Mem → Mem
  | 0, _, _, m => m
  | n + 1, d, s, m => copyDown n (d - 1) (s - 1) (update m (d - 1) (m (s - 1)))

/-- `memmove` of the kernel. -/
def memmove (dst src n : UInt32) (m : Mem) : Mem :=
  if src < dst ∧ src + n > dst then copyDown n.toNat (dst + n) (src + n) m else copyUp n.toNat dst src m

/-- `memmove` of the user library. -/
def ulibMemmove (dst src : UInt32) (n : Int32) (m : Mem) : Mem := copyUp n.toInt.toNat dst src m

/-- The memory with the `n` bytes from `src` on moved to `dst`. -/
def moved (dst src n : UInt32) (m : Mem) : Mem := fun a => if a - dst < n then m (src + (a - dst)) else m a

/-- The last round of the loop. -/
theorem copyUp_succ (n : Nat) (d s : UInt32) (m : Mem) :
    copyUp (n + 1) d s m = update (copyUp n d s m) (d + .ofNat n) (copyUp n d s m (s + .ofNat n)) := by
  induction n generalizing d s m with
  | zero => simp [copyUp]
  | succ n ih =>
    have hnext (a : UInt32) : a + 1 + .ofNat n = a + .ofNat (n + 1) := by
      rw [UInt32.ofNat_add, UInt32.add_assoc, UInt32.add_comm 1]
      rfl
    rw [copyUp, ih, hnext, hnext, ← copyUp]

/-- What the byte `x` is read as: if it has been written, in the round `x - k`, then as the byte of that round. -/
theorem mod_sub (x k : UInt32) : (if (x - k).toNat < x.toNat then (x - k) % k else x) = x % k := by
  rw [← UInt32.toNat_inj, apply_ite toNat, UInt32.toNat_mod, UInt32.toNat_mod, UInt32.toNat_sub]
  have hx := x.toNat_lt
  have hk := k.toNat_lt
  by_cases h : k.toNat ≤ x.toNat
  · rw [show (2 ^ 32 - k.toNat + x.toNat) % 2 ^ 32 = x.toNat - k.toNat by omega, ← Nat.mod_eq_sub_mod h]
    split_ifs with hlt
    · rfl
    · rw [show k.toNat = 0 by omega, Nat.mod_zero]
  · rw [if_neg (by omega), Nat.mod_eq_of_lt (by omega)]

theorem copyUp_apply {n : Nat} (hn : n < 2 ^ 32) (d s : UInt32) (m : Mem) (a : UInt32) :
    copyUp n d s m a = if (a - d).toNat < n then m (s + (a - d) % (d - s)) else m a := by
  induction n generalizing a with
  | zero => rfl
  | succ n ih =>
    rw [copyUp_succ]
    obtain ⟨x, hxn, rfl⟩ : ∃ x : UInt32, .ofNat n = x ∧ x.toNat = n :=
      ⟨_, rfl, toNat_ofNat_of_lt (Nat.lt_of_succ_lt hn)⟩
    rw [hxn]
    by_cases ha : a = d + x
    · have hx : a - d = x := by grind
      have hback : s + x - d = x - (d - s) := by grind
      rw [hx, if_pos (by omega), ha, update_self, ih (by omega), hback, ← mod_sub x]
      split_ifs <;> rfl
    · have hx : (a - d).toNat ≠ x.toNat := by
        rw [Ne, UInt32.toNat_inj]
        grind
      rw [update_of_ne ha, ih (by omega)]
      simp only [show (a - d).toNat < x.toNat + 1 ↔ (a - d).toNat < x.toNat by omega]

/-- From the end, the loop is the loop from the front with the addresses counted downwards. -/
theorem copyDown_eq (n : Nat) (d s : UInt32) (m : Mem) :
    copyDown n d s m = copyUp n (-d) (-s) (m ∘ (-1 - ·)) ∘ (-1 - ·) := by
  induction n generalizing d s m with
  | zero =>
    rw [copyDown, copyUp]
    funext a
    exact congrArg m (by grind)
  | succ n ih =>
    have hc : Injective fun a : UInt32 => -1 - a := by
      intro a b h
      grind
    have hd : -d + 1 = -(d - 1) := by grind
    have hs : -s + 1 = -(s - 1) := by grind
    have hdn : d - 1 = -1 - -d := by grind
    have hread : (m ∘ (-1 - ·)) (-s) = m (s - 1) := congrArg m (by grind)
    rw [copyDown, ih, copyUp, hread, ← update_comp_eq_of_injective m hc, hd, hs, ← hdn]

theorem copyDown_apply {n : Nat} (hn : n < 2 ^ 32) (d s : UInt32) (m : Mem) (a : UInt32) :
    copyDown n d s m a = if (d - 1 - a).toNat < n then m (s - 1 - (d - 1 - a) % (s - d)) else m a := by
  have hoff : -1 - a - -d = d - 1 - a := by grind
  have hsd : -d - -s = s - d := by grind
  rw [copyDown_eq]
  show copyUp _ _ _ _ _ = _
  rw [copyUp_apply hn, hoff, hsd]
  split_ifs
  · exact congrArg m (by grind)
  · exact congrArg m (by grind)

section Moved

variable {dst src n : UInt32} {m : Mem}

/-- A memory in which the bytes `f x` stand at the places `dst + x`. -/
theorem eq_moved_iff {m' : Mem} {f : UInt32 → UInt8} (h : ∀ a, m' a = if a - dst < n then f (a - dst) else m a) :
    m' = moved dst src n m ↔ ∀ x < n, f x = m (src + x) := by
  constructor
  · intro heq x hx
    have hxa : dst + x - dst = x := by grind
    have ha := h (dst + x)
    rwa [heq, moved, hxa, if_pos hx, if_pos hx, eq_comm] at ha
  · intro hf
    funext a
    rw [h a, moved]
    split_ifs with ha
    · exact hf _ ha
    · rfl

/-- The first `dst - src` bytes of the source repeat over all of it. This says something only if `dst` is inside the
    source: else `x % (dst - src)` is `x`. -/
def Repeats (dst src n : UInt32) (m : Mem) : Prop := ∀ x < n, m (src + x % (dst - src)) = m (src + x)

/-- The same for the last `src - dst` bytes. -/
def RepeatsDown (dst src n : UInt32) (m : Mem) : Prop :=
  ∀ x < n, m (src + n - 1 - (n - 1 - x) % (src - dst)) = m (src + x)

theorem copyUp_eq_moved : copyUp n.toNat dst src m = moved dst src n m ↔ Repeats dst src n m :=
  eq_moved_iff (copyUp_apply n.toNat_lt dst src m)

theorem copyDown_eq_moved : copyDown n.toNat (dst + n) (src + n) m = moved dst src n m ↔ RepeatsDown dst src n m := by
  refine eq_moved_iff fun a => ?_
  have hoff : dst + n - 1 - a = n - 1 - (a - dst) := by grind
  have hsd : src + n - (dst + n) = src - dst := by grind
  have hflip : (n - 1 - (a - dst)).toNat < n.toNat ↔ a - dst < n := by
    rw [← lt_iff_toNat_lt]
    generalize a - dst = x
    grind
  rw [copyDown_apply n.toNat_lt, hoff, hsd]
  simp only [hflip]

/-- An `int` of 2^31 or more is negative, and nothing is copied. -/
theorem ulib_eq_moved : ulibMemmove dst src n.toInt32 m = moved dst src n m ↔
    if n.toNat < 2 ^ 31 then Repeats dst src n m else ∀ x < n, m (dst + x) = m (src + x) := by
  have hint : n.toInt32.toInt = if 2 * n.toNat < 2 ^ 32 then (n.toNat : Int) else n.toNat - 2 ^ 32 := by
    rw [toInt32, ← Int32.toInt_toBitVec]
    exact BitVec.toInt_eq_toNat_cond _
  have := n.toNat_lt
  rw [ulibMemmove]
  split_ifs with hn
  · rw [show n.toInt32.toInt.toNat = n.toNat by omega]
    exact copyUp_eq_moved
  · rw [show n.toInt32.toInt.toNat = 0 by omega, copyUp]
    refine eq_moved_iff fun a => ?_
    have ha : dst + (a - dst) = a := by grind
    rw [ha, ite_self]

theorem memmove_eq_moved : memmove dst src n m = moved dst src n m ↔
    if src < dst ∧ src + n > dst then RepeatsDown dst src n m else Repeats dst src n m := by
  rw [memmove]
  split_ifs
  · exact copyDown_eq_moved
  · exact copyUp_eq_moved

/-- The kernel moves every range that lies in the address space, overlapping or not. -/
theorem memmove_moves (hs : src.toNat + n.toNat < 2 ^ 32) (hd : dst.toNat + n.toNat ≤ 2 ^ 32) :
    memmove dst src n m = moved dst src n m := by
  have hmod {x k : UInt32} (h : k.toNat = 0 ∨ x.toNat < k.toNat) : x % k = x := by
    rw [← UInt32.toNat_inj, UInt32.toNat_mod]
    rcases h with h | h
    · rw [h, Nat.mod_zero]
    · exact Nat.mod_eq_of_lt h
  have hsrc := src.toNat_lt
  have hdst := dst.toNat_lt
  rw [memmove_eq_moved]
  simp only [gt_iff_lt, lt_iff_toNat_lt, UInt32.toNat_add]
  split_ifs with hover
  · intro x hx
    rw [lt_iff_toNat_lt] at hx
    rw [hmod]
    · exact congrArg m (by grind)
    · rw [UInt32.toNat_sub, UInt32.toNat_sub, UInt32.toNat_sub, toNat_one]
      omega
  · intro x hx
    rw [lt_iff_toNat_lt] at hx
    rw [hmod]
    rw [UInt32.toNat_sub]
    omega

theorem memmove_moves_two : memmove 1 0 2 (·.toUInt8) = moved 1 0 2 (·.toUInt8) := memmove_moves (by decide) (by decide)

/-- Both move the bytes exactly if what each of them reads of its own output is what had stood there. -/
theorem memmoves_agree_iff :
    memmove dst src n m = ulibMemmove dst src n.toInt32 m ∧ memmove dst src n m = moved dst src n m ↔
      (if src < dst ∧ src + n > dst then RepeatsDown dst src n m else Repeats dst src n m) ∧
        if n.toNat < 2 ^ 31 then Repeats dst src n m else ∀ x < n, m (dst + x) = m (src + x) := by
  rw [← memmove_eq_moved, ← ulib_eq_moved]
  constructor
  · rintro ⟨heq, hm⟩
    exact ⟨hm, heq ▸ hm⟩
  · rintro ⟨hm, hu⟩
    exact ⟨hm.trans hu.symm, hm⟩

end Moved

/-- Two different bytes at 0 and 1, moved to 1: the library writes the first of them twice. -/
theorem memmoves_differ : ¬ (memmove 1 0 2 (fun a => a.toUInt8) = ulibMemmove 1 0 2 (fun a => a.toUInt8) ∧
    memmove 1 0 2 (fun a => a.toUInt8) = moved 1 0 2 (fun a => a.toUInt8)) := by
  rintro ⟨h, -⟩
  have h2 := congrFun h 2
  revert h2
  decide

end Xv6Memmove
