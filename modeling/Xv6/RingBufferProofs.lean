import Mathlib

/-!
# Ring buffers with free-running counters

A ring of `cap` cells with two counters that only ever go up, one for the values taken out and
one for the values put in. The counters have 32 bits and wrap; a counter modulo `cap` is a
position in the ring. As long as `cap` divides `2 ^ 32` the positions go around the ring
without a jump, also where a counter wraps, and the ring is a queue:
`push` puts a value at the end of `contents` and `pop` takes the first one.

The two tests of the code, `nwrite == nread + cap` and `nread == nwrite`, tell a full and an
empty ring apart because a ring never holds more than `cap` values.
-/

namespace RingBuffer

open Function List UInt32

/-- The cells and the counters. -/
structure Ring (α : Type) where
  data : Nat → α
  nread : UInt32
  nwrite : UInt32

variable {α : Type}

/-- How many values the ring holds. -/
def Ring.count (r : Ring α) : Nat := (r.nwrite - r.nread).toNat

/-- The values in the ring, oldest first. -/
def Ring.contents (cap : Nat) (r : Ring α) : List α :=
  (range r.count).map fun j => r.data ((r.nread.toNat + j) % cap)

/-- `data[nwrite++ % cap] = b` -/
def Ring.push (cap : Nat) (r : Ring α) (b : α) : Ring α :=
  { r with data := update r.data (r.nwrite.toNat % cap) b, nwrite := r.nwrite + 1 }

/-- The value `data[nread % cap]`. -/
def Ring.front (cap : Nat) (r : Ring α) : α := r.data (r.nread.toNat % cap)

/-- `nread++` -/
def Ring.pop (r : Ring α) : Ring α := { r with nread := r.nread + 1 }

/-- `nwrite--` takes the newest value back. -/
def Ring.unpush (r : Ring α) : Ring α := { r with nwrite := r.nwrite - 1 }

section Ring

variable {cap : Nat} {r : Ring α} {b : α}

/-- Counters that differ by `count` are that far apart, modulo the word size. -/
theorem nwrite_eq : r.nwrite.toNat = (r.nread.toNat + r.count) % 2 ^ 32 := by
  have h1 := r.nread.toNat_lt
  have h2 := r.nwrite.toNat_lt
  rw [Ring.count, UInt32.toNat_sub]
  omega

/-- The test for an empty ring. -/
theorem count_eq_zero : r.count = 0 ↔ r.nread = r.nwrite := by
  have h1 := r.nread.toNat_lt
  have h2 := nwrite_eq (r := r)
  constructor
  · intro h
    apply toNat.inj
    rw [h2, h, Nat.add_zero, Nat.mod_eq_of_lt h1]
  · intro h
    rw [Ring.count, h, UInt32.sub_self]
    rfl

/-- The test for a full ring. -/
theorem count_eq_cap (hcap : cap < 2 ^ 32) : r.count = cap ↔ r.nwrite = r.nread + ofNat cap := by
  have h1 := r.nread.toNat_lt
  have h2 := nwrite_eq (r := r)
  have h3 : r.count < 2 ^ 32 := (r.nwrite - r.nread).toNat_lt
  have hadd : (r.nread + ofNat cap).toNat = (r.nread.toNat + cap) % 2 ^ 32 := by
    rw [UInt32.toNat_add, UInt32.toNat_ofNat', Nat.mod_eq_of_lt hcap]
  constructor
  · intro h
    apply UInt32.toNat.inj
    rw [h2, hadd, h]
  · intro h
    rw [h, hadd] at h2
    omega

theorem count_push (h : r.count + 1 < 2 ^ 32) : (r.push cap b).count = r.count + 1 := by
  have h1 := r.nread.toNat_lt
  have h2 := nwrite_eq (r := r)
  show (r.nwrite + 1 - r.nread).toNat = _
  rw [UInt32.toNat_sub, UInt32.toNat_add, h2]
  show (2 ^ 32 - r.nread.toNat + ((r.nread.toNat + r.count) % 2 ^ 32 + 1) % 2 ^ 32) % 2 ^ 32 = _
  omega

theorem toNat_pred {a : UInt32} (h : 0 < a.toNat) : (a - 1).toNat + 1 = a.toNat := by
  have h1 := a.toNat_lt
  show (2 ^ 32 - 1 + a.toNat) % 2 ^ 32 + 1 = _
  omega

theorem count_pop (h : 0 < r.count) : r.pop.count + 1 = r.count := by
  have hsub : r.nwrite - (r.nread + 1) = r.nwrite - r.nread - 1 := by grind
  exact (congrArg (·.toNat + 1) hsub).trans (toNat_pred h)

theorem count_unpush (h : 0 < r.count) : r.unpush.count + 1 = r.count := by
  have hsub : r.nwrite - 1 - r.nread = r.nwrite - r.nread - 1 := by grind
  exact (congrArg (·.toNat + 1) hsub).trans (toNat_pred h)

/-- Positions less than `cap` apart are different cells. -/
theorem cell_ne {a i j : Nat} (hij : i < j) (hj : j < i + cap) : (a + i) % cap ≠ (a + j) % cap := by
  intro h
  have hd : cap ∣ (a + j) - (a + i) :=
    Nat.dvd_of_mod_eq_zero (Nat.sub_mod_eq_zero_of_mod_eq h.symm)
  have := Nat.le_of_dvd (by omega) hd
  omega

/-- The cell of a wrapped position. -/
theorem mod_word (hdvd : cap ∣ 2 ^ 32) (n : Nat) : n % 2 ^ 32 % cap = n % cap :=
  Nat.mod_mod_of_dvd n hdvd

/-- **`push`** appends to the contents, if there is room. -/
theorem contents_push (hdvd : cap ∣ 2 ^ 32) (hcap : cap < 2 ^ 32) (h : r.count < cap) :
    (r.push cap b).contents cap = r.contents cap ++ [b] := by
  have hpos : r.nwrite.toNat % cap = (r.nread.toNat + r.count) % cap := by
    rw [nwrite_eq, mod_word hdvd]
  rw [Ring.contents, count_push (by omega), range_succ, map_append]
  congr 1
  · -- the older values are in other cells
    refine map_congr_left fun j hj => ?_
    rw [mem_range] at hj
    refine update_of_ne ?_ _ _
    rw [hpos]
    exact cell_ne hj (by omega)
  · show [update r.data (r.nwrite.toNat % cap) b ((r.nread.toNat + r.count) % cap)] = [b]
    rw [hpos, update_self]

/-- **`pop`** takes the first value off the contents. -/
theorem contents_pop (hdvd : cap ∣ 2 ^ 32) (h : 0 < r.count) : r.contents cap = r.front cap :: r.pop.contents cap := by
  have hcount := count_pop h
  have hnext : r.pop.nread.toNat = (r.nread.toNat + 1) % 2 ^ 32 := UInt32.toNat_add _ _
  rw [Ring.contents, ← hcount, range_succ_eq_map, map_cons, map_map]
  congr 1
  refine map_congr_left fun j _ => ?_
  show r.data ((r.nread.toNat + (j + 1)) % cap) = r.data ((r.pop.nread.toNat + j) % cap)
  congr 1
  rw [hnext, ← Nat.mod_add_mod ((r.nread.toNat + 1) % 2 ^ 32), mod_word hdvd, Nat.mod_add_mod]
  congr 1
  omega

/-- **`unpush`** takes the last value off the contents. -/
theorem contents_unpush (h : 0 < r.count) : r.unpush.contents cap = (r.contents cap).dropLast := by
  rw [Ring.contents, Ring.contents, ← count_unpush h, range_succ, map_append, map_singleton, dropLast_concat]
  rfl

/-- The newest value. -/
theorem contents_getLast (hdvd : cap ∣ 2 ^ 32) (h : 0 < r.count) :
    (r.contents cap).getLast? = some (r.data ((r.nwrite - 1).toNat % cap)) := by
  have h1 := r.nread.toNat_lt
  have h2 := nwrite_eq (r := r)
  have hpos : (r.nwrite - 1).toNat = (r.nread.toNat + r.unpush.count) % 2 ^ 32 := by
    have hcount := count_unpush h
    rw [UInt32.toNat_sub, h2]
    show (2 ^ 32 - 1 + (r.nread.toNat + r.count) % 2 ^ 32) % 2 ^ 32 = _
    omega
  rw [Ring.contents, ← count_unpush h, range_succ, map_append, map_singleton, getLast?_concat, hpos, mod_word hdvd]

theorem contents_length : (r.contents cap).length = r.count := by
  rw [Ring.contents, length_map, length_range]

theorem contents_nil (h : r.count = 0) : r.contents cap = [] := by
  rw [Ring.contents, h]
  rfl

end Ring

end RingBuffer
