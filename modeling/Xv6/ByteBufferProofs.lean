import Mathlib.Data.Nat.Bitwise

/-!
# Byte buffers — little-endian words and bits inside a block of bytes

A buffer of fixed length `n`, read and written the way C code reads and writes it through
casts of the buffer pointer: single bytes, 16- and 32-bit little-endian words at byte
offsets, single bits, and copies of a byte range. Every read is related to every write by
two facts: a read of what was just written gives it back, and a read of a range that the
write does not meet is unchanged. The words keep their machine types, so the first fact
needs no range condition on the value.
-/

namespace ByteBuf

open List Nat UInt8

/-- A buffer of `n` bytes. -/
@[ext] structure Bytes (n : Nat) where
  list : List UInt8
  len : list.length = n

variable {n : Nat}

/-- The buffer of zeros. -/
def zeros : Bytes n := ⟨replicate n 0, length_replicate⟩

/-- The byte at offset `i`; past the end there is nothing to read. -/
def byteAt (b : Bytes n) (i : Nat) : UInt8 := b.list.getD i 0

/-- `memmove` at the front of a list: `len` bytes of `src`, from its `k`th on. -/
def copyInto (src : Nat → UInt8) : (k len : Nat) → List UInt8 → List UInt8
  | _, 0, l => l
  | _, _ + 1, [] => []
  | k, len + 1, _ :: l => src k :: copyInto src (k + 1) len l

/-- `memmove` at offset `off` of a list. -/
def copyAt (src : Nat → UInt8) (len : Nat) : (off : Nat) → List UInt8 → List UInt8
  | 0, l => copyInto src 0 len l
  | _ + 1, [] => []
  | off + 1, x :: l => x :: copyAt src len off l

theorem length_copyInto (src : Nat → UInt8) (len k : Nat) (l : List UInt8) :
    (copyInto src k len l).length = l.length := by
  induction len generalizing k l with
  | zero => rfl
  | succ len ih =>
    cases l with
    | nil => rfl
    | cons x l => exact congrArg succ (ih (k + 1) l)

theorem length_copyAt (src : Nat → UInt8) (len : Nat) (off : Nat) (l : List UInt8) :
    (copyAt src len off l).length = l.length := by
  induction off generalizing l with
  | zero => exact length_copyInto src len 0 l
  | succ off ih =>
    cases l with
    | nil => rfl
    | cons x l => exact congrArg succ (ih l)

/-- Copy `len` bytes of `src` into the buffer from offset `off` on. -/
def blit (b : Bytes n) (off len : Nat) (src : Nat → UInt8) : Bytes n :=
  ⟨copyAt src len off b.list, by rw [length_copyAt]; exact b.len⟩

/-- The `j`th byte of a number, from the low end. -/
def leByte (v j : Nat) : UInt8 := ofNat (v / 256 ^ j)

/-- The 16-bit word at byte offset `off`. -/
def u16At (b : Bytes n) (off : Nat) : UInt16 :=
  UInt16.ofNat ((byteAt b off).toNat + 256 * (byteAt b (off + 1)).toNat)

/-- The 32-bit word at byte offset `off`. -/
def u32At (b : Bytes n) (off : Nat) : UInt32 :=
  UInt32.ofNat ((byteAt b off).toNat + 256 * (byteAt b (off + 1)).toNat
    + 65536 * (byteAt b (off + 2)).toNat + 16777216 * (byteAt b (off + 3)).toNat)

def putU32 (b : Bytes n) (off : Nat) (v : UInt32) : Bytes n :=
  blit b off 4 (leByte v.toNat)

/-- Bit `k` of the buffer: bit `k % 8` of byte `k / 8`. -/
def bitAt (b : Bytes n) (k : Nat) : Bool :=
  (byteAt b (k / 8) &&& ofNat (2 ^ (k % 8))) != 0

def setBit (b : Bytes n) (k : Nat) : Bytes n :=
  blit b (k / 8) 1 (fun _ => byteAt b (k / 8) ||| ofNat (2 ^ (k % 8)))

def clearBit (b : Bytes n) (k : Nat) : Bytes n :=
  blit b (k / 8) 1 (fun _ => byteAt b (k / 8) &&& ~~~ ofNat (2 ^ (k % 8)))

/-! ## Bytes -/

@[simp] theorem byteAt_zeros (i : Nat) : byteAt (zeros : Bytes n) i = 0 := by
  show (replicate n (0 : UInt8)).getD i 0 = 0
  rw [getD_eq_getElem?_getD, getElem?_replicate]
  by_cases h : i < n
  · rw [if_pos h]; rfl
  · rw [if_neg h]; rfl

theorem getD_copyInto (src : Nat → UInt8) (len k i : Nat) (l : List UInt8) :
    (copyInto src k len l).getD i 0 = if i < len ∧ i < l.length then src (k + i) else l.getD i 0 := by
  induction len generalizing k i l with
  | zero =>
    rfl
  | succ len ih =>
    cases l with
    | nil =>
      rw [if_neg (fun h => not_lt_zero i h.2)]
      rfl
    | cons x l =>
      cases i with
      | zero =>
        rfl
      | succ i =>
        show (copyInto src (k + 1) len l).getD i 0 = _
        rw [ih (k + 1) i l]
        by_cases h : i < len ∧ i < l.length
        · rw [if_pos h, if_pos ⟨succ_lt_succ h.1, succ_lt_succ h.2⟩]
          congr 1
          omega
        · rw [if_neg h, if_neg (fun h' =>
            h ⟨lt_of_succ_lt_succ h'.1, lt_of_succ_lt_succ h'.2⟩)]
          rfl

theorem getD_copyAt (src : Nat → UInt8) (len : Nat) (off i : Nat) (l : List UInt8) : (copyAt src len off l).getD i 0
      = if off ≤ i ∧ i < off + len ∧ i < l.length then src (i - off) else l.getD i 0 := by
  induction off generalizing i l with
  | zero =>
    show (copyInto src 0 len l).getD i 0 = _
    rw [getD_copyInto]
    simp only [Nat.zero_le, true_and, Nat.zero_add, Nat.sub_zero]
  | succ off ih =>
    cases l with
    | nil =>
      rw [if_neg (fun h => not_lt_zero i h.2.2)]
      rfl
    | cons x l =>
      cases i with
      | zero =>
        rfl
      | succ i =>
        show (copyAt src len off l).getD i 0 = _
        rw [ih i l]
        by_cases h : off ≤ i ∧ i < off + len ∧ i < l.length
        · rw [if_pos h, if_pos ⟨by omega, by omega, succ_lt_succ h.2.2⟩]
          congr 1
          omega
        · rw [if_neg h, if_neg (fun h' => h ⟨by omega, by omega, lt_of_succ_lt_succ h'.2.2⟩)]
          rfl

/-- A byte of the copied range is the source's. -/
theorem byteAt_blit_in (b : Bytes n) {off len i : Nat} (src : Nat → UInt8)
    (hi : i < n) (h1 : off ≤ i) (h2 : i < off + len) : byteAt (blit b off len src) i = src (i - off) := by
  show (copyAt src len off b.list).getD i 0 = _
  rw [getD_copyAt, if_pos ⟨h1, h2, by rw [b.len]; exact hi⟩]

/-- A byte outside the copied range stays. -/
theorem byteAt_blit_out (b : Bytes n) {off len i : Nat} (src : Nat → UInt8) (h : i < off ∨ off + len ≤ i) :
    byteAt (blit b off len src) i = byteAt b i := by
  show (copyAt src len off b.list).getD i 0 = _
  rw [getD_copyAt, if_neg (by omega)]
  rfl

/-! ## Words -/

@[simp] theorem toNat_leByte (v j : Nat) : (leByte v j).toNat = v / 256 ^ j % 256 := by
  exact toNat_ofNat'

@[simp] theorem u32At_putU32 (b : Bytes n) {off : Nat} (v : UInt32) (h : off + 4 ≤ n) :
    u32At (putU32 b off v) off = v := by
  unfold u32At putU32
  rw [byteAt_blit_in b _ (by omega) (by omega) (by omega), byteAt_blit_in b _ (by omega) (by omega) (by omega),
      byteAt_blit_in b _ (by omega) (by omega) (by omega),
      byteAt_blit_in b _ (by omega) (by omega) (by omega)]
  have h0 : off - off = 0 := by omega
  have h1 : off + 1 - off = 1 := by omega
  have h2 : off + 2 - off = 2 := by omega
  have h3 : off + 3 - off = 3 := by omega
  have hv := v.toNat_lt
  rw [h0, h1, h2, h3, toNat_leByte, toNat_leByte, toNat_leByte, toNat_leByte]
  apply UInt32.toNat.inj
  rw [UInt32.toNat_ofNat']
  omega

theorem u16At_blit_out (b : Bytes n) {off len o : Nat} (src : Nat → UInt8)
    (h : o + 2 ≤ off ∨ off + len ≤ o) : u16At (blit b off len src) o = u16At b o := by
  unfold u16At
  rw [byteAt_blit_out b src (by omega), byteAt_blit_out b src (by omega)]

theorem u32At_blit_out (b : Bytes n) {off len o : Nat} (src : Nat → UInt8)
    (h : o + 4 ≤ off ∨ off + len ≤ o) : u32At (blit b off len src) o = u32At b o := by
  unfold u32At
  rw [byteAt_blit_out b src (by omega), byteAt_blit_out b src (by omega),
      byteAt_blit_out b src (by omega), byteAt_blit_out b src (by omega)]

@[simp] theorem u16At_zeros (off : Nat) : u16At (zeros : Bytes n) off = 0 := by
  unfold u16At
  rw [byteAt_zeros, byteAt_zeros]
  rfl

@[simp] theorem u32At_zeros (off : Nat) : u32At (zeros : Bytes n) off = 0 := by
  unfold u32At
  rw [byteAt_zeros, byteAt_zeros, byteAt_zeros, byteAt_zeros]
  rfl

theorem u32At_putU32_out (b : Bytes n) {off o : Nat} (v : UInt32)
    (h : o + 4 ≤ off ∨ off + 4 ≤ o) : u32At (putU32 b off v) o = u32At b o :=
  u32At_blit_out b _ h

/-! ## Bits -/

theorem mask_toNat {k : Nat} (hk : k < 8) : (ofNat (2 ^ k)).toNat = 2 ^ k := by
  exact Nat.mod_eq_of_lt (Nat.pow_lt_pow_right (by decide) hk)

/-- The mask test of a byte is the test of its bit. -/
theorem and_mask_ne_zero (x : UInt8) {k : Nat} (hk : k < 8) : ((x &&& ofNat (2 ^ k)) != 0) = x.toNat.testBit k := by
  have hand : (x &&& ofNat (2 ^ k)).toNat = (x.toNat.testBit k).toNat * 2 ^ k := by
    rw [UInt8.toNat_and, mask_toNat hk, and_two_pow]
  cases hb : x.toNat.testBit k with
  | true =>
    rw [hb] at hand
    have hne : (x &&& ofNat (2 ^ k)) ≠ 0 := by
      intro h0
      rw [h0] at hand
      have hpos : 0 < 2 ^ k := Nat.two_pow_pos k
      simp only [UInt8.toNat_zero, Bool.toNat_true] at hand
      omega
    simpa using hne
  | false =>
    rw [hb] at hand
    have h0 : (x &&& ofNat (2 ^ k)) = 0 := by
      apply toNat.inj
      rw [hand]
      simp
    rw [h0]
    rfl

theorem bitAt_eq_testBit (b : Bytes n) (k : Nat) : bitAt b k = (byteAt b (k / 8)).toNat.testBit (k % 8) :=
  and_mask_ne_zero _ (mod_lt _ (by decide))

/-- A byte that differs in one bit. -/
theorem bitAt_blit (b : Bytes n) {k : Nat} (hk : k / 8 < n) {v : Bool} {x : UInt8} (hx : ∀ m < 8, x.toNat.testBit m =
      if m = k % 8 then v else (byteAt b (k / 8)).toNat.testBit m) (j : Nat) :
    bitAt (blit b (k / 8) 1 fun _ => x) j = if j = k then v else bitAt b j := by
  rw [bitAt_eq_testBit, bitAt_eq_testBit]
  by_cases hbyte : j / 8 = k / 8
  · have hjk : j % 8 = k % 8 ↔ j = k := by omega
    rw [hbyte, byteAt_blit_in b _ hk (le_refl _) (by omega), hx _ (mod_lt _ (by decide))]
    simp only [hjk]
  · have hjk : j ≠ k := by rintro rfl; exact hbyte rfl
    rw [byteAt_blit_out b _ (by omega), if_neg hjk]

/-- Setting a bit sets it and no other. -/
theorem bitAt_setBit (b : Bytes n) {k : Nat} (hk : k / 8 < n) (j : Nat) :
    bitAt (setBit b k) j = if j = k then true else bitAt b j := by
  refine bitAt_blit b hk (fun m _ => ?_) j
  rw [UInt8.toNat_or, mask_toNat (Nat.mod_lt _ (by decide)), Nat.testBit_or, Nat.testBit_two_pow]
  by_cases hm : m = k % 8 <;> simp [hm, Ne.symm]

/-- Clearing a bit clears it and no other. -/
theorem bitAt_clearBit (b : Bytes n) {k : Nat} (hk : k / 8 < n) (j : Nat) :
    bitAt (clearBit b k) j = if j = k then false else bitAt b j := by
  refine bitAt_blit b hk (fun m hm => ?_) j
  have hnot : UInt8.size - 1 - 2 ^ (k % 8) = 2 ^ 8 - (2 ^ (k % 8) + 1) := by
    show 255 - 2 ^ (k % 8) = 256 - (2 ^ (k % 8) + 1)
    omega
  rw [UInt8.toNat_and, testBit_and, UInt8.toNat_not, mask_toNat (mod_lt _ (by decide)), hnot,
    Nat.testBit_two_pow_sub_succ (Nat.pow_lt_pow_right (by decide) (Nat.mod_lt _ (by decide))), Nat.testBit_two_pow]
  by_cases hmk : m = k % 8 <;> simp [hm, hmk, Ne.symm]

end ByteBuf
