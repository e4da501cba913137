import Xv6.KernelRulesProofs

/-!
# The layout of the disk — inodes, the free map and block addresses

`mkfs` lays the disk out as

    [ boot block | super block | log | inode blocks | free bit map | data blocks ]

`Layout` says that a superblock describes such a disk. Over it, this file reads a disk as the
file system does: `dino` is the table of on-disk inodes, `used` the free map, and `slotAddr`
the blocks an inode refers to, by **slot**: slots `0` to `NDIRECT - 1` are the direct
blocks, slot `NDIRECT` is the indirect block, and the slots after it are the entries of the
indirect block.

The two functions that change the free map come here too. `balloc` takes the first free
block (`balloc_does`), so the list `freeBlocks` of all free blocks tells in advance what a
sequence of allocations will return.
-/

namespace Xv6Layout

open CmdProg ByteBuf Xv6Disk Xv6Kernel Xv6Fs Function List Nat

/-- The first data block. -/
def datastart (sb : Superblock) : Nat := sb.bmapstart + sb.size / BPB + 1

/-- The superblock describes a disk with the areas in their order and room for them. -/
structure Layout (sb : Superblock) : Prop where
  super : 2 ≤ sb.logstart
  log : sb.logstart + sb.nlog ≤ sb.inodestart
  inodes : sb.inodestart + sb.ninodes / IPB < sb.bmapstart
  data : datastart sb ≤ sb.size
  disk : sb.size ≤ FSSIZE
  root : ROOTINO < sb.ninodes
  inums : sb.ninodes ≤ 2 ^ 16

/-- Entry `j` of the inode table. There is no inode 0. -/
def dino (sb : Superblock) (v : Nat → Block) (j : Nat) : Dinode :=
  if 1 ≤ j ∧ j < sb.ninodes then getDinode (v (IBLOCK j sb)) (j % IPB) else Dinode.zero

/-- The bit of block `b` in the free map. -/
def used (sb : Superblock) (v : Nat → Block) (b : Nat) : Bool :=
  bitAt (v (BBLOCK b sb)) (b % BPB)

/-- The free blocks, in the order in which `balloc` finds them. -/
def freeBlocks (sb : Superblock) (v : Nat → Block) : List Nat :=
  (range sb.size).filter fun b => !used sb v b

/-- The block in slot `k` of an inode, `0` if there is none. -/
def slotAddr (v : Nat → Block) (d : Dinode) (k : Nat) : Nat :=
  if k < NDIRECT + 1 then (addr d k).toNat
  else if addr d NDIRECT ≠ 0 ∧ k < NDIRECT + 1 + NINDIRECT then
    (getAddr (v (addr d NDIRECT).toNat) (k - (NDIRECT + 1))).toNat
  else 0

/-- The slot of the `bn`th block of the content. -/
def bnSlot (bn : Nat) : Nat := if bn < NDIRECT then bn else bn + 1

/-! ## The areas are apart -/

section Areas

variable {sb : Superblock} (hl : Layout sb)

include hl

theorem iblock_lt {j : Nat} (hj : j < sb.ninodes) : IBLOCK j sb < sb.bmapstart := by
  have h1 := hl.inodes
  have h2 : j / IPB ≤ sb.ninodes / IPB := Nat.div_le_div_right (le_of_lt hj)
  show j / IPB + sb.inodestart < sb.bmapstart
  omega

theorem inodestart_lt_bmapstart : sb.inodestart < sb.bmapstart :=
  lt_of_le_of_lt (le_add_right _ _) hl.inodes

omit hl in
theorem inodestart_le_iblock (j : Nat) : sb.inodestart ≤ IBLOCK j sb := le_add_left _ _

omit hl in
theorem bmapstart_le_bblock (c : Nat) : sb.bmapstart ≤ BBLOCK c sb := le_add_left _ _

omit hl in
theorem bmapstart_lt_datastart : sb.bmapstart < datastart sb :=
  lt_succ_of_le (le_add_right _ _)

theorem two_le_inodestart : 2 ≤ sb.inodestart :=
  le_trans hl.super (le_trans (le_add_right _ _) hl.log)

omit hl in
theorem bblock_lt {c : Nat} (hc : c < sb.size) : BBLOCK c sb < datastart sb := by
  have h2 : c / BPB ≤ sb.size / BPB := Nat.div_le_div_right (le_of_lt hc)
  show c / BPB + sb.bmapstart < sb.bmapstart + sb.size / BPB + 1
  omega

theorem iblock_ne_bblock {j : Nat} (hj : j < sb.ninodes) (c : Nat) : IBLOCK j sb ≠ BBLOCK c sb := by
  have h1 := iblock_lt hl hj
  have h2 : sb.bmapstart ≤ BBLOCK c sb := bmapstart_le_bblock c
  omega

theorem iblock_ne_data {j b : Nat} (hj : j < sb.ninodes) (hb : datastart sb ≤ b) : IBLOCK j sb ≠ b := by
  have h1 := iblock_lt hl hj
  have h2 : sb.bmapstart < datastart sb := bmapstart_lt_datastart
  omega

omit hl in
theorem bblock_ne_data {c b : Nat} (hc : c < sb.size) (hb : datastart sb ≤ b) : BBLOCK c sb ≠ b := by
  have h1 := bblock_lt hc
  omega

end Areas

/-! ## The inode table -/

section Table

variable {sb : Superblock} {v : Nat → Block}

theorem dino_of_range {j : Nat} (h1 : 1 ≤ j) (h2 : j < sb.ninodes) :
    dino sb v j = getDinode (v (IBLOCK j sb)) (j % IPB) := if_pos ⟨h1, h2⟩

/-- Only inode numbers of the table name an allocated inode. -/
theorem dino_range {j : Nat} (h : (dino sb v j).type ≠ 0) : 1 ≤ j ∧ j < sb.ninodes := by
  by_contra hc
  rw [dino, if_neg hc] at h
  exact h rfl

/-- The table is kept in the inode blocks. -/
theorem dino_congr {v' : Nat → Block}
    (h : ∀ j, j < sb.ninodes → v' (IBLOCK j sb) = v (IBLOCK j sb)) : dino sb v' = dino sb v := by
  funext j
  rw [dino, dino]
  split_ifs with hj
  · rw [h j hj.2]
  · rfl

/-- Storing a dinode in its place changes one entry of the table. -/
theorem dino_putDinode {i : Nat} (h1 : 1 ≤ i) (h2 : i < sb.ninodes) (d : Dinode) :
    dino sb (update v (IBLOCK i sb) (putDinode (v (IBLOCK i sb)) (i % IPB) d)) = update (dino sb v) i d := by
  funext j
  by_cases hji : j = i
  · subst hji
    rw [dino_of_range h1 h2, update_self, update_self, getDinode_putDinode _ _ (mod_lt _ (by decide))]
  · rw [update_of_ne hji]
    rw [dino, dino]
    split
    · by_cases hb : IBLOCK j sb = IBLOCK i sb
      · -- two inodes of one block differ in their place within it
        have hdiv : j / IPB = i / IPB := add_right_cancel hb
        have hmod : j % IPB ≠ i % IPB := by
          intro hmod
          apply hji
          rw [← div_add_mod j IPB, ← div_add_mod i IPB, hdiv, hmod]
        rw [hb, update_self, getDinode_putDinode_ne _ _ hmod]
      · rw [update_of_ne hb]
    · rfl

/-! ## The free map -/

theorem used_update {b c : Nat} (hb : BBLOCK c sb ≠ b) (d : Block) : used sb (update v b d) c = used sb v c := by
  rw [used, used, update_of_ne hb]

theorem same_bit {b c : Nat} (h1 : BBLOCK b sb = BBLOCK c sb) (h2 : b % BPB = c % BPB) : b = c := by
  have hdiv : b / BPB = c / BPB := add_right_cancel h1
  rw [← div_add_mod b BPB, ← div_add_mod c BPB, hdiv, h2]

theorem bit_in_block (b : Nat) : b % BPB / 8 < BSIZE := by
  have : b % BPB < BPB := mod_lt _ (by decide)
  have h8 : BPB = BSIZE * 8 := rfl
  omega

/-- What `setBit` and `clearBit` have in common: they change the bit of one block. -/
theorem used_changeBit {b : Nat} {x : Bool} {f : Block → Nat → Block}
    (hf : ∀ (d : Block) (k j : Nat), k / 8 < BSIZE → bitAt (f d k) j = if j = k then x else bitAt d j)
    (c : Nat) : used sb (update v (BBLOCK b sb) (f (v (BBLOCK b sb)) (b % BPB))) c
      = if c = b then x else used sb v c := by
  rw [used]
  by_cases hblk : BBLOCK c sb = BBLOCK b sb
  · rw [hblk, update_self, hf _ _ _ (bit_in_block b)]
    by_cases hcb : c = b
    · rw [if_pos hcb, if_pos (by rw [hcb])]
    · rw [if_neg hcb, if_neg (fun hmod => hcb (same_bit hblk hmod)), used, hblk]
  · rw [update_of_ne hblk, if_neg (fun hcb => hblk (by rw [hcb])), used]

end Table

/-- The disk after `balloc` has taken block `b`: its bit is set, its content zeroed. -/
def allocView (sb : Superblock) (v : Nat → Block) (b : Nat) : Nat → Block :=
  update (update v (BBLOCK b sb) (setBit (v (BBLOCK b sb)) (b % BPB))) b zeros

/-- The disk after `bfree` of block `b`. -/
def freeView (sb : Superblock) (v : Nat → Block) (b : Nat) : Nat → Block :=
  update v (BBLOCK b sb) (clearBit (v (BBLOCK b sb)) (b % BPB))

section Bits

variable {sb : Superblock} {v : Nat → Block} {b : Nat}

theorem used_allocView (hb : datastart sb ≤ b) {c : Nat} (hc : c < sb.size) :
    used sb (allocView sb v b) c = if c = b then true else used sb v c := by
  rw [allocView, used_update (bblock_ne_data hc hb)]
  exact used_changeBit (fun d _ j hk => bitAt_setBit d hk j) c

theorem used_freeView (c : Nat) : used sb (freeView sb v b) c = if c = b then false else used sb v c :=
  used_changeBit (fun d _ j hk => bitAt_clearBit d hk j) c

theorem allocView_self : allocView sb v b b = zeros := update_self _ _ _

theorem allocView_other {c : Nat} (hb : c ≠ b) (hc : c ≠ BBLOCK b sb) : allocView sb v b c = v c := by
  rw [allocView, update_of_ne hb, update_of_ne hc]

theorem freeView_other {c : Nat} (hc : c ≠ BBLOCK b sb) : freeView sb v b c = v c := by
  rw [freeView, update_of_ne hc]

theorem mem_freeBlocks : b ∈ freeBlocks sb v ↔ b < sb.size ∧ used sb v b = false := by
  rw [freeBlocks, mem_filter, mem_range, Bool.not_eq_true']

/-- The first free block heads the list. -/
theorem freeBlocks_of_first (hb : b < sb.size) (hfree : used sb v b = false)
    (hmin : ∀ c, c < b → used sb v c = true) : ∃ l, freeBlocks sb v = b :: l := by
  refine ⟨((range' (b + 1) (sb.size - (b + 1))).filter fun c => !used sb v c), ?_⟩
  have hsplit : range sb.size = range b ++ b :: range' (b + 1) (sb.size - (b + 1)) := by
    rw [range_eq_range', range_eq_range', ← range'_succ]
    have h := range'_append_1 (s := 0) (m := b) (n := sb.size - (b + 1) + 1)
    rw [zero_add] at h
    rw [h]
    congr 1
    omega
  rw [freeBlocks, hsplit, filter_append]
  have hnil : (range b).filter (fun c => !used sb v c) = [] := by
    rw [filter_eq_nil_iff]
    intro c hc
    rw [hmin c (mem_range.mp hc)]
    decide
  rw [hnil, nil_append, filter_cons_of_pos (by rw [hfree]; rfl)]

/-- Allocating the first free block removes it from the list. -/
theorem freeBlocks_allocView {l : List Nat} (hb : datastart sb ≤ b)
    (hl : freeBlocks sb v = b :: l) : freeBlocks sb (allocView sb v b) = l := by
  have hnodup : (b :: l).Nodup := by
    rw [← hl]
    exact filter_sublist.nodup nodup_range
  have hfilter : freeBlocks sb (allocView sb v b) = (freeBlocks sb v).filter fun c => c ≠ b := by
    rw [freeBlocks, freeBlocks, filter_filter]
    refine filter_congr ?_
    intro c hc
    rw [used_allocView hb (mem_range.mp hc)]
    split_ifs with hcb
    · simp [hcb]
    · simp [hcb]
  rw [hfilter, hl, filter_cons_of_neg (by simp), filter_eq_self.mpr]
  intro c hc
  have hne : c ≠ b := fun hcb => (nodup_cons.mp hnodup).1 (hcb ▸ hc)
  simpa using hne

end Bits

/-! ## `balloc` and `bfree` -/

theorem scanBits_some {sb : Superblock} {d : Block} {b : Nat} :
    ∀ {r bi x : Nat}, scanBits sb d b r bi = some x → x < bi + r ∧ b + x < sb.size ∧ bitAt d x = false ∧
      ∀ y, bi ≤ y → y < x → bitAt d y = true := by
  intro r
  induction r with
  | zero => intro bi x h; cases h
  | succ r ih =>
    intro bi x h
    rw [scanBits] at h
    split at h
    · next hlt =>
      cases hbit : bitAt d bi with
      | false =>
        rw [hbit] at h
        cases h
        exact ⟨by omega, hlt, hbit, fun y h1 h2 => absurd h2 (not_lt.mpr h1)⟩
      | true =>
        rw [hbit] at h
        obtain ⟨h1, h2, h3, h4⟩ := ih h
        refine ⟨by omega, h2, h3, ?_⟩
        intro y hy1 hy2
        by_cases hyb : y = bi
        · rw [hyb]; exact hbit
        · exact h4 y (by omega) hy2
    · cases h

theorem scanBits_none {sb : Superblock} {d : Block} {b : Nat} : ∀ {r bi : Nat}, scanBits sb d b r bi = none →
      ∀ y, bi ≤ y → y < bi + r → b + y < sb.size → bitAt d y = true := by
  intro r
  induction r with
  | zero => intro bi _ y h1 h2; omega
  | succ r ih =>
    intro bi h y h1 h2 h3
    rw [scanBits, if_pos (by omega)] at h
    cases hbit : bitAt d bi with
    | false => rw [hbit] at h; cases h
    | true =>
      rw [hbit] at h
      by_cases hyb : y = bi
      · rw [hyb]; exact hbit
      · exact ih h y (by omega) (by omega) h3

/-- The state after `balloc` has taken block `b`. -/
def allocState (sb : Superblock) (s : LState) (b : Nat) : LState :=
  log (put (log (put s (BBLOCK b sb) (setBit (s.view (BBLOCK b sb)) (b % BPB))) (BBLOCK b sb))
    b zeros) b

/-- The state after `bfree` of block `b`. -/
def freeState (sb : Superblock) (s : LState) (b : Nat) : LState :=
  log (put s (BBLOCK b sb) (clearBit (s.view (BBLOCK b sb)) (b % BPB))) (BBLOCK b sb)

section Alloc

variable {sb : Superblock} {W : Set Nat} {N : Prop} {s : LState}

/-- Within one bitmap block, block numbers and bits go together. -/
theorem bit_of_block (sb : Superblock) {t x : Nat} (hx : x < BPB) :
    BBLOCK (BPB * t + x) sb = BBLOCK (BPB * t) sb ∧ (BPB * t + x) % BPB = x := by
  have hpos : 0 < BPB := by decide
  constructor
  · show (BPB * t + x) / BPB + sb.bmapstart = BPB * t / BPB + sb.bmapstart
    rw [Nat.mul_add_div hpos, Nat.div_eq_of_lt hx, Nat.mul_div_cancel_left _ hpos, add_zero]
  · rw [mul_add_mod, mod_eq_of_lt hx]

theorem used_bit (sb : Superblock) (v : Nat → Block) (t : Nat) {x : Nat} (hx : x < BPB) :
    used sb v (BPB * t + x) = bitAt (v (BBLOCK (BPB * t) sb)) x := by
  obtain ⟨h1, h2⟩ := bit_of_block sb (t := t) hx
  rw [used, h1, h2]

/-- A clear bit that the scan finds is that of the first free block. -/
theorem scan_first {v : Nat → Block} {t x : Nat} (hused : ∀ c, c < BPB * t → c < sb.size → used sb v c = true)
    (hscan : scanBits sb (v (BBLOCK (BPB * t) sb)) (BPB * t) BPB 0 = some x) :
    x < BPB ∧ ∃ l, freeBlocks sb v = (BPB * t + x) :: l := by
  obtain ⟨hx, hsize, hclear, hskip⟩ := scanBits_some hscan
  have hxB : x < BPB := by omega
  refine ⟨hxB, freeBlocks_of_first hsize (by rw [used_bit sb v t hxB, hclear]) ?_⟩
  intro c hc
  by_cases hct : c < BPB * t
  · exact hused c hct (by omega)
  · have := used_bit sb v t (x := c - BPB * t) (by omega)
    rw [show BPB * t + (c - BPB * t) = c by omega] at this
    rw [this]
    exact hskip _ (zero_le _) (by omega)

/-- When the scan finds none, the blocks of this bitmap block are all in use. -/
theorem scan_rest {v : Nat → Block} {t : Nat} (hused : ∀ c, c < BPB * t → c < sb.size → used sb v c = true)
    (hscan : scanBits sb (v (BBLOCK (BPB * t) sb)) (BPB * t) BPB 0 = none) :
    ∀ c, c < BPB * (t + 1) → c < sb.size → used sb v c = true := by
  intro c hc hsize
  by_cases hct : c < BPB * t
  · exact hused c hct hsize
  · rw [mul_succ] at hc
    have := used_bit sb v t (x := c - BPB * t) (by omega)
    rw [show BPB * t + (c - BPB * t) = c by omega] at this
    rw [this]
    exact scanBits_none hscan _ (zero_le _) (by omega) (by omega)

theorem ballocLoop_does
    (hW : ∀ b l, freeBlocks sb s.view = b :: l → b ∈ W ∧ BBLOCK b sb ∈ W) :
    ∀ (r t : Nat), (∀ c, c < BPB * t → c < sb.size → used sb s.view c = true) →
    Does W N (fun b s' => (∃ l, freeBlocks sb s.view = b :: l) ∧ s' = allocState sb s b)
      (ballocLoop sb r (BPB * t)) s := by
  intro r
  induction r with
  | zero => intro t _; exact does_kpanic (by decide)
  | succ r ih =>
    intro t hused
    rw [ballocLoop]
    split_ifs with hlt
    · refine does_bread fun _ => ?_
      cases hscan : scanBits sb (s.view (BBLOCK (BPB * t) sb)) (BPB * t) BPB 0 with
      | some x =>
        obtain ⟨hxB, l, hl⟩ := scan_first hused hscan
        obtain ⟨hblk, hmod⟩ := bit_of_block sb (t := t) hxB
        obtain ⟨hW1, hW2⟩ := hW _ l hl
        rw [hblk] at hW2
        refine does_bstore (does_logWrite hW2 (does_brelse ?_))
        refine does_seq (R := fun _ s' => s' = allocState sb s (BPB * t + x)) ?_ ?_
        · refine does_bread fun _ => does_bstore (does_logWrite hW1 (does_last (does_brelse ?_)))
          refine does_pure ?_
          rw [allocState, hblk, hmod]
        · rintro _ _ rfl
          exact does_pure ⟨⟨l, hl⟩, rfl⟩
      | none =>
        refine does_brelse ?_
        exact ih (t + 1) (scan_rest hused hscan)
    · exact does_kpanic (by decide)

/-- **`balloc` takes the first free block**, and logs it and its bitmap block. -/
theorem balloc_does (hsb : s.mem.sb = sb) (hW : ∀ b l, freeBlocks sb s.view = b :: l → b ∈ W ∧ BBLOCK b sb ∈ W) :
    Does W N (fun a s' => ∃ b l, freeBlocks sb s.view = b :: l ∧ a = UInt32.ofNat b ∧
      s' = allocState sb s b) balloc s := by
  refine does_getSb ?_
  rw [hsb]
  refine does_seq (ballocLoop_does hW _ 0 (by omega)) ?_
  rintro b s' ⟨⟨l, hl⟩, rfl⟩
  exact does_pure ⟨b, l, hl, rfl, rfl⟩

/-- **`bfree` clears one bit.** -/
theorem bfree_does {a : UInt32} (hsb : s.mem.sb = sb) (hdisk : getSuperblock (s.view 1) = sb)
    (hW : BBLOCK a.toNat sb ∈ W) : Does W N (fun _ s' => s' = freeState sb s a.toNat) (bfree a) s := by
  refine does_readsb ?_
  rw [hdisk]
  refine does_modMem ?_
  have hsame : setTables s { s.mem with sb := sb } = s := by
    subst hsb
    rfl
  rw [hsame]
  refine does_bread fun _ => ?_
  cases bitAt (s.view (BBLOCK a.toNat sb)) (a.toNat % BPB) with
  | false => exact does_kpanic (by decide)
  | true => exact does_bstore (does_logWrite hW (does_last (does_brelse (does_pure rfl))))

end Alloc

end Xv6Layout
