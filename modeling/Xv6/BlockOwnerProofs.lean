import Xv6.FsLayoutProofs
import Xv6.LedgerProofs

/-!
# Block ownership — the free map as a ledger

The slots of all allocated inodes are the slots of a ledger whose marks are the free map.
`Own sb v D X` says that it is balanced on the disk `v`. The inode table is an argument of
its own, `D`: between system calls it is the table on the disk (`dino`), and while the code
works on one inode it is that table with the in-memory copy in its place.

`bytesOf` is the content of an inode, by byte position and `0` where no block is mapped.
`Evolves` collects what the code may do to the disk while it writes to inode `i`: the ledger
stays balanced, mapped blocks stay where they are, nobody else's content changes, and
nothing happens below the free map.
-/

namespace Xv6Own

open ByteBuf Xv6Disk Xv6Kernel Xv6Fs Xv6Layout Ledger Function

/-- The block in slot `x.2` of the allocated inode `x.1`. -/
def slots (v : Nat → Block) (D : Nat → Dinode) (x : Nat × Nat) : Nat :=
  if (D x.1).type = 0 then 0 else slotAddr v (D x.1) x.2

/-- The free map accounts for every block. -/
def Own (sb : Superblock) (v : Nat → Block) (D : Nat → Dinode) (X : Set Nat) : Prop :=
  Balanced (slots v D) (used sb v) X (datastart sb) sb.size

/-- Byte `p` of the content of inode `j`. -/
def bytesOf (v : Nat → Block) (D : Nat → Dinode) (j p : Nat) : UInt8 :=
  if slots v D (j, bnSlot (p / BSIZE)) = 0 then 0
  else byteAt (v (slots v D (j, bnSlot (p / BSIZE)))) (p % BSIZE)

/-! ## Slots of one inode -/

section SlotAddr

variable {v v' : Nat → Block} {d d' : Dinode} {k m : Nat} {a : UInt32}

theorem addr_setAddr (hk : k < NDIRECT + 1) (hm : m < NDIRECT + 1) :
    addr (setAddr d k a) m = if m = k then a else addr d m := by
  have hfin : (Fin.ofNat (NDIRECT + 1) m = Fin.ofNat (NDIRECT + 1) k) ↔ m = k := by
    rw [Fin.ext_iff]
    show m % (NDIRECT + 1) = k % (NDIRECT + 1) ↔ m = k
    rw [Nat.mod_eq_of_lt hk, Nat.mod_eq_of_lt hm]
  show update d.addrs (Fin.ofNat (NDIRECT + 1) k) a (Fin.ofNat (NDIRECT + 1) m) = _
  rw [update_apply]
  by_cases hmk : m = k
  · rw [if_pos hmk, if_pos (hfin.mpr hmk)]
  · rw [if_neg hmk, if_neg (fun h => hmk (hfin.mp h))]
    rfl

theorem slotAddr_direct (hk : k < NDIRECT + 1) : slotAddr v d k = (addr d k).toNat := if_pos hk

theorem slotAddr_entry {j : Nat} (hj : j < NINDIRECT) (h0 : addr d NDIRECT ≠ 0) :
    slotAddr v d (NDIRECT + 1 + j) = (getAddr (v (addr d NDIRECT).toNat) j).toNat := by
  rw [slotAddr, if_neg (by omega), if_pos ⟨h0, by omega⟩, Nat.add_sub_cancel_left]

/-- Only the addresses and the indirect block matter. -/
theorem slotAddr_congr (ha : d'.addrs = d.addrs)
    (hv : addr d NDIRECT ≠ 0 → v' (addr d NDIRECT).toNat = v (addr d NDIRECT).toNat) :
    slotAddr v' d' = slotAddr v d := by
  have hd : ∀ m, addr d' m = addr d m := fun m => by rw [addr, addr, ha]
  funext m
  by_cases h1 : m < NDIRECT + 1
  · rw [slotAddr_direct h1, slotAddr_direct h1, hd]
  · rw [slotAddr, slotAddr, if_neg h1, if_neg h1, hd]
    split_ifs with h2
    · rw [hv h2.1]
    · rfl

/-- A direct block is entered. -/
theorem slotAddr_setAddr (hk : k < NDIRECT) : slotAddr v (setAddr d k a) = update (slotAddr v d) k a.toNat := by
  funext m
  have hn : addr (setAddr d k a) NDIRECT = addr d NDIRECT := by
    rw [addr_setAddr (by omega) (by omega), if_neg (by omega)]
  by_cases h1 : m < NDIRECT + 1
  · rw [slotAddr_direct h1, addr_setAddr (by omega) h1, update_apply, slotAddr_direct h1]
    split_ifs with hmk
    · rfl
    · rfl
  · rw [update_of_ne (by omega), slotAddr, slotAddr, if_neg h1, if_neg h1, hn]

/-- An empty indirect block is entered. -/
theorem slotAddr_setIndirect (h0 : addr d NDIRECT = 0) (hz : v a.toNat = zeros) :
    slotAddr v (setAddr d NDIRECT a) = update (slotAddr v d) NDIRECT a.toNat := by
  funext m
  have hn : addr (setAddr d NDIRECT a) NDIRECT = a := by
    rw [addr_setAddr (by omega) (by omega), if_pos rfl]
  by_cases h1 : m < NDIRECT + 1
  · rw [slotAddr_direct h1, addr_setAddr (by omega) h1, update_apply, slotAddr_direct h1]
    split
    · rfl
    · rfl
  · have hold : slotAddr v d m = 0 := by
      rw [slotAddr, if_neg h1, if_neg (fun h => h.1 h0)]
    rw [update_of_ne (by omega), hold, slotAddr, if_neg h1, hn, hz, getAddr_zeros]
    exact ite_self _

/-- An entry is stored in the indirect block. -/
theorem slotAddr_putAddr {j : Nat} (hj : j < NINDIRECT) (h0 : addr d NDIRECT ≠ 0) :
    slotAddr (update v (addr d NDIRECT).toNat
        (putAddr (v (addr d NDIRECT).toNat) j a)) d = update (slotAddr v d) (NDIRECT + 1 + j) a.toNat := by
  funext m
  by_cases h1 : m < NDIRECT + 1
  · rw [update_of_ne (by omega), slotAddr_direct h1, slotAddr_direct h1]
  · rw [slotAddr, if_neg h1, update_self]
    by_cases h2 : m < NDIRECT + 1 + NINDIRECT
    · rw [if_pos ⟨h0, h2⟩, update_apply]
      split_ifs with hmj
      · subst hmj
        rw [Nat.add_sub_cancel_left, getAddr_putAddr _ _ hj]
      · rw [getAddr_putAddr_ne _ _ (by omega), slotAddr, if_neg h1, if_pos ⟨h0, h2⟩]
    · rw [if_neg (fun h => h2 h.2), update_of_ne (by omega), slotAddr, if_neg h1, if_neg (fun h => h2 h.2)]

/-- Clearing the address of the indirect block clears its entries with it. -/
theorem slotAddr_clearIndirect : slotAddr v (setAddr d NDIRECT 0) m = if m < NDIRECT then slotAddr v d m else 0 := by
  have hn : addr (setAddr d NDIRECT 0) NDIRECT = 0 := by
    rw [addr_setAddr (by omega) (by omega), if_pos rfl]
  by_cases h1 : m < NDIRECT
  · rw [if_pos h1, slotAddr_direct (by omega), slotAddr_direct (by omega),
      addr_setAddr (by omega) (by omega), if_neg (by omega)]
  · rw [if_neg h1]
    by_cases h2 : m < NDIRECT + 1
    · rw [slotAddr_direct h2, show m = NDIRECT by omega, hn]
      rfl
    · rw [slotAddr, if_neg h2, hn, if_neg (fun h => h.1 rfl)]

end SlotAddr

/-! ## Slots of all inodes -/

section Slots

variable {v v' : Nat → Block} {D D' : Nat → Dinode} {i k : Nat} {d : Dinode} {a : UInt32}

theorem slots_of_type (h : (D i).type ≠ 0) : slots v D (i, k) = slotAddr v (D i) k := if_neg h

theorem slots_direct (h : (D i).type ≠ 0) (hk : k < NDIRECT + 1) : slots v D (i, k) = (addr (D i) k).toNat :=
  (slots_of_type h).trans (slotAddr_direct hk)

theorem type_of_slots (h : slots v D (i, k) ≠ 0) : (D i).type ≠ 0 := by
  intro h0
  exact h (if_pos h0)

theorem slots_congr (hD : ∀ j, (D' j).type = (D j).type ∧ (D' j).addrs = (D j).addrs)
    (hv : ∀ j, slots v D (j, NDIRECT) ≠ 0 → v' (slots v D (j, NDIRECT)) = v (slots v D (j, NDIRECT))) :
    slots v' D' = slots v D := by
  funext ⟨j, m⟩
  by_cases h0 : (D j).type = 0
  · rw [slots, slots, if_pos h0, if_pos ((hD j).1.trans h0)]
  · rw [slots, slots, if_neg h0, if_neg (fun h => h0 ((hD j).1.symm.trans h))]
    refine congrFun (slotAddr_congr (hD j).2 ?_) m
    intro hn
    have hs : slots v D (j, NDIRECT) = (addr (D j) NDIRECT).toNat := by
      rw [slots_direct h0 (by omega)]
    have := hv j (by rw [hs]; exact fun h => hn (UInt32.toNat.inj h))
    rw [hs] at this
    exact this

/-- A change of one inode that changes one of its slots. -/
theorem slots_update (hi : (D i).type ≠ 0) (hd : d.type ≠ 0) {b : Nat}
    (hs : slotAddr v' d = update (slotAddr v (D i)) k b) (hv : ∀ j, j ≠ i → slots v D (j, NDIRECT) ≠ 0 →
      v' (slots v D (j, NDIRECT)) = v (slots v D (j, NDIRECT))) :
    slots v' (update D i d) = update (slots v D) (i, k) b := by
  funext ⟨j, m⟩
  by_cases hji : j = i
  · subst hji
    have h1 : slots v' (update D j d) (j, m) = slotAddr v' d m := by
      rw [slots, update_self, if_neg hd]
    rw [h1, hs, update_apply, update_apply, slots_of_type hi]
    split
    · next hmk =>
      rw [if_pos (by rw [hmk])]
    · next hmk =>
      rw [if_neg (fun h => hmk (Prod.mk.inj h).2)]
  · rw [update_of_ne (fun h => hji (Prod.mk.inj h).1)]
    have h1 : slots v' (update D i d) (j, m) = slots v' D (j, m) := by
      rw [slots, slots, update_of_ne hji]
    rw [h1]
    by_cases h0 : (D j).type = 0
    · rw [slots, slots, if_pos h0, if_pos h0]
    · rw [slots_of_type h0, slots_of_type h0]
      refine congrFun (slotAddr_congr rfl ?_) m
      intro hn
      have hs' : slots v D (j, NDIRECT) = (addr (D j) NDIRECT).toNat := by
        rw [slots_direct h0 (by omega)]
      have := hv j hji (by rw [hs']; exact fun h => hn (UInt32.toNat.inj h))
      rw [hs'] at this
      exact this

/-- Content is the same if the mapped blocks are, and new blocks are zero. -/
theorem bytesOf_congr {j : Nat} (h : ∀ bn, (slots v' D' (j, bnSlot bn) = slots v D (j, bnSlot bn) ∧
        (slots v D (j, bnSlot bn) ≠ 0 → v' (slots v D (j, bnSlot bn)) = v (slots v D (j, bnSlot bn)))) ∨
      (slots v D (j, bnSlot bn) = 0 ∧ v' (slots v' D' (j, bnSlot bn)) = zeros)) : bytesOf v' D' j = bytesOf v D j := by
  funext p
  rw [bytesOf, bytesOf]
  rcases h (p / BSIZE) with ⟨h1, h2⟩ | ⟨h1, h2⟩
  · rw [h1]
    split_ifs with h0
    · rfl
    · rw [h2 h0]
  · rw [if_pos h1, h2, byteAt_zeros]
    exact ite_self _

theorem bnSlot_ne (bn : Nat) : bnSlot bn ≠ NDIRECT := by
  unfold bnSlot
  split
  · omega
  · omega

theorem bnSlot_inj {m n : Nat} (h : bnSlot m = bnSlot n) : m = n := by
  unfold bnSlot at h
  by_cases h1 : m < NDIRECT <;> by_cases h2 : n < NDIRECT
  · rw [if_pos h1, if_pos h2] at h; exact h
  · rw [if_pos h1, if_neg h2] at h; omega
  · rw [if_neg h1, if_pos h2] at h; omega
  · rw [if_neg h1, if_neg h2] at h; omega

/-- A store into a block of content moves no block, if no block is in two slots. -/
theorem slots_write {bn : Nat} (honce : ∀ x y, slots v D x ≠ 0 → slots v D x = slots v D y → x = y)
    (blk : Block) : slots (update v (slots v D (i, bnSlot bn)) blk) D = slots v D := by
  refine slots_congr (fun _ => ⟨rfl, rfl⟩) fun j hj => ?_
  rw [update_of_ne]
  intro heq
  have := (Prod.mk.inj (honce _ _ hj heq)).2
  exact bnSlot_ne bn this.symm

/-- It changes the bytes of that block. -/
theorem bytesOf_write {bn : Nat} (honce : ∀ x y, slots v D x ≠ 0 → slots v D x = slots v D y → x = y)
    (h0 : slots v D (i, bnSlot bn) ≠ 0) (blk : Block) : bytesOf (update v (slots v D (i, bnSlot bn)) blk) D i
      = fun p => if p / BSIZE = bn then byteAt blk (p % BSIZE) else bytesOf v D i p := by
  funext p
  rw [bytesOf, slots_write honce]
  by_cases hp : p / BSIZE = bn
  · rw [if_pos hp, hp, if_neg h0, update_self]
  · rw [if_neg hp, bytesOf]
    by_cases hz : slots v D (i, bnSlot (p / BSIZE)) = 0
    · rw [if_pos hz, if_pos hz]
    · rw [if_neg hz, if_neg hz, update_of_ne]
      intro heq
      exact hp (bnSlot_inj (Prod.mk.inj (honce _ _ hz heq)).2)

/-- It changes the content of no other inode. -/
theorem bytesOf_write_ne (bn : Nat) {j : Nat} (honce : ∀ x y, slots v D x ≠ 0 → slots v D x = slots v D y → x = y)
    (hj : j ≠ i) (blk : Block) : bytesOf (update v (slots v D (i, bnSlot bn)) blk) D j = bytesOf v D j := by
  refine bytesOf_congr fun m => .inl ⟨by rw [slots_write honce], fun hz => ?_⟩
  rw [update_of_ne]
  intro heq
  exact hj (Prod.mk.inj (honce _ _ hz heq)).1

end Slots

/-! ## The disk while one inode is written -/

/-- What happens to disk and inode table while the code writes to inode `i`, whose content
    becomes `f`. -/
structure Evolves (sb : Superblock) (v : Nat → Block) (D : Nat → Dinode) (v' : Nat → Block)
    (D' : Nat → Dinode) (i : Nat) (f : Nat → UInt8) : Prop where
  own : Own sb v' D' ∅
  table : ∃ a, D' = update D i { D i with addrs := a }
  keep : ∀ x, slots v D x ≠ 0 → slots v' D' x = slots v D x
  self : bytesOf v' D' i = f
  others : ∀ j, j ≠ i → bytesOf v' D' j = bytesOf v D j
  below : ∀ b, b < sb.bmapstart → v' b = v b

section Evolves

variable {sb : Superblock} {v v' v'' : Nat → Block} {D D' D'' : Nat → Dinode} {i k b : Nat}
  {f g : Nat → UInt8} {l : List Nat}

theorem Evolves.refl (h : Own sb v D ∅) : Evolves sb v D v D i (bytesOf v D i) where
  own := h
  table := ⟨(D i).addrs, (update_eq_self _ _).symm⟩
  keep := fun _ _ => rfl
  self := rfl
  others := fun _ _ => rfl
  below := fun _ _ => rfl

theorem Evolves.trans (h1 : Evolves sb v D v' D' i f) (h2 : Evolves sb v' D' v'' D'' i g) :
    Evolves sb v D v'' D'' i g where
  own := h2.own
  table := by
    obtain ⟨a, ha⟩ := h1.table
    obtain ⟨a', ha'⟩ := h2.table
    refine ⟨a', ?_⟩
    rw [ha', ha, update_idem, update_self]
  keep := by
    intro x hx
    have h := h1.keep x hx
    rw [h2.keep x (h ▸ hx), h]
  self := h2.self
  others := fun j hj => (h2.others j hj).trans (h1.others j hj)
  below := fun c hc => (h2.below c hc).trans (h1.below c hc)

theorem Evolves.type_eq (h : Evolves sb v D v' D' i f) (j : Nat) : (D' j).type = (D j).type := by
  obtain ⟨a, ha⟩ := h.table
  rw [ha]
  by_cases hji : j = i
  · subst hji; rw [update_self]
  · rw [update_of_ne hji]

/-- **A fresh block goes into an empty slot** of inode `i`. The content does not change: the
    block is zero. The indirect block may change with it, to hold the new address. -/
theorem evolves_place (h : Own sb v D ∅) (hb : freeBlocks sb v = b :: l) (hx : slots v D (i, k) = 0)
    (htable : ∃ a, D' = update D i { D i with addrs := a })
    (hA : slots v' D' = update (slots v D) (i, k) b)
    (hzero : v' b = zeros)
    (hother : ∀ c, c ≠ b → c ≠ BBLOCK b sb → (c = slots v D (i, NDIRECT) → c = 0) → v' c = v c)
    (hused : ∀ c, c < sb.size → used sb v' c = if c = b then true else used sb v c) :
    Evolves sb v D v' D' i (bytesOf v D i) := by
  have hmem : b ∈ freeBlocks sb v := by rw [hb]; exact List.mem_cons_self
  obtain ⟨hsize, hfree⟩ := mem_freeBlocks.mp hmem
  obtain ⟨hlo, _, hslot⟩ := h.unmarked hsize hfree
  have hlarge : ∀ x, slots v D x ≠ 0 → datastart sb ≤ slots v D x := fun x hx => (h.cell x hx).1
  -- a mapped block other than the indirect block of `i` keeps its content
  have hsame : ∀ x, slots v D x ≠ 0 → x ≠ (i, NDIRECT) → v' (slots v D x) = v (slots v D x) := by
    intro x hx0 hne
    refine hother _ (hslot x) (fun heq => bblock_ne_data hsize (hlarge x hx0) heq.symm) ?_
    intro heq
    exact absurd (h.once x _ hx0 heq) hne
  have hcontent : ∀ j, bytesOf v' D' j = bytesOf v D j := by
    intro j
    refine bytesOf_congr fun bn => ?_
    by_cases hjk : (j, bnSlot bn) = (i, k)
    · refine .inr ⟨hjk ▸ hx, ?_⟩
      rw [hA, hjk, update_self]
      exact hzero
    · refine .inl ⟨by rw [hA, update_of_ne hjk], ?_⟩
      exact fun h0 => hsame _ h0 fun heq => bnSlot_ne bn (Prod.mk.inj heq).2
  refine ⟨?_, htable, ?_, hcontent i, fun j _ => hcontent j, ?_⟩
  · have h1 : Balanced (slots v D) (used sb v') (insert b ∅) (datastart sb) sb.size :=
      h.alloc hsize hfree hused
    have hnone : (insert b ∅ : Set Nat) \ {b} = ∅ := by ext c; simp
    exact hnone ▸ h1.place (.inl rfl) hx hA
  · intro x hx0
    rw [hA, update_of_ne]
    rintro rfl
    exact hx0 hx
  · intro c hc
    have hlt : sb.bmapstart < datastart sb := bmapstart_lt_datastart
    refine hother c (by omega) ?_ ?_
    · have : sb.bmapstart ≤ BBLOCK b sb := bmapstart_le_bblock b
      omega
    · intro heq
      by_contra h0
      have := hlarge (i, NDIRECT) (heq ▸ h0)
      omega

end Evolves

end Xv6Own
