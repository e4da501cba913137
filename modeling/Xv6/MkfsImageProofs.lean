import Xv6.MkfsCodeProofs

/-!
# The blocks of an image under construction

While `mkfs` runs, the blocks below `freeblock` are those in use: the slots of all inodes are a ledger
whose marks are the numbers below `freeblock` (`Image`), and a block from `freeblock` on is still zero.
`Holds` says that the blocks of an inode hold a list of bytes, with a block for each index up to the last
byte and none behind. `iappend` appends to the list of its inode and leaves those of all others.
-/

namespace Xv6Mkfs

open ByteBuf Xv6Disk Xv6Fs Xv6Layout Xv6Own Ledger Function List Option Prod UInt32

theorem layout : Layout sb := by constructor <;> decide

theorem datastart_sb : datastart sb = nmeta := by decide

/-- The blocks of an image on the way, with the inode table `D`. -/
structure Image (img : Nat → Block) (D : Nat → Dinode) (fb : Nat) : Prop where
  ledger : Balanced (slots img D) (fun b => decide (b < fb)) ∅ nmeta FSSIZE
  low : nmeta ≤ fb
  high : fb ≤ FSSIZE
  fresh : ∀ b, fb ≤ b → img b = zeros

/-- Blocks are taken for slots of inode `i` that are in `K`; no content changes. -/
structure Grown (i : Nat) (K : List Nat) (img : Nat → Block) (D : Nat → Dinode) (fb : Nat)
    (img' : Nat → Block) (D' : Nat → Dinode) (fb' : Nat) : Prop where
  image : Image img' D' fb'
  table : ∃ a, D' = update D i { D i with addrs := a }
  slot : ∀ x, (x.1 = i ∧ x.2 ∈ K ∧ slots img D x = 0) ∨ slots img' D' x = slots img D x
  bytes : ∀ j, bytesOf img' D' j = bytesOf img D j
  below : ∀ b, b < nmeta → img' b = img b
  le : fb ≤ fb'

section Grow

variable {img img' img'' : Nat → Block} {D D' D'' : Nat → Dinode} {fb fb' fb'' i j k : Nat} {K : List Nat}

theorem Image.used_lt (h : Image img D fb) {x : Nat × Nat} (hx : slots img D x ≠ 0) : slots img D x < fb := by
  have := h.ledger.marked hx
  simpa using this

theorem Grown.refl (h : Image img D fb) : Grown i K img D fb img D fb where
  image := h
  table := ⟨(D i).addrs, (update_eq_self _ _).symm⟩
  slot := fun _ => .inr rfl
  bytes := fun _ => rfl
  below := fun _ _ => rfl
  le := le_refl _

theorem Grown.trans (h1 : Grown i K img D fb img' D' fb') (h2 : Grown i K img' D' fb' img'' D'' fb'') :
    Grown i K img D fb img'' D'' fb'' where
  image := h2.image
  table := by
    obtain ⟨a, ha⟩ := h1.table
    obtain ⟨a', ha'⟩ := h2.table
    refine ⟨a', ?_⟩
    rw [ha', ha, update_idem, update_self]
  slot := by
    intro x
    rcases h1.slot x with hx | hx
    · exact .inl hx
    · rcases h2.slot x with ⟨hi, hk, h0⟩ | hx'
      · exact .inl ⟨hi, hk, hx ▸ h0⟩
      · exact .inr (hx'.trans hx)
  bytes := fun j => (h2.bytes j).trans (h1.bytes j)
  below := fun b hb => (h2.below b hb).trans (h1.below b hb)
  le := le_trans h1.le h2.le

theorem Grown.type_eq (h : Grown i K img D fb img' D' fb') : (D' i).type = (D i).type := by
  obtain ⟨a, ha⟩ := h.table
  rw [ha, update_self]

/-- A mapped block stays where it is. -/
theorem Grown.keep (h : Grown i K img D fb img' D' fb') {x : Nat × Nat} (hx : slots img D x ≠ 0) :
    slots img' D' x = slots img D x :=
  (h.slot x).resolve_left fun hc => hx hc.2.2

/-- **The next block goes into an empty slot** of inode `i`. -/
theorem grown_place (h : Image img D fb) (hfb : fb < FSSIZE) (hk : k ∈ K) (hx : slots img D (i, k) = 0)
    (htable : ∃ a, D' = update D i { D i with addrs := a })
    (hA : slots img' D' = update (slots img D) (i, k) fb) (hzero : img' fb = zeros)
    (hother : ∀ c, c ≠ fb → (c = slots img D (i, NDIRECT) → c = 0) → img' c = img c) :
    Grown i K img D fb img' D' (fb + 1) := by
  have hfree : decide (fb < fb) = false := by simp
  obtain ⟨hlo, -, hslot⟩ := h.ledger.unmarked hfb hfree
  -- a mapped block other than the indirect block of `i` keeps its content
  have hsame : ∀ x, slots img D x ≠ 0 → x ≠ (i, NDIRECT) → img' (slots img D x) = img (slots img D x) := by
    intro x hx0 hne
    exact hother _ (hslot x) fun heq => absurd (h.ledger.once x _ hx0 heq) hne
  refine ⟨⟨?_, Nat.le_succ_of_le h.low, hfb, fun b hb => ?_⟩, htable, fun x => ?_, fun j => ?_, fun b hb => ?_,
    Nat.le_succ fb⟩
  · have h1 : Balanced (slots img D) (fun b => decide (b < fb + 1)) (insert fb ∅) nmeta FSSIZE := by
      refine h.ledger.alloc hfb hfree fun c _ => ?_
      split_ifs with hc
      · rw [hc]
        simp
      · exact decide_eq_decide.mpr ⟨fun h => by omega, fun h => by omega⟩
    have hnone : (insert fb ∅ : Set Nat) \ {fb} = ∅ := by ext c; simp
    exact hnone ▸ h1.place (.inl rfl) hx hA
  · refine (hother b (by omega) fun heq => ?_).trans (h.fresh b (by omega))
    by_contra h0
    have := h.used_lt (x := (i, NDIRECT)) (heq ▸ h0)
    omega
  · by_cases hxk : x = (i, k)
    · exact .inl ⟨by rw [hxk], by rw [hxk]; exact hk, by rw [hxk]; exact hx⟩
    · exact .inr (by rw [hA, update_of_ne hxk])
  · refine bytesOf_congr fun bn => ?_
    by_cases hjk : (j, bnSlot bn) = (i, k)
    · refine .inr ⟨hjk ▸ hx, ?_⟩
      rw [hA, hjk, update_self]
      exact hzero
    · refine .inl ⟨by rw [hA, update_of_ne hjk], ?_⟩
      exact fun h0 => hsame _ h0 fun heq => bnSlot_ne bn (mk.inj heq).2
  · refine hother b (by have := h.low; omega) fun heq => ?_
    by_contra h0
    have := (h.ledger.cell (i, NDIRECT) (heq ▸ h0)).1
    omega

/-- `freeblock` fits a word. -/
theorem toNat_freeblock (hfb : fb < FSSIZE) : (ofNat fb).toNat = fb := by
  rw [toNat_ofNat']
  unfold FSSIZE at hfb
  omega

/-- A direct block, or the indirect block, is taken. -/
theorem grown_takeBlock {st : St} (h : Image st.img D st.freeblock) (hi : (D i).type ≠ 0) (hk : k ∈ K)
    (hle : k ≤ NDIRECT) (hfb : addr (D i) k = 0 → st.freeblock < FSSIZE) :
    Grown i K st.img D st.freeblock (takeBlock st (D i) k).1.img
        (update D i (takeBlock st (D i) k).2) (takeBlock st (D i) k).1.freeblock ∧
      addr (takeBlock st (D i) k).2 k ≠ 0 := by
  rw [takeBlock]
  split_ifs with h0
  · have hlt := hfb h0
    have hto := toNat_freeblock hlt
    have hzero := h.fresh _ (le_refl _)
    have hs : slotAddr st.img (setAddr (D i) k (ofNat st.freeblock))
        = update (slotAddr st.img (D i)) k st.freeblock := by
      rcases lt_or_eq_of_le hle with hk' | rfl
      · rw [slotAddr_setAddr hk', hto]
      · rw [slotAddr_setIndirect h0 (by rw [hto]; exact hzero), hto]
    refine ⟨grown_place h hlt hk ?_ ⟨_, rfl⟩ ?_ hzero fun _ _ _ => rfl, ?_⟩
    · rw [slots_direct hi (by omega), h0]
      rfl
    · have hi' : (setAddr (D i) k (ofNat st.freeblock)).type ≠ 0 := hi
      exact slots_update hi hi' hs fun _ _ _ => rfl
    · rw [addr_setAddr (by omega) (by omega), if_pos rfl]
      intro hc
      rw [hc] at hto
      have := h.low
      have : (0 : UInt32).toNat = 0 := rfl
      have hpos : 0 < nmeta := by decide
      omega
  · rw [update_eq_self]
    exact ⟨Grown.refl h, h0⟩

/-- An entry of the indirect block is taken. -/
theorem grown_entry (h : Image img D fb) (hi : (D i).type ≠ 0) (hj : j < NINDIRECT)
    (hk : NDIRECT + 1 + j ∈ K) (hn : addr (D i) NDIRECT ≠ 0) (hfb : fb < FSSIZE)
    (h0 : getAddr (img (addr (D i) NDIRECT).toNat) j = 0) : Grown i K img D fb (update img (addr (D i) NDIRECT).toNat
      (putAddr (img (addr (D i) NDIRECT).toNat) j (ofNat fb))) D (fb + 1) := by
  have hto := toNat_freeblock hfb
  have hind : slots img D (i, NDIRECT) = (addr (D i) NDIRECT).toNat := by
    rw [slots_direct hi (by omega)]
  have hne : slots img D (i, NDIRECT) ≠ 0 := by
    rw [hind]
    exact fun hc => hn (toNat.inj hc)
  have hlt := h.used_lt hne
  rw [hind] at hlt hne
  have hs := slotAddr_putAddr (v := img) (a := ofNat fb) hj hn
  rw [hto] at hs
  refine grown_place h hfb hk ?_ ⟨(D i).addrs, (update_eq_self _ _).symm⟩ ?_ ?_ fun c _ hc => ?_
  · rw [slots_of_type hi, slotAddr_entry hj hn, h0]
    rfl
  · have := slots_update (v := img) hi hi hs fun j' hj' hz => by
      rw [update_of_ne]
      intro heq
      rw [← hind] at heq
      exact hj' (mk.inj (h.ledger.once _ _ hz heq)).1
    rw [update_eq_self] at this
    exact this
  · rw [update_of_ne (by omega)]
    exact h.fresh fb (le_refl _)
  · rw [update_of_ne]
    intro heq
    exact hne (heq ▸ hc (heq.trans hind.symm))

/-- The slots that `blockFor` may fill. -/
def newSlots (fbn : Nat) : List Nat := if fbn < NDIRECT then [bnSlot fbn] else [NDIRECT, bnSlot fbn]

theorem bnSlot_direct {fbn : Nat} (h : fbn < NDIRECT) : bnSlot fbn = fbn := if_pos h

theorem bnSlot_indirect {fbn : Nat} (h : ¬ fbn < NDIRECT) : bnSlot fbn = NDIRECT + 1 + (fbn - NDIRECT) := by
  rw [bnSlot, if_neg h]
  omega

/-- **`blockFor`** finds the block or takes one, if the block it answers is on the disk. -/
theorem blockFor_grown {st st' : St} {din' : Dinode} {fbn x : Nat} (h : Image st.img D st.freeblock)
    (hi : (D i).type ≠ 0) (hfbn : fbn < MAXFILE) (hr : blockFor st (D i) fbn = some (st', din', x))
    (hx : x < FSSIZE) : Grown i (newSlots fbn) st.img D st.freeblock st'.img (update D i din') st'.freeblock ∧
      st'.freeinode = st.freeinode ∧ slots st'.img (update D i din') (i, bnSlot fbn) = x ∧ x ≠ 0 ∧
      (NDIRECT ≤ fbn → slots st'.img (update D i din') (i, NDIRECT) ≠ 0) := by
  -- `freeblock` is on the disk if it is what `takeBlock` answers
  have hnew : ∀ k, k ≤ NDIRECT → (addr (takeBlock st (D i) k).2 k).toNat < FSSIZE → addr (D i) k = 0 →
      st.freeblock < FSSIZE := by
    intro k hk hlt h0
    rw [takeBlock, if_pos h0, addr_setAddr (by omega) (by omega), if_pos rfl, toNat_ofNat'] at hlt
    have hhigh := h.high
    unfold FSSIZE at hlt hhigh ⊢
    omega
  have htype : ∀ k, (takeBlock st (D i) k).2.type ≠ 0 := by
    intro k
    rw [takeBlock]
    split <;> exact hi
  have hinode : ∀ k, (takeBlock st (D i) k).1.freeinode = st.freeinode := by
    intro k
    rw [takeBlock]
    split <;> rfl
  unfold blockFor at hr
  split_ifs at hr with hd
  · obtain ⟨rfl, h2⟩ := mk.inj (some.inj hr)
    obtain ⟨rfl, rfl⟩ := mk.inj h2
    obtain ⟨hg, hne⟩ := grown_takeBlock (K := newSlots fbn) h hi
      (by rw [newSlots, if_pos hd, bnSlot_direct hd]; exact mem_singleton_self _) (le_of_lt hd)
      (hnew fbn (le_of_lt hd) hx)
    have hslot : slots (takeBlock st (D i) fbn).1.img (update D i (takeBlock st (D i) fbn).2)
        (i, bnSlot fbn) = (addr (takeBlock st (D i) fbn).2 fbn).toNat := by
      rw [bnSlot_direct hd, slots, update_self, if_neg (htype fbn), slotAddr_direct (by omega)]
    exact ⟨hg, hinode fbn, hslot, fun hc => hne (toNat.inj hc), fun hge => absurd hd (by omega)⟩
  · obtain ⟨indirect, hread, hr⟩ := map_eq_some_iff.mp hr
    rw [rsect] at hread
    split_ifs at hread with hlt
    cases hread
    obtain ⟨hg, hne⟩ := grown_takeBlock (K := newSlots fbn) h hi
      (by rw [newSlots, if_neg hd]; exact mem_cons_self) (le_refl _)
      (hnew NDIRECT (le_refl _) hlt)
    have hin := hinode NDIRECT
    have hty := htype NDIRECT
    generalize takeBlock st (D i) NDIRECT = r at hg hne hin hty hr hlt
    -- the inode as it is with its indirect block
    have hself : update D i r.2 i = r.2 := update_self _ _ _
    have hi1 : (update D i r.2 i).type ≠ 0 := by rw [hself]; exact hty
    have hind : slots r.1.img (update D i r.2) (i, NDIRECT) = (addr r.2 NDIRECT).toNat := by
      rw [slots_of_type hi1, hself, slotAddr_direct (by omega)]
    have hind0 : slots r.1.img (update D i r.2) (i, NDIRECT) ≠ 0 := by
      rw [hind]
      exact fun hc => hne (toNat.inj hc)
    have hj : fbn - NDIRECT < NINDIRECT := by
      unfold MAXFILE at hfbn
      omega
    split_ifs at hr with h0
    · obtain ⟨rfl, h2⟩ := mk.inj hr
      obtain ⟨rfl, rfl⟩ := mk.inj h2
      have hfb : r.1.freeblock < FSSIZE := by
        have hhigh := hg.image.high
        rw [toNat_ofNat'] at hx
        unfold FSSIZE at hx hhigh ⊢
        omega
      have hg2 := grown_entry (K := newSlots fbn) (j := fbn - NDIRECT) hg.image hi1 hj
        (by rw [newSlots, if_neg hd, bnSlot_indirect hd]; exact mem_cons_of_mem _ (mem_singleton_self _))
        (by rw [hself]; exact hne) hfb (by rw [hself]; exact h0)
      rw [hself] at hg2
      have hto := toNat_freeblock hfb
      have hentry : slots (update r.1.img (addr r.2 NDIRECT).toNat (putAddr
          (r.1.img (addr r.2 NDIRECT).toNat) (fbn - NDIRECT) (ofNat r.1.freeblock)))
          (update D i r.2) (i, bnSlot fbn) = (ofNat r.1.freeblock).toNat := by
        rw [slots_of_type hi1, hself, bnSlot_indirect hd, slotAddr_putAddr hj hne, update_self]
      refine ⟨hg.trans hg2, hin, hentry, ?_, fun _ => ?_⟩
      · have hlow := hg.image.low
        have hpos : 0 < nmeta := by decide
        omega
      · show slots (update _ _ _) _ _ ≠ 0
        exact hind0
    · obtain ⟨rfl, h2⟩ := mk.inj hr
      obtain ⟨rfl, rfl⟩ := mk.inj h2
      refine ⟨hg, hin, ?_, fun hc => h0 (toNat.inj hc), fun _ => hind0⟩
      rw [slots_of_type hi1, hself, bnSlot_indirect hd, slotAddr_entry hj hne]

end Grow

/-! ## Content -/

/-- The blocks of inode `i` hold the bytes `c`. -/
structure Holds (img : Nat → Block) (D : Nat → Dinode) (i : Nat) (c : List UInt8) : Prop where
  max : c.length ≤ MAXFILE * BSIZE
  bytes : ∀ p, bytesOf img D i p = c.getD p 0
  mapped : ∀ bn, slots img D (i, bnSlot bn) ≠ 0 ↔ bn * BSIZE < c.length
  indirect : slots img D (i, NDIRECT) ≠ 0 ↔ NDIRECT * BSIZE < c.length

/-- The blocks and the content of inode `j` are the same. -/
structure Same (j : Nat) (img : Nat → Block) (D : Nat → Dinode) (img' : Nat → Block) (D' : Nat → Dinode) :
    Prop where
  slot : ∀ k, slots img' D' (j, k) = slots img D (j, k)
  bytes : bytesOf img' D' j = bytesOf img D j

/-- The state of the blocks after bytes have been appended to inode `i`, which holds `c` now. -/
structure Appended (i : Nat) (img : Nat → Block) (D : Nat → Dinode) (fb : Nat) (img' : Nat → Block)
    (D' : Nat → Dinode) (fb' : Nat) (c : List UInt8) : Prop where
  image : Image img' D' fb'
  table : ∃ a, D' = update D i { D i with addrs := a }
  holds : Holds img' D' i c
  same : ∀ j, j ≠ i → Same j img D img' D'
  below : ∀ b, b < nmeta → img' b = img b
  le : fb ≤ fb'

section Append

variable {img img' img'' : Nat → Block} {D D' D'' : Nat → Dinode} {fb fb' fb'' i j x : Nat} {c p : List UInt8}

theorem Same.trans (h1 : Same j img D img' D') (h2 : Same j img' D' img'' D'') : Same j img D img'' D'' :=
  ⟨fun k => (h2.slot k).trans (h1.slot k), h2.bytes.trans h1.bytes⟩

theorem Same.holds (h : Same j img D img' D') (hh : Holds img D j c) : Holds img' D' j c where
  max := hh.max
  bytes := fun q => by rw [h.bytes]; exact hh.bytes q
  mapped := fun bn => by rw [h.slot]; exact hh.mapped bn
  indirect := by rw [h.slot]; exact hh.indirect

theorem Appended.trans (h1 : Appended i img D fb img' D' fb' c)
    (h2 : Appended i img' D' fb' img'' D'' fb'' p) : Appended i img D fb img'' D'' fb'' p where
  image := h2.image
  table := by
    obtain ⟨a, ha⟩ := h1.table
    obtain ⟨a', ha'⟩ := h2.table
    refine ⟨a', ?_⟩
    rw [ha', ha, update_idem, update_self]
  holds := h2.holds
  same := fun j hj => (h1.same j hj).trans (h2.same j hj)
  below := fun b hb => (h2.below b hb).trans (h1.below b hb)
  le := le_trans h1.le h2.le

/-- The bytes after a round, in the block of the round. -/
theorem getD_round {q m : Nat} (hm : m ≤ p.length) :
    (c ++ p.take m).getD q 0 = if c.length ≤ q ∧ q < c.length + m then p.getD (q - c.length) 0 else c.getD q 0 := by
  simp only [getD_eq_getElem?_getD]
  by_cases hq : c.length ≤ q
  · rw [getElem?_append_right hq]
    by_cases hlt : q < c.length + m
    · rw [if_pos ⟨hq, hlt⟩, getElem?_take_of_lt (by omega)]
    · rw [if_neg (fun h => hlt h.2), getElem?_eq_none (by rw [length_take]; omega), getElem?_eq_none (by omega)]
  · rw [if_neg (fun h => hq h.1), getElem?_append_left (by omega)]

/-- **One round of `iappend`**: the block is there, and the bytes are copied into it. -/
theorem appended_round {m fbn : Nat} (hh : Holds img D i c) (hfbn : c.length / BSIZE = fbn)
    (hlt : fbn < MAXFILE) (hg : Grown i (newSlots fbn) img D fb img' D' fb')
    (hslot : slots img' D' (i, bnSlot fbn) = x) (hx : x ≠ 0)
    (hind : NDIRECT ≤ fbn → slots img' D' (i, NDIRECT) ≠ 0) (hpos : 0 < m) (hm : m ≤ p.length)
    (hend : c.length + m ≤ (fbn + 1) * BSIZE) :
    Appended i img D fb (update img' x (blit (img' x) (c.length - fbn * BSIZE) m fun j => p.getD j 0))
      D' fb' (c ++ p.take m) := by
  have honce := hg.image.ledger.once
  have h0 : slots img' D' (i, bnSlot fbn) ≠ 0 := hslot ▸ hx
  generalize hblk : blit (img' x) (c.length - fbn * BSIZE) m (fun j => p.getD j 0) = blk
  have hslots : slots (update img' x blk) D' = slots img' D' := hslot ▸ slots_write honce blk
  have hused := hg.image.used_lt h0
  have hdata := (hg.image.ledger.cell _ h0).1
  have hlen : (c ++ p.take m).length = c.length + m := by
    rw [length_append, length_take, min_eq_left hm]
  refine ⟨⟨hslots ▸ hg.image.ledger, hg.image.low, hg.image.high, fun b hb => ?_⟩, hg.table,
    ⟨?_, fun q => ?_, fun bn => ?_, ?_⟩, fun j hj => ⟨fun k => ?_, ?_⟩, fun b hb => ?_, hg.le⟩
  · rw [update_of_ne (by omega)]
    exact hg.image.fresh b hb
  · rw [hlen]
    exact le_trans hend (Nat.mul_le_mul_right BSIZE hlt)
  · have hw := congrFun (bytesOf_write (i := i) honce h0 blk) q
    rw [hslot] at hw
    rw [hw, getD_round hm]
    have hold : bytesOf img' D' i q = c.getD q 0 := by rw [hg.bytes]; exact hh.bytes q
    split
    · next hq =>
      rw [← hblk]
      by_cases hin : c.length ≤ q ∧ q < c.length + m
      · rw [if_pos hin, byteAt_blit_in]
        · congr 1
          unfold BSIZE at hq hfbn ⊢
          omega
        all_goals
          unfold BSIZE at hq hfbn hend ⊢
          omega
      · rw [if_neg hin, byteAt_blit_out _ _ (by unfold BSIZE at hq hfbn hend ⊢; omega), ← hold, bytesOf, hq,
          if_neg h0, hslot]
    · next hq =>
      rw [if_neg (by unfold BSIZE at hq hfbn hend; omega)]
      exact hold
  · rw [hslots, hlen]
    by_cases hbn : bn = fbn
    · rw [hbn]
      constructor
      · intro _; unfold BSIZE at hfbn ⊢; omega
      · exact fun _ => h0
    · have hold : slots img' D' (i, bnSlot bn) = slots img D (i, bnSlot bn) := by
        refine (hg.slot (i, bnSlot bn)).resolve_left fun hc => ?_
        have hmem : bnSlot bn ∈ newSlots fbn := hc.2.1
        unfold newSlots at hmem
        split at hmem
        · exact hbn (bnSlot_inj (mem_singleton.mp hmem))
        · rcases mem_cons.mp hmem with hmem | hmem
          · exact bnSlot_ne bn hmem
          · exact hbn (bnSlot_inj (mem_singleton.mp hmem))
      rw [hold, hh.mapped]
      unfold BSIZE at hend hfbn ⊢
      omega
  · rw [hslots, hlen]
    by_cases hge : NDIRECT ≤ fbn
    · have hle : fbn * BSIZE ≤ c.length := hfbn ▸ Nat.div_mul_le_self _ _
      have hstart := (Nat.mul_le_mul_right BSIZE hge).trans hle
      exact ⟨fun _ => lt_of_le_of_lt hstart (Nat.lt_add_of_pos_right hpos), fun _ => hind hge⟩
    · have hold : slots img' D' (i, NDIRECT) = slots img D (i, NDIRECT) := by
        refine (hg.slot (i, NDIRECT)).resolve_left fun hc => ?_
        have hmem : NDIRECT ∈ newSlots fbn := hc.2.1
        rw [newSlots, if_pos (by omega)] at hmem
        exact bnSlot_ne fbn (mem_singleton.mp hmem).symm
      have hle : (fbn + 1) * BSIZE ≤ NDIRECT * BSIZE := Nat.mul_le_mul_right _ (by omega)
      rw [hold, hh.indirect]
      generalize NDIRECT * BSIZE = direct at hle ⊢
      omega
  · rw [hslots]
    exact (hg.slot (j, k)).resolve_left fun hc => hj hc.1
  · have hw := bytesOf_write_ne fbn honce hj blk
    rw [hslot] at hw
    rw [hw]
    exact hg.bytes j
  · rw [update_of_ne (by omega)]
    exact hg.below b hb

/-- **The loop of `iappend`** appends `p`. -/
theorem iappendLoop_appended (fuel : Nat) {st st' : St} {D : Nat → Dinode} {c p : List UInt8} {din' : Dinode}
    {off' : Nat} (h : Image st.img D st.freeblock) (hi : (D i).type ≠ 0) (hh : Holds st.img D i c)
    (hp : p.length ≤ fuel) (hr : iappendLoop fuel st (D i) c.length p = some (st', din', off')) :
    Appended i st.img D st.freeblock st'.img (update D i din') st'.freeblock (c ++ p) ∧
      off' = (c ++ p).length ∧ st'.freeinode = st.freeinode := by
  induction fuel generalizing st st' D c p din' off' with
  | zero =>
    obtain rfl : p = [] := length_eq_zero_iff.mp (Nat.le_zero.mp hp)
    obtain ⟨rfl, h2⟩ := mk.inj (some.inj hr)
    obtain ⟨rfl, rfl⟩ := mk.inj h2
    rw [update_eq_self, append_nil]
    exact ⟨⟨h, ⟨_, (update_eq_self _ _).symm⟩, hh, fun _ _ => ⟨fun _ => rfl, rfl⟩, fun _ _ => rfl, le_refl _⟩, rfl, rfl⟩
  | succ fuel ih =>
    rw [iappendLoop] at hr
    split at hr
    · next hnil =>
      obtain ⟨rfl, h2⟩ := mk.inj (some.inj hr)
      obtain ⟨rfl, rfl⟩ := mk.inj h2
      rw [update_eq_self, hnil, append_nil]
      exact ⟨⟨h, ⟨_, (update_eq_self _ _).symm⟩, hh, fun _ _ => ⟨fun _ => rfl, rfl⟩, fun _ _ => rfl,
        le_refl _⟩, rfl, rfl⟩
    · next hnil =>
      split_ifs at hr with hmax
      obtain ⟨⟨st1, din1, x⟩, hb, hr⟩ := bind_eq_some_iff.mp hr
      obtain ⟨buf, hread, hr⟩ := bind_eq_some_iff.mp hr
      rw [rsect] at hread
      split_ifs at hread with hx
      cases hread
      obtain ⟨hg, hin, hslot, hx0, hind⟩ := blockFor_grown h hi hmax hb hx
      have hplen := length_pos_iff.mpr hnil
      generalize hm : min p.length ((c.length / BSIZE + 1) * BSIZE - c.length) = m at hr
      have hmp : m ≤ p.length := by omega
      have hpos : 0 < m := by unfold BSIZE at hm; omega
      have hend : c.length + m ≤ (c.length / BSIZE + 1) * BSIZE := by unfold BSIZE at hm ⊢; omega
      have ha := appended_round hh rfl hmax hg hslot hx0 hind hpos hmp hend
      have hlen : c.length + m = (c ++ p.take m).length := by
        rw [length_append, length_take, min_eq_left hmp]
      -- the rounds to come
      have hself : update D i din1 i = din1 := update_self _ _ _
      rw [hlen, ← hself] at hr
      obtain ⟨ha2, hoff, hin2⟩ := ih (D := update D i din1) ha.image
        (by rw [hg.type_eq]; exact hi) ha.holds (by rw [length_drop]; omega) hr
      have hall : c ++ p.take m ++ p.drop m = c ++ p := by rw [append_assoc, take_append_drop]
      rw [hall, update_idem] at ha2
      rw [hall] at hoff
      refine ⟨?_, hoff, hin2.trans hin⟩
      exact ha.trans ha2

end Append

end Xv6Mkfs
