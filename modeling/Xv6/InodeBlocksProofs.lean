import Xv6.BlockOwnerProofs

/-!
# `bmap` — blocks move into an inode

`bmap` finds the block of a file's content, and takes one from the free map if there is none.
The theorem about it (`bmap_does`) gives the new disk as an `Evolves` step, and the blocks
taken and logged exactly: which blocks the file grows by is known from the list of
free blocks beforehand. A block that is mapped already is found without a change of
anything (`bmap_mapped_does`).
-/

namespace Xv6Own

open CmdProg ByteBuf Xv6Disk Xv6Kernel Xv6Fs Xv6Layout Ledger Function List UInt32

/-- A state with another disk, log and copy of one inode. -/
def edit (s : LState) (ip : Fin NINODE) (v : Nat → Block) (lh : List Nat) (d : Dinode) : LState :=
  { s with
    view := v
    lh := lh
    mem := { s.mem with
      icache := update s.mem.icache ip { s.mem.icache ip with din := d } } }

section Edit

variable (s : LState) (ip : Fin NINODE) (v v' : Nat → Block) (lh lh' : List Nat) (d d' : Dinode)

@[simp] theorem edit_view : (edit s ip v lh d).view = v := rfl
@[simp] theorem edit_lh : (edit s ip v lh d).lh = lh := rfl
@[simp] theorem edit_sb : (edit s ip v lh d).mem.sb = s.mem.sb := rfl

@[simp] theorem edit_inode : (edit s ip v lh d).mem.icache ip = { s.mem.icache ip with din := d } :=
  update_self _ _ _

theorem edit_other {k : Fin NINODE} (hk : k ≠ ip) : (edit s ip v lh d).mem.icache k = s.mem.icache k :=
  update_of_ne hk _ _

@[simp] theorem edit_edit : edit (edit s ip v lh d) ip v' lh' d' = edit s ip v' lh' d' := by
  simp only [edit, update_self, update_idem]

theorem setInode_edit : setInode (edit s ip v lh d) ip { (edit s ip v lh d).mem.icache ip with din := d' }
      = edit s ip v lh d' := by
  simp only [setInode, edit, update_self, update_idem]

@[simp] theorem edit_self : edit s ip s.view s.lh (s.mem.icache ip).din = s := by
  simp only [edit, update_eq_self]

end Edit

/-! ## Taking a block -/

/-- How many blocks `bmap` takes for block `bn` of inode `i`. -/
def newBlocks (v : Nat → Block) (D : Nat → Dinode) (i bn : Nat) : Nat :=
  if slots v D (i, bnSlot bn) ≠ 0 then 0
  else if NDIRECT ≤ bn ∧ slots v D (i, NDIRECT) = 0 then 2
  else 1

section Take

variable {sb : Superblock} {v : Nat → Block} {D : Nat → Dinode} {i k b bn : Nat} {l : List Nat}

theorem slots_bn (hi : (D i).type ≠ 0) (hbn : bn < NDIRECT) : slots v D (i, bnSlot bn) = (addr (D i) bn).toNat := by
  rw [bnSlot, if_pos hbn, slots_direct hi (by omega)]

theorem newBlocks_direct (hi : (D i).type ≠ 0) (hbn : bn < NDIRECT) (h0 : addr (D i) bn = 0) :
    newBlocks v D i bn = 1 := by
  rw [newBlocks, if_neg (fun h => h (by rw [slots_bn hi hbn, h0]; rfl)), if_neg (fun h => absurd h.1 (by omega))]

theorem free_head (hb : freeBlocks sb v = b :: l) : b < sb.size ∧ used sb v b = false :=
  mem_freeBlocks.mp (by rw [hb]; exact mem_cons_self)

theorem free_size (hl : Layout sb) (hb : freeBlocks sb v = b :: l) :
    b < sb.size ∧ used sb v b = false ∧ (ofNat b).toNat = b := by
  obtain ⟨hsize, hfree⟩ := free_head hb
  refine ⟨hsize, hfree, ?_⟩
  have hdisk : sb.size ≤ 10000 := hl.disk
  exact Nat.mod_eq_of_lt (by omega)

theorem free_data (h : Own sb v D ∅) (hb : freeBlocks sb v = b :: l) : datastart sb ≤ b := by
  obtain ⟨hsize, hfree⟩ := free_head hb
  exact (h.unmarked hsize hfree).1

/-- The indirect blocks are where they were after a block has been taken. -/
theorem indirect_kept (h : Own sb v D ∅) (hb : freeBlocks sb v = b :: l) {x : Nat × Nat}
    (hx : slots v D x ≠ 0) : allocView sb v b (slots v D x) = v (slots v D x) := by
  obtain ⟨hsize, hfree⟩ := free_head hb
  refine allocView_other ((h.unmarked hsize hfree).2.2 x) ?_
  exact fun heq => bblock_ne_data hsize (h.cell x hx).1 heq.symm

section

variable (hl : Layout sb) (h : Own sb v D ∅) (hb : freeBlocks sb v = b :: l) (hi : (D i).type ≠ 0)
include hl h hb hi

/-- A block is taken for an address in the inode itself. -/
theorem place_address
    (hk : k < NDIRECT + 1) (h0 : addr (D i) k = 0) :
    slots (allocView sb v b) (update D i (setAddr (D i) k (ofNat b))) = update (slots v D) (i, k) b ∧
    Evolves sb v D (allocView sb v b) (update D i (setAddr (D i) k (ofNat b))) i
      (bytesOf v D i) := by
  obtain ⟨hsize, hfree, hnat⟩ := free_size hl hb
  have hdata := free_data h hb
  have hslot0 : slots v D (i, k) = 0 := by rw [slots_of_type hi, slotAddr_direct hk, h0]; rfl
  have hind : addr (D i) NDIRECT ≠ 0 → allocView sb v b (addr (D i) NDIRECT).toNat = v (addr (D i) NDIRECT).toNat := by
    intro hn
    have hs : slots v D (i, NDIRECT) = (addr (D i) NDIRECT).toNat := by
      rw [slots_direct hi (by omega)]
    have := indirect_kept h hb (x := (i, NDIRECT)) (by
      rw [hs]; exact fun h => hn (toNat.inj h))
    rw [hs] at this
    exact this
  have hold : slotAddr (allocView sb v b) (D i) = slotAddr v (D i) := slotAddr_congr rfl hind
  have hnew : slotAddr (allocView sb v b) (setAddr (D i) k (ofNat b)) = update (slotAddr v (D i)) k b := by
    by_cases hkn : k = NDIRECT
    · subst hkn
      rw [slotAddr_setIndirect h0 (by rw [hnat]; exact allocView_self), hold, hnat]
    · rw [slotAddr_setAddr (by omega), hold, hnat]
  have hA : slots (allocView sb v b) (update D i (setAddr (D i) k (ofNat b))) = update (slots v D) (i, k) b :=
    slots_update (d := setAddr (D i) k (ofNat b)) hi hi hnew fun j _ hj =>
      indirect_kept h hb hj
  refine ⟨hA, evolves_place h hb hslot0 ⟨_, rfl⟩ hA allocView_self ?_ ?_⟩
  · exact fun c h1 h2 _ => allocView_other h1 h2
  · exact fun c hc => used_allocView hdata hc

/-- A block is taken for an entry of the indirect block. -/
theorem place_entry
    {j : Nat} (hj : j < NINDIRECT) {ib : UInt32} (hib : addr (D i) NDIRECT = ib)
    (hne : ib ≠ 0) (h0 : getAddr (v ib.toNat) j = 0) : slots (update (allocView sb v b) ib.toNat
        (putAddr (v ib.toNat) j (ofNat b))) D = update (slots v D) (i, NDIRECT + 1 + j) b ∧
    Evolves sb v D (update (allocView sb v b) ib.toNat
        (putAddr (v ib.toNat) j (ofNat b))) D i (bytesOf v D i) := by
  obtain ⟨hsize, hfree, hnat⟩ := free_size hl hb
  have hdata := free_data h hb
  have hs : slots v D (i, NDIRECT) = ib.toNat := by
    rw [slots_direct hi (by omega), hib]
  have hs0 : slots v D (i, NDIRECT) ≠ 0 := by
    rw [hs]; exact fun h => hne (toNat.inj h)
  have hib_data : datastart sb ≤ ib.toNat := hs ▸ (h.cell _ hs0).1
  have hib_b : ib.toNat ≠ b := hs ▸ (h.unmarked hsize hfree).2.2 (i, NDIRECT)
  have hkept : allocView sb v b ib.toNat = v ib.toNat := hs ▸ indirect_kept h hb hs0
  have hslot0 : slots v D (i, NDIRECT + 1 + j) = 0 := by
    rw [slots_of_type hi, slotAddr_entry hj (hib ▸ hne), hib, h0]; rfl
  have hnew : slotAddr (update (allocView sb v b) ib.toNat
        (putAddr (v ib.toNat) j (ofNat b))) (D i)
      = update (slotAddr v (D i)) (NDIRECT + 1 + j) b := by
    have h1 := slotAddr_putAddr (v := allocView sb v b) (d := D i) (a := ofNat b) hj
      (hib ▸ hne)
    rw [hib, hkept, hnat] at h1
    rw [h1, slotAddr_congr rfl (fun _ => by rw [hib, hkept])]
  have hA : slots (update (allocView sb v b) ib.toNat
        (putAddr (v ib.toNat) j (ofNat b))) D
      = update (slots v D) (i, NDIRECT + 1 + j) b := by
    have h1 := slots_update hi hi hnew (fun m hm hm0 => by
      rw [update_of_ne, indirect_kept h hb hm0]
      intro heq
      exact hm (Prod.mk.inj (h.once (m, NDIRECT) (i, NDIRECT) hm0 (heq.trans hs.symm))).1)
    rw [update_eq_self] at h1
    exact h1
  refine ⟨hA, evolves_place h hb hslot0 ⟨(D i).addrs, (update_eq_self _ _).symm⟩ hA
    ?_ ?_ ?_⟩
  · rw [update_of_ne hib_b.symm]
    exact allocView_self
  · intro c h1 h2 h3
    rw [update_of_ne, allocView_other h1 h2]
    intro hc
    have hzero := h3 (hc.trans hs.symm)
    exact hs0 (hs.trans (hc.symm.trans hzero))
  · intro c hc
    rw [used_update (bblock_ne_data hc hib_data), used_allocView hdata hc]

end

end Take

/-! ## `bmap` -/

/-- The state after `bmap` of block `bn` of inode `i`, whose in-memory copy is `ip`: `a` is
    mapped, and exactly the blocks needed for it have been taken and logged. -/
structure Mapped (sb : Superblock) (s : LState) (ip : Fin NINODE) (i : Nat) (D D' : Nat → Dinode)
    (bn : Nat) (a : UInt32) (s' : LState) : Prop where
  state : s' = edit s ip s'.view s'.lh (D' i)
  evolves : Evolves sb s.view D s'.view D' i (bytesOf s.view D i)
  here : slots s'.view D' (i, bnSlot bn) = a.toNat
  nonzero : a.toNat ≠ 0
  other : ∀ m, m ≠ bn → slots s'.view D' (i, bnSlot m) = slots s.view D (i, bnSlot m)
  fresh : ∀ x, slots s.view D x = 0 → slots s'.view D' x ≠ 0 →
    slots s'.view D' x ∈ (freeBlocks sb s.view).take (newBlocks s.view D i bn)
  room : newBlocks s.view D i bn ≤ (freeBlocks sb s.view).length
  free : freeBlocks sb s'.view = (freeBlocks sb s.view).drop (newBlocks s.view D i bn)
  logged : ∀ c, c ∈ s'.lh ↔ c ∈ s.lh ∨
    (∃ b ∈ (freeBlocks sb s.view).take (newBlocks s.view D i bn), c = b ∨ c = BBLOCK b sb) ∨
    (slots s.view D (i, bnSlot bn) = 0 ∧ NDIRECT ≤ bn ∧ c = slots s'.view D' (i, NDIRECT))

section Bmap

variable {sb : Superblock} {s : LState} {D : Nat → Dinode} {i bn : Nat} {ip : Fin NINODE}
  {W : Set Nat} {N : Prop}

/-- When one slot changes, a slot that becomes occupied is that one. -/
theorem fresh_of_update {v' : Nat → Block} {D' : Nat → Dinode} {x y : Nat × Nat} {b : Nat}
    (hA : slots v' D' = update (slots s.view D) y b)
    (h1 : slots s.view D x = 0) (h2 : slots v' D' x ≠ 0) : slots v' D' x = b := by
  rw [hA, update_apply] at h2 ⊢
  by_cases hxy : x = y
  · rw [if_pos hxy]
  · rw [if_neg hxy] at h2
    exact absurd h1 h2

/-- The block was there. -/
theorem mapped_refl (h : Own sb s.view D ∅) (hdin : D i = (s.mem.icache ip).din) {a : UInt32}
    (ha : slots s.view D (i, bnSlot bn) = a.toNat) (h0 : a.toNat ≠ 0) : Mapped sb s ip i D D bn a s := by
  have hnew : newBlocks s.view D i bn = 0 := if_pos (ha ▸ h0)
  refine ⟨?_, Evolves.refl h, ha, h0, fun _ _ => rfl, fun x h1 h2 => absurd h1 h2, ?_, ?_, ?_⟩
  · rw [hdin, edit_self]
  · rw [hnew]; exact Nat.zero_le _
  · rw [hnew]; rfl
  · intro c
    rw [hnew, take_zero]
    constructor
    · exact .inl
    · rintro (hc | ⟨b, hb, _⟩ | ⟨hz, _⟩)
      · exact hc
      · cases hb
      · exact absurd (ha.symm.trans hz) h0

/-- What `balloc` logs: the block and the one of the bitmap. -/
theorem mem_absorb_alloc {lh : List Nat} {b c : Nat} :
    c ∈ absorb (absorb lh (BBLOCK b sb)) b ↔ c ∈ lh ∨ c = b ∨ c = BBLOCK b sb := by
  rw [mem_absorb, mem_absorb, or_assoc, or_comm (a := c = b)]

/-- One block is taken, for a slot that was empty. -/
theorem mapped_one (hl : Layout sb) (h : Own sb s.view D ∅) (hz : slots s.view D (i, bnSlot bn) = 0)
    (hthere : ¬ (NDIRECT ≤ bn ∧ slots s.view D (i, NDIRECT) = 0)) {b : Nat} {l : List Nat}
    (hb : freeBlocks sb s.view = b :: l) {s' : LState} {D' : Nat → Dinode}
    (hstate : s' = edit s ip s'.view s'.lh (D' i)) (hA : slots s'.view D' = update (slots s.view D) (i, bnSlot bn) b)
    (hev : Evolves sb s.view D s'.view D' i (bytesOf s.view D i))
    (hfree : freeBlocks sb s'.view = freeBlocks sb (allocView sb s.view b))
    (hlog : ∀ c, c ∈ s'.lh ↔ c ∈ absorb (absorb s.lh (BBLOCK b sb)) b ∨
      NDIRECT ≤ bn ∧ c = slots s'.view D' (i, NDIRECT)) : Mapped sb s ip i D D' bn (ofNat b) s' := by
  obtain ⟨-, -, hnat⟩ := free_size hl hb
  have hdata := free_data h hb
  have hnew : newBlocks s.view D i bn = 1 := by rw [newBlocks, if_neg (fun h => h hz), if_neg hthere]
  refine ⟨hstate, hev, ?_, ?_, fun m hm => ?_, fun x h1 h2 => ?_, ?_, ?_, fun c => ?_⟩
  · rw [hA, update_self, hnat]
  · rw [hnat]
    exact ne_of_gt (lt_of_lt_of_le h.pos hdata)
  · rw [hA, update_of_ne]
    exact fun heq => hm (bnSlot_inj (Prod.mk.inj heq).2)
  · rw [hnew, hb]
    exact mem_cons.mpr (.inl (fresh_of_update hA h1 h2))
  · rw [hnew, hb]; exact Nat.succ_le_succ (Nat.zero_le _)
  · rw [hfree, freeBlocks_allocView hdata hb, hnew, hb]
    rfl
  · rw [hlog, mem_absorb_alloc, hnew, hb, or_assoc]
    simp only [take_succ_cons, take_zero, mem_singleton, exists_eq_left, hz, true_and]

/-- The block is taken for the address in the inode. -/
theorem mapped_direct (hl : Layout sb) (h : Own sb s.view D ∅) (hdin : D i = (s.mem.icache ip).din)
    (hi : (D i).type ≠ 0) (hbn : bn < NDIRECT) (h0 : addr (D i) bn = 0) {b : Nat} {l : List Nat}
    (hb : freeBlocks sb s.view = b :: l) : Mapped sb s ip i D (update D i (setAddr (D i) bn (ofNat b))) bn
      (ofNat b) (setInode (allocState sb s b) ip
        { s.mem.icache ip with din := setAddr (s.mem.icache ip).din bn (ofNat b) }) := by
  obtain ⟨hA, hev⟩ := place_address hl h hb hi (by omega) h0
  have hslot : bnSlot bn = bn := if_pos hbn
  refine mapped_one hl h ?_ (fun h => absurd h.1 (by omega)) hb ?_ (hslot.symm ▸ hA) hev rfl fun c => ?_
  · rw [hslot, slots_direct hi (by omega), h0]; rfl
  · rw [update_self, hdin]
    rfl
  · exact (or_iff_left fun hc => absurd hc.1 (by omega)).symm

theorem bnSlot_entry (j : Nat) : bnSlot (NDIRECT + j) = NDIRECT + 1 + j := by
  rw [bnSlot, if_neg (by omega)]
  omega

/-- The block is taken for an entry of the indirect block. -/
theorem mapped_entry (hl : Layout sb) (h : Own sb s.view D ∅) (hdin : D i = (s.mem.icache ip).din)
    (hi : (D i).type ≠ 0) {j : Nat} (hj : j < NINDIRECT) {ib : UInt32}
    (hib : addr (D i) NDIRECT = ib) (hne : ib ≠ 0) (h0 : getAddr (s.view ib.toNat) j = 0) {b : Nat}
    {l : List Nat} (hb : freeBlocks sb s.view = b :: l) : Mapped sb s ip i D D (NDIRECT + j) (ofNat b)
      (log (put (allocState sb s b) ib.toNat (putAddr (s.view ib.toNat) j (ofNat b)))
        ib.toNat) := by
  obtain ⟨hA, hev⟩ := place_entry hl h hb hi hj hib hne h0
  have hs : slots s.view D (i, NDIRECT) = ib.toNat := by
    rw [slots_direct hi (by omega), hib]
  have hs0 : slots s.view D (i, NDIRECT) ≠ 0 := by
    rw [hs]; exact fun h => hne (toNat.inj h)
  refine mapped_one hl h ?_ (fun h => hs0 h.2) hb ?_ ((bnSlot_entry j).symm ▸ hA) hev ?_ fun c => ?_
  · rw [bnSlot_entry, slots_of_type hi, slotAddr_entry hj (hib ▸ hne), hib, h0]; rfl
  · rw [hdin]
    exact (edit_self _ ip).symm
  · refine filter_congr ?_
    intro c hc
    exact congrArg not (used_update (bblock_ne_data (mem_range.mp hc) (hs ▸ (h.cell _ hs0).1)) _)
  · show c ∈ absorb _ ib.toNat ↔ _ ∨ _ ∧ c = slots (update (allocView sb s.view b) _ _) D _
    rw [mem_absorb, (hev.keep _ hs0).trans hs, and_iff_right (Nat.le_add_right _ _)]
    rfl

/-- The indirect block is taken first, then the block itself. -/
theorem mapped_after_indirect (hl : Layout sb) (h : Own sb s.view D ∅) (hi : (D i).type ≠ 0) (hbn : NDIRECT ≤ bn)
    (h0 : addr (D i) NDIRECT = 0) (hz : slots s.view D (i, bnSlot bn) = 0) {b : Nat} {l : List Nat}
    (hb : freeBlocks sb s.view = b :: l) {s1 s' : LState} {d1 : Dinode}
    {D' : Nat → Dinode} {a : UInt32} (hd1 : d1 = setAddr (D i) NDIRECT (ofNat b))
    (hs1 : s1 = edit s ip (allocView sb s.view b) (absorb (absorb s.lh (BBLOCK b sb)) b) d1)
    (hm : Mapped sb s1 ip i (update D i d1) D' bn a s') : Mapped sb s ip i D D' bn a s' := by
  subst hs1 hd1
  obtain ⟨hA, hev⟩ := place_address hl h hb hi (by omega) h0
  have hdata := free_data h hb
  have hb0 : b ≠ 0 := ne_of_gt (lt_of_lt_of_le h.pos hdata)
  have hn0 : slots s.view D (i, NDIRECT) = 0 := by
    rw [slots_direct hi (by omega), h0]; rfl
  have hsame : ∀ m, slots (allocView sb s.view b)
      (update D i (setAddr (D i) NDIRECT (ofNat b))) (i, bnSlot m)
      = slots s.view D (i, bnSlot m) := by
    intro m
    rw [hA, update_of_ne fun heq => bnSlot_ne m (Prod.mk.inj heq).2]
  have hind : slots (allocView sb s.view b)
      (update D i (setAddr (D i) NDIRECT (ofNat b))) (i, NDIRECT) = b := by
    rw [hA, update_self]
  have hnew1 : newBlocks (allocView sb s.view b)
      (update D i (setAddr (D i) NDIRECT (ofNat b))) i bn = 1 := by
    rw [newBlocks, hsame, if_neg (fun h => h hz), if_neg (fun h => hb0 (hind ▸ h.2))]
  have hnew : newBlocks s.view D i bn = 2 := by
    rw [newBlocks, if_neg (fun h => h hz), if_pos ⟨hbn, hn0⟩]
  have hfree : freeBlocks sb (allocView sb s.view b) = l := freeBlocks_allocView hdata hb
  have hroom := hm.room
  have hfree' := hm.free
  have hlog := hm.logged
  have hstate := hm.state
  simp only [edit_view, edit_lh, edit_edit, hnew1, hfree] at hroom hfree' hlog hstate
  refine ⟨hstate, hev.trans ?_, hm.here, hm.nonzero, ?_, ?_, ?_, ?_, ?_⟩
  · have h2 := hm.evolves
    rw [edit_view, hev.self] at h2
    exact h2
  · intro m hne
    rw [hm.other m hne, edit_view, hsame]
  · intro x h1 h2
    rw [hnew, hb]
    by_cases h3 : slots (allocView sb s.view b)
        (update D i (setAddr (D i) NDIRECT (ofNat b))) x = 0
    · have h4 := hm.fresh x h3 h2
      rw [edit_view, hnew1, hfree] at h4
      exact mem_cons_of_mem _ h4
    · have h4 := hm.evolves.keep x (by rw [edit_view]; exact h3)
      rw [edit_view] at h4
      rw [h4, fresh_of_update hA h1 h3]
      exact mem_cons_self
  · rw [hnew, hb]
    exact Nat.succ_le_succ hroom
  · rw [hnew, hb, hfree']
    rfl
  · intro c
    have hb' : slots s'.view D' (i, NDIRECT) = b := by
      have := hm.evolves.keep (i, NDIRECT) (by rw [edit_view, hind]; exact hb0)
      rw [edit_view, hind] at this
      exact this
    rw [hlog, hnew, hb, mem_absorb_alloc, hsame]
    simp only [take_succ_cons, mem_cons, exists_eq_or_imp, or_assoc]

theorem bmapEntry_does (hl : Layout sb) (hsb : s.mem.sb = sb) (h : Own sb s.view D ∅)
    (hdin : D i = (s.mem.icache ip).din) (hi : (D i).type ≠ 0) {j : Nat} (hj : j < NINDIRECT)
    {ib : UInt32} (hib : addr (D i) NDIRECT = ib) (hne : ib ≠ 0) (hW : slots s.view D (i, bnSlot (NDIRECT + j)) = 0 →
      ib.toNat ∈ W ∧ ∀ b l, freeBlocks sb s.view = b :: l → b ∈ W ∧ BBLOCK b sb ∈ W) :
    Does W N (fun a s' => Mapped sb s ip i D D (NDIRECT + j) a s') (bmapEntry ib j) s := by
  have hslot : slots s.view D (i, bnSlot (NDIRECT + j)) = (getAddr (s.view ib.toNat) j).toNat := by
    rw [bnSlot_entry, slots_of_type hi, slotAddr_entry hj (hib ▸ hne), hib]
  refine does_bread fun _ => ?_
  split
  · next h0 =>
    obtain ⟨hW1, hW2⟩ := hW (by rw [hslot, h0]; rfl)
    refine does_seq (balloc_does hsb hW2) ?_
    rintro a s1 ⟨b, l, hb, rfl, rfl⟩
    refine does_bstore (does_logWrite hW1 (does_brelse (does_pure ?_)))
    exact mapped_entry hl h hdin hi hj hib hne h0 hb
  · next h0 =>
    refine does_brelse (does_pure ?_)
    exact mapped_refl h hdin hslot fun hz => h0 (toNat.inj hz)

/-- An indirect block that is there. -/
theorem bmapIndirect_there (hdin : D i = (s.mem.icache ip).din) (hne : addr (D i) NDIRECT ≠ 0) :
    Does W N (fun a s1 => a = addr (D i) NDIRECT ∧ s1 = s) (bmapIndirect ip) s := by
  refine does_getInode ?_
  rw [← hdin, if_neg hne]
  exact does_pure ⟨rfl, rfl⟩

/-- An indirect block that has to be taken. -/
theorem bmapIndirect_takes (hsb : s.mem.sb = sb) (hdin : D i = (s.mem.icache ip).din)
    (h0 : addr (D i) NDIRECT = 0) (hW : ∀ b l, freeBlocks sb s.view = b :: l → b ∈ W ∧ BBLOCK b sb ∈ W) :
    Does W N (fun a s1 => ∃ b l, freeBlocks sb s.view = b :: l ∧ a = ofNat b ∧ s1 = edit s ip (allocView sb s.view b)
        (absorb (absorb s.lh (BBLOCK b sb)) b) (setAddr (D i) NDIRECT (ofNat b))) (bmapIndirect ip) s := by
  refine does_getInode ?_
  rw [← hdin, if_pos h0]
  refine does_seq (balloc_does hsb hW) ?_
  rintro a s1 ⟨b, l, hb, rfl, rfl⟩
  refine does_modDin (does_pure ⟨b, l, hb, rfl, ?_⟩)
  rw [hdin]
  rfl

section

variable (hl : Layout sb) (hsb : s.mem.sb = sb) (h : Own sb s.view D ∅) (hdin : D i = (s.mem.icache ip).din)
  (hi : (D i).type ≠ 0)
include hl hsb h hdin hi

/-- `bmap` past the direct blocks, when there is an indirect block. -/
theorem bmap_entry_does
    {j : Nat} (hj : j < NINDIRECT) (hne : addr (D i) NDIRECT ≠ 0)
    (hW : ∀ b ∈ (freeBlocks sb s.view).take (newBlocks s.view D i (NDIRECT + j)), b ∈ W ∧ BBLOCK b sb ∈ W)
    (hWi : slots s.view D (i, bnSlot (NDIRECT + j)) = 0 → slots s.view D (i, NDIRECT) ∈ W) :
    Does W N (fun a s' => ∃ D', Mapped sb s ip i D D' (NDIRECT + j) a s')
      (bmapIndirect ip >>= fun ib => bmapEntry ib j) s := by
  have hind : slots s.view D (i, NDIRECT) = (addr (D i) NDIRECT).toNat := by
    rw [slots_direct hi (by omega)]
  have hn0 : slots s.view D (i, NDIRECT) ≠ 0 := by
    rw [hind]; exact fun hz => hne (toNat.inj hz)
  refine does_seq (bmapIndirect_there hdin hne) ?_
  rintro a s1 ⟨rfl, rfl⟩
  refine does_mono (bmapEntry_does hl hsb h hdin hi hj rfl hne ?_) fun a s' hm => ⟨D, hm⟩
  intro hz
  have hnew : newBlocks s1.view D i (NDIRECT + j) = 1 := by
    rw [newBlocks, if_neg (fun h => h hz), if_neg (fun h => hn0 h.2)]
  refine ⟨hind ▸ hWi hz, ?_⟩
  intro b l hb
  rw [hnew, hb] at hW
  exact hW b mem_cons_self

/-- `bmap` past the direct blocks, when the indirect block has to be taken too. -/
theorem bmap_indirect_does
    {j : Nat} (hj : j < NINDIRECT) (h0 : addr (D i) NDIRECT = 0)
    (hW : ∀ b ∈ (freeBlocks sb s.view).take (newBlocks s.view D i (NDIRECT + j)), b ∈ W ∧ BBLOCK b sb ∈ W) :
    Does W N (fun a s' => ∃ D', Mapped sb s ip i D D' (NDIRECT + j) a s')
      (bmapIndirect ip >>= fun ib => bmapEntry ib j) s := by
  have hz : slots s.view D (i, bnSlot (NDIRECT + j)) = 0 := by
    rw [slots_of_type hi, bnSlot_entry, slotAddr, if_neg (by omega), if_neg (fun h => h.1 h0)]
  have hn0 : slots s.view D (i, NDIRECT) = 0 := by
    rw [slots_direct hi (by omega), h0]; rfl
  have hnew : newBlocks s.view D i (NDIRECT + j) = 2 := by
    rw [newBlocks, if_neg (fun h => h hz), if_pos ⟨Nat.le_add_right _ _, hn0⟩]
  rw [hnew] at hW
  refine does_seq (bmapIndirect_takes hsb hdin h0 fun b l hb =>
    hW b (by rw [hb]; exact mem_cons_self)) ?_
  rintro a s1 ⟨b, l, hb, rfl, hs1⟩
  obtain ⟨hsize, _, hnat⟩ := free_size hl hb
  obtain ⟨hA, hev⟩ := place_address hl h hb hi (by omega) h0
  have hdata := free_data h hb
  have hb0 : b ≠ 0 := ne_of_gt (lt_of_lt_of_le h.pos hdata)
  have hsb1 : s1.mem.sb = sb := by rw [hs1]; exact hsb
  have hview : s1.view = allocView sb s.view b := by rw [hs1]; rfl
  have hown : Own sb s1.view (update D i (setAddr (D i) NDIRECT (ofNat b))) ∅ :=
    hview ▸ hev.own
  have hentry : addr (update D i (setAddr (D i) NDIRECT (ofNat b)) i) NDIRECT = ofNat b := by
    rw [update_self, addr_setAddr (by omega) (by omega), if_pos rfl]
  refine does_mono (bmapEntry_does hl hsb1 hown (i := i) (by
    rw [update_self, hs1, edit_inode]) (by rw [update_self]; exact hi) hj
    hentry ?_ ?_) ?_
  · intro hzero
    rw [hzero] at hnat
    exact hb0 hnat.symm
  · intro _
    rw [hb] at hW
    refine ⟨by rw [hnat]; exact (hW b mem_cons_self).1, ?_⟩
    intro b' l' hb'
    rw [hview, freeBlocks_allocView hdata hb] at hb'
    rw [hb'] at hW
    exact hW b' (mem_cons_of_mem _ mem_cons_self)
  · intro a s' hm
    exact ⟨_, mapped_after_indirect hl h hi (Nat.le_add_right _ _) h0 hz hb rfl hs1 hm⟩

/-- **`bmap`** maps block `bn`, with exactly the new blocks it takes. -/
theorem bmap_does
    (hW : ∀ b ∈ (freeBlocks sb s.view).take (newBlocks s.view D i bn), b ∈ W ∧ BBLOCK b sb ∈ W)
    (hWi : slots s.view D (i, bnSlot bn) = 0 → NDIRECT ≤ bn → slots s.view D (i, NDIRECT) ≠ 0 →
      slots s.view D (i, NDIRECT) ∈ W) : Does W N (fun a s' => ∃ D', Mapped sb s ip i D D' bn a s') (bmap ip bn) s := by
  refine does_getInode ?_
  split
  · next hbn =>
    rw [← hdin]
    split_ifs with h0
    · rw [newBlocks_direct hi hbn h0] at hW
      refine does_seq (balloc_does hsb fun b l hb => hW b (by rw [hb]; exact mem_cons_self)) ?_
      rintro a s1 ⟨b, l, hb, rfl, rfl⟩
      exact does_modDin (does_pure ⟨_, mapped_direct hl h hdin hi hbn h0 hb⟩)
    · exact does_pure ⟨D, mapped_refl h hdin (slots_bn hi hbn) fun hz => h0 (toNat.inj hz)⟩
  · split
    · next hmax =>
      obtain ⟨j, rfl⟩ : ∃ j, bn = NDIRECT + j := ⟨bn - NDIRECT, by omega⟩
      rw [Nat.add_sub_cancel_left] at hmax ⊢
      by_cases h0 : addr (D i) NDIRECT = 0
      · exact bmap_indirect_does hl hsb h hdin hi hmax h0 hW
      · refine bmap_entry_does hl hsb h hdin hi hmax h0 hW fun hz => ?_
        refine hWi hz (Nat.le_add_right _ _) ?_
        rw [slots_direct hi (by omega)]
        exact fun hzero => h0 (toNat.inj hzero)
    · exact does_kpanic (by decide)

end

/-- **`bmap` of a mapped block** only looks. -/
theorem bmap_mapped_does (hdin : D i = (s.mem.icache ip).din) (hi : (D i).type ≠ 0)
    (h0 : slots s.view D (i, bnSlot bn) ≠ 0) :
    Does W N (fun a s' => a.toNat = slots s.view D (i, bnSlot bn) ∧ s' = s) (bmap ip bn) s := by
  rw [slots_of_type hi] at h0 ⊢
  refine does_getInode ?_
  rw [← hdin]
  by_cases hbn : bn < NDIRECT
  · have hslot : slotAddr s.view (D i) (bnSlot bn) = (addr (D i) bn).toNat := by
      rw [bnSlot, if_pos hbn, slotAddr_direct (by omega)]
    rw [hslot] at h0 ⊢
    rw [if_pos hbn, if_neg (fun hz => h0 (by rw [hz]; rfl))]
    exact does_pure ⟨rfl, rfl⟩
  · rw [if_neg hbn]
    by_cases hmax : bn - NDIRECT < NINDIRECT
    · obtain ⟨j, rfl⟩ : ∃ j, bn = NDIRECT + j := ⟨bn - NDIRECT, by omega⟩
      rw [Nat.add_sub_cancel_left] at hmax ⊢
      have hne : addr (D i) NDIRECT ≠ 0 := by
        intro hz
        rw [bnSlot_entry, slotAddr, if_neg (by omega), if_neg (fun h => h.1 hz)] at h0
        exact h0 rfl
      rw [bnSlot_entry, slotAddr_entry hmax hne] at h0 ⊢
      rw [if_pos hmax]
      refine does_seq (bmapIndirect_there hdin hne) ?_
      rintro a s1 ⟨rfl, rfl⟩
      refine does_bread fun _ => ?_
      rw [if_neg (fun hz => h0 (by rw [hz]; rfl))]
      exact does_brelse (does_pure ⟨rfl, rfl⟩)
    · rw [if_neg hmax]
      exact does_kpanic (by decide)

end Bmap

end Xv6Own
