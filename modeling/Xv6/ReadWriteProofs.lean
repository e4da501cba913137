import Xv6.TruncateProofs

/-!
# `readi` and `writei` — the content of an inode

`readi` of an inode without holes returns bytes of its content and changes nothing at all.
`writei` changes the content in the range it is given and nothing else, for this inode or any
other; the blocks it takes and logs are known exactly from the disk before (`Wrote`).

A write of `len` bytes at `off` touches the blocks `span off len`. `grow` counts the blocks
it has to take: those of the span that are not mapped, and the indirect block if the span
reaches past the direct blocks and there is none yet.
-/

namespace Xv6Own

open CmdProg ByteBuf Xv6Disk Xv6Kernel Xv6Fs Xv6Layout Ledger Function List UInt32

/-- Inode `j` has no holes: every block of its content below its size is mapped. A device
    has no content. -/
def Whole (v : Nat → Block) (D : Nat → Dinode) (j : Nat) : Prop :=
  (D j).type ≠ 0 → (D j).type ≠ T_DEV → (D j).size.toNat ≤ MAXFILE * BSIZE ∧
    ∀ bn, bn * BSIZE < (D j).size.toNat → slots v D (j, bnSlot bn) ≠ 0

/-! ## Byte positions and blocks -/

theorem same_block {off j : Nat} (h : off % BSIZE + j < BSIZE) :
    (off + j) / BSIZE = off / BSIZE ∧ (off + j) % BSIZE = off % BSIZE + j := by
  unfold BSIZE at h ⊢
  omega

theorem block_start {p : Nat} : p / BSIZE * BSIZE ≤ p := Nat.div_mul_le_self p BSIZE

/-- The blocks that `len` bytes at `off` touch. -/
def span (off len : Nat) : List Nat :=
  range' (off / BSIZE) (if len = 0 then 0 else (off + len - 1) / BSIZE - off / BSIZE + 1)

theorem span_zero (off : Nat) : span off 0 = [] := rfl

/-- One round of the loops of `readi` and `writei` deals with one block. -/
theorem span_step {off len : Nat} (h : 0 < len) : span off len = off / BSIZE ::
      span (off + min len (BSIZE - off % BSIZE)) (len - min len (BSIZE - off % BSIZE)) := by
  rw [span, if_neg (by omega), range'_succ, span]
  congr 1
  by_cases hm : len ≤ BSIZE - off % BSIZE
  · rw [Nat.min_eq_left hm, Nat.sub_self, if_pos rfl]
    have : (off + len - 1) / BSIZE - off / BSIZE = 0 := by
      unfold BSIZE at hm ⊢
      omega
    rw [this]
    rfl
  · rw [min_eq_right (by omega), if_neg (by omega)]
    have h1 : (off + (BSIZE - off % BSIZE)) / BSIZE = off / BSIZE + 1 := by
      unfold BSIZE
      omega
    have h2 : off + (BSIZE - off % BSIZE) + (len - (BSIZE - off % BSIZE)) = off + len := by omega
    have h3 : (off + len - 1) / BSIZE - off / BSIZE = (off + len - 1) / BSIZE - (off / BSIZE + 1) + 1 := by
      unfold BSIZE at hm ⊢
      omega
    rw [h1, h2, h3]

theorem mem_span {off len bn : Nat} : bn ∈ span off len ↔ ∃ p, off ≤ p ∧ p < off + len ∧ p / BSIZE = bn := by
  rw [span, mem_range'_1]
  split_ifs with h0
  · constructor
    · rintro ⟨h1, h2⟩; omega
    · rintro ⟨p, h1, h2, _⟩; omega
  · constructor
    · rintro ⟨h1, h2⟩
      refine ⟨max off (bn * BSIZE), by omega, ?_, ?_⟩ <;>
      · unfold BSIZE at h1 h2 ⊢
        omega
    · rintro ⟨p, h1, h2, rfl⟩
      unfold BSIZE
      omega

theorem span_head_notMem {off len : Nat} : off / BSIZE ∉ span (off + min len (BSIZE - off % BSIZE))
      (len - min len (BSIZE - off % BSIZE)) := by
  intro hmem
  obtain ⟨p, h1, h2, h3⟩ := mem_span.mp hmem
  unfold BSIZE at h1 h2 h3
  omega

/-! ## `readi` -/

section Read

variable {sb : Superblock} {s : LState} {D : Nat → Dinode} {i : Nat} {ip : Fin NINODE}
  {W : Set Nat} {N : Prop}

theorem readiLoop_does (hdin : D i = (s.mem.icache ip).din) (hi : (D i).type ≠ 0) {n : Nat} :
    ∀ (r tot off : Nat), n - tot ≤ r →
    (∀ p, off ≤ p → p < off + (n - tot) → slots s.view D (i, bnSlot (p / BSIZE)) ≠ 0) →
    Does W N (fun l s' => l = (range (n - tot)).map (fun j => bytesOf s.view D i (off + j)) ∧
      s' = s) (readiLoop ip n r tot off) s := by
  intro r
  induction r with
  | zero =>
    intro tot off hr _
    have h0 : n - tot = 0 := by omega
    rw [h0]
    exact does_pure ⟨rfl, rfl⟩
  | succ r ih =>
    intro tot off hr hmap
    rw [readiLoop]
    split
    · have hmod : off % BSIZE < BSIZE := Nat.mod_lt _ (by decide)
      have hslot := hmap off (le_refl _) (by omega)
      refine does_seq (bmap_mapped_does hdin hi hslot) ?_
      rintro a s1 ⟨ha, rfl⟩
      refine does_bread fun _ => ?_
      -- the bytes of this round, then those of the rounds to come
      generalize hm : min (n - tot) (BSIZE - off % BSIZE) = m
      have hm1 : m ≤ n - tot := by omega
      have hm2 : m ≤ BSIZE - off % BSIZE := by omega
      refine does_brelse (does_seq (ih (tot + m) (off + m) (by omega) ?_) ?_)
      · intro p h1 h2
        exact hmap p (by omega) (by omega)
      · rintro rest s2 ⟨rfl, rfl⟩
        refine does_pure ⟨?_, rfl⟩
        have hsplit : n - tot = m + (n - (tot + m)) := by omega
        rw [hsplit, range_add, map_append, map_map]
        congr 1
        · refine map_congr_left fun j hj => ?_
          have hj' := mem_range.mp hj
          obtain ⟨h1, h2⟩ := same_block (show off % BSIZE + j < BSIZE by omega)
          rw [bytesOf, h1, h2, if_neg hslot, ha]
        · refine map_congr_left fun j _ => ?_
          show bytesOf s2.view D i (off + m + j) = bytesOf s2.view D i (off + (m + j))
          rw [add_assoc]
    · have h0 : n - tot = 0 := by omega
      rw [h0]
      exact does_pure ⟨rfl, rfl⟩

theorem toNat_add_of_not_lt {a b : UInt32} (h : ¬ a + b < a) : (a + b).toNat = a.toNat + b.toNat := by
  have ha := a.toNat_lt
  have hb := b.toNat_lt
  rw [UInt32.lt_iff_toNat_lt, UInt32.toNat_add] at h
  rw [UInt32.toNat_add]
  omega

/-- How many bytes `readi` finds. -/
def readLen (size off n : UInt32) : UInt32 := if size < off + n then size - off else n

theorem readLen_le {size off n : UInt32} (h1 : ¬ size < off) (h2 : ¬ off + n < off) :
    off.toNat + (readLen size off n).toNat ≤ size.toNat := by
  rw [lt_iff_toNat_lt] at h1
  have hadd := toNat_add_of_not_lt h2
  unfold readLen
  by_cases h3 : size < off + n
  · have hle : off ≤ size := le_iff_toNat_le.mpr (by omega)
    rw [if_pos h3, UInt32.toNat_sub_of_le _ _ hle]
    omega
  · rw [if_neg h3]
    rw [lt_iff_toNat_lt, hadd] at h3
    omega

/-- What `readi` returns: a count, or -1, and the bytes. -/
def readResult (v : Nat → Block) (D : Nat → Dinode) (i : Nat) (off n : UInt32) : Int × List UInt8 :=
  if (D i).size < off ∨ off + n < off then (-1, [])
  else ((readLen (D i).size off n).toNat,
    (range (readLen (D i).size off n).toNat).map fun j => bytesOf v D i (off.toNat + j))

/-- **`readi`** of an inode without holes only reads. -/
theorem readi_does {off n : UInt32} (hdin : D i = (s.mem.icache ip).din) (hi : (D i).type ≠ 0)
    (hdev : (D i).type ≠ T_DEV) (hw : Whole s.view D i) :
    Does W N (fun r s' => s' = s ∧ r = readResult s.view D i off n) (readi ip off n) s := by
  rw [readi]
  refine does_getInode ?_
  rw [← hdin, if_neg hdev]
  split
  · next hbad =>
    exact does_pure ⟨rfl, (if_pos hbad).symm⟩
  · next hbad =>
    have hle := readLen_le (fun h => hbad (.inl h)) (fun h => hbad (.inr h))
    refine does_seq (readiLoop_does (n := (readLen (D i).size off n).toNat) hdin hi _ 0 off.toNat
      (le_refl _) ?_) ?_
    · intro p h1 h2
      refine (hw hi hdev).2 _ ?_
      have := block_start (p := p)
      omega
    · rintro l s1 ⟨rfl, rfl⟩
      exact does_pure ⟨rfl, (if_neg hbad).symm⟩

end Read

/-! ## Growing by a span of blocks -/

/-- How many blocks inode `i` has to take to have all of `bns` mapped. -/
def grow (v : Nat → Block) (D : Nat → Dinode) (i : Nat) (bns : List Nat) : Nat :=
  (bns.filter fun bn => slots v D (i, bnSlot bn) = 0).length +
    if slots v D (i, NDIRECT) = 0 ∧ ∃ bn ∈ bns, NDIRECT ≤ bn then 1 else 0

section Grow

variable {sb : Superblock} {s s' : LState} {v v' : Nat → Block} {D D' : Nat → Dinode} {i bn : Nat}
  {bns : List Nat} {ip : Fin NINODE} {a : UInt32} {W : Set Nat}

/-- A mapped entry of the indirect block needs the indirect block. -/
theorem indirect_of_entry (hbn : NDIRECT ≤ bn) (h0 : slots v D (i, bnSlot bn) ≠ 0) : slots v D (i, NDIRECT) ≠ 0 := by
  have hi := type_of_slots h0
  obtain ⟨j, rfl⟩ : ∃ j, bn = NDIRECT + j := ⟨bn - NDIRECT, by omega⟩
  rw [slots_direct hi (by omega)]
  intro hz
  rw [slots_of_type hi, bnSlot_entry, slotAddr, if_neg (by omega), if_neg (fun h => h.1 (toNat.inj hz))] at h0
  exact h0 rfl

/-- The indirect block after `bmap`: there is a new one only if `bmap` took two blocks. -/
theorem Mapped.indirect (hm : Mapped sb s ip i D D' bn a s') (h0 : slots s.view D (i, NDIRECT) = 0) :
    slots s'.view D' (i, NDIRECT) ≠ 0 ↔ newBlocks s.view D i bn = 2 := by
  have hown := hm.evolves.own
  have hhere : slots s'.view D' (i, bnSlot bn) ≠ 0 := hm.here ▸ hm.nonzero
  constructor
  · intro hind
    have hf := hm.fresh _ h0 hind
    by_cases hmap : slots s.view D (i, bnSlot bn) ≠ 0
    · rw [newBlocks, if_pos hmap] at hf
      cases hf
    · by_cases hbn : NDIRECT ≤ bn
      · rw [newBlocks, if_neg hmap, if_pos ⟨hbn, h0⟩]
      · -- the only block taken is the content block itself
        have hf2 := hm.fresh _ (not_not.mp hmap) hhere
        have hnew : newBlocks s.view D i bn = 1 := by
          rw [newBlocks, if_neg hmap, if_neg (fun h => hbn h.1)]
        rw [hnew] at hf hf2
        cases hfree : freeBlocks sb s.view with
        | nil => rw [hfree] at hf; cases hf
        | cons b l =>
          rw [hfree] at hf hf2
          have h1 := mem_singleton.mp hf
          have h2 := mem_singleton.mp hf2
          have := hown.once _ _ hind (h1.trans h2.symm)
          exact absurd (Prod.mk.inj this).2.symm (bnSlot_ne bn)
  · intro hnew
    rw [newBlocks] at hnew
    split at hnew
    · omega
    · by_cases hbn : NDIRECT ≤ bn
      · exact indirect_of_entry hbn hhere
      · rw [if_neg (fun h => hbn h.1)] at hnew; omega

/-- The blocks of a span are those for its first block and those for the rest. -/
theorem Mapped.grow_cons (hm : Mapped sb s ip i D D' bn a s') (hbn : bn ∉ bns)
    (hslots : slots v' D' = slots s'.view D') :
    grow s.view D i (bn :: bns) = newBlocks s.view D i bn + grow v' D' i bns := by
  have hfilter : (bns.filter fun m => slots v' D' (i, bnSlot m) = 0)
      = bns.filter fun m => slots s.view D (i, bnSlot m) = 0 := by
    refine filter_congr fun m hmem => ?_
    rw [hslots, hm.other m (fun heq => hbn (heq ▸ hmem))]
  rw [grow, grow, hfilter, hslots]
  by_cases hind : slots s.view D (i, NDIRECT) = 0
  · have hiff := hm.indirect hind
    by_cases hmap : slots s.view D (i, bnSlot bn) = 0
    · rw [filter_cons_of_pos (by simpa using hmap), length_cons]
      by_cases hge : NDIRECT ≤ bn
      · have hnew : newBlocks s.view D i bn = 2 := by
          rw [newBlocks, if_neg (fun h => h hmap), if_pos ⟨hge, hind⟩]
        rw [hnew, if_pos ⟨hind, bn, mem_cons_self, hge⟩, if_neg (fun h => hiff.mpr hnew h.1)]
        omega
      · have hnew : newBlocks s.view D i bn = 1 := by
          rw [newBlocks, if_neg (fun h => h hmap), if_neg (fun h => hge h.1)]
        have hind' : slots s'.view D' (i, NDIRECT) = 0 := by
          by_contra hne
          omega
        rw [hnew, hind, hind']
        simp only [mem_cons, true_and, exists_eq_or_imp, hge, false_or]
        omega
    · have hnew : newBlocks s.view D i bn = 0 := if_pos hmap
      have hge : ¬ NDIRECT ≤ bn := fun hge => indirect_of_entry hge hmap hind
      have hind' : slots s'.view D' (i, NDIRECT) = 0 := by
        by_contra hne
        omega
      rw [filter_cons_of_neg (by simpa using hmap), hnew, hind, hind']
      simp only [mem_cons, true_and, exists_eq_or_imp, hge, false_or]
      omega
  · have hind' : slots s'.view D' (i, NDIRECT) ≠ 0 := by
      rw [hm.evolves.keep _ hind]; exact hind
    rw [if_neg (fun h => hind h.1), if_neg (fun h => hind' h.1)]
    by_cases hmap : slots s.view D (i, bnSlot bn) = 0
    · rw [filter_cons_of_pos (by simpa using hmap), length_cons, newBlocks,
        if_neg (fun h => h hmap), if_neg (fun h => hind h.2)]
      omega
    · rw [filter_cons_of_neg (by simpa using hmap), newBlocks, if_pos hmap]
      omega

/-- The blocks a write to the span may log are in the footprint `W`. -/
structure Room (W : Set Nat) (sb : Superblock) (v : Nat → Block) (D : Nat → Dinode) (i : Nat)
    (bns : List Nat) : Prop where
  free : ∀ b ∈ (freeBlocks sb v).take (grow v D i bns), b ∈ W ∧ BBLOCK b sb ∈ W
  indirect : (∃ bn ∈ bns, NDIRECT ≤ bn ∧ slots v D (i, bnSlot bn) = 0) →
    slots v D (i, NDIRECT) ≠ 0 → slots v D (i, NDIRECT) ∈ W
  data : ∀ bn ∈ bns, slots v D (i, bnSlot bn) ≠ 0 → slots v D (i, bnSlot bn) ∈ W

theorem room_univ : Room Set.univ sb v D i bns :=
  ⟨fun _ _ => ⟨trivial, trivial⟩, fun _ _ => trivial, fun _ _ _ => trivial⟩

theorem newBlocks_le_grow : newBlocks v D i bn ≤ grow v D i (bn :: bns) := by
  rw [newBlocks, grow]
  by_cases hmap : slots v D (i, bnSlot bn) = 0
  · rw [if_neg (fun h => h hmap), filter_cons_of_pos (by simpa using hmap), length_cons]
    split
    · next hind =>
      rw [if_pos ⟨hind.2, bn, mem_cons_self, hind.1⟩]
      omega
    · omega
  · rw [if_pos hmap]
    exact Nat.zero_le _

/-- The block itself is in the footprint. -/
theorem Room.here (h : Room W sb s.view D i (bn :: bns)) (hm : Mapped sb s ip i D D' bn a s') : a.toNat ∈ W := by
  by_cases h0 : slots s.view D (i, bnSlot bn) = 0
  · have hf := hm.fresh _ h0 (hm.here ▸ hm.nonzero)
    rw [hm.here] at hf
    exact (h.free _ ((take_sublist_take_left newBlocks_le_grow).subset hf)).1
  · have hk := hm.evolves.keep _ h0
    rw [hm.here] at hk
    rw [hk]
    exact h.data bn mem_cons_self h0

/-- After the first block of a span, the rest of the span has its room. -/
theorem Room.tail (h : Room W sb s.view D i (bn :: bns)) (hm : Mapped sb s ip i D D' bn a s')
    (hbn : bn ∉ bns) (hslots : slots v' D' = slots s'.view D')
    (hfree : freeBlocks sb v' = freeBlocks sb s'.view) : Room W sb v' D' i bns := by
  have hsame : ∀ m ∈ bns, slots v' D' (i, bnSlot m) = slots s.view D (i, bnSlot m) := by
    intro m hmem
    rw [hslots, hm.other m (fun heq => hbn (heq ▸ hmem))]
  refine ⟨?_, ?_, ?_⟩
  · intro b hb
    rw [hfree, hm.free] at hb
    refine h.free b ?_
    rw [hm.grow_cons hbn hslots, take_add]
    exact mem_append_right _ hb
  · rintro ⟨m, hmem, hge, h0⟩ hne
    rw [hslots] at hne ⊢
    by_cases hind : slots s.view D (i, NDIRECT) = 0
    · have hf := hm.fresh _ hind hne
      exact (h.free _ ((take_sublist_take_left newBlocks_le_grow).subset hf)).1
    · rw [hm.evolves.keep _ hind]
      rw [hsame m hmem] at h0
      exact h.indirect ⟨m, mem_cons_of_mem _ hmem, hge, h0⟩ hind
  · intro m hmem h0
    rw [hsame m hmem] at h0 ⊢
    exact h.data m (mem_cons_of_mem _ hmem) h0

end Grow

/-! ## `writei` -/

section Store

variable {sb : Superblock} {v : Nat → Block} {D : Nat → Dinode} {i bn : Nat}

/-- A store into a block of content moves no block. -/
theorem slots_store (h : Own sb v D ∅) (blk : Block) : slots (update v (slots v D (i, bnSlot bn)) blk) D = slots v D :=
  slots_write h.once blk

theorem freeBlocks_store (h : Own sb v D ∅) (h0 : slots v D (i, bnSlot bn) ≠ 0) (blk : Block) :
    freeBlocks sb (update v (slots v D (i, bnSlot bn)) blk) = freeBlocks sb v := by
  refine filter_congr fun c hc => ?_
  rw [used_update (bblock_ne_data (mem_range.mp hc) (h.cell _ h0).1)]

/-- A store into a block of content changes the bytes of that block. -/
theorem evolves_store (h : Own sb v D ∅) (h0 : slots v D (i, bnSlot bn) ≠ 0) (blk : Block) :
    Evolves sb v D (update v (slots v D (i, bnSlot bn)) blk) D i
      (fun p => if p / BSIZE = bn then byteAt blk (p % BSIZE) else bytesOf v D i p) := by
  have hslots : slots (update v (slots v D (i, bnSlot bn)) blk) D = slots v D :=
    slots_store h blk
  have hdata := (h.cell _ h0).1
  refine ⟨?_, ⟨(D i).addrs, (update_eq_self _ _).symm⟩, ?_, bytesOf_write h.once h0 blk,
    fun j hj => bytesOf_write_ne bn h.once hj blk, ?_⟩
  · refine h.congr hslots fun c hc => ?_
    exact used_update (bblock_ne_data hc hdata) _
  · intro x _
    rw [hslots]
  · intro c hc
    rw [update_of_ne]
    have : sb.bmapstart < datastart sb := bmapstart_lt_datastart
    omega

end Store

/-- The state after a write to the blocks `bns` of inode `i`: its content is `f`, and exactly
    the blocks needed have been taken and logged. -/
structure Wrote (sb : Superblock) (s : LState) (ip : Fin NINODE) (i : Nat) (D D' : Nat → Dinode)
    (bns : List Nat) (f : Nat → UInt8) (s' : LState) : Prop where
  state : s' = edit s ip s'.view s'.lh (D' i)
  evolves : Evolves sb s.view D s'.view D' i f
  mapped : ∀ bn ∈ bns, slots s'.view D' (i, bnSlot bn) ≠ 0
  other : ∀ m, m ∉ bns → slots s'.view D' (i, bnSlot m) = slots s.view D (i, bnSlot m)
  room : grow s.view D i bns ≤ (freeBlocks sb s.view).length
  free : freeBlocks sb s'.view = (freeBlocks sb s.view).drop (grow s.view D i bns)
  logged : ∀ c, c ∈ s'.lh ↔ c ∈ s.lh ∨
    (∃ b ∈ (freeBlocks sb s.view).take (grow s.view D i bns), c = b ∨ c = BBLOCK b sb) ∨
    (∃ bn ∈ bns, c = slots s'.view D' (i, bnSlot bn)) ∨
    ((∃ bn ∈ bns, NDIRECT ≤ bn ∧ slots s.view D (i, bnSlot bn) = 0) ∧ c = slots s'.view D' (i, NDIRECT))

section Write

variable {sb : Superblock} {s s1 s' : LState} {D D1 D' : Nat → Dinode} {i bn : Nat} {bns : List Nat}
  {ip : Fin NINODE} {a : UInt32} {W : Set Nat} {N : Prop} {f : Nat → UInt8}

/-- A block is stored where `bmap` has mapped it. -/
theorem Mapped.store (hm : Mapped sb s ip i D D1 bn a s1) (blk : Block) :
    slots (update s1.view a.toNat blk) D1 = slots s1.view D1 ∧
      freeBlocks sb (update s1.view a.toNat blk) = freeBlocks sb s1.view ∧
      Evolves sb s1.view D1 (update s1.view a.toNat blk) D1 i
        (fun p => if p / BSIZE = bn then byteAt blk (p % BSIZE) else bytesOf s1.view D1 i p) := by
  have hown := hm.evolves.own
  have hne : slots s1.view D1 (i, bnSlot bn) ≠ 0 := hm.here ▸ hm.nonzero
  rw [← hm.here]
  exact ⟨slots_store hown blk, freeBlocks_store hown hne blk, evolves_store hown hne blk⟩

theorem Mapped.memory (hm : Mapped sb s ip i D D1 bn a s1) (hsb : s.mem.sb = sb) :
    s1.mem.sb = sb ∧ D1 i = (s1.mem.icache ip).din := by
  rw [hm.state, edit_sb, edit_inode]
  exact ⟨hsb, rfl⟩

theorem wrote_nil (h : Own sb s.view D ∅) (hdin : D i = (s.mem.icache ip).din) :
    Wrote sb s ip i D D [] (bytesOf s.view D i) s := by
  have hgrow : grow s.view D i [] = 0 := by simp [grow]
  refine ⟨by rw [hdin, edit_self], Evolves.refl h, fun _ hbn => absurd hbn not_mem_nil, fun _ _ => rfl, ?_, ?_, ?_⟩
  · rw [hgrow]; exact Nat.zero_le _
  · rw [hgrow, drop_zero]
  · intro c
    rw [hgrow, take_zero]
    constructor
    · exact .inl
    · rintro (hc | ⟨b, hb, _⟩ | ⟨m, hm, _⟩ | ⟨⟨m, hm, _⟩, _⟩)
      · exact hc
      · cases hb
      · cases hm
      · cases hm

/-- One block is mapped and stored into, then the rest of the span is written. -/
theorem wrote_cons {blk : Block} (hm : Mapped sb s ip i D D1 bn a s1) (hbn : bn ∉ bns)
    (hw : Wrote sb (log (put s1 a.toNat blk) a.toNat) ip i D1 D' bns f s') : Wrote sb s ip i D D' (bn :: bns) f s' := by
  have hne : slots s1.view D1 (i, bnSlot bn) ≠ 0 := hm.here ▸ hm.nonzero
  obtain ⟨hslots, hfree, hstore⟩ := hm.store blk
  have hev : Evolves sb s.view D s'.view D' i f := (hm.evolves.trans hstore).trans hw.evolves
  have hgrow := hm.grow_cons hbn hslots
  have hkeep : ∀ x, slots s1.view D1 x ≠ 0 → slots s'.view D' x = slots s1.view D1 x := by
    intro x hx
    have := hw.evolves.keep x (by show slots (update _ _ _) _ _ ≠ 0; rw [hslots]; exact hx)
    rw [this]
    exact congrFun hslots x
  have hhere : slots s'.view D' (i, bnSlot bn) = a.toNat := (hkeep _ hne).trans hm.here
  have htake : (freeBlocks sb s.view).take (grow s.view D i (bn :: bns))
      = (freeBlocks sb s.view).take (newBlocks s.view D i bn) ++
        (freeBlocks sb s1.view).take (grow (update s1.view a.toNat blk) D1 i bns) := by
    rw [hgrow, take_add, hm.free]
  have hroom := hw.room
  have hdrop := hw.free
  have hlog := hw.logged
  simp only [log_view, put_view, log_lh, put_lh, hfree] at hroom hdrop hlog
  refine ⟨?_, hev, ?_, ?_, ?_, ?_, ?_⟩
  · have e1 : log (put s1 a.toNat blk) a.toNat
        = edit s ip (update s1.view a.toNat blk) (absorb s1.lh a.toNat) (D1 i) := by
      conv_lhs => rw [hm.state]
      rfl
    have e := hw.state
    rw [e1, edit_edit] at e
    exact e
  · intro m hmem
    rcases mem_cons.mp hmem with rfl | hmem
    · rw [hhere]; exact hm.nonzero
    · exact hw.mapped m hmem
  · intro m hmem
    obtain ⟨h1, h2⟩ := not_or.mp (fun hc => hmem (mem_cons.mpr hc))
    rw [hw.other m h2, ← hm.other m h1]
    exact congrFun hslots _
  · have h1 := hm.room
    rw [hm.free, length_drop] at hroom
    rw [hgrow]
    omega
  · rw [hdrop, hm.free, drop_drop, hgrow]
  · intro c
    rw [hlog, mem_absorb, hm.logged, htake]
    have hsame : ∀ m ∈ bns, slots (update s1.view a.toNat blk) D1 (i, bnSlot m) = slots s.view D (i, bnSlot m) := by
      intro m hmem
      rw [hslots, hm.other m (fun heq => hbn (heq ▸ hmem))]
    constructor
    · rintro (((hc | ⟨b, hb, hc⟩ | ⟨h1, h2, hc⟩) | hc) | ⟨b, hb, hc⟩ | ⟨m, hmem, hc⟩ | ⟨⟨m, hmem, h1, h2⟩, hc⟩)
      · exact .inl hc
      · exact .inr (.inl ⟨b, mem_append_left _ hb, hc⟩)
      · refine .inr (.inr (.inr ⟨⟨bn, mem_cons_self, h2, h1⟩, ?_⟩))
        rw [hc, hkeep _ (indirect_of_entry h2 hne)]
      · exact .inr (.inr (.inl ⟨bn, mem_cons_self, hc.trans hhere.symm⟩))
      · exact .inr (.inl ⟨b, mem_append_right _ hb, hc⟩)
      · exact .inr (.inr (.inl ⟨m, mem_cons_of_mem _ hmem, hc⟩))
      · exact .inr (.inr (.inr ⟨⟨m, mem_cons_of_mem _ hmem, h1, (hsame m hmem) ▸ h2⟩, hc⟩))
    · rintro (hc | ⟨b, hb, hc⟩ | ⟨m, hmem, hc⟩ | ⟨⟨m, hmem, h1, h2⟩, hc⟩)
      · exact .inl (.inl (.inl hc))
      · rcases mem_append.mp hb with hb | hb
        · exact .inl (.inl (.inr (.inl ⟨b, hb, hc⟩)))
        · exact .inr (.inl ⟨b, hb, hc⟩)
      · rcases mem_cons.mp hmem with rfl | hmem
        · exact .inl (.inr (hc.trans hhere))
        · exact .inr (.inr (.inl ⟨m, hmem, hc⟩))
      · rcases mem_cons.mp hmem with rfl | hmem
        · refine .inl (.inl (.inr (.inr ⟨h2, h1, ?_⟩)))
          rw [hc, hkeep _ (indirect_of_entry h1 hne)]
        · exact .inr (.inr (.inr ⟨⟨m, hmem, h1, (hsame m hmem).symm ▸ h2⟩, hc⟩))

/-- The content after a write of `len` bytes at `off`. -/
def written (g : Nat → UInt8) (off len : Nat) (src : Nat → UInt8) : Nat → UInt8 :=
  fun p => if off ≤ p ∧ p < off + len then src (p - off) else g p

/-- A write is the write of its first `m` bytes, then of the rest. -/
theorem written_split {g : Nat → UInt8} {off len m : Nat} {src : Nat → UInt8} (hm : m ≤ len) :
    written (written g off m src) (off + m) (len - m) (fun j => src (m + j)) = written g off len src := by
  funext p
  unfold written
  split
  · rw [if_pos (by omega)]
    show src (m + (p - (off + m))) = src (p - off)
    rw [show m + (p - (off + m)) = p - off by omega]
  · split
    · rw [if_pos (by omega)]
    · rw [if_neg (by omega)]

/-- The bytes of one block after `memmove` into it. -/
theorem written_block {v : Nat → Block} {off m : Nat} {src : Nat → UInt8}
    (hm : off % BSIZE + m ≤ BSIZE) (h0 : slots v D (i, bnSlot (off / BSIZE)) ≠ 0) : (fun p => if p / BSIZE = off / BSIZE
      then byteAt (blit (v (slots v D (i, bnSlot (off / BSIZE)))) (off % BSIZE) m src) (p % BSIZE)
      else bytesOf v D i p) = written (bytesOf v D i) off m src := by
  funext p
  unfold written
  have hmod : p % BSIZE < BSIZE := Nat.mod_lt _ (by decide)
  split
  · next hp =>
    have hpo : p + off % BSIZE = off + p % BSIZE := by
      unfold BSIZE at hp ⊢
      omega
    by_cases hin : off ≤ p ∧ p < off + m
    · rw [if_pos hin, byteAt_blit_in _ _ hmod (by omega) (by omega), show p % BSIZE - off % BSIZE = p - off by omega]
    · rw [if_neg hin, byteAt_blit_out _ _ (by omega), bytesOf, hp, if_neg h0]
  · next hp =>
    rw [if_neg]
    rintro ⟨h1, h2⟩
    apply hp
    unfold BSIZE at hm ⊢
    omega

/-- The loop of `writei`. -/
theorem writeiLoop_does (hl : Layout sb) {n : Nat} (src : Nat → UInt8) (r tot off : Nat) (s : LState)
    (D : Nat → Dinode) (hr : n - tot ≤ r) (hsb : s.mem.sb = sb) (h : Own sb s.view D ∅)
    (hdin : D i = (s.mem.icache ip).din) (hi : (D i).type ≠ 0) (hroom : Room W sb s.view D i (span off (n - tot))) :
    Does W N (fun _ s' => ∃ D', Wrote sb s ip i D D' (span off (n - tot))
      (written (bytesOf s.view D i) off (n - tot) (fun j => src (tot + j))) s') (writeiLoop ip src n r tot off) s := by
  induction r generalizing tot off s D with
  | zero =>
    have h0 : n - tot = 0 := by omega
    have hnone : written (bytesOf s.view D i) off 0 (fun j => src (tot + j)) = bytesOf s.view D i := by
      funext p
      exact if_neg (by omega)
    rw [h0, hnone, span_zero]
    exact does_pure ⟨D, wrote_nil h hdin⟩
  | succ r ih =>
    rw [writeiLoop]
    split_ifs with hlt
    · have hmod : off % BSIZE < BSIZE := Nat.mod_lt _ (by decide)
      have hhead : off / BSIZE ∉ span (off + min (n - tot) (BSIZE - off % BSIZE))
          (n - tot - min (n - tot) (BSIZE - off % BSIZE)) := span_head_notMem
      rw [span_step (show 0 < n - tot by omega)] at hroom ⊢
      generalize hm : min (n - tot) (BSIZE - off % BSIZE) = m at hroom hhead ⊢
      have hm1 : m ≤ n - tot := by omega
      have hm2 : off % BSIZE + m ≤ BSIZE := by omega
      rw [Nat.sub_sub] at hroom hhead
      refine does_seq (bmap_does hl hsb h hdin hi ?_ ?_) ?_
      · intro b hb
        exact hroom.free b ((take_sublist_take_left newBlocks_le_grow).subset hb)
      · intro h0 hge hne
        exact hroom.indirect ⟨_, mem_cons_self, hge, h0⟩ hne
      · rintro a s1 ⟨D1, hmap⟩
        have hne : slots s1.view D1 (i, bnSlot (off / BSIZE)) ≠ 0 := hmap.here ▸ hmap.nonzero
        have hmem := hmap.memory hsb
        refine does_bread fun _ => does_bstore (does_logWrite (hroom.here hmap) (does_brelse ?_))
        generalize hblk : blit (s1.view a.toNat) (off % BSIZE) m (fun j => src (tot + j)) = blk
        obtain ⟨hslots, hfree, hstore⟩ := hmap.store blk
        -- what the block holds now is the first part of the write
        have hbytes : bytesOf (update s1.view a.toNat blk) D1 i
            = written (bytesOf s.view D i) off m (fun j => src (tot + j)) := by
          rw [hstore.self, ← hmap.evolves.self, ← hblk, ← hmap.here]
          exact written_block hm2 hne
        refine does_mono (ih (tot + m) (off + m) _ D1 (by omega) hmem.1 hstore.own hmem.2 ?_ ?_) ?_
        · rw [hmap.evolves.type_eq]; exact hi
        · exact hroom.tail hmap hhead hslots hfree
        · rintro _ s' ⟨D', hw⟩
          refine ⟨D', ?_⟩
          have hw' := wrote_cons hmap hhead hw
          rw [Nat.sub_sub]
          convert hw' using 1
          show _ = written (bytesOf (update s1.view a.toNat blk) D1 i) (off + m)
            (n - (tot + m)) (fun j => src (tot + m + j))
          rw [hbytes, ← Nat.sub_sub, ← written_split hm1]
          simp only [add_assoc]
    · have h0 : n - tot = 0 := by omega
      have hnone : written (bytesOf s.view D i) off 0 (fun j => src (tot + j)) = bytesOf s.view D i := by
        funext p
        exact if_neg (by omega)
      rw [h0, hnone, span_zero]
      exact does_pure ⟨D, wrote_nil h hdin⟩

end Write

end Xv6Own
