import Xv6.ByteArrayProofs
import Xv6.FileCodeProofs

/-!
# A chunk of `filewrite` and its reservation

`filewrite` writes at most `filewriteMax` bytes in one transaction, for which `begin_op` has reserved
`MAXOPBLOCKS` blocks of the log. The blocks that `writei` logs are known exactly: those of the span, the bitmap
blocks of the blocks it takes, the indirect block if it gets an address, and the block of the inode. The bound is
computed for blocks of 512 bytes, and a chunk that begins near the end of a block spans eight blocks of the
1024 there are: with the indirect block, a bitmap block and the inode these are eleven.
-/

namespace Xv6Own

open CmdProg ByteBuf Xv6Disk Xv6Kernel Xv6Fs Xv6Layout Xv6Total Ledger List Finset

/-- The operation by itself: nothing has been logged, by this or another. -/
def alone (s : LState) : LState := { s with lh := [], outstanding := 1, logSize := LOGSIZE }

/-- The blocks taken for a write. -/
def takenBlocks (sb : Superblock) (v : Nat → Block) (i off n : Nat) : Finset Nat :=
  ((freeBlocks sb v).take (grow v (dino sb v) i (span off n))).toFinset

/-- Their bitmap blocks. -/
def bitmapBlocks (sb : Superblock) (v : Nat → Block) (i off n : Nat) : Finset Nat :=
  (((freeBlocks sb v).take (grow v (dino sb v) i (span off n))).map fun b => BBLOCK b sb).toFinset

/-- The blocks of the span that are there already. -/
def heldBlocks (sb : Superblock) (v : Nat → Block) (i off n : Nat) : Finset Nat :=
  (((span off n).map fun bn => slots v (dino sb v) (i, bnSlot bn)).filter (· ≠ 0)).toFinset

/-- The write puts an address into the indirect block. -/
def Enters (sb : Superblock) (v : Nat → Block) (i off n : Nat) : Prop :=
  ∃ bn ∈ span off n, NDIRECT ≤ bn ∧ slots v (dino sb v) (i, bnSlot bn) = 0

instance (sb : Superblock) (v : Nat → Block) (i off n : Nat) : Decidable (Enters sb v i off n) :=
  inferInstanceAs (Decidable (∃ bn ∈ span off n, NDIRECT ≤ bn ∧ slots v (dino sb v) (i, bnSlot bn) = 0))

/-! ## The blocks, counted -/

section Count

variable {sb : Superblock} {v : Nat → Block} {i off n : Nat}

theorem writeBlocks_eq : writeBlocks sb v i off n
    = takenBlocks sb v i off n ∪ bitmapBlocks sb v i off n ∪ heldBlocks sb v i off n ∪
      if Enters sb v i off n ∧ slots v (dino sb v) (i, NDIRECT) ≠ 0 then {slots v (dino sb v) (i, NDIRECT)} else ∅ :=
  rfl

theorem mem_takenBlocks (h : Own sb v (dino sb v) ∅) {b : Nat} (hb : b ∈ takenBlocks sb v i off n) :
    datastart sb ≤ b ∧ ∀ x, slots v (dino sb v) x ≠ b := by
  obtain ⟨h1, h2⟩ := mem_freeBlocks.mp (mem_of_mem_take (mem_toFinset.mp hb))
  obtain ⟨h3, -, h4⟩ := h.unmarked h1 h2
  exact ⟨h3, h4⟩

theorem mem_bitmapBlocks {c : Nat} (hc : c ∈ bitmapBlocks sb v i off n) : sb.bmapstart ≤ c ∧ c < datastart sb := by
  obtain ⟨b, hb, rfl⟩ := mem_map.mp (mem_toFinset.mp hc)
  exact ⟨bmapstart_le_bblock b, bblock_lt (mem_freeBlocks.mp (mem_of_mem_take hb)).1⟩

theorem mem_heldBlocks {b : Nat} (hb : b ∈ heldBlocks sb v i off n) :
    b ≠ 0 ∧ ∃ bn, slots v (dino sb v) (i, bnSlot bn) = b := by
  obtain ⟨h1, h2⟩ := mem_filter.mp (mem_toFinset.mp hb)
  obtain ⟨bn, -, rfl⟩ := mem_map.mp h1
  exact ⟨of_decide_eq_true h2, bn, rfl⟩

theorem card_takenBlocks (hfree : grow v (dino sb v) i (span off n) ≤ (freeBlocks sb v).length) :
    (takenBlocks sb v i off n).card = grow v (dino sb v) i (span off n) := by
  have hnodup : (freeBlocks sb v).Nodup := nodup_range.filter _
  rw [takenBlocks, toFinset_card_of_nodup (hnodup.sublist (take_sublist _ _)), length_take, min_eq_left hfree]

theorem card_heldBlocks (h : Own sb v (dino sb v) ∅) : (heldBlocks sb v i off n).card
    = ((span off n).filter fun bn => slots v (dino sb v) (i, bnSlot bn) ≠ 0).length := by
  rw [heldBlocks, filter_map, toFinset_card_of_nodup, length_map]
  · rfl
  · refine List.Nodup.map_on (fun a ha b _ heq => ?_) (List.Nodup.filter _ nodup_range')
    have hne : slots v (dino sb v) (i, bnSlot a) ≠ 0 := of_decide_eq_true (mem_filter.mp ha).2
    exact bnSlot_inj (congrArg Prod.snd (h.once _ _ hne heq))

/-- Every block of the span is held or taken, and the indirect block is taken if it is needed and not there. -/
theorem grow_add_held : grow v (dino sb v) i (span off n)
      + ((span off n).filter fun bn => slots v (dino sb v) (i, bnSlot bn) ≠ 0).length = (span off n).length
      + if slots v (dino sb v) (i, NDIRECT) = 0 ∧ Enters sb v i off n then 1 else 0 := by
  have hsplit : (span off n).length = ((span off n).filter fun bn => slots v (dino sb v) (i, bnSlot bn) = 0).length
      + ((span off n).filter fun bn => slots v (dino sb v) (i, bnSlot bn) ≠ 0).length := by
    rw [length_eq_length_filter_add fun bn => decide (slots v (dino sb v) (i, bnSlot bn) = 0)]
    congr 2
    refine filter_congr fun bn _ => ?_
    rw [decide_not]
  have hneeds : (slots v (dino sb v) (i, NDIRECT) = 0 ∧ ∃ bn ∈ span off n, NDIRECT ≤ bn) ↔
      slots v (dino sb v) (i, NDIRECT) = 0 ∧ Enters sb v i off n := by
    constructor
    · rintro ⟨hind, bn, hbn, hge⟩
      exact ⟨hind, bn, hbn, hge, not_not.mp fun h0 => indirect_of_entry hge h0 hind⟩
    · rintro ⟨hind, bn, hbn, hge, -⟩
      exact ⟨hind, bn, hbn, hge⟩
  rw [grow, if_congr hneeds rfl rfl, hsplit]
  omega

/-- **How many blocks the loop of `writei` logs.** -/
theorem card_writeBlocks_eq (h : Own sb v (dino sb v) ∅)
    (hfree : grow v (dino sb v) i (span off n) ≤ (freeBlocks sb v).length) : (writeBlocks sb v i off n).card
      = (span off n).length + (if Enters sb v i off n then 1 else 0) + (bitmapBlocks sb v i off n).card := by
  have hdata : ∀ x, slots v (dino sb v) x ≠ 0 →
      slots v (dino sb v) x ∉ takenBlocks sb v i off n ∪ bitmapBlocks sb v i off n := by
    intro x hx hc
    rcases mem_union.mp hc with hc | hc
    · exact (mem_takenBlocks h hc).2 x rfl
    · exact not_lt.mpr (h.cell x hx).1 (mem_bitmapBlocks hc).2
  have h1 : Disjoint (takenBlocks sb v i off n) (bitmapBlocks sb v i off n) :=
    disjoint_left.mpr fun b hb hc => not_lt.mpr (mem_takenBlocks h hb).1 (mem_bitmapBlocks hc).2
  have h2 : Disjoint (takenBlocks sb v i off n ∪ bitmapBlocks sb v i off n) (heldBlocks sb v i off n) := by
    refine disjoint_right.mpr fun b hb => ?_
    obtain ⟨h0, bn, rfl⟩ := mem_heldBlocks hb
    exact hdata _ h0
  have h3 : slots v (dino sb v) (i, NDIRECT) ≠ 0 → slots v (dino sb v) (i, NDIRECT) ∉
      takenBlocks sb v i off n ∪ bitmapBlocks sb v i off n ∪ heldBlocks sb v i off n := by
    intro hind hc
    rcases mem_union.mp hc with hc | hc
    · exact hdata _ hind hc
    · obtain ⟨-, bn, hbn⟩ := mem_heldBlocks hc
      have hslot : NDIRECT = bnSlot bn := congrArg Prod.snd (h.once _ _ hind hbn.symm)
      rw [bnSlot] at hslot
      split at hslot <;> omega
  have hcards := card_takenBlocks hfree
  have hgrow : grow v (dino sb v) i (span off n) + (heldBlocks sb v i off n).card = (span off n).length
      + if slots v (dino sb v) (i, NDIRECT) = 0 ∧ Enters sb v i off n then 1 else 0 := by
    rw [card_heldBlocks h, grow_add_held]
  rw [writeBlocks_eq]
  by_cases hind : slots v (dino sb v) (i, NDIRECT) = 0
  · rw [if_neg (fun hc => hc.2 hind), union_empty, card_union_of_disjoint h2, card_union_of_disjoint h1]
    rw [if_congr (and_iff_right hind) rfl rfl] at hgrow
    omega
  · rw [if_neg (fun hc => hind hc.1)] at hgrow
    by_cases he : Enters sb v i off n
    · rw [if_pos ⟨he, hind⟩, if_pos he, card_union_of_disjoint (disjoint_singleton_right.mpr (h3 hind)),
        card_union_of_disjoint h2, card_union_of_disjoint h1, card_singleton]
      omega
    · rw [if_neg (fun hc => he hc.1), if_neg he, union_empty, card_union_of_disjoint h2, card_union_of_disjoint h1]
      omega

theorem card_bitmapBlocks_le : (bitmapBlocks sb v i off n).card ≤ grow v (dino sb v) i (span off n) := by
  refine le_trans (toFinset_card_le _) ?_
  rw [length_map]
  exact length_take_le _ _

/-- A write that takes a block changes a bitmap block. -/
theorem card_bitmapBlocks_pos (h : 0 < grow v (dino sb v) i (span off n))
    (hfree : grow v (dino sb v) i (span off n) ≤ (freeBlocks sb v).length) : 0 < (bitmapBlocks sb v i off n).card := by
  refine card_pos.mpr (toFinset_nonempty_iff _ |>.mpr fun hnil => ?_)
  have hlen := congrArg length hnil
  rw [length_map, length_take, min_eq_left hfree, length_nil] at hlen
  omega

theorem iblock_notMem_writeBlocks (hl : Layout sb) (h : Own sb v (dino sb v) ∅) (hi : i < sb.ninodes) :
    IBLOCK i sb ∉ writeBlocks sb v i off n := by
  have hlt := iblock_lt hl hi
  have hdata : sb.bmapstart < datastart sb := bmapstart_lt_datastart
  intro hc
  rcases mem_union.mp hc with hc | hc
  · rcases mem_union.mp hc with hc | hc
    · rcases mem_union.mp hc with hc | hc
      · have := (mem_takenBlocks h hc).1
        omega
      · have := (mem_bitmapBlocks hc).1
        omega
    · obtain ⟨h0, bn, hbn⟩ := mem_heldBlocks hc
      have := (h.cell (i, bnSlot bn) (hbn ▸ h0)).1
      omega
  · split at hc
    next hcond =>
      have := (h.cell (i, NDIRECT) hcond.2).1
      rw [Finset.mem_singleton] at hc
      omega
    next => exact absurd hc (notMem_empty _)

end Count

/-! ## What `writei` logs -/

section Chunk

variable {sb : Superblock} {s s' : LState} {ip : Fin NINODE} {i : Nat} {x : Node} {off n : UInt32}
  {src : Nat → UInt8} {r : Int}

theorem Regular.alone (h : Regular sb s ip i x) : Regular sb (alone s) ip i x :=
  ⟨h.layout, h.super, h.own, h.whole, h.inum, h.din, h.node, h.file⟩

section

variable (h : Regular sb s ip i x) (hoff : off.toNat ≤ x.size) (hmax : off.toNat + n.toNat ≤ MAXFILE * BSIZE)
include h hoff hmax

/-- The log after `writei` in a transaction that has logged none but these blocks before. -/
theorem Regular.writei_logs
    (hfree : grow s.view (dino sb s.view) i (span off.toNat n.toNat) ≤ (freeBlocks sb s.view).length)
    (hlog : Begun (writeBlocks sb s.view i off.toNat n.toNat) s)
    (hr : exec (Xv6Fs.writei ip src off n) s = .done r s') :
    s'.lh.Nodup ∧ s'.lh.toFinset = insert (IBLOCK i sb) (writeBlocks sb s.view i off.toNat n.toNat) := by
  obtain ⟨h0, hdev, hsize, -⟩ := h.fields
  obtain ⟨hgood, hlast⟩ : Accepts (dino sb s.view i).size off n := accepts_iff.mpr ⟨hsize ▸ hoff, hmax⟩
  have hroom : Room ↑(writeBlocks sb s.view i off.toNat n.toNat) sb s.view (dino sb s.view) i
      (span off.toNat n.toNat) := Room.of_writeBlocks (Finset.Subset.refl _)
  rw [Xv6Fs.writei, exec_getInode, ← h.din, if_neg hdev, if_neg hgood, if_neg (not_lt.mpr hlast)] at hr
  obtain ⟨_, s1, hloop, hfinish⟩ := exec_bind_done.mp hr
  obtain ⟨_, s2, hloop', hbegun⟩ := writeiLoop_ends (n := n.toNat) (keeps_begun _) h.layout src n.toNat 0 off.toNat s
    (dino sb s.view) (Nat.le_refl _) (by rw [Nat.sub_zero]; exact hmax) h.super h.own h.din h0
    hroom hfree hlog
  rw [hloop] at hloop'
  cases hloop'
  obtain ⟨D', hw⟩ := does_exec (writeiLoop_does (N := True) (n := n.toNat) h.layout src n.toNat 0 off.toNat s
    (dino sb s.view) (le_refl _) h.super h.own h.din h0 hroom) hloop
  have hmem : s1.mem.sb = sb ∧ (s1.mem.icache ip).inum = i := by
    rw [hw.state, edit_sb, edit_inode]
    exact ⟨h.super, h.inum⟩
  obtain ⟨-, t, f, hs'⟩ := does_exec (writeiFinish_does (W := Set.univ) (N := True) hmem.1 hmem.2 trivial) hfinish
  have hlh : s'.lh = absorb s1.lh (IBLOCK i sb) := by rw [hs']; rfl
  have hloop : ∀ c, c ∈ s1.lh ↔ c ∈ writeBlocks sb s.view i off.toNat n.toNat := by
    intro c
    refine ⟨hbegun.within c, fun hc => (hw.logged c).mpr (.inr ?_)⟩
    rcases mem_union.mp hc with hc | hc
    · rcases mem_union.mp hc with hc | hc
      · rcases mem_union.mp hc with hc | hc
        · exact .inl ⟨c, mem_toFinset.mp hc, .inl rfl⟩
        · obtain ⟨b, hb, rfl⟩ := mem_map.mp (mem_toFinset.mp hc)
          exact .inl ⟨b, hb, .inr rfl⟩
      · obtain ⟨h1, h2⟩ := mem_filter.mp (mem_toFinset.mp hc)
        obtain ⟨bn, hbn, rfl⟩ := mem_map.mp h1
        exact .inr (.inl ⟨bn, hbn, (hw.evolves.keep _ (of_decide_eq_true h2)).symm⟩)
    · split at hc
      next hcond =>
        rw [Finset.mem_singleton] at hc
        exact .inr (.inr ⟨hcond.1, hc.trans (hw.evolves.keep _ hcond.2).symm⟩)
      next => exact absurd hc (notMem_empty _)
  rw [hlh]
  refine ⟨absorb_nodup hbegun.once, ?_⟩
  ext c
  rw [mem_toFinset, mem_absorb, hloop, mem_insert, or_comm]

/-- The free blocks after `writei`, and the blocks of the file beside the span. -/
theorem Regular.writei_beside
    (hr : exec (Xv6Fs.writei ip src off n) s = .done r s') : freeBlocks sb s'.view
      = (freeBlocks sb s.view).drop (grow s.view (dino sb s.view) i (span off.toNat n.toNat)) ∧
    ∀ m, m ∉ span off.toNat n.toNat →
      slots s'.view (dino sb s'.view) (i, bnSlot m) = slots s.view (dino sb s.view) (i, bnSlot m) := by
  obtain ⟨h0, hdev, hsize, -⟩ := h.fields
  have hacc : Accepts (dino sb s.view i).size off n := accepts_iff.mpr ⟨hsize ▸ hoff, hmax⟩
  rcases does_exec (writei_rewrites (W := Set.univ) (N := True) h.super h.inum h.din
    h0 hdev (fun _ => room_univ) trivial h.layout h.own h.whole) hr with ⟨hc, -⟩ | ⟨-, -, d, f, -, hre⟩
  · exact absurd hacc hc
  · rw [hre.table]
    exact ⟨hre.free, hre.beside⟩

end

theorem length_span_le {off n k : Nat} (h : n ≤ k * BSIZE) : (span off n).length ≤ k + 1 := by
  rw [span, length_range']
  unfold BSIZE at *
  split <;> omega

/-- The log after a chunk by itself. -/
theorem Regular.chunk_logs (h : Regular sb s ip i x) (src : Nat → UInt8) (hoff : off.toNat ≤ x.size)
    (hn : n.toNat ≤ Xv6Sys.filewriteMax) (hmax : off.toNat + n.toNat ≤ MAXFILE * BSIZE)
    (hfree : grow s.view (dino sb s.view) i (span off.toNat n.toNat) ≤ (freeBlocks sb s.view).length) :
    ∃ s', exec (Xv6Fs.writei ip src off n) (Xv6Own.alone s) = .done (n.toNat : Int) s' ∧ s'.lh.Nodup ∧
      s'.lh.length = (span off.toNat n.toNat).length + (if Enters sb s.view i off.toNat n.toNat then 1 else 0)
        + (bitmapBlocks sb s.view i off.toNat n.toNat).card + 1 := by
  have hspan : (span off.toNat n.toNat).length ≤ 8 := length_span_le (le_trans hn (by decide))
  have hcard := card_writeBlocks sb s.view i off.toNat n.toNat
  have hlog : Begun (writeBlocks sb s.view i off.toNat n.toNat) (Xv6Own.alone s) := by
    refine ⟨Int.le_refl 1, nodup_nil, fun b hb => absurd hb not_mem_nil, ?_, ?_⟩
    · show (writeBlocks sb s.view i off.toNat n.toNat).card < 30
      omega
    · show (writeBlocks sb s.view i off.toNat n.toNat).card + 1 < 30
      omega
  have hlog' : Begun ((Xv6Own.alone s).lh.toFinset ∪ writeBlocks sb s.view i off.toNat n.toNat)
      (Xv6Own.alone s) := by
    rw [show (Xv6Own.alone s).lh.toFinset = ∅ from rfl, empty_union]
    exact hlog
  obtain ⟨s', hr, -, -⟩ := h.alone.writei src hoff hmax hfree hlog'
  obtain ⟨hnodup, (hset : s'.lh.toFinset = insert (IBLOCK i sb) (writeBlocks sb s.view i off.toNat n.toNat))⟩ :=
    h.alone.writei_logs hoff hmax hfree hlog hr
  have hi : i < sb.ninodes := (dino_range h.fields.1).2
  refine ⟨s', hr, hnodup, ?_⟩
  rw [← toFinset_card_of_nodup hnodup, hset, card_insert_of_notMem (iblock_notMem_writeBlocks h.layout h.own hi),
    ← card_writeBlocks_eq h.own hfree]

/-- **A chunk of `filewrite` fits its reservation** exactly if the blocks it spans, the indirect block if it gets
    an address, the bitmap blocks of the blocks taken and the block of the inode are not more than `MAXOPBLOCKS`.
    For every regular file, every offset in it and every length of a chunk, with enough free blocks; a chunk that
    would make the file too large logs nothing. -/
theorem filewrite_chunk_fits_iff (h : Regular sb s ip i x) (src : Nat → UInt8) (off n : UInt32)
    (hoff : off.toNat ≤ x.size) (hn : n.toNat ≤ Xv6Sys.filewriteMax)
    (hfree : grow s.view (dino sb s.view) i (span off.toNat n.toNat) ≤ (freeBlocks sb s.view).length) :
    ∃ r s', exec (Xv6Fs.writei ip src off n) (Xv6Own.alone s) = .done r s' ∧ s'.lh.Nodup ∧
      (s'.lh.length ≤ MAXOPBLOCKS ↔ (off.toNat + n.toNat ≤ MAXFILE * BSIZE →
        (span off.toNat n.toNat).length + (if Enters sb s.view i off.toNat n.toNat then 1 else 0)
          + (bitmapBlocks sb s.view i off.toNat n.toNat).card + 1 ≤ MAXOPBLOCKS)) := by
  by_cases hmax : off.toNat + n.toNat ≤ MAXFILE * BSIZE
  · obtain ⟨s', hr, hnodup, hlen⟩ := h.chunk_logs src hoff hn hmax hfree
    exact ⟨_, s', hr, hnodup, by rw [hlen]; exact ⟨fun hc _ => hc, fun hc => hc hmax⟩⟩
  · refine ⟨_, _, h.alone.writei_refuses src fun hc => hmax hc.2, nodup_nil, ?_⟩
    exact ⟨fun _ hc => absurd hc hmax, fun _ => Nat.zero_le _⟩

end Chunk

open Xv6Mkfs

/-! ## A chunk that does not fit -/

/-- A byte of the empty file of a new disk. -/
theorem filewrite_chunk_fits_iff_byte : ∃ img j r s', mkfs (files 1) = some img ∧
    exec (writei firstInode (fun _ => 65) 0 1) (alone (opened img j)) = .done r s' ∧ s'.lh.length ≤ MAXOPBLOCKS := by
  obtain ⟨img, j, h, hd, htype, hsize, hfree⟩ := mkfs_empty_file
  obtain ⟨x, hx, hreg⟩ := opened_regular hd htype hsize
  have hgrow : grow img (dino sb img) j (span 0 1) ≤ 2 := grow_le img (dino sb img) j (span 0 1)
  obtain ⟨r, s', hr, -, hiff⟩ := filewrite_chunk_fits_iff hreg (fun _ => 65) 0 1 (Nat.zero_le _) (by decide)
    (le_trans hgrow (le_trans (by decide) hfree))
  have hbits : (bitmapBlocks sb img j 0 1).card ≤ 2 := le_trans card_bitmapBlocks_le hgrow
  have hone : (if Enters sb img j 0 1 then 1 else 0) ≤ 1 := by
    split
    · exact le_refl 1
    · exact Nat.zero_le 1
  refine ⟨img, j, r, s', h, hr, hiff.mpr fun _ => ?_⟩
  show 1 + (if Enters sb img j 0 1 then 1 else 0) + (bitmapBlocks sb img j 0 1).card + 1 ≤ 10
  omega

section Eleven

variable {img : Nat → Block} {j : Nat} {x : Node}

/-- The first six blocks of the file are written: block 12 and the free blocks after that. -/
theorem six_blocks (h : mkfs (files 1) = some img)
    (htype : (dino sb img j).type = T_FILE) (hsize : (dino sb img j).size = 0)
    (hfree : 1000 ≤ (freeBlocks sb img).length) (hx : x.size = 0)
    (hreg : Regular sb (opened img j) firstInode j x) (src : Nat → UInt8) :
    ∃ s1 y, exec (writei firstInode src 0 6144) (opened img j) = .done 6144 s1 ∧
      Regular sb s1 firstInode j y ∧ y.size = 6144 ∧
      slots s1.view (dino sb s1.view) (j, bnSlot 12) = 0 ∧ 900 ≤ (freeBlocks sb s1.view).length := by
  have hlen : (span 0 6144).length = 6 := by decide
  have hgrow := grow_le img (dino sb img) j (span 0 6144)
  have hcard := card_writeBlocks sb img j 0 6144
  have hlog : Begun ((opened img j).lh.toFinset ∪ writeBlocks sb img j 0 6144) (opened img j) := by
    refine ⟨Int.le_refl 1, nodup_nil, fun b hb => absurd hb not_mem_nil, ?_, ?_⟩
    · exact lt_of_le_of_lt hcard (by decide)
    · exact lt_of_le_of_lt (Nat.add_le_add_right hcard 1) (show 3 * 6 + 3 + 1 < sb.nlog by decide)
  have hroom : grow img (dino sb img) j (span 0 6144) ≤ (freeBlocks sb img).length := by omega
  have hoff : (0 : UInt32).toNat ≤ x.size := Nat.zero_le _
  have hmax : (0 : UInt32).toNat + (6144 : UInt32).toNat ≤ MAXFILE * BSIZE := by decide
  obtain ⟨s1, hr, hreg1, -⟩ := hreg.writei src hoff hmax hroom hlog
  obtain ⟨hdrop, hbeside⟩ := hreg.writei_beside hoff hmax hr
  refine ⟨s1, _, hr, hreg1, ?_, ?_, ?_⟩
  · show max x.size 6144 = 6144
    rw [hx]
    rfl
  · rw [hbeside 12 (by decide)]
    by_contra hc
    have := (mkfs_file_mapped h htype 12).mp hc
    rw [hsize] at this
    exact Nat.not_lt_zero _ this
  · have hfree' : 1000 ≤ (freeBlocks sb (opened img j).view).length := hfree
    have hgrow' : grow (opened img j).view (dino sb (opened img j).view) j
      (span (0 : UInt32).toNat (6144 : UInt32).toNat) ≤ 7 := hgrow
    rw [hdrop, length_drop]
    omega

end Eleven

/-- **Eleven blocks in a chunk**: 6656 bytes from the last byte of a file of six blocks on. -/
theorem filewrite_chunk_eleven : ∃ img j s1 x r s', mkfs (files 1) = some img ∧
    exec (writei firstInode (fun _ => 65) 0 6144) (opened img j) = .done 6144 s1 ∧
    Regular sb s1 firstInode j x ∧ (6143 : UInt32).toNat ≤ x.size ∧ (6656 : UInt32).toNat ≤ Xv6Sys.filewriteMax ∧
    exec (writei firstInode (fun _ => 65) 6143 6656) (alone s1) = .done r s' ∧ s'.lh.Nodup ∧
    MAXOPBLOCKS < s'.lh.length := by
  obtain ⟨img, j, h, hd, htype, hsize, hfree⟩ := mkfs_empty_file
  obtain ⟨x, hx, hreg⟩ := opened_regular hd htype hsize
  obtain ⟨s1, y, hr1, hreg1, hy, hslot, hfree1⟩ := six_blocks h htype hsize hfree hx hreg fun _ => 65
  have hlen : (span 6143 6656).length = 8 := by decide
  have hgrow := grow_le s1.view (dino sb s1.view) j (span 6143 6656)
  have hroom : grow s1.view (dino sb s1.view) j (span 6143 6656)
      ≤ (freeBlocks sb s1.view).length := by omega
  have hent : Enters sb s1.view j 6143 6656 := ⟨12, by decide, by decide, hslot⟩
  have hpos : 0 < grow s1.view (dino sb s1.view) j (span 6143 6656) := by
    refine Nat.add_pos_left (length_pos_of_mem (a := 12) (mem_filter.mpr ⟨by decide, ?_⟩)) _
    exact decide_eq_true hslot
  have hbits := card_bitmapBlocks_pos hpos hroom
  have hoff : (6143 : UInt32).toNat ≤ y.size := by rw [hy]; decide
  have hn : (6656 : UInt32).toNat ≤ Xv6Sys.filewriteMax := by decide
  obtain ⟨s', hr, hnodup, hcount⟩ := hreg1.chunk_logs (fun _ => 65) hoff hn (by decide) hroom
  refine ⟨img, j, s1, y, _, s', h, hr1, hreg1, hoff, hn, hr, hnodup, ?_⟩
  have hcount' : s'.lh.length = (span 6143 6656).length
    + (if Enters sb s1.view j 6143 6656 then 1 else 0)
    + (bitmapBlocks sb s1.view j 6143 6656).card + 1 := hcount
  rw [hcount', hlen, if_pos hent]
  show 10 < _
  omega

end Xv6Own
