import Xv6.KernelTotalProofs
import Xv6.MkfsDiskProofs

/-!
# `readi` and `writei` — a byte array

A regular file without holes is an array of bytes (`Node`: a size and the bytes below it). `readi` reads
from the array and `writei` writes to it, returning -1 for a range that the file does not have or cannot
get, and neither touches another inode. `writei` needs as many free blocks as the array grows by, and a
transaction with room for the blocks it writes: a write of `MAXFILE` blocks in one transaction is larger
than the log, and `log_write` panics.
-/

namespace Xv6Own

open CmdProg ByteBuf Xv6Disk Xv6Kernel Xv6Fs Xv6Layout Xv6Total Ledger Function List UInt32

/-! ## The array -/

/-- Inode `i`, with `ip` its copy in memory, is the regular file `x`, without holes. -/
structure Regular (sb : Superblock) (s : LState) (ip : Fin NINODE) (i : Nat) (x : Node) : Prop where
  layout : Layout sb
  super : s.mem.sb = sb
  own : Own sb s.view (dino sb s.view) ∅
  whole : Whole s.view (dino sb s.view) i
  inum : (s.mem.icache ip).inum = i
  din : dino sb s.view i = (s.mem.icache ip).din
  node : nodes sb s.view i = some x
  file : x.type = T_FILE

/-- The bytes from `off` on, `n` of them or up to the end. -/
def Node.read (x : Node) (off n : Nat) : List UInt8 :=
  (range (min n (x.size - off))).map fun j => x.bytes (off + j)

/-- The blocks that the loop of `writei` logs: those it takes and their bitmap blocks, those there are
    already, and the indirect block if it gets an entry. -/
def writeBlocks (sb : Superblock) (v : Nat → Block) (i off n : Nat) : Finset Nat :=
  ((freeBlocks sb v).take (grow v (dino sb v) i (span off n))).toFinset ∪
  (((freeBlocks sb v).take (grow v (dino sb v) i (span off n))).map fun b => BBLOCK b sb).toFinset ∪
  (((span off n).map fun bn => slots v (dino sb v) (i, bnSlot bn)).filter (· ≠ 0)).toFinset ∪
  if (∃ bn ∈ span off n, NDIRECT ≤ bn ∧ slots v (dino sb v) (i, bnSlot bn) = 0) ∧
      slots v (dino sb v) (i, NDIRECT) ≠ 0 then {slots v (dino sb v) (i, NDIRECT)} else ∅

section Array

variable {sb : Superblock} {s : LState} {ip : Fin NINODE} {i : Nat} {x : Node} {off n : UInt32}
  {src : Nat → UInt8}

theorem Regular.fields (h : Regular sb s ip i x) : (dino sb s.view i).type ≠ 0 ∧
    (dino sb s.view i).type ≠ T_DEV ∧ x.size = (dino sb s.view i).size.toNat ∧
    x.bytes = bytesOf s.view (dino sb s.view) i := by
  obtain ⟨h0, htype, -, hsize, hbytes⟩ := nodesOf_some h.node
  refine ⟨h0, ?_, hsize, hbytes⟩
  rw [← htype, h.file]
  decide

theorem Room.of_writeBlocks {V : Finset Nat} (h : writeBlocks sb s.view i off.toNat n.toNat ⊆ V) :
    Room ↑V sb s.view (dino sb s.view) i (span off.toNat n.toNat) := by
  refine ⟨fun b hb => ⟨h ?_, h ?_⟩, fun h1 h2 => h ?_, fun bn hbn h0 => h ?_⟩
  all_goals simp only [writeBlocks, Finset.mem_union]
  · exact .inl (.inl (.inl (mem_toFinset.mpr hb)))
  · exact .inl (.inl (.inr (mem_toFinset.mpr (mem_map_of_mem hb))))
  · rw [if_pos ⟨h1, h2⟩]
    exact .inr (Finset.mem_singleton_self _)
  · refine .inl (.inr (mem_toFinset.mpr (mem_filter.mpr ⟨mem_map_of_mem hbn, ?_⟩)))
    exact decide_eq_true h0

/-- The condition of `writei` on its range, in numbers. -/
theorem accepts_iff {size : UInt32} : Accepts size off n ↔
    off.toNat ≤ size.toNat ∧ off.toNat + n.toNat ≤ MAXFILE * BSIZE := by
  have hmax : MAXFILE * BSIZE < 2 ^ 32 := by decide
  rw [Accepts, not_or, UInt32.lt_iff_toNat_lt, UInt32.lt_iff_toNat_lt, UInt32.toNat_add]
  have h1 := off.toNat_lt
  have h2 := n.toNat_lt
  omega

theorem readLen_toNat {size : UInt32} (h1 : off.toNat ≤ size.toNat) (h2 : off.toNat + n.toNat < 2 ^ 32) :
    (readLen size off n).toNat = min n.toNat (size.toNat - off.toNat) := by
  have hadd : (off + n).toNat = off.toNat + n.toNat := by
    exact Nat.mod_eq_of_lt h2
  unfold readLen
  split_ifs with h3
  · rw [UInt32.toNat_sub_of_le _ _ (UInt32.le_iff_toNat_le.mpr h1)]
    rw [lt_iff_toNat_lt] at h3
    omega
  · rw [lt_iff_toNat_lt] at h3
    omega

/-- What `readi` returns, in numbers. -/
theorem Regular.readResult (h : Regular sb s ip i x) : readResult s.view (dino sb s.view) i off n
    = if off.toNat ≤ x.size ∧ off.toNat + n.toNat < 2 ^ 32 then
        (((x.read off.toNat n.toNat).length : Int), x.read off.toNat n.toNat) else (-1, []) := by
  obtain ⟨-, -, hsize, hbytes⟩ := h.fields
  have hbad : ((dino sb s.view i).size < off ∨ off + n < off) ↔
      ¬ (off.toNat ≤ x.size ∧ off.toNat + n.toNat < 2 ^ 32) := by
    rw [UInt32.lt_iff_toNat_lt, UInt32.lt_iff_toNat_lt, UInt32.toNat_add, hsize]
    have h1 := off.toNat_lt
    have h2 := n.toNat_lt
    omega
  unfold Xv6Own.readResult
  by_cases hin : off.toNat ≤ x.size ∧ off.toNat + n.toNat < 2 ^ 32
  · rw [if_neg (fun hc => hbad.mp hc hin), if_pos hin, readLen_toNat (hsize ▸ hin.1) hin.2, Node.read,
      length_map, length_range, hbytes, hsize]
  · rw [if_pos (hbad.mpr hin), if_neg hin]

/-- `readi` on the array. -/
theorem Regular.readi (h : Regular sb s ip i x) (off n : UInt32) : exec (readi ip off n) s
    = .done (if off.toNat ≤ x.size ∧ off.toNat + n.toNat < 2 ^ 32 then
        (((x.read off.toNat n.toNat).length : Int), x.read off.toNat n.toNat) else (-1, [])) s := by
  obtain ⟨h0, hdev, -, -⟩ := h.fields
  obtain ⟨r, s', hr, -⟩ := readi_ends keeps_none h.layout h.own h.whole h.super h.din h0 hdev off n trivial
  obtain ⟨rfl, rfl⟩ := does_exec (readi_does (W := ∅) (N := True) h.din h0 hdev h.whole) hr
  rw [hr, h.readResult]

/-- `writei` outside the range. -/
theorem Regular.writei_refuses (h : Regular sb s ip i x) (src : Nat → UInt8)
    (hout : ¬ (off.toNat ≤ x.size ∧ off.toNat + n.toNat ≤ MAXFILE * BSIZE)) :
    exec (writei ip src off n) s = .done (-1) s := by
  obtain ⟨h0, hdev, hsize, -⟩ := h.fields
  have hacc : ¬ Accepts (dino sb s.view i).size off n := by
    rw [accepts_iff, ← hsize]
    exact hout
  obtain ⟨r, s', hr⟩ := writei_finishes (V := ∅) src h.layout h.own h.super h.inum h.din h0 hdev
    fun hc => absurd hc hacc
  rcases does_exec (writei_rewrites (W := Set.univ) (N := True) h.super h.inum h.din
    h0 hdev (fun hc => absurd hc hacc) trivial h.layout h.own h.whole) hr with ⟨-, rfl, rfl⟩ | ⟨hc, -⟩
  · exact hr
  · exact absurd hc hacc

/-- `writei` on the array, in a transaction with room for the blocks. -/
theorem Regular.writei (h : Regular sb s ip i x) (src : Nat → UInt8) (hoff : off.toNat ≤ x.size)
    (hmax : off.toNat + n.toNat ≤ MAXFILE * BSIZE)
    (hfree : grow s.view (dino sb s.view) i (span off.toNat n.toNat) ≤ (freeBlocks sb s.view).length)
    (hlog : Begun (s.lh.toFinset ∪ writeBlocks sb s.view i off.toNat n.toNat) s) :
    ∃ s', exec (writei ip src off n) s = .done (n.toNat : Int) s' ∧ Regular sb s' ip i (x.write off.toNat n.toNat src) ∧
      nodes sb s'.view = update (nodes sb s.view) i (some (x.write off.toNat n.toNat src)) := by
  obtain ⟨h0, hdev, hsize, -⟩ := h.fields
  have hacc : Accepts (dino sb s.view i).size off n := accepts_iff.mpr ⟨hsize ▸ hoff, hmax⟩
  have hroom : Room ↑(s.lh.toFinset ∪ writeBlocks sb s.view i off.toNat n.toNat) sb s.view (dino sb s.view) i
      (span off.toNat n.toNat) := Room.of_writeBlocks Finset.subset_union_right
  obtain ⟨r, s', hr⟩ := writei_finishes src h.layout h.own h.super h.inum h.din h0 hdev
    fun _ => ⟨hlog, hroom, hfree⟩
  rcases does_exec (writei_rewrites (W := Set.univ) (N := True) h.super h.inum h.din
    h0 hdev (fun _ => room_univ) trivial h.layout h.own h.whole) hr with ⟨hc, -⟩ | ⟨-, rfl, d, f, hs, hre⟩
  · exact absurd hacc hc
  · obtain ⟨y, hy, hnode⟩ := hre.node
    obtain rfl : y = x := Option.some.inj (hy.symm.trans h.node)
    have hnodes := nodes_change hre.table hre.others
    rw [hnode] at hnodes
    have hmem : s'.mem.sb = sb ∧ (s'.mem.icache ip).inum = i ∧ (s'.mem.icache ip).din = d := by
      have hm : s'.mem = (edit s ip s'.view s'.lh d).mem := (congrArg LState.mem hs).trans rfl
      rw [hm, edit_sb, edit_inode]
      exact ⟨h.super, h.inum, rfl⟩
    refine ⟨s', hr, ⟨h.layout, hmem.1, ?_, ?_, hmem.2.1, ?_, ?_, h.file⟩, hnodes⟩
    · rw [hre.table]; exact hre.own
    · rw [hre.table]; exact hre.whole
    · rw [hre.table, update_self, hmem.2.2]
    · rw [hnodes, update_self]

/-- **`readi` and `writei` implement a byte array**, for every regular file without holes. `readi` delivers
    the bytes there are from an offset in the file on, and changes nothing. `writei` returns -1 and changes
    nothing if the offset is past the end or the file would become too large; otherwise, with enough free
    blocks and in a transaction with room for the blocks it writes, it returns `n`, the array is the one
    written to, and every other inode is what it was. -/
theorem readi_writei_byte_array (h : Regular sb s ip i x) : (∀ off n : UInt32, exec (Xv6Fs.readi ip off n) s
      = .done (if off.toNat ≤ x.size ∧ off.toNat + n.toNat < 2 ^ 32 then
          (((x.read off.toNat n.toNat).length : Int), x.read off.toNat n.toNat) else (-1, [])) s) ∧
    (∀ (src : Nat → UInt8) (off n : UInt32), ¬ (off.toNat ≤ x.size ∧ off.toNat + n.toNat ≤ MAXFILE * BSIZE) →
      exec (Xv6Fs.writei ip src off n) s = .done (-1) s) ∧
    (∀ (src : Nat → UInt8) (off n : UInt32), off.toNat ≤ x.size → off.toNat + n.toNat ≤ MAXFILE * BSIZE →
      grow s.view (dino sb s.view) i (span off.toNat n.toNat) ≤ (freeBlocks sb s.view).length →
      Begun (s.lh.toFinset ∪ writeBlocks sb s.view i off.toNat n.toNat) s →
      ∃ s', exec (Xv6Fs.writei ip src off n) s = .done (n.toNat : Int) s' ∧
        Regular sb s' ip i (x.write off.toNat n.toNat src) ∧ ∀ j, j ≠ i → nodes sb s'.view j = nodes sb s.view j) := by
  refine ⟨h.readi, fun src off n hout => h.writei_refuses src hout, ?_⟩
  intro src off n hoff hmax hfree hlog
  obtain ⟨s', hr, hreg, hnodes⟩ := h.writei src hoff hmax hfree hlog
  refine ⟨s', hr, hreg, fun j hj => ?_⟩
  rw [hnodes, update_of_ne hj]

end Array

/-! ## Writes that fit into the log, and writes that do not -/

section Log

variable {sb : Superblock} {s s' : LState} {ip : Fin NINODE} {i : Nat} {x : Node} {off n : UInt32}
  {src : Nat → UInt8}

/-- The log is not full. -/
def Fits (s : LState) : Prop := (s.lh.length : Int) ≤ s.logSize - 1

theorem lstep_fits {c : Cmd} {r : Resp c} (h : Fits s) (hr : lstep c s = .done r s') :
    Fits s' ∧ s'.logSize = s.logSize := by
  cases c with
  | bread b =>
    simp only [lstep] at hr
    split_ifs at hr
    cases hr; exact ⟨h, rfl⟩
  | logWrite b =>
    simp only [lstep] at hr
    split at hr
    · cases hr
    · rename_i hfull
      split at hr
      · cases hr
      · cases hr
        refine ⟨?_, rfl⟩
        have hlen : (absorb s.lh b).length ≤ s.lh.length + 1 := by
          rw [absorb]
          split
          · exact Nat.le_succ _
          · rw [length_append, length_singleton]
        show ((absorb s.lh b).length : Int) ≤ s.logSize - 1
        omega
  | beginOp =>
    simp only [lstep] at hr
    split_ifs at hr
    cases hr; exact ⟨h, rfl⟩
  | endOp =>
    simp only [lstep] at hr
    split at hr
    · cases hr
      refine ⟨?_, rfl⟩
      have hle : (0 : Int) ≤ s.lh.length := Int.natCast_nonneg _
      exact Int.le_trans hle h
    · cases hr; exact ⟨h, rfl⟩
  | stop e => exact r.elim
  | _ => cases hr; exact ⟨h, rfl⟩

/-- In a whole run. -/
theorem exec_fits {α : Type} {p : K α} {a : α} : ∀ {s : LState}, Fits s → exec p s = .done a s' →
    Fits s' ∧ s'.logSize = s.logSize := by
  induction p with
  | ret b => intro s h hr; cases hr; exact ⟨h, rfl⟩
  | op c k ih =>
    intro s h hr
    have hrun : (lstep c s).andThen (fun r s' => (k r).run lstep s') = .done a s' := hr
    cases hc : lstep c s with
    | done r s1 =>
      rw [hc] at hrun
      obtain ⟨h1, e1⟩ := lstep_fits h hc
      obtain ⟨h2, e2⟩ := ih r h1 hrun
      exact ⟨h2, e2.trans e1⟩
    | stop e s1 => rw [hc] at hrun; cases hrun

/-- **A write of as many blocks as the log has** does not finish. -/
theorem Regular.writei_too_big (h : Regular sb s ip i x) (hoff : off.toNat ≤ x.size)
    (hmax : off.toNat + n.toNat ≤ MAXFILE * BSIZE) (hfits : Fits s)
    (hbig : s.logSize ≤ (span off.toNat n.toNat).length) (r : Int) (s' : LState) :
    exec (Xv6Fs.writei ip src off n) s ≠ .done r s' := by
  intro hr
  obtain ⟨h0, hdev, hsize, -⟩ := h.fields
  obtain ⟨hgood, hlast⟩ : Accepts (dino sb s.view i).size off n := accepts_iff.mpr ⟨hsize ▸ hoff, hmax⟩
  rw [Xv6Fs.writei, exec_getInode, ← h.din, if_neg hdev, if_neg hgood, if_neg (not_lt.mpr hlast)] at hr
  obtain ⟨_, s1, hloop, -⟩ := exec_bind_done.mp hr
  obtain ⟨D', hw⟩ := does_exec (writeiLoop_does (N := True) h.layout src n.toNat 0 off.toNat s
    (dino sb s.view) (le_refl _) h.super h.own h.din h0 room_univ) hloop
  rw [Nat.sub_zero] at hw
  -- the blocks of the span are different, and all of them are in the log
  have hnodup : ((span off.toNat n.toNat).map fun bn => slots s1.view D' (i, bnSlot bn)).Nodup := by
    refine List.Nodup.map_on (fun a ha b hb heq => ?_) nodup_range'
    exact bnSlot_inj (congrArg Prod.snd (hw.evolves.own.once _ _ (hw.mapped a ha) heq))
  have hsub : ((span off.toNat n.toNat).map fun bn => slots s1.view D' (i, bnSlot bn)) ⊆ s1.lh := by
    intro c hc
    obtain ⟨bn, hbn, rfl⟩ := mem_map.mp hc
    exact (hw.logged _).mpr (.inr (.inr (.inl ⟨bn, hbn, rfl⟩)))
  have hlen := (subperm_of_subset hnodup hsub).length_le
  rw [length_map] at hlen
  obtain ⟨hfits', hsize'⟩ := exec_fits hfits hloop
  rw [Fits, hsize'] at hfits'
  omega

theorem grow_le (v : Nat → Block) (D : Nat → Dinode) (i : Nat) (bns : List Nat) : grow v D i bns ≤ bns.length + 1 := by
  refine Nat.add_le_add (length_filter_le _ _) ?_
  split
  · exact le_refl _
  · exact Nat.zero_le _

/-- How many blocks the loop of `writei` logs at most. -/
theorem card_writeBlocks (sb : Superblock) (v : Nat → Block) (i off n : Nat) :
    (writeBlocks sb v i off n).card ≤ 3 * (span off n).length + 3 := by
  rw [writeBlocks]
  generalize hnew : (freeBlocks sb v).take (grow v (dino sb v) i (span off n)) = new
  have hlen : new.length ≤ (span off n).length + 1 := by
    rw [← hnew]
    exact le_trans (length_take_le _ _) (grow_le v _ i _)
  have h1 := toFinset_card_le new
  have h2 := toFinset_card_le (new.map fun b => BBLOCK b sb)
  have h3 := toFinset_card_le
    (((span off n).map fun bn => slots v (dino sb v) (i, bnSlot bn)).filter (· ≠ 0))
  have h4 := length_filter_le (· ≠ 0) ((span off n).map fun bn => slots v (dino sb v) (i, bnSlot bn))
  rw [length_map] at h2 h4
  refine le_trans (Finset.card_union_le _ _) (le_trans (Nat.add_le_add (le_trans
    (Finset.card_union_le _ _) (Nat.add_le_add (Finset.card_union_le _ _) (le_refl _))) (?_ : _ ≤ 1)) ?_)
  · split
    · exact le_of_eq (Finset.card_singleton _)
    · exact Nat.zero_le _
  · omega

end Log

open Xv6Mkfs

/-! ## A new disk -/

/-- A transaction on the disk `img` that has logged nothing yet, with inode `j` in the cache. -/
def opened (img : Nat → Block) (j : Nat) : LState where
  view := img
  lh := []
  logSize := sb.nlog
  outstanding := 1
  mem := { Mem.blank with
    sb := sb
    icache := fun _ => ⟨1, j, 1, true, true, dino sb img j⟩ }
  input := fun _ => 0
  passed := fun _ => 0

/-- The first slot of the inode cache. -/
def firstInode : Fin NINODE := ⟨0, by decide⟩

theorem opened_regular {img : Nat → Block} {j : Nat} (hd : Disk sb img)
    (htype : (dino sb img j).type = T_FILE) (hsize : (dino sb img j).size = 0) :
    ∃ x, x.size = 0 ∧ Regular sb (opened img j) firstInode j x := by
  have hnode : nodes sb img j = some _ := if_neg (by rw [htype]; decide)
  refine ⟨_, ?_, hd.layout, rfl, hd.own, hd.whole j, rfl, rfl, hnode, htype⟩
  rw [hsize]
  rfl

/-- A new file of two blocks is written. -/
theorem readi_writei_byte_array_new : ∃ img j x s', mkfs (files 1) = some img ∧
    exec (writei firstInode (fun _ => 65) 0 1025) (opened img j) = .done 1025 s' ∧
    Regular sb s' firstInode j (Node.write x 0 1025 fun _ => 65) := by
  obtain ⟨img, j, h, hd, htype, hsize, hfree⟩ := mkfs_empty_file
  obtain ⟨x, hx, hreg⟩ := opened_regular hd htype hsize
  have hcard := card_writeBlocks sb img j 0 1025
  have hlen : (span 0 1025).length = 2 := by decide
  have hgrow := grow_le img (dino sb img) j (span 0 1025)
  have hlog : Begun ((opened img j).lh.toFinset ∪ writeBlocks sb img j 0 1025) (opened img j) := by
    refine ⟨Int.le_refl 1, nodup_nil, fun b hb => absurd hb not_mem_nil, ?_, ?_⟩
    · exact lt_of_le_of_lt hcard (by decide)
    · exact lt_of_le_of_lt (Nat.add_le_add_right hcard 1)
        (show 3 * (span 0 1025).length + 3 + 1 < sb.nlog by decide)
  have hroom : grow img (dino sb img) j (span 0 1025) ≤ (freeBlocks sb img).length := by omega
  obtain ⟨s', hr, hreg', -⟩ := (readi_writei_byte_array hreg).2.2 (fun _ => 65) 0 1025 (Nat.zero_le _)
    (by decide) hroom hlog
  exact ⟨img, j, x, s', h, hr, hreg'⟩

/-- **Thirty blocks in one transaction** are too many for the log, though the file may be that large and the
    blocks are free. -/
theorem thirty_blocks_too_big : ∃ img j x, mkfs (files 1) = some img ∧ x.size = 0 ∧
    Regular sb (opened img j) firstInode j x ∧ 30 * BSIZE ≤ MAXFILE * BSIZE ∧
    grow img (dino sb img) j (span 0 (30 * BSIZE)) ≤ (freeBlocks sb img).length ∧
    ∀ src r s', exec (writei firstInode src 0 30720) (opened img j) ≠ .done r s' := by
  obtain ⟨img, j, h, hd, htype, hsize, hfree⟩ := mkfs_empty_file
  obtain ⟨x, hx, hreg⟩ := opened_regular hd htype hsize
  have hgrow := grow_le img (dino sb img) j (span 0 (30 * BSIZE))
  have hlen : (span 0 (30 * BSIZE)).length = 30 := by decide
  refine ⟨img, j, x, h, hx, hreg, by decide, by omega, fun src r s' => ?_⟩
  have hfits : Fits (opened img j) := show (0 : Int) ≤ sb.nlog - 1 by decide
  have hbig : sb.nlog ≤ (span (0 : UInt32).toNat (30720 : UInt32).toNat).length := by decide
  exact hreg.writei_too_big (Nat.zero_le _) (by decide) hfits hbig r s'

end Xv6Own
