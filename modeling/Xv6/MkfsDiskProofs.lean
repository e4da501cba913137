import Mathlib.Data.List.Perm.Subperm
import Xv6.MkfsHolesProofs

/-!
# The image as the kernel sees it

The image that `mkfs` leaves is a disk as the kernel needs it (`Disk`): the superblock is in place, the free
map marks the metadata and the blocks of the inodes, every block has one owner, and no inode has a hole
(unless the root fills its last block).
-/

namespace Xv6Mkfs

open ByteBuf Xv6Disk Xv6Kernel Xv6Fs Xv6Layout Xv6Own Ledger List

theorem superblock_reads : getSuperblock superblock = sb := by
  decide +kernel

section Disk

variable {st : St} {F : Nat → Option Made} {img : Nat → Block} {c : List UInt8}

/-- **The ledger of the image**: the free map is that of the blocks in use. -/
theorem Finished.own (h : Finished st img) (hg : Good st F) : Own sb img (dino sb img) ∅ := by
  rw [Own, datastart_sb]
  exact hg.image.ledger.congr h.slot h.marks

theorem Finished.disk (h : Finished st img) (hg : Good st F) (hr : F ROOTINO = some ⟨T_DIR, c⟩)
    (hdvd : ¬ BSIZE ∣ c.length) : Disk sb img where
  layout := layout
  super := by rw [h.super, hg.super, superblock_reads]
  own := h.own hg
  whole := h.whole hg hr hdvd

/-- Blocks past the first bitmap block are free. -/
theorem Finished.free (h : Finished st img) : FSSIZE - BSIZE * 8 ≤ (freeBlocks sb img).length := by
  have hsub : range' (BSIZE * 8) (FSSIZE - BSIZE * 8) ⊆ freeBlocks sb img := by
    intro b hb
    have hsmall := h.small
    obtain ⟨h1, h2⟩ := mem_range'_1.mp hb
    have hle : BSIZE * 8 ≤ FSSIZE := by decide
    have hb' : b < FSSIZE := by omega
    refine mem_freeBlocks.mpr ⟨hb', ?_⟩
    rw [h.marks b hb']
    exact decide_eq_false (by omega)
  have := (subperm_of_subset nodup_range' hsub).length_le
  rwa [length_range'] at this

end Disk

/-- A file has the blocks that its size needs, and no others. -/
theorem mkfs_file_mapped {base : Entries} {img : Nat → Block} (h : mkfs base = some img) {j : Nat}
    (hj : (dino sb img j).type = T_FILE) (bn : Nat) :
    slots img (dino sb img) (j, bnSlot bn) ≠ 0 ↔ bn * BSIZE < (dino sb img j).size.toNat := by
  obtain ⟨st, hb, hfin⟩ := mkfs_finished h
  obtain ⟨F, links, hg, hroot, -⟩ := build_stored hb
  have hf := hfin F hg
  obtain ⟨x, hx, hm, htype⟩ := hf.made hg (by rw [hj]; decide)
  have hne : j ≠ ROOTINO := by
    intro heq
    rw [heq, hroot] at hx
    rw [hj, ← Option.some.inj hx] at htype
    exact absurd htype (show T_FILE ≠ T_DIR by decide)
  rw [hf.mapped hm, hf.other hne, hm.size]

/-- An inode that `mkfs` has not made is free. -/
theorem Finished.type_zero {st : St} {img : Nat → Block} {F : Nat → Option Made} (h : Finished st img) (hg : Good st F)
    {j : Nat} (hj : ¬ (1 ≤ j ∧ j < st.freeinode)) : (dino sb img j).type = 0 := by
  by_contra hne
  obtain ⟨x, hF, -⟩ := h.made hg hne
  obtain ⟨h1, h2, -⟩ := hg.made j x hF
  exact hj ⟨h1, h2⟩

/-- The disk that `mkfs` makes from one empty file. -/
theorem mkfs_empty_file : ∃ img j, mkfs (files 1) = some img ∧ Disk sb img ∧
    (dino sb img j).type = T_FILE ∧ (dino sb img j).size = 0 ∧ 1000 ≤ (freeBlocks sb img).length := by
  obtain ⟨img, h⟩ := Option.isSome_iff_exists.mp (show (mkfs (files 1)).isSome = true by decide +kernel)
  obtain ⟨st, hb, hfin⟩ := mkfs_finished h
  obtain ⟨F, links, hg, hroot, hall, -⟩ := build_stored hb
  have hf := hfin F hg
  have hlen : (dirBytes ((dot, ROOTINO) :: (dotdot, ROOTINO) :: links)).length = 48 := by
    rw [length_dirBytes, length_cons, length_cons, hall.length]
    rfl
  have hdisk := hf.disk hg hroot (by rw [hlen]; decide)
  have hfree : 1000 ≤ (freeBlocks sb img).length := Nat.le_trans (by decide) hf.free
  cases hall with
  | skip hk _ => exact absurd hk (by decide)
  | @cons _ ino _ _ _ _ hk hs _ =>
    cases hs with
    | file h1 h2 hF =>
      obtain ⟨-, -, hm⟩ := hg.made ino _ hF
      have hne : ino ≠ ROOTINO := by
        intro heq
        rw [heq, hroot] at hF
        exact absurd (congrArg Made.type (Option.some.inj hF)) (show T_DIR ≠ T_FILE by decide)
      refine ⟨img, ino, h, hdisk, ?_, ?_, hfree⟩
      · rw [hf.other hne]; exact hm.type
      · rw [hf.other hne]; exact UInt32.toNat.inj hm.size

end Xv6Mkfs
