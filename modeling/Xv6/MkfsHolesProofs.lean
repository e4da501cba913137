import Xv6.MkfsTreeProofs

/-!
# The finished image — holes

`main` builds the tree, fixes the size of the root directory and writes the free map. Fixing the size
rounds it up to the next multiple of `BSIZE`, and a size that is a multiple already grows by a whole block
that is not there. Every other inode has a block for every index below its size.
-/

namespace Xv6Mkfs

open ByteBuf Xv6Disk Xv6Kernel Xv6Fs Xv6Layout Xv6Own Ledger Function List Option

/-! ## Building -/

theorem blank_type (j : Nat) : (dino sb blank.img j).type = 0 := by
  by_cases hj : 1 ≤ j ∧ j < sb.ninodes
  · have hne : IBLOCK j sb ≠ 1 := by
      have h := (iblock_range (j := j) hj.2).2.1
      omega
    rw [dino, if_pos hj]
    show (getDinode (update (fun _ => zeros) 1 superblock (IBLOCK j sb)) (j % IPB)).type = 0
    show (u16At (zeros : Block) _).toInt16 = 0
    rw [u16At_zeros]
    rfl
  · rw [dino, if_neg hj]
    rfl

/-- Nothing has been made in the blank image. -/
theorem blank_good : Good blank fun _ => none := by
  have hslots : ∀ x, slots blank.img (dino sb blank.img) x = 0 := fun x => if_pos (blank_type x.1)
  have hpos : 0 < nmeta := by decide
  refine ⟨⟨⟨hpos, fun x hx => absurd (hslots x) hx, fun x y hx => absurd (hslots x) hx,
    fun b hb => hb.elim, fun b _ => ?_⟩, le_refl _, by decide, fun b hb => ?_⟩, rfl, ?_, le_refl _, by decide,
    nofun, fun j _ => blank_type j⟩
  · show decide (b < nmeta) = true ↔ _
    rw [decide_eq_true_eq]
    constructor
    · exact .inl
    · rintro (h | h | ⟨x, h⟩)
      · exact h
      · exact h.elim
      · rw [hslots] at h; omega
  · have hle : nmeta ≤ b := hb
    have hone : 1 < nmeta := by decide
    show update (fun _ => zeros) 1 superblock b = zeros
    rw [update_of_ne (by omega)]
  · show update (fun _ => zeros) 1 superblock (sb.bmapstart + 1) = zeros
    rw [update_of_ne (by decide)]

/-- `main` up to the files of the host: the root with "." and "..". -/
theorem build_starts {base : Entries} {st : St} (h : build base = some st) : ∃ st0 F, Good st0 F ∧
    st0.freeinode = 2 ∧ F ROOTINO = some ⟨T_DIR, dirBytes [(dot, ROOTINO), (dotdot, ROOTINO)]⟩ ∧
      addDirectory st0 ROOTINO base = some st := by
  obtain ⟨⟨ino, st1⟩, h1, h⟩ := bind_eq_some_iff.mp h
  obtain ⟨hino, -, hin1, hg1⟩ := ialloc_good blank_good (by decide) h1
  obtain rfl : ino = ROOTINO := hino
  obtain ⟨st2, h2, h⟩ := bind_eq_some_iff.mp h
  obtain ⟨st3, h3, h⟩ := bind_eq_some_iff.mp h
  obtain ⟨hin2, hg2⟩ := iappend_good hg1 (update_self _ _ _) h2
  obtain ⟨hin3, hg3⟩ := iappend_good hg2 (update_self _ _ _) h3
  exact ⟨st3, _, hg3, by rw [hin3, hin2, hin1]; rfl, update_self _ _ _, h⟩

/-- **The tree that `mkfs` builds.** -/
theorem build_stored {base : Entries} {st : St} (h : build base = some st) : ∃ F links, Good st F ∧
    F ROOTINO = some ⟨T_DIR, dirBytes ((dot, ROOTINO) :: (dotdot, ROOTINO) :: links)⟩ ∧
      StoredAll F 2 st.freeinode ROOTINO links base ∧ Covers F 2 st.freeinode (Below base) := by
  obtain ⟨st0, F0, hg0, hin, hroot, h⟩ := build_starts h
  obtain ⟨F, links, ha, hlinks, hall⟩ := addDirectory_stored base hg0 hroot h
  rw [hin] at hall
  refine ⟨F, links, ha.good, ?_, hall⟩
  rw [hlinks]
  rfl

/-- Without files of the host only the root is made. -/
theorem build_empty {st : St} (h : build .nil = some st) : st.freeinode = 2 := by
  obtain ⟨st0, F0, -, hin, -, h⟩ := build_starts h
  cases h
  exact hin

/-! ## The end of `main` -/

theorem bitAt_zeros (k : Nat) : bitAt (zeros : Block) k = false := by
  rw [bitAt, byteAt_zeros, UInt8.zero_and]
  rfl

theorem bitAt_bitmap {used : Nat} (hu : used ≤ BSIZE * 8) (k : Nat) : bitAt (bitmap used) k = decide (k < used) := by
  induction used with
  | zero => exact (bitAt_zeros k).trans (decide_eq_false (Nat.not_lt_zero k)).symm
  | succ used ih =>
    have hin : used / 8 < BSIZE := by unfold BSIZE at hu ⊢; omega
    have hstep : bitmap (used + 1) = setBit (bitmap used) used := by
      rw [bitmap, range_succ, foldl_append]
      rfl
    rw [hstep, bitAt_setBit _ hin, ih (by omega)]
    split_ifs with hk
    · rw [hk]
      simp
    · exact decide_eq_decide.mpr ⟨fun h => by omega, fun h => by omega⟩

/-- The finished image: the size of the root is `size`, the free map marks the blocks in use, and all else
    is as it was built. -/
structure Finished (st : St) (img : Nat → Block) : Prop where
  table : dino sb img = update (dino sb st.img) ROOTINO { dino sb st.img ROOTINO with
    size := UInt32.ofNat (((dino sb st.img ROOTINO).size.toNat / BSIZE + 1) * BSIZE) }
  super : img 1 = st.img 1
  slot : slots img (dino sb img) = slots st.img (dino sb st.img)
  bytes : ∀ j, bytesOf img (dino sb img) j = bytesOf st.img (dino sb st.img) j
  marks : ∀ b, b < FSSIZE → used sb img b = decide (b < st.freeblock)
  small : st.freeblock < BSIZE * 8

theorem mkfs_finished {base : Entries} {img : Nat → Block} (h : mkfs base = some img) :
    ∃ st, build base = some st ∧ ∀ F, Good st F → Finished st img := by
  obtain ⟨st, hb, h⟩ := bind_eq_some_iff.mp h
  obtain ⟨st1, hf, h⟩ := bind_eq_some_iff.mp h
  obtain ⟨st2, hm, rfl⟩ := map_eq_some_iff.mp h
  refine ⟨st, hb, fun F hg => ?_⟩
  have hroot : 1 ≤ ROOTINO ∧ ROOTINO < NINODES := by decide
  unfold fixRoot at hf
  rw [rinode_some hroot.1 hroot.2, bind_some, winode_some hroot.2] at hf
  cases hf
  generalize hd : ({ dino sb st.img ROOTINO with
    size := UInt32.ofNat (((dino sb st.img ROOTINO).size.toNat / BSIZE + 1) * BSIZE) } : Dinode) = d at hm
  unfold balloc at hm
  by_cases hsmall : st.freeblock < BSIZE * 8
  · rw [if_pos hsmall] at hm
    cases hm
    have hdino : dino sb (updateView sb st.img ROOTINO d) = update (dino sb st.img) ROOTINO d :=
      dino_updateView _ _ hroot.1 hroot.2
    have hs : slots st.img (update (dino sb st.img) ROOTINO d) = slots st.img (dino sb st.img) := by
      refine slots_congr (fun j => ?_) fun _ _ => rfl
      by_cases hj : j = ROOTINO
      · rw [hj, update_self, ← hd]; exact ⟨rfl, rfl⟩
      · rw [update_of_ne hj]; exact ⟨rfl, rfl⟩
    obtain ⟨himage, hslots, hbytes⟩ := image_updateView (i := ROOTINO) (d := d) hg.image hroot.2 hs
    have hkeep := updateView_keeps st.img d hroot.2
    generalize updateView sb st.img ROOTINO d = img at hdino himage hslots hbytes hkeep
    show Finished st (update img sb.bmapstart (bitmap st.freeblock))
    have hmeta : sb.bmapstart + 2 = nmeta := by decide
    -- the free map is no block of an inode
    have htable : dino sb (update img sb.bmapstart (bitmap st.freeblock)) = dino sb img :=
      dino_congr fun j hj => update_of_ne (ne_of_lt (iblock_range hj).1) _ _
    have hdata : ∀ x, slots img (dino sb img) x ≠ 0 →
        update img sb.bmapstart (bitmap st.freeblock) (slots img (dino sb img) x)
          = img (slots img (dino sb img) x) := by
      intro x hx
      rw [hdino] at hx ⊢
      have := himage.slot_data hx
      exact update_of_ne (by omega) _ _
    have hslots' : slots (update img sb.bmapstart (bitmap st.freeblock)) (dino sb img)
        = slots img (dino sb img) := slots_congr (fun _ => ⟨rfl, rfl⟩) fun j hj => hdata _ hj
    refine ⟨?_, ?_, ?_, fun j => ?_, fun b hb => ?_, hsmall⟩
    · rw [htable, hdino, hd]
    · exact hkeep.1
    · rw [htable, hslots', hdino, hslots]
    · rw [htable, bytesOf_same hslots' hdata, hdino]
      exact hbytes j
    · rw [used]
      by_cases hlow : b < BPB
      · have hblock : BBLOCK b sb = sb.bmapstart := by
          rw [BBLOCK, Nat.div_eq_of_lt hlow, zero_add]
        rw [hblock, update_self, Nat.mod_eq_of_lt hlow]
        exact bitAt_bitmap (le_of_lt hsmall) b
      · -- the second block of the free map is zero
        have hblock : BBLOCK b sb = sb.bmapstart + 1 := by
          rw [BBLOCK]
          unfold BPB BSIZE at hlow ⊢
          unfold FSSIZE at hb
          omega
        rw [hblock, update_of_ne (by omega), hkeep.2.1, hg.bits, bitAt_zeros]
        unfold BPB at hlow
        exact (decide_eq_false (by omega)).symm
  · rw [if_neg hsmall] at hm
    cases hm

/-! ## Holes -/

/-- How many entries of a directory of the host get into the image. -/
def Entries.count : Entries → Nat
  | .nil => 0
  | .cons name host rest => (if host.kept name = true then 1 else 0) + rest.count

theorem StoredAll.length {F : Nat → Option Made} {lo hi dirino : Nat} : ∀ (entries : Entries)
    {links : List (Name × Nat)}, StoredAll F lo hi dirino links entries → links.length = entries.count
  | .nil, _, h => by cases h; rfl
  | .cons name host rest, _, h => by
    rw [Entries.count]
    cases h with
    | skip hk hall =>
      rw [if_neg (by rw [hk]; exact Bool.false_ne_true), zero_add]
      exact StoredAll.length rest hall
    | cons hk h hall =>
      rw [if_pos hk, length_cons, StoredAll.length rest hall, add_comm]

/-- Every inode has a block for each index below its size. -/
def NoHoles (img : Nat → Block) : Prop :=
  ∀ j, (dino sb img j).type ≠ 0 → ∀ bn, bn * BSIZE < (dino sb img j).size.toNat →
    slots img (dino sb img) (j, bnSlot bn) ≠ 0

/-- A read of any inode changes nothing, and calls `log_write` for no block. -/
def ReadsOnly (img : Nat → Block) : Prop :=
  ∀ (s : LState) (ip : Fin NINODE) (j : Nat) (off n : UInt32), s.view = img →
    (s.mem.icache ip).din = dino sb img j → (dino sb img j).type ≠ 0 →
    Does ∅ False (fun _ s' => s' = s) (readi ip off n) s

section Holes

variable {st : St} {F : Nat → Option Made} {img : Nat → Block} {c : List UInt8}

section

variable (h : Finished st img)
include h

/-- The size of the root after it has been fixed. -/
theorem Finished.rootSize (hg : Good st F) (hr : F ROOTINO = some ⟨T_DIR, c⟩) :
    (dino sb img ROOTINO).size.toNat = (c.length / BSIZE + 1) * BSIZE := by
  obtain ⟨-, -, hm⟩ := hg.made ROOTINO _ hr
  have hmax := hm.holds.max
  have hsize : (dino sb st.img ROOTINO).size.toNat = c.length := hm.size
  rw [h.table, update_self]
  rw [hsize, UInt32.toNat_ofNat']
  refine Nat.mod_eq_of_lt ?_
  have hle : c.length / BSIZE ≤ MAXFILE := Nat.div_le_of_le_mul (by rw [mul_comm]; exact hmax)
  have hbound : (MAXFILE + 1) * BSIZE < 2 ^ 32 := by decide
  exact lt_of_le_of_lt (Nat.mul_le_mul_right _ (Nat.succ_le_succ hle)) hbound

/-- An inode other than the root is as it was built. -/
theorem Finished.other {j : Nat} (hj : j ≠ ROOTINO) : dino sb img j = dino sb st.img j := by
  rw [h.table, update_of_ne hj]

/-- Every allocated inode of the image has been made. -/
theorem Finished.made (hg : Good st F) {j : Nat} (hj : (dino sb img j).type ≠ 0) :
    ∃ x, F j = some x ∧ IsMade st.img (dino sb st.img) j x ∧ (dino sb img j).type = x.type := by
  have htype : (dino sb img j).type = (dino sb st.img j).type := by
    by_cases hr : j = ROOTINO
    · rw [h.table, hr, update_self]
    · rw [h.other hr]
  cases hF : F j with
  | none => exact absurd (htype.trans (hg.free j hF)) hj
  | some x =>
    obtain ⟨-, -, hm⟩ := hg.made j x hF
    exact ⟨x, rfl, hm, htype.trans hm.type⟩

/-- The blocks of the finished image. -/
theorem Finished.mapped {j : Nat} {x : Made} (hm : IsMade st.img (dino sb st.img) j x)
    (bn : Nat) : slots img (dino sb img) (j, bnSlot bn) ≠ 0 ↔ bn * BSIZE < x.content.length := by
  rw [h.slot]
  exact hm.holds.mapped bn

/-- **A root whose size is a multiple of the block size** gets a block that is not there. -/
theorem Finished.hole (hg : Good st F) (hr : F ROOTINO = some ⟨T_DIR, c⟩)
    (hdvd : BSIZE ∣ c.length) : ¬ NoHoles img := by
  intro hno
  obtain ⟨-, -, hm⟩ := hg.made ROOTINO _ hr
  have halloc : (dino sb img ROOTINO).type ≠ 0 := by
    rw [h.table, update_self]
    rw [hm.type]
    exact (kind_alloc hm.kind).1
  have hsize := h.rootSize hg hr
  have hlt : c.length / BSIZE * BSIZE < (dino sb img ROOTINO).size.toNat := by
    rw [hsize, Nat.add_mul, one_mul]
    exact Nat.lt_add_of_pos_right (by decide)
  have := (h.mapped hm _).mp (hno ROOTINO halloc _ hlt)
  rw [Nat.div_mul_cancel hdvd] at this
  exact lt_irrefl _ this

/-- **Any other root** leaves no holes, and no file is larger than can be. -/
theorem Finished.whole (hg : Good st F) (hr : F ROOTINO = some ⟨T_DIR, c⟩)
    (hdvd : ¬ BSIZE ∣ c.length) (j : Nat) : Whole img (dino sb img) j := by
  intro halloc _
  obtain ⟨x, hx, hm, -⟩ := h.made hg halloc
  by_cases hj : j = ROOTINO
  · subst hj
    obtain rfl := some.inj (hx.symm.trans hr)
    have hmax := hm.holds.max
    have hmod : c.length % BSIZE ≠ 0 := fun h0 => hdvd (Nat.dvd_of_mod_eq_zero h0)
    rw [h.rootSize hg hr]
    have hlen : (c.length / BSIZE + 1) * BSIZE = c.length - c.length % BSIZE + BSIZE := by
      unfold BSIZE
      omega
    constructor
    · have hlt : c.length / BSIZE < MAXFILE := by
        refine Nat.div_lt_of_lt_mul (lt_of_le_of_ne (by rw [mul_comm]; exact hmax) fun heq => hmod ?_)
        rw [heq, Nat.mul_mod_right]
      exact Nat.mul_le_mul_right _ hlt
    · intro bn hbn
      refine (h.mapped hm bn).mpr ?_
      show bn * BSIZE < c.length
      unfold BSIZE at hbn hmod ⊢
      omega
  · rw [h.other hj, hm.size]
    exact ⟨hm.holds.max, fun bn hbn => (h.mapped hm bn).mpr hbn⟩

end

theorem whole_noHoles (hw : ∀ j, Whole img (dino sb img) j)
    (hdev : ∀ j, (dino sb img j).type ≠ 0 → (dino sb img j).type ≠ T_DEV) : NoHoles img ∧ ReadsOnly img := by
  refine ⟨fun j hj bn hbn => (hw j hj (hdev j hj)).2 bn hbn, ?_⟩
  rintro s ip j off n rfl hdin hj
  exact does_mono (readi_does hdin.symm hj (hdev j hj) (hw j)) fun _ _ h => h.1

end Holes

/-! ## Directories of empty files -/

/-- A directory with `n` empty files. -/
def files : Nat → Entries
  | 0 => .nil
  | n + 1 => .cons [97, UInt8.ofNat (97 + n / 26), UInt8.ofNat (97 + n % 26)] (.file 0 []) (files n)

theorem count_files (n : Nat) : (files n).count = n := by
  induction n with
  | zero => rfl
  | succ n ih =>
    rw [files, Entries.count, ih, if_pos (by simp [Host.kept, dot, dotdot]), add_comm]

/-- **`mkfs` leaves no holes, and reads do not allocate, exactly if** the number of entries of the root
    directory, with "." and "..", is no multiple of the number of entries of a block. -/
theorem no_holes_iff {base : Entries} {img : Nat → Block} (h : mkfs base = some img) :
    NoHoles img ∧ ReadsOnly img ↔ ¬ BSIZE / 16 ∣ base.count + 2 := by
  obtain ⟨st, hb, hfin⟩ := mkfs_finished h
  obtain ⟨F, links, hg, hroot, hall, -⟩ := build_stored hb
  have hf := hfin F hg
  have hlen : (dirBytes ((dot, ROOTINO) :: (dotdot, ROOTINO) :: links)).length = 16 * (base.count + 2) := by
    rw [length_dirBytes, length_cons, length_cons, hall.length]
  have hdvd : BSIZE ∣ 16 * (base.count + 2) ↔ BSIZE / 16 ∣ base.count + 2 := by
    unfold BSIZE
    omega
  constructor
  · rintro ⟨hno, -⟩ hc
    exact hf.hole hg hroot (by rw [hlen]; exact hdvd.mpr hc) hno
  · intro hc
    refine whole_noHoles (hf.whole hg hroot (by rw [hlen]; exact fun hd => hc (hdvd.mp hd))) fun j hj => ?_
    obtain ⟨x, -, hm, htype⟩ := hf.made hg hj
    rw [htype]
    exact (kind_alloc hm.kind).2

theorem no_holes_iff_one_file : ∃ img, mkfs (files 1) = some img ∧ NoHoles img ∧ ReadsOnly img := by
  obtain ⟨img, h⟩ := Option.isSome_iff_exists.mp (show (mkfs (files 1)).isSome = true by decide +kernel)
  exact ⟨img, h, (no_holes_iff h).mpr (by decide)⟩

/-- **The root directory of 62 empty files** fills its block, and is given a second one that is not there. -/
theorem full_root_hole : ∃ img, mkfs (files 62) = some img ∧ (dino sb img ROOTINO).size.toNat = 2 * BSIZE ∧
    slots img (dino sb img) (ROOTINO, bnSlot 1) = 0 ∧ ¬ NoHoles img := by
  obtain ⟨img, h⟩ := Option.isSome_iff_exists.mp (show (mkfs (files 62)).isSome = true by decide +kernel)
  obtain ⟨st, hb, hfin⟩ := mkfs_finished h
  obtain ⟨F, links, hg, hroot, hall, -⟩ := build_stored hb
  have hf := hfin F hg
  have hlen : (dirBytes ((dot, ROOTINO) :: (dotdot, ROOTINO) :: links)).length = BSIZE := by
    rw [length_dirBytes, length_cons, length_cons, hall.length, count_files]
    rfl
  obtain ⟨-, -, hm⟩ := hg.made ROOTINO _ hroot
  refine ⟨img, h, ?_, ?_, hf.hole hg hroot (by rw [hlen])⟩
  · rw [hf.rootSize hg hroot, hlen]
    rfl
  · by_contra hc
    have := (hf.mapped hm 1).mp hc
    rw [hlen, one_mul] at this
    exact lt_irrefl _ this

end Xv6Mkfs
