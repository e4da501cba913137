import Xv6.ReadWriteProofs

/-!
# The file system as a table of nodes

What a user of the file system can see of an inode is a **node**: its type, device numbers,
link count, size and bytes. `nodes` reads the table of nodes off a disk; it is the abstract
state of the file system. `Disk` is the invariant of the disk between operations: the
layout, the balanced ledger of blocks, and no holes.

The functions of `fs.c` that change the disk change one node each. `Changes` says so, with
the new node: for `writei`, for a change of an inode's fields followed by `iupdate`, for
`itrunc`, and for the last steps of an inode's life in `iput`.
-/

namespace Xv6Own

open CmdProg ByteBuf Xv6Disk Xv6Kernel Xv6Fs Xv6Layout Ledger Function

/-- An inode as the calls see it. -/
structure Node where
  type : Int16
  major : Int16
  minor : Int16
  nlink : Int16
  size : Nat
  bytes : Nat → UInt8

/-- The node of an allocated inode. -/
def nodesOf (v : Nat → Block) (D : Nat → Dinode) (j : Nat) : Option Node :=
  if (D j).type = 0 then none
  else some
    { type := (D j).type
      major := (D j).major
      minor := (D j).minor
      nlink := (D j).nlink
      size := (D j).size.toNat
      bytes := bytesOf v D j }

/-- The table of nodes on a disk. -/
def nodes (sb : Superblock) (v : Nat → Block) : Nat → Option Node := nodesOf v (dino sb v)

/-- The disk between two operations. -/
structure Disk (sb : Superblock) (v : Nat → Block) : Prop where
  layout : Layout sb
  super : getSuperblock (v 1) = sb
  own : Own sb v (dino sb v) ∅
  whole : ∀ j, Whole v (dino sb v) j

/-- The state after a change of the node of inode `i` to `x`, with `ip` its copy in memory. -/
structure Changes (sb : Superblock) (s : LState) (ip : Fin NINODE) (i : Nat) (x : Option Node)
    (s' : LState) : Prop where
  state : ∃ f, s' = { edit s ip s'.view s'.lh (dino sb s'.view i) with input := f }
  disk : Disk sb s'.view
  nodes : nodes sb s'.view = update (nodes sb s.view) i x
  table : ∀ j, j ≠ i → dino sb s'.view j = dino sb s.view j

section Change

variable {sb : Superblock} {v v' : Nat → Block} {D : Nat → Dinode} {i : Nat} {d : Dinode}

theorem nodesOf_some {j : Nat} {x : Node} (h : nodesOf v D j = some x) :
    (D j).type ≠ 0 ∧ x.type = (D j).type ∧ x.nlink = (D j).nlink ∧ x.size = (D j).size.toNat ∧
      x.bytes = bytesOf v D j := by
  rw [nodesOf] at h
  split_ifs at h with h0
  cases h
  exact ⟨h0, rfl, rfl, rfl, rfl⟩

theorem nodesOf_none {j : Nat} : nodesOf v D j = none ↔ (D j).type = 0 := by
  rw [nodesOf]
  split_ifs with h0
  · exact ⟨fun _ => h0, fun _ => rfl⟩
  · constructor
    · exact nofun
    · exact fun h => absurd h h0

/-- One entry of the inode table changes, and no content but that of its inode. -/
theorem nodes_change (htable : dino sb v' = update (dino sb v) i d)
    (hothers : ∀ j, j ≠ i → bytesOf v' (update (dino sb v) i d) j = bytesOf v (dino sb v) j) :
    nodes sb v' = update (nodes sb v) i (nodesOf v' (update (dino sb v) i d) i) := by
  funext j
  rw [nodes, htable]
  by_cases hj : j = i
  · rw [hj, update_self]
  · rw [update_of_ne hj, nodes, nodesOf, nodesOf, update_of_ne hj, hothers j hj]

/-- One entry of the inode table changes, and the ledger and the content of the others
    with it only as they may. -/
theorem disk_change (hd : Disk sb v) (htable : dino sb v' = update (dino sb v) i d)
    (hsuper : v' 1 = v 1) (hown : Own sb v' (update (dino sb v) i d) ∅)
    (hothers : ∀ j, j ≠ i → bytesOf v' (update (dino sb v) i d) j = bytesOf v (dino sb v) j)
    (hkeep : ∀ x, x.1 ≠ i → slots v (dino sb v) x ≠ 0 → slots v' (update (dino sb v) i d) x ≠ 0)
    (hwhole : Whole v' (update (dino sb v) i d) i) : Disk sb v' ∧ nodes sb v' = update (nodes sb v) i
      (nodesOf v' (update (dino sb v) i d) i) := by
  refine ⟨⟨hd.layout, by rw [hsuper]; exact hd.super, by rw [htable]; exact hown, ?_⟩, nodes_change htable hothers⟩
  intro j
  rw [htable]
  by_cases hj : j = i
  · rw [hj]; exact hwhole
  · intro h1 h2
    rw [update_of_ne hj] at h1 h2 ⊢
    obtain ⟨hsize, hmap⟩ := hd.whole j h1 h2
    exact ⟨hsize, fun bn hbn => hkeep (j, bnSlot bn) hj (hmap bn hbn)⟩

/-- Fields that the ledger does not look at. -/
theorem own_fields (h : Own sb v D ∅) (htype : d.type = (D i).type) (haddrs : d.addrs = (D i).addrs) :
    Own sb v (update D i d) ∅ ∧ slots v (update D i d) = slots v D := by
  have hslots : slots v (update D i d) = slots v D := by
    refine slots_congr (fun j => ?_) fun _ _ => rfl
    rw [update_apply]
    split_ifs with hj
    · subst hj
      exact ⟨htype, haddrs⟩
    · exact ⟨rfl, rfl⟩
  exact ⟨h.congr hslots fun _ _ => rfl, hslots⟩

/-- Content does not change with the slots and the data blocks the same. -/
theorem bytesOf_same {D' : Nat → Dinode} (hslots : slots v' D' = slots v D)
    (hv : ∀ x, slots v D x ≠ 0 → v' (slots v D x) = v (slots v D x)) (j : Nat) : bytesOf v' D' j = bytesOf v D j :=
  bytesOf_congr fun bn => .inl ⟨by rw [hslots], hv (j, bnSlot bn)⟩

/-- An inode is written that uses the blocks it used. -/
theorem disk_inode (hd : Disk sb v) (h1 : 1 ≤ i) (h2 : i < sb.ninodes)
    (hslots : slots v (update (dino sb v) i d) = slots v (dino sb v)) (hown : Own sb v (update (dino sb v) i d) ∅)
    (hwhole : slots (updateView sb v i d) (update (dino sb v) i d) = slots v (dino sb v) →
      Whole (updateView sb v i d) (update (dino sb v) i d) i) :
    (Disk sb (updateView sb v i d) ∧ dino sb (updateView sb v i d) = update (dino sb v) i d ∧
      nodes sb (updateView sb v i d) = update (nodes sb v) i
        (nodesOf (updateView sb v i d) (update (dino sb v) i d) i)) ∧
    bytesOf (updateView sb v i d) (update (dino sb v) i d) = bytesOf v (dino sb v) := by
  have hl := hd.layout
  have hdata : ∀ x, slots v (dino sb v) x ≠ 0 →
      updateView sb v i d (slots v (dino sb v) x) = v (slots v (dino sb v) x) :=
    fun x hx => updateView_data hl h2 (hd.own.cell x hx).1
  have hslots' : slots (updateView sb v i d) (update (dino sb v) i d) = slots v (dino sb v) := by
    rw [← hslots]
    refine slots_congr (fun _ => ⟨rfl, rfl⟩) fun j hj => ?_
    rw [hslots] at hj ⊢
    exact hdata _ hj
  have htable : dino sb (updateView sb v i d) = update (dino sb v) i d :=
    dino_putDinode h1 h2 d
  have hsuper : updateView sb v i d 1 = v 1 := by
    refine updateView_other ?_
    have h3 := two_le_inodestart hl
    have h4 : sb.inodestart ≤ IBLOCK i sb := inodestart_le_iblock i
    omega
  have hbytes := fun j => bytesOf_same hslots' hdata j
  obtain ⟨hdisk, hnodes⟩ := disk_change hd htable hsuper (own_updateView hl h2 hown)
    (fun j _ => hbytes j) (fun x _ hx => by rw [hslots']; exact hx) (hwhole hslots')
  exact ⟨⟨hdisk, htable, hnodes⟩, funext hbytes⟩

/-- `iupdate` of changed fields changes the node and nothing else. -/
theorem disk_fields (hd : Disk sb v) (h1 : 1 ≤ i) (h2 : i < sb.ninodes)
    (htype : d.type = (dino sb v i).type) (haddrs : d.addrs = (dino sb v i).addrs)
    (hsize : d.size = (dino sb v i).size) : Disk sb (updateView sb v i d) ∧
    dino sb (updateView sb v i d) = update (dino sb v) i d ∧ nodes sb (updateView sb v i d) = update (nodes sb v) i
      (nodesOf v (update (dino sb v) i d) i) := by
  obtain ⟨hown, hslots⟩ := own_fields hd.own htype haddrs
  obtain ⟨⟨hdisk, htable, hnodes⟩, hbytes⟩ := disk_inode hd h1 h2 hslots hown (by
    intro hslots' h3 h4
    rw [update_self] at h3 h4 ⊢
    rw [htype] at h3 h4
    rw [hsize, hslots']
    exact hd.whole i h3 h4)
  refine ⟨hdisk, htable, ?_⟩
  rw [hnodes, nodesOf, nodesOf, hbytes, bytesOf_same hslots (fun _ _ => rfl) i]

end Change

/-! ## `writei` -/

/-- The node after a write of `len` bytes at `off`. -/
def Node.write (x : Node) (off len : Nat) (src : Nat → UInt8) : Node :=
  { x with size := max x.size (off + len), bytes := written x.bytes off len src }

/-- `writei` does not refuse. -/
def Accepts (size off n : UInt32) : Prop :=
  ¬ (size < off ∨ off + n < off) ∧ (off + n).toNat ≤ MAXFILE * BSIZE

section Writei

variable {sb : Superblock} {s : LState} {i : Nat} {ip : Fin NINODE} {W : Set Nat} {N : Prop}
  {off n : UInt32} {src : Nat → UInt8}

/-- The size that `writei` leaves. -/
theorem written_size {size : UInt32} (h : Accepts size off n) :
    (if 0 < n ∧ size < off + n then off + n else size).toNat = max size.toNat (off.toNat + n.toNat) := by
  have hadd : (off + n).toNat = off.toNat + n.toNat := toNat_add_of_not_lt fun hc => h.1 (.inr hc)
  have hoff : ¬ size < off := fun hc => h.1 (.inl hc)
  rw [UInt32.lt_iff_toNat_lt] at hoff
  split_ifs with hc
  · have := UInt32.lt_iff_toNat_lt.mp hc.2
    omega
  · by_cases h0 : 0 < n
    · have : ¬ size < off + n := fun h1 => hc ⟨h0, h1⟩
      rw [UInt32.lt_iff_toNat_lt] at this
      omega
    · rw [UInt32.lt_iff_toNat_lt] at h0
      have : (0 : UInt32).toNat = 0 := rfl
      omega

/-- The disk when the loop of `writei` and the final `iupdate` are done: what has become of inode `i`, and
    of the others. -/
structure Rewritten (sb : Superblock) (v v' : Nat → Block) (i : Nat) (d : Dinode) (off n : UInt32)
    (src : Nat → UInt8) : Prop where
  table : dino sb v' = update (dino sb v) i d
  super : v' 1 = v 1
  own : Own sb v' (update (dino sb v) i d) ∅
  others : ∀ j, j ≠ i → bytesOf v' (update (dino sb v) i d) j = bytesOf v (dino sb v) j
  keep : ∀ x, x.1 ≠ i → slots v (dino sb v) x ≠ 0 → slots v' (update (dino sb v) i d) x ≠ 0
  beside : ∀ m, m ∉ span off.toNat n.toNat →
    slots v' (update (dino sb v) i d) (i, bnSlot m) = slots v (dino sb v) (i, bnSlot m)
  free : freeBlocks sb v' = (freeBlocks sb v).drop (grow v (dino sb v) i (span off.toNat n.toNat))
  whole : Whole v' (update (dino sb v) i d) i
  node : ∃ x, nodes sb v i = some x ∧ nodesOf v' (update (dino sb v) i d) i = some (x.write off.toNat n.toNat src)

/-- A write to an inode without holes. -/
theorem wrote_rewritten {s1 : LState} {D' : Nat → Dinode} {t : UInt32} (hl : Layout sb)
    (hold : Whole s.view (dino sb s.view) i) (h1 : 1 ≤ i) (h2 : i < sb.ninodes) (hi : (dino sb s.view i).type ≠ 0)
    (hdev : (dino sb s.view i).type ≠ T_DEV) (hacc : Accepts (dino sb s.view i).size off n)
    {d : Dinode} (hdin : d = { D' i with
      size := if 0 < n ∧ (D' i).size < off + n then off + n else (D' i).size, mtime := t })
    (hw : Wrote sb s ip i (dino sb s.view) D' (span off.toNat n.toNat)
      (written (bytesOf s.view (dino sb s.view) i) off.toNat n.toNat src) s1) :
    Rewritten sb s.view (updateView sb s1.view i d) i d off n src := by
  obtain ⟨a, ha⟩ := hw.evolves.table
  have hDi : D' i = { dino sb s.view i with addrs := a } := by rw [ha, update_self]
  have hdfull : d = { dino sb s.view i with
      addrs := a
      size := if 0 < n ∧ (dino sb s.view i).size < off + n then off + n else (dino sb s.view i).size
      mtime := t } := by rw [hdin, hDi]
  have hupd : update D' i d = update (dino sb s.view) i d := by
    rw [ha, update_idem]
  obtain ⟨hown, hslots⟩ := own_fields (d := d) hw.evolves.own (i := i) (by rw [hdin]) (by rw [hdin])
  rw [hupd] at hown hslots
  have hdata : ∀ x, slots s1.view D' x ≠ 0 →
      updateView sb s1.view i d (slots s1.view D' x) = s1.view (slots s1.view D' x) :=
    fun x hx => updateView_data hl h2 (hw.evolves.own.cell x hx).1
  have hslots' : slots (updateView sb s1.view i d) (update (dino sb s.view) i d) = slots s1.view D' := by
    rw [← hslots]
    refine slots_congr (fun _ => ⟨rfl, rfl⟩) fun j hj => ?_
    rw [hslots] at hj ⊢
    exact hdata _ hj
  have htable0 : dino sb s1.view = dino sb s.view :=
    dino_congr fun j hj => hw.evolves.below _ (iblock_lt hl hj)
  have hsize := written_size hacc
  refine ⟨?_, ?_, own_updateView hl h2 hown, ?_, ?_, ?_, ?_, ?_, _, if_neg hi, ?_⟩
  · rw [← htable0]
    exact dino_putDinode h1 h2 d
  · have h3 := two_le_inodestart hl
    have h4 : sb.inodestart ≤ IBLOCK i sb := inodestart_le_iblock i
    rw [updateView_other (by omega)]
    exact hw.evolves.below 1 (one_lt_bmapstart hl)
  · exact fun j hj => (bytesOf_same hslots' hdata j).trans (hw.evolves.others j hj)
  · intro x _ hx
    rw [hslots', hw.evolves.keep x hx]
    exact hx
  · intro m hm
    rw [hslots', hw.other m hm]
  · rw [← hw.free]
    refine List.filter_congr fun c _ => ?_
    rw [updateView, used_update (iblock_ne_bblock hl h2 c).symm]
  · intro _ _
    rw [update_self, hslots', hdfull]
    rw [hsize]
    obtain ⟨hold, hmapped⟩ := hold hi hdev
    have hadd : (off + n).toNat = off.toNat + n.toNat := toNat_add_of_not_lt fun hc => hacc.1 (.inr hc)
    have hmax := hacc.2
    refine ⟨by omega, ?_⟩
    intro bn hbn
    by_cases hin : bn * BSIZE < (dino sb s.view i).size.toNat
    · rw [hw.evolves.keep _ (hmapped bn hin)]
      exact hmapped bn hin
    · -- a block past the old size is one of those just written
      have hoff : ¬ (dino sb s.view i).size < off := fun hc => hacc.1 (.inl hc)
      rw [UInt32.lt_iff_toNat_lt] at hoff
      refine hw.mapped bn (mem_span.mpr ⟨bn * BSIZE, by omega, by omega, ?_⟩)
      exact Nat.mul_div_cancel _ (by decide)
  · rw [nodesOf, update_self, bytesOf_same hslots' hdata, hw.evolves.self, hdfull]
    rw [if_neg hi]
    simp only [Node.write, hsize]

/-- The inode at the end of `writei`, with the time `t`. -/
def sized (d : Dinode) (off n t : UInt32) : Dinode :=
  { d with size := if 0 < n ∧ d.size < off + n then off + n else d.size, mtime := t }

theorem writeiFinish_does (hsb : s.mem.sb = sb) (hinum : (s.mem.icache ip).inum = i)
    (hW : IBLOCK i sb ∈ W) : Does W N (fun (r : Int) s' => r = n.toNat ∧ ∃ t f, s' = { updateState sb
      (edit s ip s.view s.lh (sized (s.mem.icache ip).din off n t)) i
      (sized (s.mem.icache ip).din off n t) with input := f }) (writeiFinish ip off n) s := by
  refine does_modDin (does_input fun t => does_modDin ?_)
  generalize hS : setInode _ _ _ = S
  have hS' : S = { edit s ip s.view s.lh (sized (s.mem.icache ip).din off n t) with
      input := fun k => s.input (k + 1) } := by
    rw [← hS]
    simp only [setInode, edit, sized, update_self, update_idem]
    split_ifs with hc
    · rfl
    · rfl
  have hinode : (S.mem.icache ip).inum = i ∧ (S.mem.icache ip).din = sized (s.mem.icache ip).din off n t := by
    rw [hS']
    rw [edit_inode]
    exact ⟨hinum, rfl⟩
  have hsbS : S.mem.sb = sb := by rw [hS']; exact hsb
  refine does_seq (iupdate_does hsbS (by rw [hinode.1]; exact hW)) ?_
  rintro _ s' rfl
  refine does_pure ⟨rfl, t, fun k => s.input (k + 1), ?_⟩
  rw [hinode.1, hinode.2, hS']
  rfl

variable (hsb : s.mem.sb = sb) (hinum : (s.mem.icache ip).inum = i) (hdin : dino sb s.view i = (s.mem.icache ip).din)
  (hi : (dino sb s.view i).type ≠ 0) (hdev : (dino sb s.view i).type ≠ T_DEV)
  (hroom : Accepts (dino sb s.view i).size off n →
    Room W sb s.view (dino sb s.view) i (span off.toNat n.toNat)) (hWi : IBLOCK i sb ∈ W)
include hsb hinum hdin hi hdev hroom hWi

/-- `writei` of an inode without holes refuses, or rewrites it. -/
theorem writei_rewrites (hl : Layout sb) (hown : Own sb s.view (dino sb s.view) ∅)
    (hold : Whole s.view (dino sb s.view) i) :
    Does W N (fun (r : Int) s' => (¬ Accepts (dino sb s.view i).size off n ∧ r = -1 ∧ s' = s) ∨
      (Accepts (dino sb s.view i).size off n ∧ r = n.toNat ∧ ∃ d f,
        s' = { edit s ip s'.view s'.lh d with input := f } ∧ Rewritten sb s.view s'.view i d off n src))
      (writei ip src off n) s := by
  obtain ⟨h1, h2⟩ := dino_range hi
  refine does_getInode ?_
  rw [← hdin, if_neg hdev]
  split_ifs with hbad hmax
  · exact does_pure (.inl ⟨fun h => h.1 hbad, rfl, rfl⟩)
  · exact does_pure (.inl ⟨fun h => absurd h.2 (not_le.mpr hmax), rfl, rfl⟩)
  · have hacc : Accepts (dino sb s.view i).size off n := ⟨hbad, not_lt.mp hmax⟩
    refine does_seq (writeiLoop_does (n := n.toNat) hl src n.toNat 0 off.toNat s
      (dino sb s.view) (le_refl _) hsb hown hdin hi (hroom hacc)) ?_
    rintro _ s1 ⟨D', hw⟩
    simp only [zero_add] at hw
    have hmem : s1.mem.sb = sb ∧ (s1.mem.icache ip).inum = i ∧ (s1.mem.icache ip).din = D' i := by
      rw [hw.state, edit_sb, edit_inode]
      exact ⟨hsb, hinum, rfl⟩
    refine does_mono (writeiFinish_does hmem.1 hmem.2.1 hWi) ?_
    rintro _ s' ⟨rfl, t, f, rfl⟩
    rw [hmem.2.2]
    have hre : Rewritten sb s.view (updateView sb s1.view i (sized (D' i) off n t)) i
        (sized (D' i) off n t) off n src := wrote_rewritten hl hold h1 h2 hi hdev hacc rfl hw
    refine .inr ⟨hacc, rfl, sized (D' i) off n t, f, ?_, hre⟩
    conv_lhs => rw [hw.state, edit_edit]
    rfl

/-- **`writei`** refuses, or writes to the node and to no other. -/
theorem writei_does (hd : Disk sb s.view) :
    Does W N (fun (r : Int) s' => (¬ Accepts (dino sb s.view i).size off n ∧ r = -1 ∧ s' = s) ∨
      (Accepts (dino sb s.view i).size off n ∧ r = n.toNat ∧ ∃ x, nodes sb s.view i = some x ∧
        Changes sb s ip i (some (x.write off.toNat n.toNat src)) s')) (writei ip src off n) s := by
  refine does_mono (writei_rewrites hsb hinum hdin hi hdev hroom hWi hd.layout hd.own (hd.whole i)) ?_
  rintro r s' (h | ⟨hacc, hr, d, f, hs, h⟩)
  · exact .inl h
  · obtain ⟨x, hx, hnode⟩ := h.node
    obtain ⟨hdisk, hnodes⟩ := disk_change hd h.table h.super h.own h.others h.keep h.whole
    refine .inr ⟨hacc, hr, x, hx, ⟨f, ?_⟩, hdisk, by rw [hnodes, hnode], fun j hj => ?_⟩
    · rw [h.table, update_self]
      exact hs
    · rw [h.table, update_of_ne hj]

end Writei

/-! ## Fields, truncation and the ends of an inode's life -/

section Fields

variable {sb : Superblock} {s : LState} {v : Nat → Block} {D : Nat → Dinode} {i : Nat}
  {ip : Fin NINODE} {W : Set Nat} {N : Prop} {d : Dinode} {x : Node}

theorem node_some (h : nodes sb v i = some x) : (dino sb v i).type ≠ 0 ∧ 1 ≤ i ∧ i < sb.ninodes := by
  have hi := (nodesOf_some h).1
  exact ⟨hi, dino_range hi⟩

/-- The state after a change of fields in memory and `iupdate`. -/
theorem changes_update {g : Nat → UInt32} (hdisk : Disk sb (updateView sb s.view i d))
    (htable : dino sb (updateView sb s.view i d) = update (dino sb s.view) i d) {y : Option Node}
    (hnodes : nodes sb (updateView sb s.view i d) = update (nodes sb s.view) i y) : Changes sb s ip i y
      { edit s ip (updateView sb s.view i d) (absorb s.lh (IBLOCK i sb)) d with input := g } := by
  refine ⟨⟨g, ?_⟩, hdisk, hnodes, ?_⟩
  · show _ = { edit s ip _ _ (dino sb (updateView sb s.view i d) i) with input := g }
    rw [htable, update_self]
    rfl
  · intro j hj
    show dino sb (updateView sb s.view i d) j = _
    rw [htable, update_of_ne hj]

/-- Fields other than type, size and addresses are changed and go to the disk. -/
theorem does_setFields {α : Type} {Q : α → LState → Prop} {f : Dinode → Dinode} {k : Unit → K α}
    (hd : Disk sb s.view) (hsb : s.mem.sb = sb) (hinum : (s.mem.icache ip).inum = i)
    (hdin : dino sb s.view i = (s.mem.icache ip).din) (hx : nodes sb s.view i = some x)
    (htype : ∀ d, (f d).type = d.type) (haddrs : ∀ d, (f d).addrs = d.addrs)
    (hsize : ∀ d, (f d).size = d.size) (hWi : IBLOCK i sb ∈ W) (h : ∀ s', Changes sb s ip i (some { x with
        major := (f (dino sb s.view i)).major
        minor := (f (dino sb s.view i)).minor
        nlink := (f (dino sb s.view i)).nlink }) s' → Does W N Q (k ()) s') :
    Does W N Q (modDin ip f >>= fun _ => iupdate ip >>= k) s := by
  obtain ⟨hi, h1, h2⟩ := node_some hx
  refine does_modDin ?_
  rw [← hdin]
  generalize hS : setInode _ _ _ = S
  have hS' : S = edit s ip s.view s.lh (f (dino sb s.view i)) := by rw [← hS]; rfl
  have hinode : (S.mem.icache ip).inum = i ∧ (S.mem.icache ip).din = f (dino sb s.view i) := by
    rw [hS', edit_inode]
    exact ⟨hinum, rfl⟩
  have hsbS : S.mem.sb = sb := by rw [hS']; exact hsb
  refine does_seq (iupdate_does hsbS (by rw [hinode.1]; exact hWi)) ?_
  rintro _ s' rfl
  rw [hinode.1, hinode.2, hS']
  refine h _ ?_
  obtain ⟨hdisk, htable, hnodes⟩ := disk_fields hd h1 h2 (htype _) (haddrs _) (hsize _)
  obtain ⟨_, hslots⟩ := own_fields hd.own (htype (dino sb s.view i)) (haddrs _)
  have hbytes : bytesOf s.view (update (dino sb s.view) i (f (dino sb s.view i))) i
      = bytesOf s.view (dino sb s.view) i := bytesOf_same hslots (fun _ _ => rfl) i
  refine changes_update (g := s.input) hdisk htable ?_
  rw [hnodes, nodesOf, update_self, htype, if_neg hi, hbytes, hsize]
  have hx' := hx
  rw [nodes, nodesOf, if_neg hi] at hx'
  rw [← Option.some.inj hx']

theorem slots_empty (h : d.addrs = fun _ => 0) (k : Nat) : slotAddr v d k = 0 := by
  have hz : ∀ m, addr d m = 0 := fun m => by rw [addr, h]
  rw [slotAddr]
  split
  · rw [hz]
    rfl
  · rw [if_neg (fun h => h.1 (hz _))]

/-- An inode without blocks is replaced by an inode without blocks: one is allocated, or
    freed. -/
theorem disk_empty (hd : Disk sb v) (h1 : 1 ≤ i) (h2 : i < sb.ninodes)
    (hold : ∀ k, slots v (dino sb v) (i, k) = 0) (haddrs : d.addrs = fun _ => 0) (hsize : d.size = 0) :
    Disk sb (updateView sb v i d) ∧ dino sb (updateView sb v i d) = update (dino sb v) i d ∧
    nodes sb (updateView sb v i d) = update (nodes sb v) i
      (if d.type = 0 then none else some ⟨d.type, d.major, d.minor, d.nlink, 0, fun _ => 0⟩) := by
  have hslots : slots v (update (dino sb v) i d) = slots v (dino sb v) := by
    funext ⟨j, k⟩
    by_cases hj : j = i
    · rw [hj, hold k, slots, update_self]
      split_ifs with h0
      · rfl
      · rw [slots_empty haddrs]
    · rw [slots, slots, update_of_ne hj]
  obtain ⟨⟨hdisk, htable, hnodes⟩, hbytes⟩ := disk_inode hd h1 h2 hslots (hd.own.congr hslots fun _ _ => rfl) (by
    intro _ _ _
    rw [update_self, hsize]
    exact ⟨Nat.zero_le _, fun bn hbn => absurd hbn (Nat.not_lt_zero _)⟩)
  refine ⟨hdisk, htable, ?_⟩
  have hzero : bytesOf v (dino sb v) i = fun _ => 0 := by
    funext p
    rw [bytesOf, if_pos (hold _)]
  rw [hnodes, nodesOf, update_self, hsize, hbytes, hzero]
  rfl

/-- **`itrunc`** leaves a node of no bytes. -/
theorem itrunc_changes (hd : Disk sb s.view) (hsb : s.mem.sb = sb)
    (hinum : (s.mem.icache ip).inum = i) (hdin : dino sb s.view i = (s.mem.icache ip).din)
    (hx : nodes sb s.view i = some x) (hW : ∀ b, b < sb.size → BBLOCK b sb ∈ W) (hWi : IBLOCK i sb ∈ W) :
    Does W N (fun _ s' => Changes sb s ip i (some { x with size := 0, bytes := fun _ => 0 }) s' ∧
      dino sb s'.view i = truncated (dino sb s.view i)) (itrunc ip) s := by
  obtain ⟨hi, h1, h2⟩ := node_some hx
  have hl := hd.layout
  refine does_mono (itrunc_does hl hsb hd.super hd.own hdin hinum hi h1 h2 hW hWi) ?_
  rintro _ s' ⟨hstate, hown, htable, hsuper, hdata⟩
  have hself : dino sb s'.view i = truncated (dino sb s.view i) := by
    rw [htable, update_self]
  have hempty : ∀ k, slots s'.view (update (dino sb s.view) i
      (truncated (dino sb s.view i))) (i, k) = 0 := by
    intro k
    rw [slots, update_self]
    split_ifs with h0
    · rfl
    · rw [slots_empty rfl]
  have hother : ∀ j k, j ≠ i → slots s'.view (update (dino sb s.view) i
      (truncated (dino sb s.view i))) (j, k) = slots s.view (dino sb s.view) (j, k) := by
    intro j k hj
    rw [slots, slots, update_of_ne hj]
    split_ifs with h0
    · rfl
    · refine congrFun (slotAddr_congr rfl fun hn => hdata _ ?_) k
      have hs : slots s.view (dino sb s.view) (j, NDIRECT) = (addr (dino sb s.view j) NDIRECT).toNat := by
        rw [slots_direct h0 (by omega)]
      have := (hd.own.cell (j, NDIRECT) (by rw [hs]; exact fun h => hn (UInt32.toNat.inj h))).1
      rw [hs] at this
      exact this
  obtain ⟨hdisk, hnodes⟩ := disk_change hd htable hsuper hown
    (fun j hj => bytesOf_congr fun bn => .inl ⟨hother j _ hj, fun h0 => hdata _ (hd.own.cell _ h0).1⟩)
    (fun y hy h0 => by rw [hother y.1 y.2 hy]; exact h0) (by
      intro _ _
      rw [update_self]
      exact ⟨Nat.zero_le _, fun bn hbn => absurd hbn (Nat.not_lt_zero _)⟩)
  refine ⟨⟨⟨s.input, ?_⟩, hdisk, ?_, ?_⟩, hself⟩
  · rw [hself]
    conv_lhs => rw [hstate]
    rfl
  · have hbytes : bytesOf s'.view (update (dino sb s.view) i
        (truncated (dino sb s.view i))) i = fun _ => 0 := by
      funext p
      rw [bytesOf, if_pos (hempty _)]
    have hx' := hx
    rw [nodes, nodesOf, if_neg hi] at hx'
    rw [hnodes, nodesOf, update_self, hbytes, ← Option.some.inj hx']
    rw [if_neg (show (truncated (dino sb s.view i)).type ≠ 0 from hi)]
    rfl
  · intro j hj
    rw [htable, update_of_ne hj]

end Fields

end Xv6Own
