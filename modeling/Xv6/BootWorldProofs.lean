import Xv6.MkfsLinksProofs
import Xv6.WalkTotalProofs

/-!
# The file system at boot

The image that `mkfs` makes from a directory of files satisfies the invariant of the file system, with one reference
to the root: the current directory of the first process. Its directories consist of whole entries.
-/

namespace Xv6World

open CmdProg ByteBuf Xv6Disk Xv6Kernel Xv6Fs Xv6Layout Xv6Own Xv6Inode Xv6Mkfs

/-- The first slot of the inode cache. -/
def rootSlot : Fin NINODE := ⟨0, Nat.zero_lt_succ _⟩

/-- One reference, to the first slot. -/
def rootHeld : Fin NINODE → Nat := fun k => if k = rootSlot then 1 else 0

/-- The kernel's tables after boot: the first process is in the root directory. -/
def bootMem : Mem :=
  { Mem.blank with
    sb := sb
    icache := fun k =>
      if k = rootSlot then ⟨ROOTDEV, ROOTINO, 1, false, false, Dinode.zero⟩ else Mem.blank.icache k
    ptable := fun q =>
      if q = Xv6Sys.initproc then ⟨.runnable, none, fun _ => none, some rootSlot⟩ else Mem.blank.ptable q }

/-- The machine after boot from the image `img`. -/
def booted (img : Nat → Block) : LState where
  view := img
  lh := []
  logSize := LOGSIZE
  outstanding := 0
  mem := bootMem
  input := fun _ => 0
  passed := fun _ => 0

section Boot

variable {base : Xv6Mkfs.Entries} {img : Nat → Block}

/-- An entry of the root is free or leads to an inode that has been made. -/
theorem root_entry (h : mkfs base = some img) (hflat : base.hasDir = false) (k : Nat) :
    entryInum img ROOTINO k = 0 ∨ (entryInum img ROOTINO k < sb.ninodes ∧
      (dino sb img (entryInum img ROOTINO k)).type ≠ 0) := by
  obtain ⟨st, hb, hfin⟩ := mkfs_finished h
  obtain ⟨F, links, hg, hroot, hall, -⟩ := build_stored hb
  have hf := hfin F hg
  obtain ⟨-, -, hm⟩ := hg.made ROOTINO _ hroot
  have hmade : ∀ j x, F j = some x → j < sb.ninodes ∧ (dino sb img j).type ≠ 0 := by
    intro j x hx
    obtain ⟨-, hlt, hj⟩ := hg.made j x hx
    refine ⟨lt_trans hlt hg.high, ?_⟩
    rw [hf.type, hj.type]
    exact (kind_alloc hj.kind).1
  cases hl : ((dot, ROOTINO) :: (dotdot, ROOTINO) :: links)[k]? with
  | none => exact .inl (entryInum_past hf hm (List.getElem?_eq_none_iff.mp hl))
  | some l =>
    right
    have hF : ∃ x, F l.2 = some x := by
      match k, hl with
      | 0, hl => cases hl; exact ⟨_, hroot⟩
      | 1, hl => cases hl; exact ⟨_, hroot⟩
      | k + 2, hl =>
        obtain ⟨c, hc⟩ := hall.file_link base hflat k l hl
        exact ⟨_, hc⟩
    obtain ⟨x, hx⟩ := hF
    rw [entryInum_link hf hm hl, hg.inum hx]
    exact hmade l.2 x hx

/-- The root is the only directory, and every inode has one link. -/
theorem flat_nodes (h : mkfs base = some img) (hflat : base.hasDir = false) {j : Nat} {x : Node}
    (hx : nodes sb img j = some x) : x.nlink = 1 ∧ (x.type = T_DIR → j = ROOTINO ∧ 16 ∣ x.size) := by
  obtain ⟨st, hb, hfin⟩ := mkfs_finished h
  obtain ⟨F, links, hg, hroot, -⟩ := build_stored hb
  have hf := hfin F hg
  obtain ⟨h0, htype, hlink, hsize, -⟩ := nodesOf_some hx
  obtain ⟨y, hy, hm, -⟩ := hf.made hg h0
  refine ⟨by rw [hlink, hf.nlink, hm.nlink], fun hdir => ?_⟩
  have hj : j = ROOTINO := build_dirs hb hflat (by rw [← hf.type, ← htype, hdir])
  subst hj
  refine ⟨rfl, ?_⟩
  rw [hsize, hf.rootSize hg hroot]
  exact Dvd.dvd.mul_left (by decide) _

theorem booted_cache (hd : Disk sb img) (hroot : (dino sb img ROOTINO).type ≠ 0) :
    Cache sb False rootHeld (booted img) := by
  have hone : ∀ k, 0 < rootHeld k → k = rootSlot := by
    intro k hk
    by_contra hne
    rw [rootHeld, if_neg hne] at hk
    exact absurd hk (lt_irrefl 0)
  refine ⟨fun k => ?_, fun k hk => ?_, fun k hk => ?_, fun k l hk hl _ => ?_, fun k hk hv => ?_, fun _ k hk => ?_⟩
  · by_cases hk : k = rootSlot
    · rw [hk]; rfl
    · rw [rootHeld, if_neg hk]
      show (if k = rootSlot then _ else Mem.blank.icache k).ref = 0
      rw [if_neg hk]
      rfl
  · rw [hone k hk]; rfl
  · rw [hone k hk]
    exact ⟨le_refl 1, hd.layout.root⟩
  · rw [hone k hk, hone l hl]
  · rw [hone k hk] at hv
    cases hv
  · rw [hone k hk]
    exact hroot

/-- **The image is a file system**, in the sense of the kernel's invariant. -/
theorem booted_world (h : mkfs base = some img) (hflat : base.hasDir = false) (hd : Disk sb img) :
    World sb False rootHeld (booted img) ∧ WholeEntries sb img := by
  have hroot : (dino sb img ROOTINO).type ≠ 0 := by
    rw [(root_links h).1]
    decide
  have hentry : ∀ x, nodes sb img ROOTINO = some x → ∀ k, (x.entry k).inum.toNat = entryInum img ROOTINO k := by
    intro x hx k
    obtain ⟨-, -, -, -, hbytes⟩ := nodesOf_some hx
    rw [Node.entry, hbytes]
    rfl
  refine ⟨⟨rfl, hd, booted_cache hd hroot, ?_, ?_, ?_⟩, ?_⟩
  · intro d x hx hdir k _
    obtain rfl := ((flat_nodes h hflat hx).2 hdir).1
    rw [hentry x hx]
    rcases root_entry h hflat k with h0 | hlt
    · rw [h0]; decide
    · exact hlt.1
  · intro i x hx h0
    rw [(flat_nodes h hflat hx).1] at h0
    exact absurd h0 (by decide)
  · intro _
    refine ⟨fun hnone => hroot (nodesOf_none.mp hnone), ?_⟩
    rintro d k i ⟨x, hx, hdir, -, hne, rfl⟩ hnone
    obtain rfl := ((flat_nodes h hflat hx).2 hdir).1
    rw [hentry x hx] at hnone
    rcases root_entry h hflat k with h0 | hlt
    · rw [← hentry x hx] at h0
      exact hne (UInt16.toNat.inj h0)
    · exact hlt.2 (nodesOf_none.mp hnone)
  · intro d x hx hdir
    exact ((flat_nodes h hflat hx).2 hdir).2

/-- The root of an empty disk: "." and "..", and free entries up to the end of the block. -/
structure EmptyRoot (x : Node) : Prop where
  type : x.type = T_DIR
  size : x.size = 1024
  dot : x.entry 0 = direntOf dot ROOTINO
  dotdot : x.entry 1 = direntOf dotdot ROOTINO
  free : ∀ k, 2 ≤ k → (x.entry k).inum = 0

/-- An empty disk boots. -/
theorem booted_empty : ∃ img x, mkfs (files 0) = some img ∧ World sb False rootHeld (booted img) ∧ WholeEntries sb img ∧
    nodes sb img ROOTINO = some x ∧ EmptyRoot x ∧ 1500 ≤ (freeBlocks sb img).length ∧
    ∀ j, j ≠ ROOTINO → (dino sb img j).type = 0 := by
  obtain ⟨img, h⟩ := Option.isSome_iff_exists.mp (show (mkfs (files 0)).isSome = true by decide +kernel)
  obtain ⟨st, hb, hfin⟩ := mkfs_finished h
  obtain ⟨F, links, hg, hroot, hall, -⟩ := build_stored hb
  have hf := hfin F hg
  obtain ⟨-, -, hm⟩ := hg.made ROOTINO _ hroot
  cases hall
  have hlen : (dirBytes [(dot, ROOTINO), (dotdot, ROOTINO)]).length = 32 := by
    rfl
  have hdisk := hf.disk hg hroot (by rw [hlen]; decide)
  obtain ⟨hw, hwhole⟩ := booted_world h rfl hdisk
  have htype : (dino sb img ROOTINO).type = T_DIR := (root_links h).1
  have hsize := hf.rootSize hg hroot
  have hnode : nodes sb img ROOTINO = some _ := if_neg (by rw [htype]; decide)
  have hentry : ∀ k l, [(dot, ROOTINO), (dotdot, ROOTINO)][k]? = some l →
      (getDirent fun b => bytesOf img (dino sb img) ROOTINO (16 * k + b)) = direntOf l.1 l.2 :=
    fun _ _ hl => entry_link hf hm hl
  refine ⟨img, _, h, hw, hwhole, hnode, ⟨htype, hsize, hentry 0 _ rfl, hentry 1 _ rfl, ?_⟩,
    le_trans (by decide) hf.free, ?_⟩
  · intro k hk
    exact UInt16.toNat.inj (entryInum_past hf hm hk)
  · intro j hj
    have hroot1 : ROOTINO = 1 := rfl
    exact hf.type_zero hg (by rw [build_empty hb]; omega)

theorem rootHeld_spare : TwoSpare rootHeld := ⟨⟨1, by decide⟩, ⟨2, by decide⟩, by decide, rfl, rfl⟩

theorem booted_unlocked (img : Nat → Block) : Unlocked rootHeld (booted img) := by
  intro k _
  show (if k = rootSlot then _ else Mem.blank.icache k).busy = false
  split_ifs with hk
  · rfl
  · rfl

end Boot

end Xv6World
