import Xv6.DirEntriesProofs

/-!
# The invariant of the file system

`World` collects what is true between any two operations of `fs.c`: the disk is in order,
the inode cache is in order, every entry of a directory names an inode of the table, and an
inode without links is held by somebody. The last part is why path walks never free an
inode on their way: whoever keeps a removed inode in use has a reference besides theirs.

With the switch `N` off, `World` also says that live entries name allocated inodes.

For each operation that the system calls use there is one lemma here: it keeps `World`,
and says what becomes of the slots and of the table of nodes.
-/

namespace Xv6World

open CmdProg ByteBuf Xv6Disk Xv6Kernel Xv6Fs Xv6Layout Xv6Own Xv6Inode Function

/-- Entry `k` of directory `d` is live and names inode `i`. -/
def Names (T : Nat → Option Node) (d k i : Nat) : Prop :=
  ∃ x, T d = some x ∧ x.type = T_DIR ∧ k < x.entries ∧ (x.entry k).inum ≠ 0 ∧ (x.entry k).inum.toNat = i

/-- The root and whatever a live entry names are allocated. -/
structure Sound (T : Nat → Option Node) : Prop where
  root : T ROOTINO ≠ none
  named : ∀ d k i, Names T d k i → T i ≠ none

/-- Nothing breaks when inode `i` goes: only its own entries name it. -/
def Loose (T : Nat → Option Node) (i : Nat) : Prop :=
  i ≠ ROOTINO ∧ ∀ d k, Names T d k i → d = i

/-- Every inode without links is in a valid slot that somebody holds. -/
def Held (sb : Superblock) (H : Fin NINODE → Nat) (s : LState) : Prop :=
  ∀ i x, nodes sb s.view i = some x → x.nlink = 0 →
    ∃ k, 0 < H k ∧ (s.mem.icache k).inum = i ∧ (s.mem.icache k).valid = true

/-- The file system between two operations, with `H k` references held to slot `k`. -/
structure World (sb : Superblock) (N : Prop) (H : Fin NINODE → Nat) (s : LState) : Prop where
  super : s.mem.sb = sb
  disk : Disk sb s.view
  cache : Cache sb N H s
  dirs : ∀ d x, nodes sb s.view d = some x → x.type = T_DIR → DirOk sb x
  held : Held sb H s
  sound : ¬ N → Sound (nodes sb s.view)

/-- Slots in use keep their inodes and stay valid, and the other tables are the same. -/
structure Frame (H : Fin NINODE → Nat) (s s' : LState) : Prop where
  outer : Outer s s'
  inum : ∀ l, 0 < H l → (s'.mem.icache l).inum = (s.mem.icache l).inum
  valid : ∀ l, 0 < H l → (s.mem.icache l).valid = true → (s'.mem.icache l).valid = true

/-- The same, and nothing happens to the disk and the log. -/
structure Still (H : Fin NINODE → Nat) (s s' : LState) : Prop extends Frame H s s' where
  view : s'.view = s.view
  lh : s'.lh = s.lh

section Frames

variable {sb : Superblock} {N : Prop} {H H' : Fin NINODE → Nat} {s s' s'' : LState}
  {k l : Fin NINODE} {i j : Nat} {x y : Node} {T : Nat → Option Node}

theorem Frame.refl : Frame H s s := ⟨Outer.refl, fun _ _ => rfl, fun _ _ h => h⟩

theorem Frame.trans (h1 : Frame H s s') (h2 : Frame H s' s'') : Frame H s s'' :=
  ⟨h1.outer.trans h2.outer, fun l hl => (h2.inum l hl).trans (h1.inum l hl),
    fun l hl hv => h2.valid l hl (h1.valid l hl hv)⟩

theorem Frame.mono (h : Frame H s s') (hle : ∀ l, 0 < H' l → 0 < H l) : Frame H' s s' :=
  ⟨h.outer, fun l hl => h.inum l (hle l hl), fun l hl => h.valid l (hle l hl)⟩

theorem Still.refl : Still H s s := ⟨Frame.refl, rfl, rfl⟩

theorem Still.trans (h1 : Still H s s') (h2 : Still H s' s'') : Still H s s'' :=
  ⟨h1.toFrame.trans h2.toFrame, h2.view.trans h1.view, h2.lh.trans h1.lh⟩

theorem Still.mono (h : Still H s s') (hle : ∀ l, 0 < H' l → 0 < H l) : Still H' s s' :=
  ⟨h.toFrame.mono hle, h.view, h.lh⟩

theorem frame_keep (ho : Outer s s') (hk : Keep H s s') : Frame H s s' :=
  ⟨ho, fun _ hl => hk.inum hl, fun _ hl hv => (hk.valid hl).trans hv⟩

theorem frame_changes {x : Option Node} (hc : Changes sb s k i x s') : Frame H s s' := by
  refine ⟨changes_outer hc, fun l _ => ?_, fun l _ hv => ?_⟩
  · by_cases hl : l = k
    · subst hl; rw [changes_slot hc]
    · rw [changes_other hc hl]
  · by_cases hl : l = k
    · subst hl; rw [changes_slot hc]; exact hv
    · rw [changes_other hc hl]; exact hv

theorem still_setInode {i : Inode} (hinum : i.inum = (s.mem.icache k).inum)
    (hvalid : (s.mem.icache k).valid = true → i.valid = true) : Still H s (setInode s k i) := by
  refine ⟨⟨outer_setInode, fun l _ => ?_, fun l _ hv => ?_⟩, rfl, rfl⟩
  · by_cases hl : l = k
    · subst hl; rw [setInode_same]; exact hinum
    · rw [setInode_ne hl]
  · by_cases hl : l = k
    · subst hl; rw [setInode_same]; exact hvalid hv
    · rw [setInode_ne hl]; exact hv

theorem Held.frame (h : Held sb H s) (hf : Frame H s s') (hv : s'.view = s.view)
    (hle : ∀ l, 0 < H l → 0 < H' l) : Held sb H' s' := by
  intro i x hx h0
  rw [hv] at hx
  obtain ⟨k, hk, hinum, hvalid⟩ := h i x hx h0
  exact ⟨k, hle k hk, (hf.inum k hk).trans hinum, hf.valid k hk hvalid⟩

/-- `World` follows the cache when nothing happens to the disk. -/
theorem World.still (h : World sb N H s) (hs : Still H s s') (hc : Cache sb N H' s')
    (hle : ∀ l, 0 < H l → 0 < H' l) : World sb N H' s' := by
  refine ⟨hs.outer.sb.trans h.super, ?_, hc, ?_, h.held.frame hs.toFrame hs.view hle, ?_⟩
  · rw [hs.view]; exact h.disk
  · rw [hs.view]; exact h.dirs
  · rw [hs.view]; exact h.sound

/-- `World` is about the disk, the super block and the inode cache. -/
theorem World.same (h : World sb N H s) (hview : s'.view = s.view) (hsb : s'.mem.sb = s.mem.sb)
    (hic : s'.mem.icache = s.mem.icache) : World sb N H s' := by
  refine ⟨hsb.trans h.super, by rw [hview]; exact h.disk, ?_, by rw [hview]; exact h.dirs, ?_,
    by rw [hview]; exact h.sound⟩
  · exact h.cache.table hic fun _ _ => by rw [hview]
  · intro i x hx h0
    rw [hview] at hx
    rw [hic]
    exact h.held i x hx h0

theorem World.loosen (h : World sb N H s) : World sb True H s :=
  ⟨h.super, h.disk, h.cache.loosen, h.dirs, h.held, fun hN => absurd trivial hN⟩

/-- A valid slot in use holds a node. -/
theorem World.here (h : World sb N H s) (hk : 0 < H k) (hv : (s.mem.icache k).valid = true) :
    ∃ x, At sb s k (s.mem.icache k).inum x := by
  obtain ⟨hdin, htype⟩ := h.cache.sync k hk hv
  rw [hdin] at htype
  have hnode : nodes sb s.view (s.mem.icache k).inum = some _ := if_neg htype
  exact ⟨_, rfl, hv, hdin, hnode⟩

theorem At.frame (h : At sb s k i x) (hf : Frame H s s') (hk : 0 < H k) (hc : Cache sb N H' s')
    (hk' : 0 < H' k) (hx : nodes sb s'.view i = some y) : At sb s' k i y := by
  have hinum : (s'.mem.icache k).inum = i := (hf.inum k hk).trans h.inum
  have hvalid := hf.valid k hk h.valid
  exact ⟨hinum, hvalid, hinum ▸ (hc.sync k hk' hvalid).1, hx⟩

theorem At.same (h : At sb s k i x) (hview : s'.view = s.view) (hic : s'.mem.icache = s.mem.icache) : At sb s' k i x :=
  ⟨by rw [hic]; exact h.inum, by rw [hic]; exact h.valid, by rw [hic, hview]; exact h.din, by rw [hview]; exact h.node⟩

theorem At.still (h : At sb s k i x) (hs : Still H s s') (hk : 0 < H k) (hc : Cache sb N H' s')
    (hk' : 0 < H' k) : At sb s' k i x :=
  At.frame h hs.toFrame hk hc hk' (by rw [hs.view]; exact h.node)

/-! ## Soundness of the table -/

theorem names_update_ne {d m : Nat} {o : Option Node} (hd : d ≠ i) : Names (update T i o) d m j ↔ Names T d m j := by
  rw [Names, Names, update_of_ne hd]

/-- A node is replaced by one whose entries name allocated inodes. -/
theorem Sound.update (h : Sound T) (hy : y.type = T_DIR → ∀ m, m < y.entries → (y.entry m).inum ≠ 0 →
      T (y.entry m).inum.toNat ≠ none ∨ (y.entry m).inum.toNat = i) : Sound (Function.update T i (some y)) := by
  have hstay : ∀ j, T j ≠ none ∨ j = i → Function.update T i (some y) j ≠ none := by
    intro j hj
    rw [update_apply]
    split_ifs with hji
    · exact Option.some_ne_none y
    · exact hj.resolve_right hji
  refine ⟨hstay _ (.inl h.root), ?_⟩
  intro d m j hn
  by_cases hd : d = i
  · obtain ⟨z, hz, hdir, hm, h0, rfl⟩ := hn
    rw [hd, update_self] at hz
    cases hz
    exact hstay _ (hy hdir m hm h0)
  · exact hstay _ (.inl (h.named d m j ((names_update_ne hd).mp hn)))

/-- A node that nothing else names goes. -/
theorem Sound.erase (h : Sound T) (hl : Loose T i) : Sound (Function.update T i none) := by
  constructor
  · rw [update_of_ne hl.1.symm]; exact h.root
  · intro d m j hn
    by_cases hd : d = i
    · obtain ⟨z, hz, _⟩ := hn
      rw [hd, update_self] at hz
      cases hz
    · rw [names_update_ne hd] at hn
      have hj : j ≠ i := by
        rintro rfl
        exact hd (hl.2 d m hn)
      rw [update_of_ne hj]
      exact h.named d m j hn

/-- A change of one node keeps `World`. -/
theorem World.changes (h : World sb N H s) (hk : 0 < H k) (hat : At sb s k i x)
    (hc : Changes sb s k i (some y) s') (hdir : y.type = T_DIR → DirOk sb y)
    (hnames : ¬ N → y.type = T_DIR → ∀ m, m < y.entries → (y.entry m).inum ≠ 0 →
      nodes sb s.view (y.entry m).inum.toNat ≠ none ∨ (y.entry m).inum.toNat = i) :
    World sb N H s' ∧ At sb s' k i y := by
  have hframe : Frame H s s' := frame_changes hc
  have hcache := cache_changes h.cache hk hat.inum hc
  have hself : nodes sb s'.view i = some y := by rw [hc.nodes, update_self]
  have hat' := At.frame hat hframe hk hcache hk hself
  refine ⟨⟨hframe.outer.sb.trans h.super, hc.disk, hcache, ?_, ?_, ?_⟩, hat'⟩
  · intro d z hz
    by_cases hd : d = i
    · rw [hd, hself] at hz
      cases hz
      exact hdir
    · rw [hc.nodes, update_of_ne hd] at hz
      exact h.dirs d z hz
  · intro j z hz h0
    by_cases hj : j = i
    · rw [hj]
      exact ⟨k, hk, hat'.inum, hat'.valid⟩
    · rw [hc.nodes, update_of_ne hj] at hz
      obtain ⟨l, hl, hinum, hvalid⟩ := h.held j z hz h0
      exact ⟨l, hl, (hframe.inum l hl).trans hinum, hframe.valid l hl hvalid⟩
  · intro hN
    rw [hc.nodes]
    exact (h.sound hN).update (hnames hN)

end Frames

/-! ## Locks and references -/

section Ops

variable {sb : Superblock} {N : Prop} {H : Fin NINODE → Nat} {s : LState} {k : Fin NINODE}
  {W : Set Nat} {i : Nat} {x : Node}

section

variable (h : World sb N H s)
include h

theorem ilock_world (hk : 0 < H k) :
    Does W N (fun _ s' => World sb N H s' ∧ Still H s s' ∧ (s.mem.icache k).busy = false ∧
      (s'.mem.icache k).busy = true ∧ ∃ x, At sb s' k (s.mem.icache k).inum x) (ilock k) s := by
  refine does_mono (ilock_does h.super h.cache hk) ?_
  rintro _ s' ⟨rfl, hbusy, _, hcache⟩
  have hstill : Still H s (setInode s k (locked sb s.view (s.mem.icache k))) :=
    still_setInode rfl fun _ => rfl
  have hw := h.still hstill hcache fun _ hl => hl
  obtain ⟨x, hx⟩ := hw.here hk (by rw [setInode_same]; rfl)
  rw [hstill.inum k hk] at hx
  exact ⟨hw, hstill, hbusy, by rw [setInode_same]; rfl, x, hx⟩

theorem iunlock_world (hk : 0 < H k) : Does W N (fun _ s' => World sb N H s' ∧ Still H s s') (iunlock k) s := by
  refine does_mono (iunlock_does h.cache hk) ?_
  rintro _ s' ⟨rfl, _, hcache⟩
  have hstill : Still H s (setInode s k { s.mem.icache k with busy := false }) :=
    still_setInode rfl fun hv => hv
  exact ⟨h.still hstill hcache fun _ hl => hl, hstill⟩

/-- The state after slot `k` has been got for inode `n`. -/
theorem World.got {n : Nat} {s' : LState} (hg : Got sb N H s n k s') :
    World sb N (bump H k) s' ∧ Still H s s' ∧ (s'.mem.icache k).inum = n := by
  have hview : s'.view = s.view := by rw [hg.state, setInode_view]
  have hlh : s'.lh = s.lh := by rw [hg.state, setInode_lh]
  have houter : Outer s s' := by rw [hg.state]; exact outer_setInode
  have hstill : Still H s s' := ⟨frame_keep houter hg.keep, hview, hlh⟩
  exact ⟨h.still hstill hg.cache fun _ => bump_pos_of_pos, hstill, hg.inum⟩

/-- **`iput`** keeps `World`. With `N` off, the inode it frees must be one that nothing
    else names. -/
theorem iput_world (hk : 0 < H k) (hW : Reclaims H s k →
      (∀ b, b < sb.size → BBLOCK b sb ∈ W) ∧ IBLOCK (s.mem.icache k).inum sb ∈ W)
    (hloose : ¬ N → Reclaims H s k → Loose (nodes sb s.view) (s.mem.icache k).inum) :
    Does W N (fun _ s' => World sb N (drop H k) s' ∧ Frame (drop H k) s s' ∧
      ((¬ Reclaims H s k ∧ s'.view = s.view ∧ s'.lh = s.lh) ∨ (Reclaims H s k ∧
          nodes sb s'.view = update (nodes sb s.view) (s.mem.icache k).inum none))) (iput k) s := by
  refine does_mono (iput_does h.super h.disk h.cache hk hW) ?_
  intro _ s' hr
  have hframe := frame_keep hr.outer hr.keep
  refine ⟨⟨hr.outer.sb.trans h.super, hr.disk, hr.cache, ?_, ?_, ?_⟩, hframe, hr.effect⟩
  · intro d z hz
    rcases hr.effect with ⟨_, hv, _⟩ | ⟨_, hv⟩
    · rw [hv] at hz
      exact h.dirs d z hz
    · rw [hv, update_apply] at hz
      split_ifs at hz
      exact h.dirs d z hz
  · intro j z hz h0
    -- whoever held `j` before still does, unless that was `k` and `j` is now free
    have hkeep : ∃ l, 0 < drop H k l ∧ (s.mem.icache l).inum = j ∧ (s.mem.icache l).valid = true := by
      rcases hr.effect with ⟨hno, hv, _⟩ | ⟨_, hv⟩
      · rw [hv] at hz
        obtain ⟨l, hl, hinum, hvalid⟩ := h.held j z hz h0
        refine ⟨l, ?_, hinum, hvalid⟩
        by_cases hlk : l = k
        · subst hlk
          have hlink : (s.mem.icache l).din.nlink = 0 := by
            rw [(h.cache.sync l hl hvalid).1, hinum, ← (nodesOf_some hz).2.2.1, h0]
          have : H l ≠ 1 := fun h1 => hno ⟨h1, hvalid, hlink⟩
          rw [drop_self]
          omega
        · rw [drop_of_ne hlk]; exact hl
      · rw [hv, update_apply] at hz
        split_ifs at hz with hj
        obtain ⟨l, hl, hinum, hvalid⟩ := h.held j z hz h0
        have hlk : l ≠ k := by
          rintro rfl
          exact hj hinum.symm
        exact ⟨l, by rw [drop_of_ne hlk]; exact hl, hinum, hvalid⟩
    obtain ⟨l, hl, hinum, hvalid⟩ := hkeep
    exact ⟨l, hl, (hframe.inum l hl).trans hinum, hframe.valid l hl hvalid⟩
  · intro hN
    rcases hr.effect with ⟨_, hv, _⟩ | ⟨hrec, hv⟩
    · rw [hv]; exact h.sound hN
    · rw [hv]; exact (h.sound hN).erase (hloose hN hrec)

/-- If an inode without links is held without this reference too, dropping it frees nothing. -/
theorem Held.quiet (hk : 0 < H k) (hheld : Held sb (drop H k) s) : ¬ Reclaims H s k := by
  rintro ⟨h1, hvalid, hlink⟩
  obtain ⟨x, hx⟩ := h.here hk hvalid
  obtain ⟨l, hl, hinum, _⟩ := hheld _ x hx.node (hx.nlink ▸ hlink)
  have hlk := h.cache.uniq l k (pos_of_drop hl) hk hinum
  rw [hlk, drop_self] at hl
  omega

theorem iput_quiet (hk : 0 < H k) (hheld : Held sb (drop H k) s) :
    Does W N (fun _ s' => World sb N (drop H k) s' ∧ Still (drop H k) s s') (iput k) s := by
  have hno := hheld.quiet h hk
  refine does_mono (iput_world h hk (fun hr => absurd hr hno) fun _ hr => absurd hr hno) ?_
  rintro _ s' ⟨hw, hframe, ⟨_, hview, hlh⟩ | ⟨hr, _⟩⟩
  · exact ⟨hw, hframe, hview, hlh⟩
  · exact absurd hr hno

theorem iunlockput_quiet (hk : 0 < H k) (hheld : Held sb (drop H k) s) :
    Does W N (fun _ s' => World sb N (drop H k) s' ∧ Still (drop H k) s s') (iunlockput k) s := by
  refine does_seq (iunlock_world h hk) ?_
  rintro _ s1 ⟨hw, hs⟩
  have hheld1 : Held sb (drop H k) s1 :=
    hheld.frame (hs.toFrame.mono fun _ => pos_of_drop) hs.view fun _ hl => hl
  refine does_mono (iput_quiet hw hk hheld1) ?_
  rintro _ s2 ⟨hw2, hs2⟩
  exact ⟨hw2, (hs.mono fun _ => pos_of_drop).trans hs2⟩

end

/-- What `dirlookup` returns, and that it keeps `World`. -/
def Found (sb : Superblock) (N : Prop) (H : Fin NINODE → Nat) (s : LState) (x : Node)
    (name : List UInt8) : Option (Fin NINODE × Nat) → LState → Prop
  | none, s' => s' = s ∧ x.lookup name = none
  | some r, s' => ∃ m, x.lookup name = some m ∧ r.2 = 16 * m ∧
      (s'.mem.icache r.1).inum = (x.entry m).inum.toNat ∧ World sb N (bump H r.1) s' ∧
      Still H s s' ∧ Keep H s s'

theorem dirlookup_world {name : List UInt8} (h : World sb N H s) (hk : 0 < H k) (hat : At sb s k i x) :
    Does W N (fun r s' => x.type = T_DIR ∧ Found sb N H s x name r s') (dirlookup k name) s := by
  refine does_mono (dirlookup_does h.disk h.cache hk hat (h.dirs i x hat.node) ?_) ?_
  · intro hN hx m hm h0 htype
    exact (h.sound hN).named i m _ ⟨x, hat.node, hx, hm, h0, rfl⟩ (nodesOf_none.mpr htype)
  · rintro (_ | r) s' ⟨hx, hl⟩
    · exact ⟨hx, hl⟩
    · obtain ⟨m, hm, hoff, hgot⟩ := hl
      obtain ⟨hw, hs, hinum⟩ := h.got hgot
      exact ⟨hx, m, hm, hoff, hinum, hw, hs, hgot.keep⟩

end Ops

end Xv6World
