import Xv6.NamespaceErrorsProofs
import Xv6.LinkCallsProofs
import Mathlib.Order.Interval.Finset.Nat

/-!
# A link count that overflows

Two directories of a disk have room for 32767 names of one file. The state is built with the pieces of the kernel that
`create` and `link` are made of, on an empty disk; its link counts are right. From it, `link` of one more name runs to its
end and returns zero.
-/

namespace Xv6World

open CmdProg ByteBuf Xv6Disk Xv6Kernel Xv6Fs Xv6Sys Xv6Layout Xv6Own Xv6Inode Xv6Total Function Finset Option

/-! ## `link` runs to its end -/

section Total

variable {sb : Superblock} {H : Fin NINODE → Nat} {s : LState} {p : Fin NPROC} {i d : Nat} {x y : Node}
  {old new name : List UInt8}

theorem twoSpare_of_bump {k : Fin NINODE} (h : TwoSpare (bump H k)) : TwoSpare H := by
  obtain ⟨a, b, hab, ha, hb⟩ := h
  have hzero : ∀ l, bump H k l = 0 → H l = 0 := by
    intro l hl
    by_contra hne
    have hpos : 0 < bump H k l := bump_pos_of_pos (pos_of_ne_zero hne)
    omega
  exact ⟨a, b, hab, hzero a ha, hzero b hb⟩

/-- `namei` of a path that leads somewhere. -/
theorem namei_runs (h : World sb False H s) (hspare : TwoSpare H) (hfree : Unlocked H s) (hwhole : WholeEntries sb s.view)
    (hcwd : ∃ k, (s.mem.ptable p).cwd = some k ∧ 0 < H k) (hres : resolve sb s p old false = some (i, name)) :
    Runs (namei p old) s fun r s' => ∃ ip, r = some ip ∧ World sb False (bump H ip) s' ∧ Still H s s' ∧
      (s'.mem.icache ip).inum = i ∧ Unlocked (bump H ip) s' := by
  rw [namei]
  refine runs_seq (namex_runs not_false h hspare hfree hwhole hcwd) ?_
  rintro (_ | y) s1 ⟨hw, hun⟩
  · cases hw.2.2.symm.trans hres
  · obtain ⟨hw1, hs1, hy⟩ := hw
    rw [hres] at hy
    exact runs_pure ⟨y.1, rfl, hw1, hs1, (Prod.mk.inj (some.inj hy)).1.symm, hun y rfl⟩

/-- **`link` returns zero** when there is room in the directory: nothing is locked, no transaction is going on, and
    no inode is without links. -/
theorem sysLink_runs (h : World sb False H s) (hspare : ∀ k, TwoSpare (bump H k)) (hfree : Unlocked H s)
    (hwhole : WholeEntries sb s.view) (hcwd : ∃ k, (s.mem.ptable p).cwd = some k ∧ 0 < H k) (hlh : s.lh = [])
    (hidle : s.outstanding = 0) (hsize : s.logSize = LOGSIZE) {oldName : List UInt8}
    (hold : resolve sb s p old false = some (i, oldName)) (hx : nodes sb s.view i = some x) (hfile : x.type ≠ T_DIR)
    (hnew : ∀ t : LState, nodes sb t.view = update (nodes sb s.view) i (some { x with nlink := x.nlink + 1 }) →
      startOf t.mem p new = startOf s.mem p new → resolve sb t p new true = some (d, name))
    (hy : nodes sb s.view d = some y) (hdir : y.type = T_DIR) (hnone : y.lookup name = none) (hmap : IsMap y)
    (hin : 1024 * (y.freeSlot / 64) < y.size) (hmax : 16 * y.freeSlot + 16 ≤ MAXFILE * BSIZE)
    (hlinks : ∀ j z, nodes sb s.view j = some z → z.nlink ≠ 0) (hxlink : x.nlink + 1 ≠ 0) :
    Runs (sysLink p (some old) (some new)) s fun r _ => r = 0 := by
  have hent : World sb False H (entered s) := h.same rfl rfl rfl
  have hdi : d ≠ i := by
    rintro rfl
    rw [hx] at hy
    cases hy
    exact hfile hdir
  refine runs_beginOp hlh hidle ?_
  refine runs_seq (namei_runs hent (twoSpare_of_bump (hspare rootSlot)) hfree hwhole hcwd hold) ?_
  rintro _ s1 ⟨ip, rfl, hw1, hs1, hinum1, hun1⟩
  refine runs_seq (ilock_runs not_false hw1 bump_pos (hun1 ip bump_pos)) ?_
  rintro _ s2 ⟨hs2, hw2, hst2, x', hat2⟩
  rw [hinum1] at hat2
  have hview2 : s2.view = s.view := hst2.view.trans hs1.view
  obtain rfl : x = x' := by
    have hnode := hat2.node
    rw [hview2, hx] at hnode
    exact some.inj hnode
  refine runs_getInode ?_
  rw [hat2.type, if_neg hfile]
  have hone : (entered s).outstanding = 1 := by
    show s.outstanding + 1 = 1
    omega
  have hfresh2 : Fresh s2 := ⟨hst2.lh.trans (hs1.lh.trans hlh),
    hst2.outer.outstanding.trans (hs1.outer.outstanding.trans hone), hst2.outer.logSize.trans (hs1.outer.logSize.trans hsize)⟩
  refine runs_setFields (fun d => { d with nlink := d.nlink + 1 }) hw2.disk hw2.super hat2 (begun_fresh hfresh2)
    (fun _ => rfl) (fun _ => rfl) (fun _ => rfl) fun s3 hc3 hlh3 => ?_
  obtain ⟨hmajor, hminor, hnlink⟩ := node_device hat2.node
  rw [← hmajor, ← hminor, ← hnlink] at hc3
  have hw3 := (hw2.changes bump_pos hat2 hc3 (fun hd => absurd hd hfile) fun _ hd => absurd hd hfile).1
  have hbusy3 : (s3.mem.icache ip).busy = true := by
    rw [changes_slot hc3, hs2, setInode_same]
    rfl
  refine runs_seq (iunlock_runs hw3 bump_pos hbusy3) ?_
  rintro _ s4 ⟨hs4, hw4, hst4⟩
  have hf4 : Frame (bump H ip) s1 s4 := hst2.toFrame.trans ((frame_changes hc3).trans hst4.toFrame)
  have hf4' : Frame H (entered s) s4 := hs1.toFrame.trans (hf4.mono fun _ => bump_pos_of_pos)
  have hn4 : nodes sb s4.view = update (nodes sb s.view) i (some { x with nlink := x.nlink + 1 }) := by
    rw [hst4.view, hc3.nodes, hview2]
  have hun4 : Unlocked (bump H ip) s4 := by
    intro l hl
    by_cases hlk : l = ip
    · rw [hs4, hlk, setInode_same]
    · rw [hs4, setInode_ne hlk, changes_other hc3 hlk, hs2, setInode_ne hlk]
      exact hun1 l hl
  have hwhole4 : WholeEntries sb s4.view := by
    intro j z hz hzd
    rw [hn4, update_apply] at hz
    split_ifs at hz
    · cases hz
      exact absurd hzd hfile
    · exact hwhole j z hz hzd
  have hcwd4 : ∃ k, (s4.mem.ptable p).cwd = some k ∧ 0 < bump H ip k := by
    obtain ⟨k, hk, hpos⟩ := hcwd
    exact ⟨k, by rw [hf4'.outer.ptable]; exact hk, bump_pos_of_pos hpos⟩
  have hstart4 : startOf s4.mem p new = startOf s.mem p new := by
    obtain ⟨k, hk, hpos⟩ := hcwd
    have hk4 : (s4.mem.ptable p).cwd = some k := by rw [hf4'.outer.ptable]; exact hk
    have hinum : (s4.mem.icache k).inum = (s.mem.icache k).inum := hf4'.inum k hpos
    rw [startOf, startOf, hk, hk4]
    show (if _ then _ else (s4.mem.icache k).inum) = (if _ then _ else (s.mem.icache k).inum)
    rw [hinum]
  have hy4 : nodes sb s4.view d = some y := by rw [hn4, update_of_ne hdi, hy]
  have hlh4 : s4.lh = [IBLOCK i sb] := by
    rw [hst4.lh, hlh3, hfresh2.lh]
    rfl
  refine nameiparent_locked hw4 (hspare ip) hun4 hwhole4 hcwd4 (hnew s4 hn4 hstart4) hy4
    fun dp s5 hw5 hs5 hat5 hlock5 => ?_
  refine runs_getInode (runs_getInode ?_)
  have hdev : ¬ (s5.mem.icache dp).dev ≠ (s5.mem.icache ip).dev := by
    rw [hw5.cache.dev dp bump_pos, hw5.cache.dev ip (bump_pos_of_pos bump_pos)]
    exact fun hne => hne rfl
  rw [if_neg hdev, hs5.inum ip bump_pos, hf4.inum ip bump_pos, hinum1]
  have hlink : Linking sb (bump (bump H ip) dp) s5 dp d y := Linking.ofLog hw5.loosen bump_pos hat5 hdir
    (hwhole d y hy hdir) hmap (by rw [hs5.outer.outstanding, hf4'.outer.outstanding, hone])
    (by rw [hs5.lh, hlh4]; exact List.nodup_singleton _) (by rw [hs5.lh, hlh4]; exact Nat.le_add_left 1 19)
    (hs5.outer.logSize.trans (hf4'.outer.logSize.trans hsize))
  have hroomy : Roomy sb (bump (bump H ip) dp) s5 d y name := by
    refine ⟨fun m hm => (by cases hnone.symm.trans hm), fun _ => ⟨hmax, ?_⟩⟩
    rw [hlink.mapped hin]
    exact Nat.zero_le _
  refine runs_seq (runs_returns (dirlink_runs i hlink hroomy)
    (returns_dirlink_new hw5.loosen bump_pos hat5 hnone)) ?_
  rintro r s6 ⟨-, rfl, hc6⟩
  rw [if_neg (by decide)]
  obtain ⟨-, -, hi2⟩ := node_some hx
  have hinums := h.disk.layout.inums
  have hlt : (UInt16.ofNat i).toNat < sb.ninodes := by
    rw [UInt16.toNat_ofNat']
    omega
  have hw6 := (hw5.loosen.changes bump_pos hat5 hc6 (fun _ => dirOk_setEntry (hw5.dirs d y hat5.node hdir) freeSlot_le
    hlt) fun hN => absurd trivial hN).1
  -- no inode is without links
  have hall6 : ∀ j z, nodes sb s6.view j = some z → z.nlink ≠ 0 := by
    intro j z hz
    rw [hc6.nodes, update_apply] at hz
    split_ifs at hz
    · cases hz
      exact hlinks d y hy
    · rw [hs5.view, hn4, update_apply] at hz
      split_ifs at hz
      · cases hz
        exact hxlink
      · exact hlinks j z hz
  have hheld6 : ∀ H', Held sb H' s6 := fun H' j z hz h0 => absurd h0 (hall6 j z hz)
  have hbusy6 : (s6.mem.icache dp).busy = true := by
    rw [changes_slot hc6]
    exact hlock5
  refine runs_seq (iunlockput_runs hw6 bump_pos hbusy6 (hheld6 _)) ?_
  rintro _ s7 ⟨hw7, hs7, -⟩
  rw [drop_bump] at hw7 hs7
  refine runs_seq (iput_runs hw7 bump_pos fun j z hz h0 => ?_) ?_
  · rw [hs7.view] at hz
    exact absurd h0 (hall6 j z hz)
  · rintro _ s8 -
    exact runs_endOp rfl

end Total

/-! ## A file with 32767 names -/

/-- A directory with `n` entries and nothing behind them: the first two are "." and "..", and lead to `a` or the root, and
    entry `k` after them names `f k`. -/
structure Listing (x : Node) (n a : Nat) (f : Nat → Nat) : Prop where
  type : x.type = T_DIR
  whole : 16 ∣ x.size
  map : IsMap x
  live : ∀ k, Live x k ↔ k < n
  dots : ∀ k, k < 2 → (nameOf (x.entry k) = dot ∨ nameOf (x.entry k) = dotdot) ∧
    ((x.entry k).inum.toNat = a ∨ (x.entry k).inum.toNat = ROOTINO)
  names : ∀ k, 2 ≤ k → k < n → (x.entry k).inum.toNat = f k

/-- The root, the directory `e` in it and the file `i`: all but one of the 15682 names in the root and the 17086 in `e`
    are names of `i`. -/
structure Crowd (T : Nat → Option Node) (i e : Nat) (r z f : Node) : Prop where
  root : T ROOTINO = some r
  dir : T e = some z
  file : T i = some f
  only : ∀ j, j ≠ ROOTINO → j ≠ e → j ≠ i → T j = none
  distinct : e ≠ ROOTINO ∧ i ≠ ROOTINO ∧ i ≠ e
  rootList : Listing r 15684 ROOTINO fun k => if k = 2 then e else i
  dirList : Listing z 17088 e fun _ => i
  type : f.type ≠ T_DIR
  nlinks : r.nlink = 2 ∧ z.nlink = 1 ∧ f.nlink = 32767

section Crowd

variable {T : Nat → Option Node} {i e d k j : Nat} {r z f : Node}

section

variable (h : Crowd T i e r z f)
include h

/-- Every node is one of the three. -/
theorem Crowd.cases {x : Node} (hx : T j = some x) : (j = ROOTINO ∧ x = r) ∨ (j = e ∧ x = z) ∨ (j = i ∧ x = f) := by
  by_cases h1 : j = ROOTINO
  · rw [h1, h.root] at hx
    exact .inl ⟨h1, (some.inj hx).symm⟩
  · by_cases h2 : j = e
    · rw [h2, h.dir] at hx
      exact .inr (.inl ⟨h2, (some.inj hx).symm⟩)
    · by_cases h3 : j = i
      · rw [h3, h.file] at hx
        exact .inr (.inr ⟨h3, (some.inj hx).symm⟩)
      · rw [h.only j h1 h2 h3] at hx
        cases hx

theorem Crowd.names : Names T d k j ↔
    (d = ROOTINO ∧ k < 15684 ∧ (r.entry k).inum.toNat = j) ∨ (d = e ∧ k < 17088 ∧ (z.entry k).inum.toNat = j) := by
  rw [names_iff]
  constructor
  · rintro ⟨x, hx, hdir, hl, hj⟩
    rcases h.cases hx with ⟨hd, rfl⟩ | ⟨hd, rfl⟩ | ⟨-, rfl⟩
    · exact .inl ⟨hd, (h.rootList.live k).mp hl, hj⟩
    · exact .inr ⟨hd, (h.dirList.live k).mp hl, hj⟩
    · exact absurd hdir h.type
  · rintro (⟨rfl, hk, hj⟩ | ⟨rfl, hk, hj⟩)
    · exact ⟨r, h.root, h.rootList.type, (h.rootList.live k).mpr hk, hj⟩
    · exact ⟨z, h.dir, h.dirList.type, (h.dirList.live k).mpr hk, hj⟩

/-- What an entry other than "." and ".." names. -/
theorem Crowd.named (hk : 2 ≤ k) : Names T d k j ↔
    (d = ROOTINO ∧ k = 2 ∧ j = e) ∨ (d = ROOTINO ∧ 3 ≤ k ∧ k < 15684 ∧ j = i) ∨ (d = e ∧ k < 17088 ∧ j = i) := by
  rw [h.names]
  constructor
  · rintro (⟨hd, hlt, hj⟩ | ⟨hd, hlt, hj⟩)
    · rw [h.rootList.names k hk hlt] at hj
      split_ifs at hj with hk2
      · exact .inl ⟨hd, hk2, hj.symm⟩
      · exact .inr (.inl ⟨hd, by omega, hlt, hj.symm⟩)
    · rw [h.dirList.names k hk hlt] at hj
      exact .inr (.inr ⟨hd, hlt, hj.symm⟩)
  · rintro (⟨hd, rfl, rfl⟩ | ⟨hd, h3, hlt, rfl⟩ | ⟨hd, hlt, rfl⟩)
    · exact .inl ⟨hd, by decide, (h.rootList.names 2 hk (by decide)).trans (if_pos rfl)⟩
    · exact .inl ⟨hd, hlt, (h.rootList.names k hk hlt).trans (if_neg (by omega))⟩
    · exact .inr ⟨hd, hlt, h.dirList.names k hk hlt⟩

theorem Crowd.namesOf_file : namesOf T i =
    ↑((Finset.Ico 3 15684).image (fun k => (ROOTINO, k)) ∪ (Finset.Ico 2 17088).image (fun k => (e, k))) := by
  ext ⟨d, k⟩
  rw [mem_coe, mem_union, mem_image, mem_image]
  constructor
  · rintro ⟨hn, hk⟩
    rcases (h.named hk).mp hn with ⟨-, -, hi⟩ | ⟨hd, hk3, hlt, -⟩ | ⟨hd, hlt, -⟩
    · exact absurd hi h.distinct.2.2
    · exact .inl ⟨k, mem_Ico.mpr ⟨hk3, hlt⟩, Prod.ext hd.symm rfl⟩
    · exact .inr ⟨k, mem_Ico.mpr ⟨hk, hlt⟩, Prod.ext hd.symm rfl⟩
  · rintro (⟨m, hm, heq⟩ | ⟨m, hm, heq⟩)
    · obtain ⟨rfl, rfl⟩ := Prod.mk.inj heq
      obtain ⟨h3, hlt⟩ := mem_Ico.mp hm
      have h2 : 2 ≤ m := le_trans (by decide) h3
      exact ⟨(h.named h2).mpr (.inr (.inl ⟨rfl, h3, hlt, rfl⟩)), h2⟩
    · obtain ⟨rfl, rfl⟩ := Prod.mk.inj heq
      obtain ⟨h2, hlt⟩ := mem_Ico.mp hm
      exact ⟨(h.named h2).mpr (.inr (.inr ⟨rfl, hlt, rfl⟩)), h2⟩

theorem Crowd.nameCount_file : nameCount T i = 32767 := by
  have hpair : ∀ a : Nat, Function.Injective fun k : Nat => (a, k) := fun a _ _ hab => (Prod.mk.inj hab).2
  have hdisj : Disjoint ((Finset.Ico 3 15684).image (fun k => (ROOTINO, k)))
      ((Finset.Ico 2 17088).image (fun k => (e, k))) := by
    refine disjoint_left.mpr fun a ha hb => ?_
    obtain ⟨k, -, rfl⟩ := mem_image.mp ha
    obtain ⟨m, -, hm⟩ := mem_image.mp hb
    exact h.distinct.1 (Prod.mk.inj hm).1
  rw [nameCount, h.namesOf_file, Set.ncard_coe_finset, card_union_of_disjoint hdisj,
    card_image_of_injective _ (hpair _), card_image_of_injective _ (hpair _), Nat.card_Ico, Nat.card_Ico]

theorem Crowd.nameCount_dir : nameCount T e = 1 := by
  have hset : namesOf T e = {(ROOTINO, 2)} := by
    ext ⟨d, k⟩
    rw [Set.mem_singleton_iff, Prod.mk.injEq]
    constructor
    · rintro ⟨hn, hk⟩
      rcases (h.named hk).mp hn with ⟨hd, hk2, -⟩ | ⟨-, -, -, hi⟩ | ⟨-, -, hi⟩
      · exact ⟨hd, hk2⟩
      · exact absurd hi.symm h.distinct.2.2
      · exact absurd hi.symm h.distinct.2.2
    · rintro ⟨rfl, rfl⟩
      exact ⟨(h.named (le_refl 2)).mpr (.inl ⟨rfl, rfl, rfl⟩), le_refl 2⟩
  rw [nameCount, hset, Set.ncard_singleton]

theorem Crowd.nameCount_root : nameCount T ROOTINO = 0 := by
  have hset : namesOf T ROOTINO = ∅ := by
    refine Set.eq_empty_of_forall_notMem ?_
    rintro ⟨d, k⟩ ⟨hn, hk⟩
    rcases (h.named hk).mp hn with ⟨-, -, hj⟩ | ⟨-, -, -, hj⟩ | ⟨-, -, hj⟩
    · exact h.distinct.1 hj.symm
    · exact h.distinct.2.1 hj.symm
    · exact h.distinct.2.1 hj.symm
  rw [nameCount, hset, Set.ncard_empty]

theorem Crowd.not_isDir : ¬ IsDir T i := by
  rintro ⟨x, hx, hdir⟩
  rw [h.file] at hx
  cases hx
  exact h.type hdir

theorem Crowd.kidCount_root : kidCount T ROOTINO = 1 := by
  have hset : kidsOf T ROOTINO = {2} := by
    ext k
    rw [Set.mem_singleton_iff]
    constructor
    · rintro ⟨hk, j, hn, hj⟩
      rcases (h.named hk).mp hn with ⟨-, hk2, -⟩ | ⟨-, -, -, rfl⟩ | ⟨hd, -⟩
      · exact hk2
      · exact absurd hj h.not_isDir
      · exact absurd hd.symm h.distinct.1
    · rintro rfl
      exact ⟨le_refl 2, e, (h.named (le_refl 2)).mpr (.inl ⟨rfl, rfl, rfl⟩), z, h.dir, h.dirList.type⟩
  rw [kidCount, hset, Set.ncard_singleton]

theorem Crowd.kidCount_dir : kidCount T e = 0 := by
  have hset : kidsOf T e = ∅ := by
    refine Set.eq_empty_of_forall_notMem ?_
    rintro k ⟨hk, j, hn, hj⟩
    rcases (h.named hk).mp hn with ⟨hd, -⟩ | ⟨hd, -⟩ | ⟨-, -, rfl⟩
    · exact h.distinct.1 hd
    · exact h.distinct.1 hd
    · exact h.not_isDir hj
  rw [kidCount, hset, Set.ncard_empty]

theorem Crowd.dots {x : Node} {n a : Nat} {g : Nat → Nat} (hx : Listing x n a g)
    (ha : a = e ∨ a = ROOTINO) (hn : 2 < n) : 2 ≤ x.entries ∧ ∀ k, k < 2 → DotEntry T (x.entry k) := by
  refine ⟨le_of_lt ((hx.live 2).mpr hn).1, fun k hk => ?_⟩
  obtain ⟨hname, hinum⟩ := hx.dots k hk
  refine ⟨((hx.live k).mpr (by omega)).2, hname, fun y hy => ?_⟩
  rcases h.cases hy with ⟨-, rfl⟩ | ⟨-, rfl⟩ | ⟨hj, -⟩
  · exact h.rootList.type
  · exact h.dirList.type
  · have hdist := h.distinct
    omega

/-- **The counts are right.** -/
theorem Crowd.tally : Tally T := by
  refine ⟨?_, ?_, ?_, ?_⟩
  · refine (({ROOTINO, e} : Finset Nat) ×ˢ range 17088).finite_toSet.subset ?_
    rintro ⟨d, k⟩ ⟨j, hn⟩
    rw [mem_coe, mem_product, mem_insert, mem_singleton, mem_range]
    rcases h.names.mp hn with ⟨hd, hk, -⟩ | ⟨hd, hk, -⟩
    · exact ⟨.inl hd, lt_of_lt_of_le hk (by decide)⟩
    · exact ⟨.inr hd, hk⟩
  · intro d x hx hdir
    rcases h.cases hx with ⟨-, rfl⟩ | ⟨-, rfl⟩ | ⟨-, rfl⟩
    · exact h.dots h.rootList (.inr rfl) (by decide)
    · exact h.dots h.dirList (.inl rfl) (by decide)
    · exact absurd hdir h.type
  · intro d k j hn hk hnone
    rcases (h.named hk).mp hn with ⟨-, -, rfl⟩ | ⟨-, -, -, rfl⟩ | ⟨-, -, rfl⟩
    · cases h.dir.symm.trans hnone
    · cases h.file.symm.trans hnone
    · cases h.file.symm.trans hnone
  · intro j x hx
    rcases h.cases hx with ⟨rfl, rfl⟩ | ⟨rfl, rfl⟩ | ⟨rfl, rfl⟩
    · rw [links, if_pos h.rootList.type, if_pos rfl, h.nameCount_root, h.kidCount_root, h.nlinks.1]
      decide
    · rw [links, if_pos h.dirList.type, if_neg h.distinct.1, h.nameCount_dir, h.kidCount_dir, h.nlinks.2.1]
      decide
    · rw [links, if_neg h.type, h.nameCount_file, h.nlinks.2.2]
      decide

end

end Crowd

/-! ## The state with the 32767 names -/

/-- Slots in use keep their inodes and their locks. -/
structure Kept (H : Fin NINODE → Nat) (s s' : LState) : Prop where
  frame : Frame H s s'
  busy : ∀ l, 0 < H l → (s'.mem.icache l).busy = (s.mem.icache l).busy

section Pieces

variable {sb : Superblock} {N : Prop} {H : Fin NINODE → Nat} {s s' s'' : LState} {k dp : Fin NINODE} {i j d n B : Nat}
  {x : Node}

theorem Kept.refl : Kept H s s := ⟨Frame.refl, fun _ _ => rfl⟩

theorem Kept.trans (h1 : Kept H s s') (h2 : Kept H s' s'') : Kept H s s'' :=
  ⟨h1.frame.trans h2.frame, fun l hl => (h2.busy l hl).trans (h1.busy l hl)⟩

/-- A new inode, locked. -/
theorem bench_alloc {type : Int16} (h : World sb False H s) (hf : Fresh s) (hspare : ∃ l, H l = 0)
    (hinode : ∃ m, 1 ≤ m ∧ m < sb.ninodes ∧ nodes sb s.view m = none) (htype : type ≠ 0) :
    ∃ k n s', nodes sb s.view n = none ∧ World sb False (bump H k) s' ∧ At sb s' k n ⟨type, 0, 0, 0, 0, fun _ => 0⟩ ∧
      nodes sb s'.view = update (nodes sb s.view) n (some ⟨type, 0, 0, 0, 0, fun _ => 0⟩) ∧ Kept H s s' ∧
      Fresh s' ∧ (s'.mem.icache k).busy = true ∧ freeBlocks sb s'.view = freeBlocks sb s.view := by
  obtain ⟨m, h1, h2, h0⟩ := hinode
  obtain ⟨k, s2, -, n, s1, hk0, ha, hs2, hcache2, hblocks⟩ := alloc_runs (Q := fun k s2 => ∃ n s1, H k = 0 ∧
      Allocated sb False H s type n k s1 ∧ s2 = setInode s1 k (locked sb s1.view (s1.mem.icache k)) ∧
      Cache sb False (bump H k) s2 ∧ freeBlocks sb s2.view = freeBlocks sb s.view) (c := pure) not_false h hf hspare
    ⟨m, h1, h2, nodesOf_none.mp h0⟩ htype fun k n _ s1 s2 hk0 ha hs2 hcache2 _ hblocks =>
      runs_pure ⟨n, s1, hk0, ha, hs2, hcache2, hblocks⟩
  obtain ⟨hw2, hat2, hf2, hnodes2⟩ := Allocated.locked h ha hs2 hcache2
  refine ⟨k, n, { s2 with lh := [] }, nodesOf_none.mpr ha.first.free, hw2.same rfl rfl rfl, At.same hat2 rfl rfl, hnodes2,
    ⟨hf2.log, fun l hl => ?_⟩, ⟨rfl, hf2.outer.outstanding.trans hf.outstanding, hf2.outer.logSize.trans hf.logSize⟩,
    ?_, hblocks⟩
  · have hlk : l ≠ k := by
      rintro rfl
      omega
    rw [hs2, setInode_ne hlk, ha.keep.busy hl]
  · rw [hs2, setInode_same]
    rfl

/-- A link count is set. -/
theorem bench_nlink (h : World sb False H s) (hk : 0 < H k) (hat : At sb s k i x) (hf : Fresh s) (c : Int16) :
    ∃ s', World sb False H s' ∧ Fresh s' ∧ Kept H s s' ∧
      nodes sb s'.view = update (nodes sb s.view) i (some { x with nlink := c }) := by
  obtain ⟨-, s1, -, hc⟩ := runs_setFields (Q := fun _ t => Changes sb s k i (some { x with
      major := (dino sb s.view i).major
      minor := (dino sb s.view i).minor
      nlink := c }) t) (c := fun _ => pure ()) (fun d => { d with nlink := c }) h.disk h.super hat (begun_fresh hf)
    (fun _ => rfl) (fun _ => rfl) (fun _ => rfl) fun t ht _ => runs_pure ht
  obtain ⟨hmajor, hminor, -⟩ := node_device hat.node
  rw [← hmajor, ← hminor] at hc
  have hw := (h.changes hk hat hc (h.dirs i x hat.node) fun hN hdir m hm hne =>
    .inl ((h.sound hN).named i m _ ⟨x, hat.node, hdir, hm, hne, rfl⟩)).1
  have hframe : Frame H s s1 := frame_changes hc
  refine ⟨{ s1 with lh := [] }, hw.same rfl rfl rfl,
    ⟨rfl, hframe.outer.outstanding.trans hf.outstanding, hframe.outer.logSize.trans hf.logSize⟩,
    ⟨hframe.log, fun l _ => ?_⟩, hc.nodes⟩
  by_cases hl : l = k
  · rw [hl, changes_slot hc]
  · rw [changes_other hc hl]

/-- A name that is not in the directory and is not the new one. -/
theorem lookup_insert_none {name other : List UInt8} {e : UInt16} (hn : n ≤ x.entries) (h0 : 0 ∉ name) (h0' : 0 ∉ other)
    (hnone : x.lookup other = none) (hne : name.take DIRSIZ ≠ other.take DIRSIZ) :
    (x.setEntry n ⟨e, strncpyName name⟩).lookup other = none := by
  refine (lookup_none_iff h0').mpr ?_
  rintro m ⟨hl, hname⟩
  by_cases hmn : m = n
  · rw [hmn, setEntry_entry, nameOf_strncpy h0] at hname
    exact hne hname
  · rw [setEntry_entry_ne hmn] at hname
    rcases (live_setEntry hn).mp hl with ⟨hm, -⟩ | ⟨-, hl⟩
    · exact hmn hm
    · exact (lookup_none_iff h0').mp hnone m ⟨hl, hname⟩

/-- One more entry, as a step that keeps the locks. -/
theorem Filled.add {name : List UInt8} (h : Filled sb False H dp d n B s x) (hB : 536 ≤ B) (hn : n < 17088) (h1 : 1 ≤ j)
    (h2 : j < sb.ninodes) (hj : nodes sb s.view j ≠ none) (h0 : 0 ∉ name) (hnone : x.lookup name = none) :
    ∃ s', Filled sb False H dp d (n + 1) B s' (x.setEntry n ⟨UInt16.ofNat j, strncpyName name⟩) ∧
      nodes sb s'.view = update (nodes sb s.view) d (some (x.setEntry n ⟨UInt16.ofNat j, strncpyName name⟩)) ∧
      Kept H s s' := by
  obtain ⟨s', hfill, hn', hf, hb⟩ := h.insert hB hn h1 h2 (fun _ => hj) h0 hnone
  exact ⟨s', hfill, hn', hf, fun l _ => hb l⟩

/-- The directory after many names of inode `j`, of two bytes each, have gone into the places from `n` on. -/
structure Stuffed (sb : Superblock) (H : Fin NINODE → Nat) (s : LState) (d n m j : Nat) (x : Node) (s' : LState)
    (y : Node) : Prop where
  table : nodes sb s'.view = update (nodes sb s.view) d (some y)
  kept : Kept H s s'
  before : ∀ k, k < n → y.entry k = x.entry k
  after : ∀ k, n ≤ k → k < m → (y.entry k).inum.toNat = j
  absent : ∀ other : List UInt8, 0 ∉ other → other.length = 1 → x.lookup other = none → y.lookup other = none

theorem Filled.stuff (h : Filled sb False H dp d n B s x) (hB : 536 ≤ B) (h1 : 1 ≤ j) (h2 : j < sb.ninodes)
    (hj : nodes sb s.view j ≠ none) :
    ∀ m, n ≤ m → m ≤ 17088 → ∃ s' y, Filled sb False H dp d m B s' y ∧ Stuffed sb H s d n m j x s' y := by
  intro m hm
  induction m, hm using Nat.le_induction with
  | base =>
    refine fun _ => ⟨s, x, h, ?_, Kept.refl, fun _ _ => rfl, fun k hk hlt => ?_, fun _ _ _ ho => ho⟩
    · rw [← h.here.node, update_eq_self]
    · omega
  | succ m hm ih =>
    intro hle
    obtain ⟨s1, y, hy, hst⟩ := ih (by omega)
    obtain ⟨name, h0, hlen, hnone⟩ := hy.newName
    have hj1 : nodes sb s1.view j ≠ none := by
      rw [hst.table, update_apply]
      split_ifs
      · exact some_ne_none y
      · exact hj
    obtain ⟨s2, hfill, hn2, hk2⟩ := hy.add hB (by omega) h1 h2 hj1 h0 hnone
    have hnum := hy.linking.inum_toNat h2
    refine ⟨s2, _, hfill, ?_, hst.kept.trans hk2, fun k hk => ?_, fun k hk hlt => ?_, ?_⟩
    · rw [hn2, hst.table, update_idem]
    · rw [setEntry_entry_ne (by omega)]
      exact hst.before k hk
    · by_cases hkm : k = m
      · rw [hkm, setEntry_entry]
        exact hnum
      · rw [setEntry_entry_ne hkm]
        exact hst.after k hk (by omega)
    · intro other ho0 ho1 ho
      refine lookup_insert_none (hy.freeSlot ▸ freeSlot_le) h0 ho0 (hst.absent other ho0 ho1 ho) fun heq => ?_
      have hlens := congrArg List.length heq
      rw [List.length_take, List.length_take, hlen, ho1] at hlens
      exact absurd hlens (by decide)

end Pieces

open Xv6Mkfs (sb mkfs files)

/-- References to the root and to two other slots. -/
abbrev benchHeld (ki ke : Fin NINODE) : Fin NINODE → Nat := bump (bump rootHeld ki) ke

/-- The root, a file and a directory, all of them locked, at the start of a transaction. -/
structure Bench (ki ke : Fin NINODE) (i e : Nat) (r z f : Node) (s : LState) : Prop where
  world : World sb False (benchHeld ki ke) s
  fresh : Fresh s
  root : At sb s rootSlot ROOTINO r
  file : At sb s ki i f
  dir : At sb s ke e z
  distinct : e ≠ ROOTINO ∧ i ≠ ROOTINO ∧ i ≠ e
  only : ∀ j, j ≠ ROOTINO → j ≠ e → j ≠ i → nodes sb s.view j = none
  proc : s.mem.ptable = bootMem.ptable
  locked : ∀ k, 0 < benchHeld ki ke k → (s.mem.icache k).busy = true

section Bench

variable {ki ke : Fin NINODE} {i e j n : Nat} {r z f y : Node} {s s' : LState} {H : Fin NINODE → Nat}

theorem rootHeld_pos {k : Fin NINODE} (h : 0 < rootHeld k) : k = rootSlot := by
  by_contra hne
  rw [rootHeld, if_neg hne] at h
  omega

theorem held_root : 0 < benchHeld ki ke rootSlot := bump_pos_of_pos (bump_pos_of_pos zero_lt_one)

theorem held_file : 0 < benchHeld ki ke ki := bump_pos_of_pos bump_pos

theorem held_cases {k : Fin NINODE} (h : 0 < benchHeld ki ke k) : k = rootSlot ∨ k = ki ∨ k = ke := by
  by_contra hno
  obtain ⟨h1, h2, h3⟩ := not_or.mp hno |>.imp_right not_or.mp
  rw [benchHeld, bump_of_ne h3, bump_of_ne h2] at h
  exact h1 (rootHeld_pos h)

/-- Any four slots leave two. -/
theorem spare_four (a b c : Fin NINODE) : TwoSpare (bump (benchHeld a b) c) := by
  have hcard : 1 < (univ \ ({rootSlot, a, b, c} : Finset (Fin NINODE))).card := by
    have hle := card_le_four (a := rootSlot) (b := a) (c := b) (d := c)
    have hsub := le_card_sdiff ({rootSlot, a, b, c} : Finset (Fin NINODE)) univ
    have hall : (univ : Finset (Fin NINODE)).card = 50 := by
      rw [card_univ, Fintype.card_fin]
      rfl
    omega
  obtain ⟨k, hk, l, hl, hkl⟩ := one_lt_card.mp hcard
  have hzero : ∀ m ∈ univ \ ({rootSlot, a, b, c} : Finset (Fin NINODE)), bump (benchHeld a b) c m = 0 := by
    intro m hm
    have hnot := (mem_sdiff.mp hm).2
    simp only [mem_insert, mem_singleton, not_or] at hnot
    rw [bump_of_ne hnot.2.2.2, benchHeld, bump_of_ne hnot.2.2.1, bump_of_ne hnot.2.1, rootHeld, if_neg hnot.1]
  exact ⟨k, l, hkl, hzero k hk, hzero l hl⟩

section Next

variable (h : Bench ki ke i e r z f s) (hw : World sb False (benchHeld ki ke) s') (hf : Fresh s')
  (hk : Kept (benchHeld ki ke) s s')

include h hw hf hk

/-- One of the three nodes has changed. -/
theorem Bench.next (hj : j = ROOTINO ∨ j = e ∨ j = i) (hn : nodes sb s'.view = update (nodes sb s.view) j (some y)) :
    Bench ki ke i e (if ROOTINO = j then y else r) (if e = j then y else z) (if i = j then y else f) s' := by
  have hnode : ∀ a x, nodes sb s.view a = some x → nodes sb s'.view a = some (if a = j then y else x) := by
    intro a x hx
    rw [hn]
    split_ifs with ha
    · rw [ha, update_self]
    · rw [update_of_ne ha, hx]
  refine ⟨hw, hf, At.frame h.root hk.frame held_root hw.cache held_root (hnode _ _ h.root.node),
    At.frame h.file hk.frame held_file hw.cache held_file (hnode _ _ h.file.node),
    At.frame h.dir hk.frame bump_pos hw.cache bump_pos (hnode _ _ h.dir.node), h.distinct, ?_,
    hk.frame.outer.ptable.trans h.proc, fun k hpos => (hk.busy k hpos).trans (h.locked k hpos)⟩
  intro a h1 h2 h3
  have haj : a ≠ j := by omega
  rw [hn, update_of_ne haj]
  exact h.only a h1 h2 h3

theorem Bench.nextRoot (hn : nodes sb s'.view = update (nodes sb s.view) ROOTINO (some y)) :
    Bench ki ke i e y z f s' := by
  have hb := h.next hw hf hk (.inl rfl) hn
  rwa [if_pos rfl, if_neg h.distinct.1, if_neg h.distinct.2.1] at hb

theorem Bench.nextDir (hn : nodes sb s'.view = update (nodes sb s.view) e (some y)) : Bench ki ke i e r y f s' := by
  have hb := h.next hw hf hk (.inr (.inl rfl)) hn
  rwa [if_neg h.distinct.1.symm, if_pos rfl, if_neg h.distinct.2.2] at hb

theorem Bench.nextFile (hn : nodes sb s'.view = update (nodes sb s.view) i (some y)) : Bench ki ke i e r z y s' := by
  have hb := h.next hw hf hk (.inr (.inr rfl)) hn
  rwa [if_neg h.distinct.2.1.symm, if_neg h.distinct.2.2.symm, if_pos rfl] at hb

end Next

/-- The inodes are there: the root of an empty disk, a file and a directory. -/
theorem bench_start : ∃ ki ke i e r s, Bench ki ke i e r ⟨T_DIR, 0, 0, 0, 0, fun _ => 0⟩ ⟨T_FILE, 0, 0, 0, 0, fun _ => 0⟩ s ∧
    EmptyRoot r ∧ 1498 ≤ (freeBlocks sb s.view).length := by
  obtain ⟨s0, r, hfill, hroot, hproc, hlock, hothers⟩ := filled_root
  have hsize : r.size = 1024 := hroot.size
  obtain ⟨ki, i, s1, hi0, hw1, hat1, hn1, hk1, hf1, hb1, hfree1⟩ := bench_alloc hfill.world hfill.fresh
    ⟨⟨1, by decide⟩, rfl⟩ ⟨2, by decide, by decide, hothers 2 (by decide)⟩ (show T_FILE ≠ 0 by decide)
  have hi : i ≠ ROOTINO := by
    rintro rfl
    cases hfill.here.node.symm.trans hi0
  have hfreeInode : ∃ m, 1 ≤ m ∧ m < sb.ninodes ∧ nodes sb s1.view m = none := by
    rw [hn1]
    by_cases h2 : i = 2
    · exact ⟨3, by decide, by decide, by rw [update_of_ne (by omega)]; exact hothers 3 (by decide)⟩
    · exact ⟨2, by decide, by decide, by rw [update_of_ne (Ne.symm h2)]; exact hothers 2 (by decide)⟩
  have hspare1 : ∃ l, bump rootHeld ki l = 0 := TwoSpare.bump rootHeld_spare ki
  obtain ⟨ke, e, s2, he0, hw2, hat2, hn2, hk2, hf2, hb2, hfree2⟩ := bench_alloc hw1 hf1 hspare1
    hfreeInode (show T_DIR ≠ 0 by decide)
  have hr1 : nodes sb s1.view ROOTINO = some r := by
    rw [hn1, update_of_ne hi.symm]
    exact hfill.here.node
  have he : e ≠ ROOTINO := by
    rintro rfl
    cases hr1.symm.trans he0
  have hie : i ≠ e := by
    rintro rfl
    cases hat1.node.symm.trans he0
  have hpos0 : 0 < rootHeld rootSlot := zero_lt_one
  have hroot1 : At sb s1 rootSlot ROOTINO r :=
    At.frame hfill.here hk1.frame hpos0 hw1.cache (bump_pos_of_pos hpos0) hr1
  refine ⟨ki, ke, i, e, r, s2, ⟨hw2, hf2, At.frame hroot1 hk2.frame (bump_pos_of_pos hpos0) hw2.cache held_root ?_,
    At.frame hat1 hk2.frame bump_pos hw2.cache held_file ?_, hat2, ⟨he, hi, hie⟩, ?_, ?_, ?_⟩, hroot, ?_⟩
  · rw [hn2, update_of_ne he.symm, hr1]
  · rw [hn2, update_of_ne hie]
    exact hat1.node
  · intro j h1 h2 h3
    rw [hn2, update_of_ne h2, hn1, update_of_ne h3]
    exact hothers j h1
  · rw [hk2.frame.outer.ptable, hk1.frame.outer.ptable, hproc]
  · intro k hk
    by_cases hke : k = ke
    · rw [hke]
      exact hb2
    · rw [benchHeld, bump_of_ne hke] at hk
      rw [hk2.busy k hk]
      by_cases hki : k = ki
      · rw [hki]
        exact hb1
      · rw [bump_of_ne hki] at hk
        rw [hk1.busy k hk, rootHeld_pos hk]
        exact hlock
  · have hblocks := hfill.blocks
    rw [hfree2, hfree1]
    rw [hsize] at hblocks
    omega

/-- The directory has its names. -/
theorem bench_dir : ∃ ki ke i e r z s, Bench ki ke i e r z ⟨T_FILE, 0, 0, 0, 0, fun _ => 0⟩ s ∧ EmptyRoot r ∧
    964 ≤ (freeBlocks sb s.view).length ∧ Listing z 17088 e fun _ => i := by
  obtain ⟨ki, ke, i, e, r, s, hb, hroot, hfree⟩ := bench_start
  generalize hz0 : (⟨T_DIR, 0, 0, 0, 0, fun _ => 0⟩ : Node) = z0 at hb
  have hnone : ∀ k, ¬ Live z0 k := by
    rw [← hz0]
    exact fun k hl => not_lt_entries hl.1
  have hsize0 : z0.size = 0 := by rw [← hz0]
  have hfill0 : Filled sb False (benchHeld ki ke) ke e 0 1498 s z0 :=
    ⟨hb.world, bump_pos, hb.dir, by rw [← hz0], by rw [hsize0]; exact Nat.dvd_zero 16, fun k _ hk => absurd hk (hnone k),
      hb.fresh, fun k => iff_of_false (hnone k) (Nat.not_lt_zero k), by omega⟩
  obtain ⟨-, he1, he2⟩ := node_some hb.dir.node
  obtain ⟨-, hi1, hi2⟩ := node_some hb.file.node
  have habsent : ∀ l : List UInt8, 0 ∉ l → z0.lookup l = none := fun l hl =>
    (lookup_none_iff hl).mpr fun k hk => hnone k hk.1
  obtain ⟨s1, hfill1, hn1, hk1⟩ := hfill0.add (by decide) (by decide) he1 he2
    (by rw [hb.dir.node]; exact some_ne_none _) (by decide) (habsent dot (by decide))
  have hb1 := hb.nextDir hfill1.world hfill1.fresh hk1 hn1
  obtain ⟨s2, hfill2, hn2, hk2⟩ := hfill1.add (j := ROOTINO) (by decide) (by decide) (le_refl 1)
    hb.world.disk.layout.root (by rw [hb1.root.node]; exact some_ne_none _) (by decide)
    (lookup_insert_none (Nat.zero_le _) (by decide) (by decide) (habsent dotdot (by decide)) (by decide))
  have hb2 := hb1.nextDir hfill2.world hfill2.fresh hk2 hn2
  obtain ⟨s3, z, hfill3, hst⟩ := hfill2.stuff (by decide) hi1 hi2
    (by rw [hb2.file.node]; exact some_ne_none _) 17088 (by decide) (le_refl _)
  have hblocks := hfill3.blocks
  have hsize := hfill3.linking.size_le
  refine ⟨ki, ke, i, e, r, z, s3, hb2.nextDir hfill3.world hfill3.fresh hst.kept hst.table, hroot, by omega, hfill3.dir,
    hfill3.whole, hfill3.map, hfill3.live, fun k hk => ?_, hst.after⟩
  rw [hst.before k hk]
  rcases (show k = 0 ∨ k = 1 by omega) with rfl | rfl
  · rw [setEntry_entry_ne (by decide), setEntry_entry, nameOf_strncpy (by decide)]
    exact ⟨.inl rfl, .inl (hfill0.linking.inum_toNat he2)⟩
  · rw [setEntry_entry, nameOf_strncpy (by decide)]
    exact ⟨.inr rfl, .inr rfl⟩

/-- The root has its names: the file is "a" in it, and nothing is called "b". -/
theorem bench_root : ∃ ki ke i e r z s, Bench ki ke i e r z ⟨T_FILE, 0, 0, 0, 0, fun _ => 0⟩ s ∧
    Listing z 17088 e (fun _ => i) ∧ Listing r 15684 ROOTINO (fun k => if k = 2 then e else i) ∧
    r.lookup [97] = some 3 ∧ r.lookup [98] = none := by
  obtain ⟨ki, ke, i, e, r0, z, s, hb, hroot, hfree, hz⟩ := bench_dir
  have hfill0 : Filled sb False (benchHeld ki ke) rootSlot ROOTINO 2 964 s r0 := by
    refine ⟨hb.world, held_root, hb.root, hroot.type, ⟨64, by rw [hroot.size]⟩, hroot.isMap, hb.fresh, fun k => ?_, by omega⟩
    rw [hroot.live k]
    omega
  obtain ⟨-, he1, he2⟩ := node_some hb.dir.node
  obtain ⟨-, hi1, hi2⟩ := node_some hb.file.node
  have h2le : 2 ≤ r0.entries := by
    rw [hroot.entries]
    decide
  have h100 : r0.lookup [100] = none := hroot.lookup_none (by decide) (by decide) (by decide)
  obtain ⟨s1, hfill1, hn1, hk1⟩ := hfill0.add (by decide) (by decide) he1 he2
    (by rw [hb.dir.node]; exact some_ne_none _) (by decide) h100
  have hb1 := hb.nextRoot hfill1.world hfill1.fresh hk1 hn1
  obtain ⟨s2, hfill2, hn2, hk2⟩ := hfill1.add (by decide) (by decide) hi1 hi2
    (by rw [hb1.file.node]; exact some_ne_none _) (by decide)
    (lookup_insert_none h2le (by decide) (by decide) hroot.lookup_a (by decide))
  have hb2 := hb1.nextRoot hfill2.world hfill2.fresh hk2 hn2
  obtain ⟨s3, r, hfill3, hst⟩ := hfill2.stuff (by decide) hi1 hi2
    (by rw [hb2.file.node]; exact some_ne_none _) 15684 (by decide) (by decide)
  have hold : ∀ k, k < 2 → r.entry k = r0.entry k := by
    intro k hk
    rw [hst.before k (by omega), setEntry_entry_ne (by omega), setEntry_entry_ne (by omega)]
  have hthree : r.entry 3 = ⟨UInt16.ofNat i, strncpyName [97]⟩ := by rw [hst.before 3 (by decide), setEntry_entry]
  refine ⟨ki, ke, i, e, r, z, s3, hb2.nextRoot hfill3.world hfill3.fresh hst.kept hst.table, hz,
    ⟨hfill3.dir, hfill3.whole, hfill3.map, hfill3.live, fun k hk => ?_, fun k h2 hlt => ?_⟩, ?_, ?_⟩
  · rw [hold k hk]
    rcases (show k = 0 ∨ k = 1 by omega) with rfl | rfl
    · rw [hroot.dot]
      exact ⟨.inl rfl, .inl rfl⟩
    · rw [hroot.dotdot]
      exact ⟨.inr rfl, .inl rfl⟩
  · split_ifs with hk2
    · rw [hk2, hst.before 2 (by decide), setEntry_entry_ne (by decide), setEntry_entry]
      exact hfill0.linking.inum_toNat he2
    · by_cases hk3 : k = 3
      · rw [hk3, hthree]
        exact hfill0.linking.inum_toNat hi2
      · exact hst.after k (by omega) hlt
  · refine (lookup_iff hfill3.map (by decide)).mpr ⟨(hfill3.live 3).mpr (by decide), ?_⟩
    rw [hthree, nameOf_strncpy (by decide)]
  · refine hst.absent [98] (by decide) rfl (lookup_insert_none (hfill1.freeSlot ▸ freeSlot_le) (by decide) (by decide)
      (lookup_insert_none h2le (by decide) (by decide) ?_ (by decide)) (by decide))
    exact hroot.lookup_none (by decide) (by decide) (by decide)

/-- Nobody has a lock any more. -/
theorem Bench.unlock (h : Bench ki ke i e r z f s) : ∃ s', World sb False (benchHeld ki ke) s' ∧
    Still (benchHeld ki ke) s s' ∧ Unlocked (benchHeld ki ke) s' := by
  have hki : ki ≠ rootSlot := by
    rintro rfl
    exact h.distinct.2.1 (h.file.inum.symm.trans h.root.inum)
  have hke : ke ≠ rootSlot := by
    rintro rfl
    exact h.distinct.1 (h.dir.inum.symm.trans h.root.inum)
  have hkk : ki ≠ ke := by
    rintro rfl
    exact h.distinct.2.2 (h.file.inum.symm.trans h.dir.inum)
  obtain ⟨-, s1, -, hs1, hw1, hst1⟩ := iunlock_runs h.world held_root (h.locked _ held_root)
  obtain ⟨-, s2, -, hs2, hw2, hst2⟩ := iunlock_runs hw1 held_file (by
    rw [hs1, setInode_ne hki]
    exact h.locked _ held_file)
  obtain ⟨-, s3, -, hs3, hw3, hst3⟩ := iunlock_runs hw2 bump_pos (by
    rw [hs2, setInode_ne hkk.symm, hs1, setInode_ne hke]
    exact h.locked _ bump_pos)
  refine ⟨s3, hw3, hst1.trans (hst2.trans hst3), fun k hk => ?_⟩
  by_cases h3 : k = ke
  · rw [hs3, h3, setInode_same]
  · rw [hs3, setInode_ne h3]
    by_cases h2 : k = ki
    · rw [hs2, h2, setInode_same]
    · rw [hs2, setInode_ne h2]
      obtain rfl : k = rootSlot := by
        rcases held_cases hk with h1 | h1 | h1
        · exact h1
        · exact absurd h1 h2
        · exact absurd h1 h3
      rw [hs1, setInode_same]

/-- A state between two calls, with nothing locked, in which a file in the root, "a", has 32767 names, and in which
    "b" can be a name. -/
structure Crowded (H : Fin NINODE → Nat) (i e : Nat) (r z f : Node) (s : LState) : Prop where
  world : World sb False H s
  crowd : Crowd (nodes sb s.view) i e r z f
  found : r.lookup [97] = some 3
  absent : r.lookup [98] = none
  spare : ∀ k, TwoSpare (bump H k)
  unlocked : Unlocked H s
  idle : s.lh = [] ∧ s.outstanding = 0 ∧ s.logSize = LOGSIZE
  proc : s.mem.ptable = bootMem.ptable
  cwd : 0 < H rootSlot ∧ (s.mem.icache rootSlot).inum = ROOTINO

theorem crowded_state : ∃ H i e r z f s, Crowded H i e r z f s := by
  obtain ⟨ki, ke, i, e, r, z, s, hb, hz, hr, hfound, habsent⟩ := bench_root
  obtain ⟨s1, hw1, hf1, hk1, hn1⟩ := bench_nlink hb.world held_file hb.file hb.fresh 32767
  have hb1 := hb.nextFile hw1 hf1 hk1 hn1
  obtain ⟨s2, hw2, hf2, hk2, hn2⟩ := bench_nlink hb1.world bump_pos hb1.dir hb1.fresh 1
  have hb2 := hb1.nextDir hw2 hf2 hk2 hn2
  obtain ⟨s3, hw3, hf3, hk3, hn3⟩ := bench_nlink hb2.world held_root hb2.root hb2.fresh 2
  have hb3 := hb2.nextRoot hw3 hf3 hk3 hn3
  obtain ⟨s4, hw4, hst4, hun4⟩ := hb3.unlock
  have hview : s4.view = s3.view := hst4.view
  refine ⟨_, i, e, { r with nlink := 2 }, { z with nlink := 1 }, ⟨T_FILE, 0, 0, 32767, 0, fun _ => 0⟩,
    { s4 with outstanding := 0 }, hw4.same rfl rfl rfl, ?_, hfound, habsent, spare_four ki ke, hun4,
    ⟨hst4.lh.trans hf3.lh, rfl, hst4.outer.logSize.trans hf3.logSize⟩, hst4.outer.ptable.trans hb3.proc, held_root,
    (hst4.inum rootSlot held_root).trans hb3.root.inum⟩
  rw [hview]
  exact ⟨hb3.root.node, hb3.dir.node, hb3.file.node, hb3.only, hb3.distinct,
    ⟨hr.type, hr.whole, hr.map, hr.live, hr.dots, hr.names⟩, ⟨hz.type, hz.whole, hz.map, hz.live, hz.dots, hz.names⟩,
    by show T_FILE ≠ T_DIR; decide, rfl, rfl, rfl⟩

/-- After boot only the root directory is a current directory. -/
theorem bootMem_cwd {p : Fin NPROC} {k : Fin NINODE} (h : (bootMem.ptable p).cwd = some k) : k = rootSlot := by
  rw [bootMem] at h
  by_cases hp : p = initproc
  · simp only [if_pos hp] at h
    exact (some.inj h).symm
  · simp only [if_neg hp] at h
    cases h

/-- The link counts of that state are right. -/
theorem Crowded.counted (h : Crowded H i e r z f s) : Counted sb H s := by
  refine ⟨h.world.loosen, h.crowd.tally, ?_, ?_⟩
  · intro j x hx hdir h0 hroot
    rcases h.crowd.cases hx with ⟨rfl, -⟩ | ⟨rfl, -⟩ | ⟨rfl, -⟩
    · exact absurd rfl hroot
    · rw [h.crowd.nameCount_dir] at h0
      cases h0
    · rw [h.crowd.nameCount_file] at h0
      cases h0
  · intro p k hk
    rw [h.proc] at hk
    rw [bootMem_cwd hk]
    exact h.cwd.1

theorem Crowded.start (h : Crowded H i e r z f s) (c : UInt8) (hc : c ≠ slash) :
    (s.mem.ptable initproc).cwd = some rootSlot ∧ startOf s.mem initproc [c] = ROOTINO := by
  have hcwd : (s.mem.ptable initproc).cwd = some rootSlot := by
    rw [h.proc]
    rfl
  refine ⟨hcwd, ?_⟩
  have hhead : ¬ [c].head? = some slash := fun heq => hc (some.inj heq)
  rw [startOf, if_neg hhead, hcwd]
  exact h.cwd.2

theorem Crowded.resolve_a (h : Crowded H i e r z f s) : resolve sb s initproc [97] false = some (i, [97]) := by
  have hskip : skipelem [97] = some ([97], []) := by decide
  rw [resolve, (h.start 97 (by decide)).2, walkFrom, hskip]
  rw [h.crowd.root]
  show (if r.type ≠ T_DIR then none else _) = _
  rw [if_neg (not_not.mpr h.crowd.rootList.type), if_neg (fun hp => by cases hp.1), h.found]
  show walkFrom _ false 1 (r.entry 3).inum.toNat [] [97] = _
  rw [h.crowd.rootList.names 3 (by decide) (by decide)]
  rfl

/-- **One more name**: `link("a", "b")` returns zero. -/
theorem Crowded.links (h : Crowded H i e r z f s) :
    Runs (sysLink initproc (some [97]) (some [98])) s fun c _ => c = 0 := by
  have hslot : r.freeSlot = 15684 := by
    have hge : ¬ r.freeSlot < 15684 := fun hlt => not_live_freeSlot ((h.crowd.rootList.live _).mpr hlt)
    have hle : ¬ 15684 < r.freeSlot := fun hlt => lt_irrefl _ ((h.crowd.rootList.live 15684).mp (live_of_lt_freeSlot hlt))
    omega
  have hsize : 16 * 15684 ≤ r.size := by
    have hlive := ((h.crowd.rootList.live 15683).mpr (by decide)).1
    rw [Node.entries] at hlive
    omega
  obtain ⟨hcwd, hstart⟩ := h.start 98 (by decide)
  refine sysLink_runs h.world h.spare h.unlocked ?_ ⟨rootSlot, hcwd, h.cwd.1⟩ h.idle.1 h.idle.2.1 h.idle.2.2 h.resolve_a
    h.crowd.file h.crowd.type ?_ h.crowd.root h.crowd.rootList.type h.absent h.crowd.rootList.map ?_ ?_ ?_ ?_
  · intro d x hx hdir
    rcases h.crowd.cases hx with ⟨-, rfl⟩ | ⟨-, rfl⟩ | ⟨-, rfl⟩
    · exact h.crowd.rootList.whole
    · exact h.crowd.dirList.whole
    · exact absurd hdir h.crowd.type
  · intro t hn ht
    refine resolve_single (by decide) ?_ h.crowd.rootList.type (ht.trans hstart)
    rw [hn, update_of_ne h.crowd.distinct.2.1.symm, h.crowd.root]
  · rw [hslot]
    omega
  · have hlim : MAXFILE * BSIZE = 16 * 17088 := by decide
    rw [hslot]
    omega
  · intro j x hx
    obtain ⟨hr, hz, hf⟩ := h.crowd.nlinks
    rcases h.crowd.cases hx with ⟨-, rfl⟩ | ⟨-, rfl⟩ | ⟨-, rfl⟩
    · rw [hr]
      decide
    · rw [hz]
      decide
    · rw [hf]
      decide
  · rw [h.crowd.nlinks.2.2]
    decide

end Bench

/-! ## A disk with one file -/

/-- The root has ".", ".." and one name, that of inode 2. -/
structure OneFile (T : Nat → Option Node) (r f : Node) : Prop where
  root : T ROOTINO = some r
  file : T 2 = some f
  only : ∀ j, j ≠ ROOTINO → j ≠ 2 → T j = none
  types : r.type = T_DIR ∧ f.type ≠ T_DIR
  nlinks : r.nlink = 1 ∧ f.nlink = 1
  whole : r.entries = 64
  inums : ∀ k, k < 64 → (r.entry k).inum = if k < 2 then 1 else if k = 2 then 2 else 0
  dots : nameOf (r.entry 0) = dot ∧ nameOf (r.entry 1) = dotdot

section OneFile

variable {T : Nat → Option Node} {r f : Node} {d k j : Nat} (h : OneFile T r f)
include h

theorem OneFile.cases {x : Node} (hx : T j = some x) : (j = ROOTINO ∧ x = r) ∨ (j = 2 ∧ x = f) := by
  by_cases h1 : j = ROOTINO
  · subst h1
    exact .inl ⟨rfl, (some.inj (h.root.symm.trans hx)).symm⟩
  · by_cases h2 : j = 2
    · subst h2
      exact .inr ⟨rfl, (some.inj (h.file.symm.trans hx)).symm⟩
    · rw [h.only j h1 h2] at hx
      cases hx

theorem OneFile.inum_dot (hk : k < 2) : (r.entry k).inum = 1 := by
  rw [h.inums k (by omega), if_pos hk]

theorem OneFile.names : Names T d k j ↔ d = ROOTINO ∧ (k < 2 ∧ j = ROOTINO ∨ k = 2 ∧ j = 2) := by
  rw [names_iff]
  constructor
  · rintro ⟨x, hx, hdir, ⟨hk, hlive⟩, hj⟩
    rcases h.cases hx with ⟨rfl, rfl⟩ | ⟨rfl, rfl⟩
    · rw [h.whole] at hk
      rw [h.inums k hk] at hlive hj
      refine ⟨rfl, ?_⟩
      split_ifs at hlive hj with hk2 hk3
      · exact .inl ⟨hk2, hj.symm⟩
      · exact .inr ⟨hk3, hj.symm⟩
      · exact absurd rfl hlive
    · exact absurd hdir h.types.2
  · rintro ⟨rfl, ⟨hk, rfl⟩ | ⟨rfl, rfl⟩⟩
    · have hinum := h.inum_dot hk
      exact ⟨r, h.root, h.types.1, ⟨by rw [h.whole]; omega, by rw [hinum]; decide⟩, by rw [hinum]; rfl⟩
    · have hinum := h.inums 2 (by decide)
      exact ⟨r, h.root, h.types.1, ⟨by rw [h.whole]; decide, by rw [hinum]; decide⟩, by rw [hinum]; rfl⟩

theorem OneFile.namesOf_file : namesOf T 2 = {(ROOTINO, 2)} := by
  ext ⟨a, b⟩
  constructor
  · rintro ⟨hn, hb⟩
    obtain ⟨ha, ⟨hlt, -⟩ | ⟨hb2, -⟩⟩ := h.names.mp hn
    · exact absurd hlt (not_lt.mpr hb)
    · exact Prod.ext ha hb2
  · rintro ⟨⟩
    exact ⟨h.names.mpr ⟨rfl, .inr ⟨rfl, rfl⟩⟩, le_rfl⟩

theorem OneFile.namesOf_other (hj : j ≠ 2) : namesOf T j = ∅ := by
  refine Set.eq_empty_iff_forall_notMem.mpr ?_
  rintro ⟨a, b⟩ ⟨hn, hb⟩
  obtain ⟨-, ⟨hlt, -⟩ | ⟨-, h2⟩⟩ := h.names.mp hn
  · exact absurd hlt (not_lt.mpr hb)
  · exact hj h2

theorem OneFile.nameCount_le : nameCount T j ≤ 1 := by
  rw [nameCount]
  by_cases hj : j = 2
  · rw [hj, h.namesOf_file, Set.ncard_singleton]
  · rw [h.namesOf_other hj, Set.ncard_empty]
    exact zero_le_one

theorem OneFile.kids_root : kidCount T ROOTINO = 0 := by
  refine (congrArg Set.ncard (Set.eq_empty_iff_forall_notMem.mpr ?_)).trans (Set.ncard_empty _)
  rintro b ⟨hb, j, hn, x, hx, hdir⟩
  obtain ⟨-, ⟨hlt, -⟩ | ⟨-, rfl⟩⟩ := h.names.mp hn
  · exact absurd hlt (not_lt.mpr hb)
  · rw [h.file] at hx
    cases hx
    exact h.types.2 hdir

/-- The link counts of such a disk are right. -/
theorem OneFile.tally : Tally T := by
  have hfile : nameCount T 2 = 1 := by rw [nameCount, h.namesOf_file, Set.ncard_singleton]
  have hroot : nameCount T ROOTINO = 0 := by rw [nameCount, h.namesOf_other (by decide), Set.ncard_empty]
  refine ⟨?_, ?_, ?_, ?_⟩
  · refine (({ROOTINO} : Finset Nat) ×ˢ range 3).finite_toSet.subset ?_
    rintro ⟨a, b⟩ ⟨j, hn⟩
    obtain ⟨ha, hb⟩ := h.names.mp hn
    rw [mem_coe, mem_product, mem_singleton, mem_range]
    exact ⟨ha, by omega⟩
  · intro a x hx hdir
    rcases h.cases hx with ⟨-, rfl⟩ | ⟨-, rfl⟩
    · refine ⟨by rw [h.whole]; decide, fun b hb => ?_⟩
      have hinum := h.inum_dot hb
      refine ⟨by rw [hinum]; decide, ?_, fun y hy => ?_⟩
      · obtain rfl | rfl : b = 0 ∨ b = 1 := by omega
        · exact .inl h.dots.1
        · exact .inr h.dots.2
      · rw [hinum] at hy
        rw [← some.inj (h.root.symm.trans hy)]
        exact hdir
    · exact absurd hdir h.types.2
  · intro a b j hn hb
    obtain ⟨-, ⟨hlt, -⟩ | ⟨-, rfl⟩⟩ := h.names.mp hn
    · exact absurd hlt (not_lt.mpr hb)
    · rw [h.file]
      exact some_ne_none f
  · intro j x hx
    rcases h.cases hx with ⟨rfl, rfl⟩ | ⟨rfl, rfl⟩
    · rw [links, if_pos h.types.1, if_pos rfl, hroot, h.kids_root, h.nlinks.1]
      decide
    · rw [links, if_neg h.types.2, hfile, h.nlinks.2]
      decide

end OneFile

/-- After boot from a disk with one file the link counts are right. -/
theorem booted_counted {img : Nat → Block} (h : mkfs (files 1) = some img) :
    Counted sb rootHeld (booted img) ∧ ∀ j, nameCount (nodes sb img) j ≤ 1 := by
  obtain ⟨img', i, h', hd, -⟩ := Xv6Mkfs.mkfs_empty_file
  obtain rfl : img = img' := some.inj (h.symm.trans h')
  have heval : (mkfs (files 1)).map (fun img => decide (((dino sb img 1).type = T_DIR ∧ (dino sb img 1).nlink = 1 ∧
      (dino sb img 1).size = 1024 ∧ (dino sb img 2).type = T_FILE ∧ (dino sb img 2).nlink = 1) ∧ (∀ k : Fin 64,
      (getDirent fun b => bytesOf img (dino sb img) 1 (16 * k.val + b)).inum =
        if k.val < 2 then 1 else if k.val = 2 then 2 else 0) ∧
      nameOf (getDirent fun b => bytesOf img (dino sb img) 1 (16 * 0 + b)) = dot ∧
      nameOf (getDirent fun b => bytesOf img (dino sb img) 1 (16 * 1 + b)) = dotdot)) = some true := by
    decide +kernel
  rw [h, map_some, some.injEq] at heval
  obtain ⟨⟨htype, hlink, hsize, hftype, hflink⟩, hinums, hdot, hdotdot⟩ := of_decide_eq_true heval
  have hothers : ∀ j, j ≠ ROOTINO → j ≠ 2 → (dino sb img j).type = 0 := by
    obtain ⟨st, hb, hfin⟩ := Xv6Mkfs.mkfs_finished h
    obtain ⟨F, links, hg, -⟩ := Xv6Mkfs.build_stored hb
    have hmade : (Xv6Mkfs.build (files 1)).map (·.freeinode) = some 3 := by decide +kernel
    rw [hb, map_some, some.injEq] at hmade
    intro j h1 h2
    have hroot1 : ROOTINO = 1 := rfl
    exact (hfin F hg).type_zero hg (by omega)
  have hone : OneFile (nodes sb img) _ _ :=
    { root := if_neg (show (dino sb img ROOTINO).type ≠ 0 by rw [show ROOTINO = 1 from rfl, htype]; decide)
      file := if_neg (show (dino sb img 2).type ≠ 0 by rw [hftype]; decide)
      only := fun j h1 h2 => if_pos (hothers j h1 h2)
      types := ⟨htype, show (dino sb img 2).type ≠ T_DIR by rw [hftype]; decide⟩
      nlinks := ⟨hlink, hflink⟩
      whole := show (dino sb img 1).size.toNat / 16 = 64 by rw [hsize]; rfl
      inums := fun k hk => hinums ⟨k, hk⟩
      dots := ⟨hdot, hdotdot⟩ }
  obtain ⟨hw, -⟩ := booted_world h (by decide) hd
  refine ⟨⟨hw.loosen, hone.tally, ?_, ?_⟩, fun j => hone.nameCount_le⟩
  · intro j x hx hdir _ hne
    rcases hone.cases hx with ⟨rfl, -⟩ | ⟨-, rfl⟩
    · exact absurd rfl hne
    · exact absurd hdir hone.types.2
  · intro p k hk
    rw [bootMem_cwd hk]
    exact zero_lt_one

/-! ## Runs -/

/-- **Link counts over runs.** In every state reached by calls that meet the condition, `link` that returns zero leaves
    the true count exactly if it meets the condition too; the test of `unlink` never fires; and every name leads to an
    inode that is allocated. -/
theorem link_counts_run (sb : Superblock) (H : Fin NINODE → Nat) (s t : LState) (h : Counted sb H s)
    (hrun : LinkRun sb s t) :
    (∀ p old new i name u, resolve sb t p old false = some (i, name) → exec (sysLink p (some old) new) t = .done 0 u →
      (TrueCount (nodes sb u.view) i ↔ nameCount (nodes sb t.view) i < 32767)) ∧
    (∀ p path, exec (sysUnlink p path) t = exec (sysUnlinkUntested p path) t) ∧
    ∀ d k i, Names (nodes sb t.view) d k i → 2 ≤ k → nodes sb t.view i ≠ none := by
  have ht := LinkRun.counted h hrun
  refine ⟨?_, fun p path => sysUnlink_untested ht path, ht.tally.named⟩
  intro p old new i name u hres hlink
  exact sysLink_trueCount ht hres 0 u hlink rfl

/-- A disk with one file: `link` gives it the name "b", and `unlink` takes its first name away. -/
theorem link_counts_linked : ∃ img s t, Counted sb rootHeld (booted img) ∧
    exec (sysLink initproc (some [97, 97, 97]) (some [98])) (booted img) = .done 0 s ∧
    exec (sysUnlink initproc (some [97, 97, 97])) s = .done 0 t ∧ LinkRun sb (booted img) t ∧
    ∀ p path, exec (sysUnlink p path) t = exec (sysUnlinkUntested p path) t := by
  have heval : ((mkfs (files 1)).bind fun img =>
      (exec (sysLink initproc (some [97, 97, 97]) (some [98])) (booted img)).done?.bind fun x =>
        (exec (sysUnlink initproc (some [97, 97, 97])) x.2).done?.map fun y => (x.1, y.1)) = some (0, 0) := by
    decide +kernel
  obtain ⟨img, hmk, heval⟩ := bind_eq_some_iff.mp heval
  obtain ⟨⟨a, s⟩, hlink, heval⟩ := bind_eq_some_iff.mp heval
  obtain ⟨⟨b, t⟩, hunlink, heq⟩ := map_eq_some_iff.mp heval
  obtain ⟨rfl, rfl⟩ := Prod.mk.inj heq
  have hlink := Out.done?_eq_some.mp hlink
  have hunlink := Out.done?_eq_some.mp hunlink
  obtain ⟨hcounted, hfew⟩ := booted_counted hmk
  have hfits : (LinkCall.link (some [97, 97, 97]) (some [98])).Fits sb (booted img) initproc :=
    fun i _ _ => lt_of_le_of_lt (hfew i) (by decide)
  have hlinked : LinkRun sb (booted img) s := .call .start hfits hlink
  have hrun : LinkRun sb (booted img) t :=
    .call (c := .unlink (some [97, 97, 97])) hlinked trivial hunlink
  exact ⟨img, s, t, hcounted, hlink, hunlink, hrun, (link_counts_run sb rootHeld (booted img) t hcounted hrun).2.1⟩

/-- **The count overflows**: a file, "a", has 32767 names and the counts are right. `link("a", "b")` returns zero and
    leaves its link count at -32768. -/
theorem link_overflows : ∃ H s i s', Counted sb H s ∧ resolve sb s initproc [97] false = some (i, [97]) ∧
    nameCount (nodes sb s.view) i = 32767 ∧ exec (sysLink initproc (some [97]) (some [98])) s = .done 0 s' ∧
    (∃ x, nodes sb s'.view i = some x ∧ x.nlink = -32768) ∧ ¬ TrueCount (nodes sb s'.view) i := by
  obtain ⟨H, i, e, r, z, f, s, h⟩ := crowded_state
  obtain ⟨c, s', hrun, rfl⟩ := h.links
  have hcount := h.crowd.nameCount_file
  obtain ⟨ip, dp, d, x, y, name, t, ht, hview⟩ := sysLink_named h.counted h.resolve_a 0 s' hrun rfl
  refine ⟨H, s, i, s', h.counted, h.resolve_a, hcount, hrun, ⟨_, by rw [hview]; exact ht.node, ?_⟩, fun htrue => ?_⟩
  · obtain rfl : f = x := some.inj (h.crowd.file.symm.trans ht.file)
    show f.nlink + 1 = -32768
    rw [h.crowd.nlinks.2.2]
    decide
  · have hlt := (sysLink_trueCount h.counted h.resolve_a 0 s' hrun rfl).mp htrue
    omega

end Xv6World
