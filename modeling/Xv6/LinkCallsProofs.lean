import Xv6.NamespaceCallsProofs
import Xv6.LinkCountProofs

/-!
# Link counts over runs of `link` and `unlink`

`link` adds one to `nlink`, a signed 16-bit field, and looks at no bound. As long as every inode that `link` adds a name to
has fewer than 32767, the counts stay right in every state that a sequence of `link` and `unlink` calls reaches: then
`unlink` never finds a count below one, and no inode that has a name is freed. At 32767 names one more call of `link`
returns zero and leaves the count at -32768.
-/

namespace Xv6World

open ByteBuf Xv6Disk Xv6Kernel Xv6Fs Xv6Sys Xv6Layout Xv6Own Xv6Inode Function

/-- A state between two calls in which the link counts are right. A directory without a name, other than the root, is one
    that somebody holds, and so is the current directory of each process. -/
structure Counted (sb : Superblock) (H : Fin NINODE → Nat) (s : LState) : Prop where
  world : World sb True H s
  tally : Tally (nodes sb s.view)
  orphans : ∀ i x, nodes sb s.view i = some x → x.type = T_DIR → nameCount (nodes sb s.view) i = 0 → i ≠ ROOTINO →
    ∃ k, 0 < H k ∧ (s.mem.icache k).inum = i
  cwd : ∀ p k, (s.mem.ptable p).cwd = some k → 0 < H k

section Counts

variable {sb : Superblock} {H : Fin NINODE → Nat} {s s' t : LState} {dp ip : Fin NINODE} {p : Fin NPROC} {i d m : Nat}
  {x y : Node} {name : List UInt8}

section

variable (h : Counted sb H s)
include h

theorem Counted.same (hview : s'.view = s.view) (hmem : s'.mem = s.mem) : Counted sb H s' := by
  refine ⟨h.world.same hview (by rw [hmem]) (by rw [hmem]), ?_, ?_, ?_⟩
  · rw [hview]
    exact h.tally
  · rw [hview, hmem]
    exact h.orphans
  · rw [hmem]
    exact h.cwd

theorem Counted.left : Counted sb H (left s) := h.same (left_view s) (left_mem s)

theorem Counted.entered : Counted sb H (entered s) := h.same rfl rfl

/-- The table is the same. -/
theorem Counted.sameNodes (hw : World sb True H s') (hf : Frame H s s')
    (hn : nodes sb s'.view = nodes sb s.view) : Counted sb H s' := by
  refine ⟨hw, by rw [hn]; exact h.tally, ?_, ?_⟩
  · rw [hn]
    intro i x hx hdir h0 hroot
    obtain ⟨k, hk, hinum⟩ := h.orphans i x hx hdir h0 hroot
    exact ⟨k, hk, (hf.inum k hk).trans hinum⟩
  · rw [hf.outer.ptable]
    exact h.cwd

/-! ## `link` -/

/-- The new name is in: the counts are right, and whoever held an inode without links still does. -/
theorem Named.tally (ht : Named sb H (nodes sb s.view) ip dp i d x y name t)
    (hsmall : nameCount (nodes sb s.view) i < 32767) :
    Tally (nodes sb t.view) ∧ nameCount (nodes sb t.view) i = nameCount (nodes sb s.view) i + 1 ∧
      ∀ j, j ≠ i → nameCount (nodes sb t.view) j = nameCount (nodes sb s.view) j := by
  have he : UInt16.ofNat i ≠ 0 := by
    intro h0
    have hnum := ht.inum
    rw [h0] at hnum
    have hpos := ht.pos
    have hz : (0 : UInt16).toNat = 0 := rfl
    omega
  exact h.tally.link ht.file ht.notDir ht.there ht.dir he ht.inum hsmall ht.table

section

variable (hf : Frame H s t) (ht : Named sb H (nodes sb s.view) ip dp i d x y name t)
include hf ht

/-- Whoever held an inode without links still does: the count that `link` has added to is not zero. -/
theorem Named.held : Held sb H t := by
  intro j z hz h0
  have hold : ∃ w, nodes sb s.view j = some w ∧ w.nlink = 0 := by
    rw [ht.table, update_apply] at hz
    split_ifs at hz with hjd
    · subst hjd
      cases hz
      exact ⟨y, ht.there, h0⟩
    · by_cases hj : j = i
      · subst hj
        rw [update_self] at hz
        cases hz
        have hcount := h.tally.count j x ht.file
        have hsucc : x.nlink + 1 = 0 := h0
        have hminus : x.nlink = -1 := by
          rw [← Int16.add_sub_cancel x.nlink 1, hsucc]
          rfl
        have hneg : (-1 : Int16).toInt = -1 := by decide
        rw [hminus, hneg] at hcount
        omega
      · rw [update_of_ne hj] at hz
        exact ⟨z, hz, h0⟩
  obtain ⟨w, hw, hw0⟩ := hold
  obtain ⟨k, hk, hinum, hvalid⟩ := h.world.held j w hw hw0
  exact ⟨k, hk, (hf.inum k hk).trans hinum, hf.valid k hk hvalid⟩

/-- The rest of `link` gives back the two references. -/
theorem Named.rest
    {Q : Int → LState → Prop} (hq : ∀ u, World sb True H u → Still H t u → Q 0 (left u)) :
    Returns Q (iunlockput dp >>= fun _ => iput ip >>= fun _ => endOp >>= fun _ => pure (0 : Int)) t := by
  have hheld := ht.held h hf
  refine returns_seq (iunlockput_back ht.world (hheld.frame Frame.refl rfl fun _ hl => bump_pos_of_pos hl)) ?_
  rintro _ s1 ⟨hw1, hs1⟩
  have hs1' : Still H t s1 := hs1.mono fun _ => bump_pos_of_pos
  have hput := iput_quiet (W := ∅) hw1 bump_pos
    (by rw [drop_bump]; exact hheld.frame hs1'.toFrame hs1'.view fun _ hl => hl)
  rw [drop_bump] at hput
  refine returns_seq (returns_does hput) ?_
  rintro _ s2 ⟨hw2, hs2⟩
  exact returns_endOp (hq s2 hw2 (hs1'.trans hs2))

theorem Named.counted
    (hsmall : nameCount (nodes sb s.view) i < 32767) {u : LState} (hw : World sb True H u) (hs : Still H t u) :
    Counted sb H u := by
  obtain ⟨htally, hone, hothers⟩ := ht.tally h hsmall
  refine ⟨hw, by rw [hs.view]; exact htally, ?_, ?_⟩
  · intro j z hz hdir h0 hroot
    rw [hs.view] at hz h0
    have hj : j ≠ i := by
      rintro rfl
      rw [hone] at h0
      cases h0
    rw [hothers j hj] at h0
    have hold : ∃ w, nodes sb s.view j = some w ∧ w.type = T_DIR := by
      rw [ht.table] at hz
      by_cases hjd : j = d
      · subst hjd
        exact ⟨y, ht.there, ht.dir⟩
      · rw [update_of_ne hjd, update_of_ne hj] at hz
        exact ⟨z, hz, hdir⟩
    obtain ⟨w, hw, hwd⟩ := hold
    obtain ⟨k, hk, hinum⟩ := h.orphans j w hw hwd h0 hroot
    exact ⟨k, hk, (hs.inum k hk).trans ((hf.inum k hk).trans hinum)⟩
  · rw [hs.outer.ptable, hf.outer.ptable]
    exact h.cwd

end

end

/-- The node of the file that `link` has added a name to. -/
theorem Named.node (ht : Named sb H (nodes sb s.view) ip dp i d x y name t) :
    nodes sb t.view i = some { x with nlink := x.nlink + 1 } := by
  have hne : i ≠ d := by
    rintro rfl
    have hxy := ht.there
    rw [ht.file] at hxy
    cases hxy
    exact ht.notDir ht.dir
  rw [ht.table, update_of_ne hne, update_self]

/-- The link count of inode `i` is the number of its names, and it has some. -/
def TrueCount (T : Nat → Option Node) (i : Nat) : Prop :=
  ∃ x, T i = some x ∧ x.nlink.toInt = nameCount T i ∧ 0 < x.nlink.toInt

/-- **The count that `link` leaves is right exactly if there were fewer than 32767 names.** -/
theorem Named.trueCount (h : Counted sb H s) (ht : Named sb H (nodes sb s.view) ip dp i d x y name t) :
    TrueCount (nodes sb t.view) i ↔ nameCount (nodes sb s.view) i < 32767 := by
  constructor
  · rintro ⟨z, hz, -, hpos⟩
    rw [ht.node] at hz
    cases hz
    by_contra hge
    have hcount := h.tally.count i x ht.file
    rw [links, if_neg ht.notDir] at hcount
    have hlt := x.nlink.toInt_lt
    have hmax : x.nlink = 32767 := by
      refine Int16.toInt_inj.mp ?_
      have hval : (32767 : Int16).toInt = 32767 := by decide
      omega
    have hneg : (32767 + 1 : Int16).toInt = -32768 := by decide
    have hpos' : 0 < (x.nlink + 1).toInt := hpos
    rw [hmax, hneg] at hpos'
    omega
  · intro hsmall
    obtain ⟨htally, hone, -⟩ := ht.tally h hsmall
    have hcount := htally.count i _ ht.node
    rw [links, if_neg ht.notDir, add_zero] at hcount
    refine ⟨_, ht.node, hcount, ?_⟩
    omega

/-- The inode that the path `old` leads to has room for one more name. -/
def LinkFits (sb : Superblock) (s : LState) (p : Fin NPROC) : Option (List UInt8) → Prop
  | none => True
  | some path => ∀ i name, resolve sb s p path false = some (i, name) → nameCount (nodes sb s.view) i < 32767

/-- **`link`** keeps the counts right. -/
theorem sysLink_counted {old new : Option (List UInt8)} (h : Counted sb H s) (hfits : LinkFits sb s p old) :
    Returns (fun _ s' => Counted sb H s') (sysLink p old new) s := by
  refine returns_sysLink h.world (h.cwd p) h ?_ ?_
  · intro _ t _ hw hf hn
    exact (h.entered.sameNodes hw hf hn).left
  · intro ip dp i d x y name name' path t hf hpath hres ht
    subst hpath
    exact ht.rest h.entered hf fun u hw hs => (ht.counted h.entered hf (hfits i name' hres) hw hs).left

/-- **`link`** that returns zero has entered the name. -/
theorem sysLink_named {old : List UInt8} {new : Option (List UInt8)} {name : List UInt8} (h : Counted sb H s)
    (hres : resolve sb s p old false = some (i, name)) :
    Returns (fun r s' => r = 0 → ∃ ip dp d x y name t, Named sb H (nodes sb s.view) ip dp i d x y name t ∧
      s'.view = t.view) (sysLink p (some old) new) s := by
  refine returns_sysLink h.world (h.cwd p) (fun hr => absurd hr (by decide)) ?_ ?_
  · intro e t hneg _ _ _ h0
    omega
  · intro ip dp j d x y name name' path t hf hpath hres' ht
    cases hpath
    obtain rfl : i = j := congrArg Prod.fst (Option.some.inj (hres.symm.trans hres'))
    refine ht.rest h.entered hf fun u _ hs _ => ?_
    exact ⟨ip, dp, d, x, y, name, t, ht, by rw [left_view, hs.view]⟩

theorem sysLink_trueCount {old : List UInt8} {new : Option (List UInt8)} {name : List UInt8} (h : Counted sb H s)
    (hres : resolve sb s p old false = some (i, name)) :
    Returns (fun r s' => r = 0 → (TrueCount (nodes sb s'.view) i ↔ nameCount (nodes sb s.view) i < 32767))
      (sysLink p (some old) new) s := by
  refine returns_mono (sysLink_named h hres) fun r s' hnamed hr => ?_
  obtain ⟨ip, dp, d, x, y, name, t, ht, hview⟩ := hnamed hr
  rw [hview]
  exact ht.trueCount h

/-! ## `unlink` -/

/-- An entry found under a name other than "." and ".." is not one of the first two. -/
theorem Tally.entry_ge {T : Nat → Option Node} (h : Tally T) (hy : T d = some y) (hdir : y.type = T_DIR)
    (hm : y.lookup name = some m) (hdots : ¬ (namecmp name dot = 0 ∨ namecmp name dotdot = 0)) : 2 ≤ m := by
  by_contra hlt
  have hentry := (h.dots d y hy hdir).2 m (by omega)
  have hcmp := (lookup_some hm).2.2
  rw [namecmp, strncmp_eq_zero] at hcmp
  have hkey : ∀ l, 0 ∉ l → nameOf (y.entry m) = l → namecmp name l = 0 := by
    intro l hl hname
    rw [namecmp, strncmp_eq_zero, cstr_of_no_nul hl, hcmp, ← hname]
    rfl
  rcases hentry.name with hname | hname
  · exact hdots (.inl (hkey dot (by decide) hname))
  · exact hdots (.inr (hkey dotdot (by decide) hname))

/-- `unlink` has cleared entry `m` of `d`, and taken the link of the ".." away if `x` is a directory. -/
structure Cleared (sb : Superblock) (H : Fin NINODE → Nat) (s : LState) (dp ip : Fin NINODE) (i d m : Nat) (x y : Node)
    (t : LState) : Prop where
  world : World sb True (bump (bump H dp) ip) t
  frame : Frame (bump (bump H dp) ip) s t
  table : nodes sb t.view = update (nodes sb s.view) d (some { y.setEntry m Dirent.zero with
    nlink := if x.type = T_DIR then y.nlink - 1 else y.nlink })

/-- What `unlink` knows when it clears the entry. -/
structure Doomed (sb : Superblock) (H : Fin NINODE → Nat) (s : LState) (dp ip : Fin NINODE) (i d m : Nat) (x y : Node) :
    Prop where
  world : World sb True (bump (bump H dp) ip) s
  held : Held sb H s
  parent : At sb s dp d y
  file : At sb s ip i x
  ne : ip ≠ dp
  dir : y.type = T_DIR
  live : Live y m
  entry : 2 ≤ m
  inum : (y.entry m).inum.toNat = i
  empty : x.type = T_DIR → ∀ k, 2 ≤ k → ¬ Live x k
  tally : Tally (nodes sb s.view)
  orphans : ∀ i x, nodes sb s.view i = some x → x.type = T_DIR → nameCount (nodes sb s.view) i = 0 → i ≠ ROOTINO →
    ∃ k, 0 < H k ∧ (s.mem.icache k).inum = i

theorem Doomed.inums_ne (h : Doomed sb H s dp ip i d m x y) : d ≠ i := by
  intro heq
  refine h.ne (h.world.cache.uniq ip dp bump_pos (bump_pos_of_pos bump_pos) ?_)
  rw [h.file.inum, h.parent.inum, heq]

theorem Doomed.clears (h : Doomed sb H s dp ip i d m x y) {Q : Int → LState → Prop} {c : Unit → K Int}
    (hc : ∀ t, Cleared sb H s dp ip i d m x y t → Returns Q (c ()) t) : Returns Q (do
      let r ← writei dp Dirent.zero.byte (UInt32.ofNat (16 * m)) 16
      if r ≠ 16 then kpanic "unlink: writei"
      else do
        let i ← getInode ip
        (if i.din.type = T_DIR then do
            modDin dp fun d => { d with nlink := d.nlink - 1 }
            iupdate dp
          else pure ())
        c ()) s := by
  have hdp : 0 < bump (bump H dp) ip dp := bump_pos_of_pos bump_pos
  refine returns_seq (returns_does (writeEntry_does (N := True) (e := Dirent.zero) h.world.disk h.world.super h.parent
    h.dir (le_of_lt h.live.1) room_univ trivial)) ?_
  intro r s1 hr
  split_ifs with h16
  · exact returns_kpanic
  · have hch := hr (not_not.mp h16)
    have hpos : 0 < sb.ninodes := by
      have := node_some h.file.node
      omega
    obtain ⟨hw1, hat1⟩ := h.world.changes hdp h.parent hch (fun _ => dirOk_setEntry
      (h.world.dirs d y h.parent.node h.dir) (le_of_lt h.live.1) hpos) fun hN => absurd trivial hN
    have hf1 : Frame (bump (bump H dp) ip) s s1 := frame_changes hch
    have hfile1 : At sb s1 ip i x := At.frame h.file hf1 bump_pos hw1.cache bump_pos (by
      rw [hch.nodes, update_of_ne h.inums_ne.symm]
      exact h.file.node)
    refine returns_getInode ?_
    rw [hfile1.type]
    split_ifs with hx
    · refine returns_nlink hw1 hdp hat1 (fun n => n - 1) fun s2 hw2 hf2 hn2 => hc s2 ⟨hw2, hf1.trans hf2, ?_⟩
      rw [hn2, hch.nodes, update_idem, if_pos hx]
      rfl
    · refine hc s1 ⟨hw1, hf1, ?_⟩
      rw [hch.nodes, if_neg hx]
      rfl

/-- Whatever has no links now is held without the two references of `unlink`. A directory that has just lost its last
    link has no name, for its links were all for "..". -/
theorem Cleared.held (h : Doomed sb H s dp ip i d m x y) (ht : Cleared sb H s dp ip i d m x y t) : Held sb H t := by
  have hf : Frame H s t := ht.frame.mono fun _ hl => bump_pos_of_pos (bump_pos_of_pos hl)
  intro j z hz h0
  have hold : ∃ k, 0 < H k ∧ (s.mem.icache k).inum = j ∧ (s.mem.icache k).valid = true := by
    rw [ht.table] at hz
    by_cases hjd : j = d
    · subst hjd
      rw [update_self] at hz
      cases hz
      by_cases hx : x.type = T_DIR
      · have hlink : y.nlink - 1 = 0 := by
          have hz0 := h0
          simp only [if_pos hx] at hz0
          exact hz0
        have hkid := kidCount_pos h.tally (names_iff.mpr ⟨y, h.parent.node, h.dir, h.live, h.inum⟩) h.entry
          ⟨x, h.file.node, hx⟩
        have hcount := h.tally.count j y h.parent.node
        rw [links, if_pos h.dir] at hcount
        have hpred := toInt_pred (a := y.nlink) (by omega)
        have hzero : (0 : Int16).toInt = 0 := by decide
        rw [hlink, hzero] at hpred
        obtain ⟨k, hk, hinum⟩ := h.orphans j y h.parent.node h.dir (by omega) (by
          intro hroot
          rw [if_pos hroot] at hcount
          omega)
        have heq : k = dp := h.world.cache.uniq k dp (bump_pos_of_pos (bump_pos_of_pos hk)) (bump_pos_of_pos bump_pos)
          (hinum.trans h.parent.inum.symm)
        exact ⟨k, hk, hinum, heq ▸ h.parent.valid⟩
      · have hlink : y.nlink = 0 := by
          have hz0 := h0
          simp only [if_neg hx] at hz0
          exact hz0
        exact h.held j y h.parent.node hlink
    · rw [update_of_ne hjd] at hz
      exact h.held j z hz h0
  obtain ⟨k, hk, hinum, hvalid⟩ := hold
  exact ⟨k, hk, (hf.inum k hk).trans hinum, hf.valid k hk hvalid⟩

/-- `unlink` has done its work but for the last `iput`. -/
structure Unlinked (sb : Superblock) (H : Fin NINODE → Nat) (s : LState) (ip : Fin NINODE) (i d m : Nat) (x y : Node)
    (t : LState) : Prop where
  world : World sb True (bump H ip) t
  frame : Frame (bump H ip) s t
  table : nodes sb t.view = update (update (nodes sb s.view) d (some { y.setEntry m Dirent.zero with
    nlink := if x.type = T_DIR then y.nlink - 1 else y.nlink })) i (some { x with nlink := x.nlink - 1 })

theorem Unlinked.tally (h : Doomed sb H s dp ip i d m x y) (ht : Unlinked sb H s ip i d m x y t) :
    Tally (nodes sb t.view) ∧ nameCount (nodes sb t.view) i + 1 = nameCount (nodes sb s.view) i ∧
      ∀ j, j ≠ i → nameCount (nodes sb t.view) j = nameCount (nodes sb s.view) j :=
  h.tally.unlink h.file.node h.parent.node h.dir h.inums_ne h.entry h.live h.inum rfl ht.table

theorem Unlinked.node (ht : Unlinked sb H s ip i d m x y t) :
    nodes sb t.view i = some { x with nlink := x.nlink - 1 } := by
  rw [ht.table, update_self]

section

variable (h : Doomed sb H s dp ip i d m x y)
include h

/-- A directory other than `i` that has no name now had none before. -/
theorem Unlinked.orphan (ht : Unlinked sb H s ip i d m x y t) {j : Nat} {z : Node}
    (hj : j ≠ i) (hz : nodes sb t.view j = some z) (hdir : z.type = T_DIR) (h0 : nameCount (nodes sb t.view) j = 0)
    (hroot : j ≠ ROOTINO) : ∃ k, 0 < H k ∧ (t.mem.icache k).inum = j := by
  rw [(ht.tally h).2.2 j hj] at h0
  have hold : ∃ w, nodes sb s.view j = some w ∧ w.type = T_DIR := by
    rw [ht.table, update_of_ne hj] at hz
    by_cases hjd : j = d
    · subst hjd
      exact ⟨y, h.parent.node, h.dir⟩
    · rw [update_of_ne hjd] at hz
      exact ⟨z, hz, hdir⟩
  obtain ⟨w, hw, hwd⟩ := hold
  obtain ⟨k, hk, hinum⟩ := h.orphans j w hw hwd h0 hroot
  exact ⟨k, hk, (ht.frame.inum k (bump_pos_of_pos hk)).trans hinum⟩

/-- A directory that `unlink` has taken the last name from has no links. -/
theorem Unlinked.noLinks (ht : Unlinked sb H s ip i d m x y t)
    (hdir : x.type = T_DIR) (h0 : nameCount (nodes sb t.view) i = 0) (hroot : i ≠ ROOTINO) : x.nlink - 1 = 0 := by
  have hkids : kidsOf (nodes sb t.view) i = ∅ := by
    refine Set.eq_empty_of_forall_notMem ?_
    rintro k ⟨hk, j, hn, -⟩
    obtain ⟨z, hz, -, hl, -⟩ := names_iff.mp hn
    rw [ht.node] at hz
    cases hz
    exact h.empty hdir k hk hl
  have hcount := (ht.tally h).1.count i _ ht.node
  rw [links, if_pos hdir, if_neg hroot, h0, kidCount, hkids, Set.ncard_empty] at hcount
  exact Int16.toInt_inj.mp hcount

/-- The last `iput` of `unlink`: the inode stays, or it has no name left and goes. -/
theorem Unlinked.put (hcwd : ∀ p k, (s.mem.ptable p).cwd = some k → 0 < H k)
    (ht : Unlinked sb H s ip i d m x y t) : Returns (fun _ s' => Counted sb H s') (iunlockput ip) t := by
  refine returns_seq (returns_does (W := ∅) (iunlock_world ht.world bump_pos)) ?_
  rintro _ s1 ⟨hw1, hs1⟩
  have hput := iput_world (W := Set.univ) hw1 bump_pos (fun _ => ⟨fun _ _ => trivial, trivial⟩)
    fun hN => absurd trivial hN
  rw [drop_bump] at hput
  refine returns_mono (returns_does hput) ?_
  rintro _ s2 ⟨hw2, hf2, hcase⟩
  obtain ⟨htally, hone, -⟩ := ht.tally h
  have hinum1 : (s1.mem.icache ip).inum = i :=
    (hs1.inum ip bump_pos).trans ((ht.frame.inum ip bump_pos).trans h.file.inum)
  have hf12 : Frame H t s2 := (hs1.toFrame.mono fun _ => bump_pos_of_pos).trans hf2
  have hcwd2 : ∀ p k, (s2.mem.ptable p).cwd = some k → 0 < H k := by
    rw [hf12.outer.ptable, ht.frame.outer.ptable]
    exact hcwd
  rcases hcase with ⟨-, hview, -⟩ | ⟨hrec, hnodes⟩
  · have hv : s2.view = t.view := hview.trans hs1.view
    refine ⟨hw2, by rw [hv]; exact htally, ?_, hcwd2⟩
    intro j z hz hdir h0 hroot
    by_cases hj : j = i
    · subst hj
      rw [hv] at h0
      have hz' := hz
      rw [hv, ht.node] at hz'
      cases hz'
      obtain ⟨k, hk, hinum, -⟩ := hw2.held j _ hz (ht.noLinks h hdir h0 hroot)
      exact ⟨k, hk, hinum⟩
    · rw [hv] at hz h0
      obtain ⟨k, hk, hinum⟩ := ht.orphan h hj hz hdir h0 hroot
      exact ⟨k, hk, (hf12.inum k hk).trans hinum⟩
  · rw [hinum1, hs1.view] at hnodes
    have hlink : x.nlink - 1 = 0 := by
      obtain ⟨z, hz⟩ := hw1.here bump_pos hrec.2.1
      have hnode := hz.node
      rw [hinum1, hs1.view, ht.node] at hnode
      cases hnode
      exact hz.nlink.symm.trans hrec.2.2
    obtain ⟨hfree, hcounts⟩ := htally.free ht.node hlink h.empty
    refine ⟨hw2, by rw [hnodes]; exact hfree, ?_, hcwd2⟩
    rw [hnodes]
    intro j z hz hdir h0 hroot
    have hj : j ≠ i := by
      rintro rfl
      rw [update_self] at hz
      cases hz
    rw [update_of_ne hj] at hz
    rw [hcounts] at h0
    obtain ⟨k, hk, hinum⟩ := ht.orphan h hj hz hdir h0 hroot
    exact ⟨k, hk, (hf12.inum k hk).trans hinum⟩

theorem sysUnlinkEntry_counted
    (hcwd : ∀ p k, (s.mem.ptable p).cwd = some k → 0 < H k) :
    Returns (fun _ s' => Counted sb H s') (sysUnlinkEntry dp ip (16 * m)) s := by
  refine h.clears (c := fun _ => do
    iunlockput dp
    modDin ip fun d => { d with nlink := d.nlink - 1 }
    iupdate ip
    iunlockput ip
    endOp
    pure 0) fun t ht => ?_
  have hheld := ht.held h
  have hput := iunlockput_quiet (W := ∅) ht.world (bump_pos_of_pos bump_pos)
    (by rw [drop_bump_bump]; exact hheld.frame Frame.refl rfl fun _ hl => bump_pos_of_pos hl)
  rw [drop_bump_bump] at hput
  refine returns_seq (returns_does hput) ?_
  rintro _ s1 ⟨hw1, hs1⟩
  have hft : Frame (bump H ip) s t := ht.frame.mono fun l hl => by
    by_cases hlk : l = ip
    · rw [hlk]
      exact bump_pos
    · rw [bump_of_ne hlk] at hl ⊢
      exact bump_pos_of_pos hl
  have hf1 : Frame (bump H ip) s s1 := hft.trans hs1.toFrame
  have hfile1 : At sb s1 ip i x := At.frame h.file hf1 bump_pos hw1.cache bump_pos (by
    rw [hs1.view, ht.table, update_of_ne h.inums_ne.symm]
    exact h.file.node)
  refine returns_nlink hw1 bump_pos hfile1 (fun n => n - 1) fun s2 hw2 hf2 hn2 => ?_
  have ht2 : Unlinked sb H s ip i d m x y s2 := ⟨hw2, hf1.trans hf2, by rw [hn2, hs1.view, ht.table]⟩
  refine returns_seq (ht2.put h hcwd) fun _ s3 hc => ?_
  exact returns_endOp hc.left

end

/-- **`unlink`** keeps the counts right. -/
theorem sysUnlink_counted {path : Option (List UInt8)} (h : Counted sb H s) :
    Returns (fun _ s' => Counted sb H s') (sysUnlink p path) s := by
  refine returns_sysUnlink h.world (h.cwd p) h ?_ ?_
  · intro _ t hw hs
    exact (h.entered.sameNodes hw hs.toFrame (by rw [hs.view])).left
  · intro dp ip d i m name x y t hw hheld hs hdp hip hne hdir hm hi hdots _ hempty
    have hview : t.view = s.view := hs.view
    have hnode : nodes sb s.view d = some y := by
      rw [← hview]
      exact hdp.node
    obtain ⟨hlt, hlive, -⟩ := lookup_some hm
    refine sysUnlinkEntry_counted ⟨hw, hheld, hdp, hip, hne, hdir, ⟨hlt, hlive⟩,
      h.tally.entry_ge hnode hdir hm hdots, hi, hempty, by rw [hview]; exact h.tally, ?_⟩ ?_
    · rw [hview]
      intro j z hz hzd h0 hroot
      obtain ⟨k, hk, hinum⟩ := h.orphans j z hz hzd h0 hroot
      exact ⟨k, hk, (hs.inum k hk).trans hinum⟩
    · rw [hs.outer.ptable]
      exact h.cwd

/-! ## The test that never fires -/

/-- `sys_unlink` without its test of the link count. -/
def sysUnlinkUntested (p : Fin NPROC) (path : Option (List UInt8)) : K Int :=
  match path with
  | none => pure EINVAL
  | some path => do
    beginOp
    match ← nameiparent p path with
    | none => do
      endOp
      pure ENOENT
    | some x => do
      ilock x.1
      if namecmp x.2 dot = 0 ∨ namecmp x.2 dotdot = 0 then sysUnlinkBad x.1
      else do
        match ← dirlookup x.1 x.2 with
        | none => sysUnlinkBad x.1
        | some y => do
          ilock y.1
          let ok ← unlinkable y.1
          if ok then sysUnlinkEntry x.1 y.1 y.2
          else do
            iunlockput y.1
            sysUnlinkBad x.1

/-- Two programs that start alike run alike if their continuations do. -/
theorem exec_bind_congr {α β : Type} {c : K α} {f g : α → K β} {R : α → LState → Prop} (hc : Returns R c s)
    (h : ∀ a s1, R a s1 → exec (f a) s1 = exec (g a) s1) : exec (c >>= f) s = exec (c >>= g) s := by
  show (c >>= f).run lstep s = (c >>= g).run lstep s
  rw [CmdProg.run_bind, CmdProg.run_bind]
  cases hrun : c.run lstep s with
  | done a s1 => exact h a s1 (hc a s1 hrun)
  | stop e s1 => rfl

/-- **The panic "unlink: nlink < 1" does not occur**: where the counts are right, `unlink` runs as it would without the
    test. -/
theorem sysUnlink_untested (h : Counted sb H s) (path : Option (List UInt8)) :
    exec (sysUnlink p path) s = exec (sysUnlinkUntested p path) s := by
  cases path with
  | none => rfl
  | some path =>
    refine exec_bind_congr (R := fun _ s' => s' = entered s) (fun _ _ hrun => exec_beginOp_done hrun) ?_
    rintro _ _ rfl
    refine exec_bind_congr (returns_nameiparent h.world.entered (h.cwd p)) ?_
    rintro (_ | y) s1 hwalk
    · rfl
    · obtain ⟨hw1, hs1, -⟩ := hwalk
      refine exec_bind_congr (returns_ilock hw1 bump_pos) ?_
      rintro _ s2 ⟨hw2, hs2, -, -, x, hat2⟩
      split_ifs with hdots
      · rfl
      · refine exec_bind_congr (returns_does (W := ∅) (dirlookup_world hw2 bump_pos hat2)) ?_
        rintro (_ | z) s3 ⟨hdir, hfound⟩
        · rfl
        · obtain ⟨m, hm, -, hinum, hw3, hs3, -⟩ := hfound
          refine exec_bind_congr (returns_ilock hw3 bump_pos) ?_
          rintro _ s4 ⟨hw4, hs4, -, -, w, hat4⟩
          have hview2 : s2.view = s.view := hs2.view.trans hs1.view
          have hview4 : s4.view = s.view := hs4.view.trans (hs3.view.trans hview2)
          rw [hinum] at hat4
          have hx : nodes sb s.view _ = some x := hview2 ▸ hat2.node
          have hw : nodes sb s.view _ = some w := hview4 ▸ hat4.node
          obtain ⟨hlt, hlive, -⟩ := lookup_some hm
          have hpos := h.tally.nlink_pos (names_iff.mpr ⟨x, hx, hdir, ⟨hlt, hlive⟩, rfl⟩)
            (h.tally.entry_ge hx hdir hm hdots) hw
          have hlink : ¬ (s4.mem.icache z.1).din.nlink < 1 := by
            rw [hat4.nlink, Int16.lt_iff_toInt_lt]
            have h1 : (1 : Int16).toInt = 1 := by decide
            omega
          show exec (if (s4.mem.icache z.1).din.nlink < 1 then kpanic "unlink: nlink < 1" else _) s4 = _
          rw [if_neg hlink]

/-! ## Runs -/

inductive LinkCall where
  | link (old new : Option (List UInt8))
  | unlink (path : Option (List UInt8))

def LinkCall.run (p : Fin NPROC) : LinkCall → K Int
  | .link old new => sysLink p old new
  | .unlink path => sysUnlink p path

/-- The condition on a call: `link` finds fewer than 32767 names. -/
def LinkCall.Fits (sb : Superblock) (s : LState) (p : Fin NPROC) : LinkCall → Prop
  | .link old _ => LinkFits sb s p old
  | .unlink _ => True

/-- The states that calls of `link` and `unlink`, by any processes, lead to when each `link` finds fewer than 32767
    names. -/
inductive LinkRun (sb : Superblock) (s : LState) : LState → Prop where
  | start : LinkRun sb s s
  | call {t u : LState} {p : Fin NPROC} {c : LinkCall} {r : Int} (before : LinkRun sb s t) (fits : c.Fits sb t p)
      (run : exec (c.run p) t = .done r u) : LinkRun sb s u

/-- One call keeps the counts right. -/
theorem LinkCall.counted {c : LinkCall} (h : Counted sb H s) (hfits : c.Fits sb s p) :
    Returns (fun _ s' => Counted sb H s') (c.run p) s := by
  cases c with
  | link old new => exact sysLink_counted h hfits
  | unlink path => exact sysUnlink_counted h

theorem LinkRun.counted (h : Counted sb H s) (hrun : LinkRun sb s t) : Counted sb H t := by
  induction hrun with
  | start => exact h
  | call _ hfits hcall ih => exact LinkCall.counted ih hfits _ _ hcall

end Counts

end Xv6World
