import Xv6.DirlinkProofs

/-!
# A directory is a finite map

`dirlink` adds an entry to the map of a directory or finds that the name is taken; `sys_unlink` takes an entry out by
writing zeros over it; `dirlookup` finds each name with its own entry. All that holds if and only if there is room for
what `dirlink` does. If there is none it does not return -1: in a directory of the largest size with no free entry
`writei` refuses, and `dirlink` panics.
-/

namespace Xv6World

open CmdProg ByteBuf Xv6Disk Xv6Kernel Xv6Fs Xv6Layout Xv6Own Xv6Inode Xv6Total Function Finset

/-! ## The finite map -/

/-- The directory `d`, which is `y` now, answers as a map: `dirlookup` finds each live name with its own number and
    offset, and a live entry that a new transaction overwrites with zeros takes its name out, and no other. -/
structure Answers (sb : Superblock) (H : Fin NINODE → Nat) (s : LState) (dp : Fin NINODE) (d : Nat) (y : Node) :
    Prop where
  finds : ∀ m, Live y m → SlotFor H s (y.entry m).inum.toNat →
    ∃ l t, exec (dirlookup dp (nameOf (y.entry m))) s = .done (some (l, 16 * m)) t ∧
      (t.mem.icache l).inum = (y.entry m).inum.toNat
  removes : ∀ m, Live y m → ∀ t, t.view = s.view → t.mem = s.mem → Fresh t →
    ∃ t' z, exec (writei dp Dirent.zero.byte (UInt32.ofNat (16 * m)) 16) t = .done 16 t' ∧
      nodes sb t'.view = update (nodes sb s.view) d (some z) ∧ ∀ name, 0 ∉ name →
      z.lookup name = if name.take DIRSIZ = nameOf (y.entry m) then none else y.lookup name

/-- `dirlink` of `name` and `inum` returns and works on a map: with the name taken it returns -1 and changes nothing;
    otherwise it adds the entry and leaves the others as they are, or returns -1 and changes nothing. -/
def LinksAsMap (sb : Superblock) (H : Fin NINODE → Nat) (s : LState) (dp : Fin NINODE) (d : Nat) (x : Node)
    (name : List UInt8) (inum : Nat) : Prop :=
  ∃ r s' y, exec (dirlink dp name inum) s = .done r s' ∧ nodes sb s'.view = update (nodes sb s.view) d (some y) ∧
    ((∃ k, HasEntry x name k) → r = -1 ∧ y = x) ∧
    ((∀ k, ¬ HasEntry x name k) → (r = -1 ∧ y = x) ∨ (r = 0 ∧ ∃ k, ¬ Live x k ∧ HasEntry y name k ∧
      (y.entry k).inum.toNat = inum ∧ ∀ m, m ≠ k → (Live y m ↔ Live x m) ∧ y.entry m = x.entry m)) ∧
    Answers sb H s' dp d y

section Map

variable {sb : Superblock} {H : Fin NINODE → Nat} {s s' : LState} {dp : Fin NINODE} {d inum : Nat} {x y : Node}
  {name : List UInt8}

/-- A directory in a slot answers as a map. -/
theorem answers_map (hw : World sb True H s) (hdp : 0 < H dp) (hat : At sb s dp d y) (hy : y.type = T_DIR)
    (hwhole : 16 ∣ y.size) (hmap : IsMap y) : Answers sb H s dp d y := by
  constructor
  · intro m hm hslot
    have hself := lookup_self hmap hm
    obtain ⟨o, t, hrun, hfound, -⟩ := dirlookup_runs hw hdp hat hy hwhole fun k hk => by
      rw [hself] at hk
      cases hk
      exact hslot
    cases o with
    | none => cases hself.symm.trans hfound.2
    | some z =>
      obtain ⟨k, hk, hoff, hinum, -⟩ := hfound
      rw [hself] at hk
      cases hk
      have hz : z = (z.1, 16 * m) := Prod.ext rfl hoff
      rw [hz] at hrun
      exact ⟨z.1, t, hrun, hinum⟩
  · intro m hm t hview hmem hf
    have hw' := hw.same hview (by rw [hmem]) (by rw [hmem])
    have hat' := At.same hat hview (by rw [hmem])
    have hlink := Linking.ofFresh hw' hdp hat' hy hwhole hmap hf
    have hm16 : 16 * m + 16 ≤ y.size := by
      have := hm.1
      rw [Node.entries] at this
      omega
    have hlim : MAXFILE * BSIZE = 16 * 17088 := by decide
    have hsize := hlink.size_le
    have hgrow := hlink.mapped (k := m) (by omega)
    obtain ⟨_, t', hrun, rfl⟩ := writeEntry_runs hlink (le_of_lt hm.1) Dirent.zero (by omega) (by omega)
    have hc := does_exec (writeEntry_does (N := True) hw'.disk hw'.super hat' hy (le_of_lt hm.1) room_univ trivial)
      hrun rfl
    have hnodes := hc.nodes
    rw [hview] at hnodes
    exact ⟨t', _, hrun, hnodes, fun name h0 => lookup_erase hmap hm rfl h0⟩

theorem not_live_freeSlot : ¬ Live x x.freeSlot := by
  rintro ⟨hlt, hlive⟩
  rcases freeSlot_spec (x := x) with heq | ⟨-, hzero⟩
  · omega
  · exact hlive hzero

/-- Inode numbers fit into an entry. -/
theorem Linking.inum_toNat (h : Linking sb H s dp d x) (h2 : inum < sb.ninodes) : (UInt16.ofNat inum).toNat = inum := by
  have hinums := h.world.disk.layout.inums
  rw [UInt16.toNat_ofNat']
  omega

theorem dirOk_setEntry {k : Nat} {e : Dirent} (h : DirOk sb x) (hk : k ≤ x.entries) (he : e.inum.toNat < sb.ninodes) :
    DirOk sb (x.setEntry k e) := by
  intro m hm
  by_cases hmk : m = k
  · rw [hmk, setEntry_entry]
    exact he
  · rw [setEntry_entry_ne hmk]
    rw [setEntry_entries] at hm
    exact h m (by omega)

/-- The directory with the new entry. -/
theorem Linking.changed (h : Linking sb H s dp d x) (h0 : 0 ∉ name) (h2 : inum < sb.ninodes)
    (hnone : x.lookup name = none)
    (hc : Changes sb s dp d (some (x.setEntry x.freeSlot ⟨UInt16.ofNat inum, strncpyName name⟩)) s') :
    World sb True H s' ∧ At sb s' dp d (x.setEntry x.freeSlot ⟨UInt16.ofNat inum, strncpyName name⟩) ∧
      16 ∣ (x.setEntry x.freeSlot ⟨UInt16.ofNat inum, strncpyName name⟩).size ∧
      IsMap (x.setEntry x.freeSlot ⟨UInt16.ofNat inum, strncpyName name⟩) := by
  have habs := (lookup_none_iff h0).mp hnone
  have hok : DirOk sb (x.setEntry x.freeSlot ⟨UInt16.ofNat inum, strncpyName name⟩) :=
    dirOk_setEntry (h.world.dirs d x h.here.node h.dir) freeSlot_le (by rw [h.inum_toNat h2]; exact h2)
  obtain ⟨hw, hat⟩ := h.world.changes h.used h.here hc (fun _ => hok) fun hN => absurd trivial hN
  refine ⟨hw, hat, ?_, ?_⟩
  · show 16 ∣ max x.size (16 * x.freeSlot + 16)
    rcases le_total x.size (16 * x.freeSlot + 16) with hle | hle
    · exact ⟨x.freeSlot + 1, by omega⟩
    · rw [Nat.max_eq_left hle]
      exact h.whole
  · refine h.map.insert freeSlot_le fun m _ hm heq => ?_
    exact habs m ⟨hm, heq.trans (nameOf_strncpy h0 _)⟩

end Map

/-! ## A directory that fills up -/

/-- The directory `d` with entries in its first `n` places, at the start of a transaction, with blocks to grow. -/
structure Filled (sb : Superblock) (N : Prop) (H : Fin NINODE → Nat) (dp : Fin NINODE) (d n B : Nat) (s : LState)
    (x : Node) : Prop where
  world : World sb N H s
  used : 0 < H dp
  here : At sb s dp d x
  dir : x.type = T_DIR
  whole : 16 ∣ x.size
  map : IsMap x
  fresh : Fresh s
  live : ∀ k, Live x k ↔ k < n
  blocks : B ≤ (freeBlocks sb s.view).length + 2 * ((x.size + 1023) / 1024)

section Fill

variable {sb : Superblock} {N : Prop} {H : Fin NINODE → Nat} {s : LState} {dp : Fin NINODE} {d n k B : Nat} {x : Node}

theorem Filled.linking (h : Filled sb N H dp d n B s x) : Linking sb H s dp d x :=
  Linking.ofFresh h.world.loosen h.used h.here h.dir h.whole h.map h.fresh

/-- A directory has at most as many entries as fit into the largest file. -/
theorem Filled.entries_le (h : Filled sb N H dp d n B s x) : x.entries ≤ 17088 := by
  have hsize := h.linking.size_le
  rw [Node.entries]
  omega

/-- The entries before the free slot are taken. -/
theorem live_of_lt_freeSlot (hk : k < x.freeSlot) : Live x k := by
  have hle := freeSlot_le (x := x)
  -- a free entry would have been found here
  have hhit : ∀ j, j < x.freeSlot → x.freeFrom j = x.freeSlot → (x.entry j).inum ≠ 0 := by
    intro j hj hfrom hzero
    rw [freeFrom_hit (by omega) hzero] at hfrom
    omega
  have hfrom : ∀ j, j < x.freeSlot → x.freeFrom j = x.freeSlot := by
    intro j
    induction j with
    | zero => exact fun _ => rfl
    | succ j ih =>
      intro hj
      have hj' := ih (by omega)
      rw [← freeFrom_miss (by omega) (hhit j (by omega) hj'), hj']
  exact ⟨by omega, hhit k hk (hfrom k hk)⟩

theorem Filled.freeSlot (h : Filled sb N H dp d n B s x) : x.freeSlot = n := by
  have hge : ¬ x.freeSlot < n := fun hlt => not_live_freeSlot ((h.live _).mpr hlt)
  have hle : ¬ n < x.freeSlot := fun hlt => lt_irrefl n ((h.live n).mp (live_of_lt_freeSlot hlt))
  omega

/-- A name for each number. -/
def numbered (k : Nat) : List UInt8 := [UInt8.ofNat (k / 200 + 1), UInt8.ofNat (k % 200 + 1)]

theorem numbered_inj {a b : Nat} (ha : a < 20000) (hb : b < 20000) (h : numbered a = numbered b) : a = b := by
  have hab := (List.cons.inj h)
  have h1 := congrArg UInt8.toNat hab.1
  have h2 := congrArg UInt8.toNat (List.cons.inj hab.2).1
  rw [UInt8.toNat_ofNat', UInt8.toNat_ofNat'] at h1 h2
  omega

theorem zero_notMem_numbered (hk : k < 20000) : 0 ∉ numbered k := by
  intro h
  have hne : ∀ j, j < 255 → (0 : UInt8) ≠ UInt8.ofNat (j + 1) := by
    intro j hj heq
    have := congrArg UInt8.toNat heq
    rw [UInt8.toNat_ofNat'] at this
    have hz : (0 : UInt8).toNat = 0 := rfl
    omega
  rcases List.mem_cons.mp h with h | h
  · exact hne _ (by omega) h
  · exact hne _ (by omega) (List.mem_singleton.mp h)

/-- There is a name of two bytes that the directory does not have. -/
theorem Filled.newName (h : Filled sb N H dp d n B s x) :
    ∃ name : List UInt8, 0 ∉ name ∧ name.length = 2 ∧ x.lookup name = none := by
  by_contra hno
  have hall : ∀ j, ∃ m, j < 20000 → HasEntry x (numbered j) m := by
    intro j
    by_cases hj : j < 20000
    · cases hl : x.lookup (numbered j) with
      | none => exact absurd ⟨_, zero_notMem_numbered hj, rfl, hl⟩ hno
      | some m => exact ⟨m, fun _ => lookup_hasEntry (zero_notMem_numbered hj) hl⟩
    · exact ⟨0, fun hj' => absurd hj' hj⟩
  choose f hf using hall
  have hcard : (range 20000).card ≤ (range x.entries).card := by
    refine card_le_card_of_injOn f (fun j hj => ?_) fun a ha b hb heq => ?_
    · exact mem_coe.mpr (mem_range.mpr (hf j (mem_range.mp hj)).1.1)
    · have ha' := mem_range.mp (mem_coe.mp ha)
      have hb' := mem_range.mp (mem_coe.mp hb)
      have h1 := (hf a ha').2
      have h2 := (hf b hb').2
      rw [heq] at h1
      exact numbered_inj ha' hb' (h1.symm.trans h2)
  rw [card_range, card_range] at hcard
  have := h.entries_le
  omega

/-- If not every place is taken, there is one for the new entry. -/
theorem Filled.room (h : Filled sb N H dp d n B s x) (hB : 536 ≤ B) (hn : n < 17088) :
    16 * x.freeSlot + 16 ≤ MAXFILE * BSIZE ∧
      grow s.view (dino sb s.view) d [x.freeSlot / 64] ≤ (freeBlocks sb s.view).length := by
  have hlim : MAXFILE * BSIZE = 16 * 17088 := by decide
  have hsize := h.linking.size_le
  have hblocks := h.blocks
  have hgrow := grow_le s.view (dino sb s.view) d [x.freeSlot / 64]
  have hone : [x.freeSlot / 64].length + 1 = 2 := rfl
  have hslot := h.freeSlot
  exact ⟨by omega, by omega⟩

theorem Frame.log {s' : LState} (h : Frame H s s') : Frame H s { s' with lh := [] } :=
  ⟨⟨h.outer.ftable, h.outer.ptable, h.outer.pipes, h.outer.sb, h.outer.outstanding, h.outer.logSize⟩, h.inum, h.valid⟩

/-- **One more entry**: a name for inode `j`. -/
theorem Filled.insert (h : Filled sb N H dp d n B s x) (hB : 536 ≤ B) (hn : n < 17088) {j : Nat} (h1 : 1 ≤ j)
    (h2 : j < sb.ninodes) (hj : ¬ N → nodes sb s.view j ≠ none) {name : List UInt8} (h0 : 0 ∉ name)
    (hnone : x.lookup name = none) :
    ∃ s', Filled sb N H dp d (n + 1) B s' (x.setEntry n ⟨UInt16.ofNat j, strncpyName name⟩) ∧
      nodes sb s'.view = update (nodes sb s.view) d (some (x.setEntry n ⟨UInt16.ofNat j, strncpyName name⟩)) ∧
      Frame H s s' ∧ ∀ l, (s'.mem.icache l).busy = (s.mem.icache l).busy := by
  have hlink := h.linking
  have hroom := h.room hB hn
  obtain ⟨r, s', hrun, -⟩ := dirlink_runs j hlink
    (⟨fun m hm => (nomatch hnone.symm.trans hm), fun _ => hroom⟩ : Roomy sb H s d x name)
  rcases dirlink_linked hlink hrun with ⟨m, hm, -⟩ | ⟨-, -, hle, rfl, hdrop, hc⟩
  · cases hnone.symm.trans hm
  · have hslot := freeSlot_le (x := x)
    obtain ⟨-, -, hwhole, hmap⟩ := hlink.changed h0 h2 hnone hc
    have hnum := hlink.inum_toNat h2
    rw [h.freeSlot] at hc hwhole hmap hslot hdrop
    generalize he : (⟨UInt16.ofNat j, strncpyName name⟩ : Dirent) = e at hc hwhole hmap ⊢
    have hej : e.inum.toNat = j := by rw [← he, hnum]
    have heinum : e.inum ≠ 0 := by
      intro hz
      rw [hz] at hej
      have hzero : (0 : UInt16).toNat = 0 := rfl
      omega
    have hsize : (x.setEntry n e).size = max x.size (16 * n + 16) := rfl
    have hframe : Frame H s s' := frame_changes hc
    obtain ⟨hw, hat⟩ := h.world.changes h.used h.here hc (fun _ => dirOk_setEntry (h.world.dirs d x h.here.node h.dir)
      hslot (by rw [hej]; exact h2)) (by
        intro hN _ m hm hne
        rcases (live_setEntry hslot).mp ⟨hm, hne⟩ with ⟨rfl, -⟩ | ⟨hmn, hl⟩
        · rw [setEntry_entry, hej]
          exact .inl (hj hN)
        · rw [setEntry_entry_ne hmn]
          exact .inl ((h.world.sound hN).named d m _ ⟨x, h.here.node, h.dir, hl.1, hl.2, rfl⟩))
    refine ⟨{ s' with lh := [] }, ⟨hw.same rfl rfl rfl, h.used, At.same hat rfl rfl, h.dir, hwhole, hmap,
      ⟨rfl, hframe.outer.outstanding.trans h.fresh.outstanding, hframe.outer.logSize.trans h.fresh.logSize⟩, ?_, ?_⟩,
      hc.nodes, hframe.log, ?_⟩
    · intro k
      rw [live_setEntry hslot, h.live k]
      constructor
      · rintro (⟨rfl, -⟩ | ⟨-, hk⟩) <;> omega
      · intro hk
        by_cases hkn : k = n
        · exact .inl ⟨hkn, heinum⟩
        · exact .inr ⟨hkn, by omega⟩
    · have hblocks := h.blocks
      have h16 := h.whole
      rw [hdrop, List.length_drop, hsize]
      by_cases hin : 1024 * (n / 64) < x.size
      · rw [hlink.mapped hin]
        omega
      · -- a new block
        have hgrow := grow_le s.view (dino sb s.view) d [n / 64]
        have hone : [n / 64].length + 1 = 2 := rfl
        omega
    · intro l
      by_cases hl : l = dp
      · rw [hl, changes_slot hc]
      · rw [changes_other hc hl]

/-- The directory fills up. -/
theorem Filled.fill (h : Filled sb N H dp d n B s x) (hB : 536 ≤ B) :
    ∀ m, n ≤ m → m ≤ 17088 → ∃ s' y, Filled sb N H dp d m B s' y := by
  intro m hm
  induction m, hm using Nat.le_induction with
  | base => exact fun _ => ⟨s, x, h⟩
  | succ m hm ih =>
    intro hle
    obtain ⟨s', y, hy⟩ := ih (by omega)
    obtain ⟨name, h0, -, hnone⟩ := hy.newName
    obtain ⟨s2, h2, -⟩ := hy.insert hB (by omega) (le_refl 1) hy.world.disk.layout.root
      (fun hN => (hy.world.sound hN).root) h0 hnone
    exact ⟨s2, _, h2⟩

/-- A full directory has no place for another entry. -/
theorem Filled.full (h : Filled sb N H dp d 17088 B s x) : ¬ 16 * x.freeSlot + 16 ≤ MAXFILE * BSIZE := by
  have hlim : MAXFILE * BSIZE = 16 * 17088 := by decide
  rw [h.freeSlot]
  omega

end Fill

open Xv6Mkfs (sb)

section Root

variable {x : Node}

theorem EmptyRoot.entries (h : EmptyRoot x) : x.entries = 64 := by rw [Node.entries, h.size]

theorem EmptyRoot.live (h : EmptyRoot x) (k : Nat) : Live x k ↔ k = 0 ∨ k = 1 := by
  have hent := h.entries
  constructor
  · rintro ⟨-, hk⟩
    by_contra hno
    exact hk (h.free k (by omega))
  · rintro (rfl | rfl)
    · exact ⟨by omega, by rw [h.dot]; decide⟩
    · exact ⟨by omega, by rw [h.dotdot]; decide⟩

theorem EmptyRoot.isMap (h : EmptyRoot x) : IsMap x := by
  have hne : nameOf (Xv6Mkfs.direntOf Xv6Mkfs.dot ROOTINO) ≠ nameOf (Xv6Mkfs.direntOf Xv6Mkfs.dotdot ROOTINO) := by
    decide
  intro k m hk hm heq
  rcases (h.live k).mp hk with rfl | rfl <;> rcases (h.live m).mp hm with rfl | rfl
  · rfl
  · rw [h.dot, h.dotdot] at heq
    exact absurd heq hne
  · rw [h.dot, h.dotdot] at heq
    exact absurd heq.symm hne
  · rfl

end Root

/-- The root directory of an empty disk, locked. -/
theorem filled_root : ∃ s x, Filled sb False rootHeld rootSlot ROOTINO 2 1500 s x ∧ EmptyRoot x ∧
    s.mem.ptable = bootMem.ptable ∧ (s.mem.icache rootSlot).busy = true ∧
    ∀ j, j ≠ ROOTINO → nodes sb s.view j = none := by
  obtain ⟨img, x, -, hw, -, hnode, hroot, hfree, hothers⟩ := booted_empty
  have hused : 0 < rootHeld rootSlot := zero_lt_one
  obtain ⟨-, s, -, hlock, hws, hst, y, hat⟩ := ilock_runs (fun hN => hN) hw hused (booted_unlocked img rootSlot hused)
  have hxy : y = x := by
    have hy := hat.node
    rw [hst.view] at hy
    exact Option.some.inj (hy.symm.trans hnode)
  subst hxy
  have hview : s.view = img := hst.view
  refine ⟨{ s with outstanding := 1 }, y, ⟨hws.same rfl rfl rfl, hused, At.same hat rfl rfl, hroot.type,
    ⟨64, by rw [hroot.size]⟩, hroot.isMap, ⟨hst.lh, rfl, hst.outer.logSize⟩, ?_, ?_⟩, hroot, hst.outer.ptable, ?_, ?_⟩
  · intro k
    rw [hroot.live k]
    omega
  · rw [hview]
    exact Nat.le_add_right_of_le hfree
  · rw [hlock, setInode_same]
    rfl
  · intro j hj
    rw [hview]
    exact nodesOf_none.mpr (hothers j hj)

/-! ## The theorem -/

section Theorem

variable {y : Node}

/-- **`dirlink` works on a finite map if and only if there is room for what it does.** -/
theorem dirlink_map_iff (sb : Superblock) (H : Fin NINODE → Nat) (s : LState) (dp : Fin NINODE) (d : Nat) (x : Node)
    (name : List UInt8) (inum : Nat) (h : Linking sb H s dp d x) (h0 : 0 ∉ name) (h1 : 1 ≤ inum)
    (h2 : inum < sb.ninodes) : LinksAsMap sb H s dp d x name inum ↔ Roomy sb H s d x name := by
  constructor
  · rintro ⟨r, s', y, hrun, -⟩
    rcases dirlink_linked h hrun with ⟨m, hm, hslot, -⟩ | ⟨hnone, hmax, hfree, -⟩
    · refine ⟨fun k hk => ?_, fun hnone => nomatch hm.symm.trans hnone⟩
      rw [hm] at hk
      cases hk
      exact hslot
    · exact ⟨fun k hk => (nomatch hnone.symm.trans hk), fun _ => ⟨hmax, hfree⟩⟩
  · intro hroom
    obtain ⟨r, s', hrun, -⟩ := dirlink_runs inum h hroom
    rcases dirlink_linked h hrun with ⟨m, hm, -, rfl, hw, hs⟩ | ⟨hnone, -, -, rfl, -, hc⟩
    · -- the name is taken
      refine ⟨-1, s', x, hrun, ?_, fun _ => ⟨rfl, rfl⟩, fun _ => .inl ⟨rfl, rfl⟩, ?_⟩
      · rw [hs.view, ← h.here.node, update_eq_self]
      · exact answers_map hw h.used (At.still h.here hs h.used hw.cache h.used) h.dir h.whole h.map
    · -- a new entry
      have habs := (lookup_none_iff h0).mp hnone
      have hnum := h.inum_toNat h2
      have hne : UInt16.ofNat inum ≠ 0 := by
        intro hz
        rw [hz] at hnum
        exact absurd hnum (by show ¬ 0 = inum; omega)
      have hslot := freeSlot_le (x := x)
      have hfree : ¬ Live x x.freeSlot := not_live_freeSlot
      obtain ⟨hw, hat, hwhole, hmap⟩ := h.changed h0 h2 hnone hc
      refine ⟨0, s', _, hrun, hc.nodes, fun ⟨k, hk⟩ => absurd hk (habs k), fun _ => .inr ⟨rfl, x.freeSlot, hfree, ?_, ?_, ?_⟩,
        answers_map hw h.used hat h.dir hwhole hmap⟩
      · refine ⟨(live_setEntry hslot).mpr (.inl ⟨rfl, hne⟩), ?_⟩
        rw [setEntry_entry]
        exact nameOf_strncpy h0 _
      · rw [setEntry_entry]
        exact hnum
      · intro m hm
        refine ⟨?_, setEntry_entry_ne hm⟩
        rw [live_setEntry hslot]
        exact ⟨fun hl => hl.elim (fun hl => absurd hl.1 hm) fun hl => hl.2, fun hl => .inr ⟨hm, hl⟩⟩

/-- The first file of an empty disk. -/
theorem dirlink_map_first : ∃ s x name, Linking sb rootHeld s rootSlot ROOTINO x ∧
    LinksAsMap sb rootHeld s rootSlot ROOTINO x name 2 := by
  obtain ⟨s, x, h, -⟩ := filled_root
  obtain ⟨name, h0, -, hnone⟩ := h.newName
  have hroom : Roomy sb rootHeld s ROOTINO x name :=
    ⟨fun m hm => (nomatch hnone.symm.trans hm), fun _ => h.room (by decide) (by decide)⟩
  exact ⟨s, x, name, h.linking, (dirlink_map_iff _ _ s _ _ x name 2 h.linking h0 (by decide) (by decide)).mpr hroom⟩

/-- **A full directory is a crash**: in a root directory with 17088 live entries `dirlink` of a new name panics. -/
theorem dirlink_full_panics : ∃ s x name, Linking sb rootHeld s rootSlot ROOTINO x ∧ 0 ∉ name ∧
    (∀ k, ¬ HasEntry x name k) ∧ exec (dirlink rootSlot name 2) s = .stop (.panic "dirlink") s ∧
    ¬ LinksAsMap sb rootHeld s rootSlot ROOTINO x name 2 := by
  obtain ⟨s0, x0, h0, -⟩ := filled_root
  obtain ⟨s, x, h⟩ := h0.fill (by decide) 17088 (by decide) (le_refl _)
  obtain ⟨name, hnul, -, hnone⟩ := h.newName
  have hpanic := dirlink_panics 2 h.linking hnone h.full
  refine ⟨s, x, name, h.linking, hnul, (lookup_none_iff hnul).mp hnone, hpanic, ?_⟩
  rintro ⟨r, s', y, hrun, -⟩
  cases hpanic.symm.trans hrun

end Theorem

end Xv6World
