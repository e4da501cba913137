import Xv6.NodeTableProofs

/-!
# The inode cache — `iget`, `ilock`, `iput`

The slots of `icache` hold copies of inodes. `Cache` is what is true of them at all times
between operations. `H` counts the references that somebody holds to each slot, and the
reference count in the slot is that number. Slots in use name different inodes, and the copy in
a valid slot is the inode on the disk.

`iget`, `idup`, `ilock` and `iunlock` change one slot and never the disk. `iput` does too, except
when it drops the last reference to an inode without links: then it frees the inode.
-/

namespace Xv6Inode

open CmdProg ByteBuf Xv6Disk Xv6Kernel Xv6Fs Xv6Layout Xv6Own Function

/-- The inode cache, with `H k` references held to slot `k`. Under `¬ N`, every slot in use
    names an allocated inode. -/
structure Cache (sb : Superblock) (N : Prop) (H : Fin NINODE → Nat) (s : LState) : Prop where
  refs : ∀ k, (s.mem.icache k).ref = H k
  dev : ∀ k, 0 < H k → (s.mem.icache k).dev = ROOTDEV
  range : ∀ k, 0 < H k → 1 ≤ (s.mem.icache k).inum ∧ (s.mem.icache k).inum < sb.ninodes
  uniq : ∀ k l, 0 < H k → 0 < H l → (s.mem.icache k).inum = (s.mem.icache l).inum → k = l
  sync : ∀ k, 0 < H k → (s.mem.icache k).valid = true →
    (s.mem.icache k).din = dino sb s.view (s.mem.icache k).inum ∧ (s.mem.icache k).din.type ≠ 0
  live : ¬ N → ∀ k, 0 < H k → (dino sb s.view (s.mem.icache k).inum).type ≠ 0

theorem Cache.loosen {sb : Superblock} {N : Prop} {H : Fin NINODE → Nat} {s : LState} (h : Cache sb N H s) :
    Cache sb True H s :=
  ⟨h.refs, h.dev, h.range, h.uniq, h.sync, fun hN => absurd trivial hN⟩

/-- One more reference to slot `k`. -/
def bump (H : Fin NINODE → Nat) (k : Fin NINODE) : Fin NINODE → Nat :=
  update H k (H k + 1)

/-- One reference less to slot `k`. -/
def drop (H : Fin NINODE → Nat) (k : Fin NINODE) : Fin NINODE → Nat :=
  update H k (H k - 1)

section Counts

variable {H : Fin NINODE → Nat} {k l : Fin NINODE}

theorem bump_self : bump H k k = H k + 1 := update_self _ _ _

theorem bump_of_ne (h : l ≠ k) : bump H k l = H l := update_of_ne h _ _

theorem drop_self : drop H k k = H k - 1 := update_self _ _ _

theorem drop_of_ne (h : l ≠ k) : drop H k l = H l := update_of_ne h _ _

theorem bump_pos : 0 < bump H k k := by rw [bump_self]; omega

theorem le_bump : H l ≤ bump H k l := by
  by_cases h : l = k
  · rw [h, bump_self]; omega
  · rw [bump_of_ne h]

theorem bump_pos_of_pos (h : 0 < H l) : 0 < bump H k l := lt_of_lt_of_le h le_bump

@[simp] theorem drop_bump : drop (bump H k) k = H := by
  rw [drop, bump_self, bump, update_idem, Nat.add_sub_cancel, update_eq_self]

theorem drop_le : drop H k l ≤ H l := by
  by_cases h : l = k
  · rw [h, drop_self]; omega
  · rw [drop_of_ne h]

theorem pos_of_drop (h : 0 < drop H k l) : 0 < H l := lt_of_lt_of_le h drop_le

theorem drop_bump_comm (h : k ≠ l) : drop (bump H k) l = bump (drop H l) k := by
  funext m
  by_cases hm : m = l
  · subst hm
    rw [drop_self, bump_of_ne h.symm, bump_of_ne h.symm, drop_self]
  · rw [drop_of_ne hm]
    by_cases hm' : m = k
    · subst hm'
      rw [bump_self, bump_self, drop_of_ne h]
    · rw [bump_of_ne hm', bump_of_ne hm', drop_of_ne hm]

end Counts

/-- A slot without its count. -/
def uncounted (i : Inode) : Inode := { i with ref := 0 }

/-- The slots that are in use according to `H` differ at most in their counts. -/
def Keep (H : Fin NINODE → Nat) (s s' : LState) : Prop :=
  ∀ l, 0 < H l → uncounted (s'.mem.icache l) = uncounted (s.mem.icache l)

/-- Everything but the disk, the log list and the inode cache is the same. -/
structure Outer (s s' : LState) : Prop where
  ftable : s'.mem.ftable = s.mem.ftable
  ptable : s'.mem.ptable = s.mem.ptable
  pipes : s'.mem.pipes = s.mem.pipes
  sb : s'.mem.sb = s.mem.sb
  outstanding : s'.outstanding = s.outstanding
  logSize : s'.logSize = s.logSize

section Frames

variable {sb : Superblock} {N : Prop} {H H' : Fin NINODE → Nat} {s s' s'' : LState} {k l : Fin NINODE}
  {i : Inode} {x : Option Node} {n : Nat}

theorem Keep.inum (h : Keep H s s') (hl : 0 < H l) : (s'.mem.icache l).inum = (s.mem.icache l).inum := by
  have e := congrArg Inode.inum (h l hl)
  exact e

theorem Keep.busy (h : Keep H s s') (hl : 0 < H l) : (s'.mem.icache l).busy = (s.mem.icache l).busy := by
  have e := congrArg Inode.busy (h l hl)
  exact e

theorem Keep.valid (h : Keep H s s') (hl : 0 < H l) : (s'.mem.icache l).valid = (s.mem.icache l).valid := by
  have e := congrArg Inode.valid (h l hl)
  exact e

theorem Outer.refl : Outer s s := ⟨rfl, rfl, rfl, rfl, rfl, rfl⟩

theorem Outer.trans (h1 : Outer s s') (h2 : Outer s' s'') : Outer s s'' :=
  ⟨h2.ftable.trans h1.ftable, h2.ptable.trans h1.ptable, h2.pipes.trans h1.pipes, h2.sb.trans h1.sb,
    h2.outstanding.trans h1.outstanding, h2.logSize.trans h1.logSize⟩

theorem outer_setInode : Outer s (setInode s k i) := ⟨rfl, rfl, rfl, rfl, rfl, rfl⟩

theorem changes_outer (h : Changes sb s k n x s') : Outer s s' := by
  obtain ⟨f, hf⟩ := h.state
  constructor <;> rw [hf] <;> rfl

theorem setInode_same : (setInode s k i).mem.icache k = i := update_self _ _ _

theorem setInode_ne (h : l ≠ k) : (setInode s k i).mem.icache l = s.mem.icache l :=
  update_of_ne h _ _

/-- A slot nobody uses may change in any way. -/
theorem keep_setInode (h : H k = 0) : Keep H s (setInode s k i) := by
  intro l hl
  rw [setInode_ne]
  rintro rfl
  omega

/-- The disk is the same, and one slot changes so that the cache stays in order. -/
theorem cache_setInode (h : Cache sb N H s) (hH : ∀ l, l ≠ k → H' l = H l) (href : i.ref = H' k)
    (hdev : 0 < H' k → i.dev = ROOTDEV) (hrange : 0 < H' k → 1 ≤ i.inum ∧ i.inum < sb.ninodes)
    (huniq : 0 < H' k → ∀ l, l ≠ k → 0 < H l → (s.mem.icache l).inum ≠ i.inum)
    (hsync : 0 < H' k → i.valid = true → i.din = dino sb s.view i.inum ∧ i.din.type ≠ 0)
    (hlive : ¬ N → 0 < H' k → (dino sb s.view i.inum).type ≠ 0) : Cache sb N H' (setInode s k i) := by
  constructor
  · intro l
    by_cases hl : l = k
    · subst hl; rw [setInode_same]; exact href
    · rw [setInode_ne hl, hH l hl]; exact h.refs l
  · intro l hl0
    by_cases hl : l = k
    · subst hl; rw [setInode_same]; exact hdev hl0
    · rw [setInode_ne hl]; exact h.dev l (hH l hl ▸ hl0)
  · intro l hl0
    by_cases hl : l = k
    · subst hl; rw [setInode_same]; exact hrange hl0
    · rw [setInode_ne hl]; exact h.range l (hH l hl ▸ hl0)
  · intro l m hl0 hm0 heq
    by_cases hl : l = k
    · subst hl
      by_cases hm : m = l
      · exact hm.symm
      · rw [setInode_same, setInode_ne hm] at heq
        exact absurd heq.symm (huniq hl0 m hm (hH m hm ▸ hm0))
    · by_cases hm : m = k
      · subst hm
        rw [setInode_same, setInode_ne hl] at heq
        exact absurd heq (huniq hm0 l hl (hH l hl ▸ hl0))
      · rw [setInode_ne hl, setInode_ne hm] at heq
        exact h.uniq l m (hH l hl ▸ hl0) (hH m hm ▸ hm0) heq
  · intro l hl0 hv
    by_cases hl : l = k
    · subst hl; rw [setInode_same] at hv ⊢; exact hsync hl0 hv
    · rw [setInode_ne hl] at hv ⊢; exact h.sync l (hH l hl ▸ hl0) hv
  · intro hN l hl0
    by_cases hl : l = k
    · subst hl; rw [setInode_same]; exact hlive hN hl0
    · rw [setInode_ne hl]; exact h.live hN l (hH l hl ▸ hl0)

/-- The same for a slot in use that keeps its inode. -/
theorem cache_touch (h : Cache sb N H s) (hk : 0 < H k) (hH : ∀ l, l ≠ k → H' l = H l)
    (href : i.ref = H' k) (hdev : i.dev = (s.mem.icache k).dev) (hinum : i.inum = (s.mem.icache k).inum)
    (hsync : 0 < H' k → i.valid = true → i.din = dino sb s.view i.inum ∧ i.din.type ≠ 0) :
    Cache sb N H' (setInode s k i) := by
  refine cache_setInode h hH href ?_ ?_ ?_ hsync ?_
  · exact fun _ => hdev.trans (h.dev k hk)
  · exact fun _ => hinum ▸ h.range k hk
  · intro _ l hl hl0 heq
    exact hl (h.uniq l k hl0 hk (heq.trans hinum))
  · intro hN _
    rw [hinum]
    exact h.live hN k hk

end Frames

/-! ## `iget`, `idup`, `ilock`, `iunlock` -/

/-- The state after slot `k` has been got for inode `inum`. -/
structure Got (sb : Superblock) (N : Prop) (H : Fin NINODE → Nat) (s : LState) (inum : Nat)
    (k : Fin NINODE) (s' : LState) : Prop where
  state : s' = setInode s k (s'.mem.icache k)
  cache : Cache sb N (bump H k) s'
  inum : (s'.mem.icache k).inum = inum
  keep : Keep H s s'

section Ops

variable {sb : Superblock} {N : Prop} {H : Fin NINODE → Nat} {s : LState} {k : Fin NINODE}
  {W : Set Nat} {n : Nat}

/-- A new reference to a slot in use. -/
theorem got_ref (h : Cache sb N H s) (hk : 0 < H k) : Got sb N H s (s.mem.icache k).inum k
      (setInode s k { s.mem.icache k with ref := (s.mem.icache k).ref + 1 }) := by
  refine ⟨by rw [setInode_same], ?_, by rw [setInode_same], ?_⟩
  · refine cache_touch h hk (fun l hl => bump_of_ne hl) ?_ rfl rfl (fun _ => h.sync k hk)
    rw [bump_self, h.refs k]
    rfl
  · intro l _
    by_cases hl : l = k
    · subst hl; rw [setInode_same]; rfl
    · rw [setInode_ne hl]

theorem idup_does (h : Cache sb N H s) (hk : 0 < H k) :
    Does W N (fun r s' => r = k ∧ Got sb N H s (s.mem.icache k).inum k s') (idup k) s := by
  exact does_modInode (does_pure ⟨rfl, got_ref h hk⟩)

/-- **`iget`** finds the slot of the inode, or takes an unused one for it. -/
theorem iget_does (h : Cache sb N H s) (h1 : 1 ≤ n) (h2 : n < sb.ninodes)
    (hlive : ¬ N → (dino sb s.view n).type ≠ 0) : Does W N (fun k s' => Got sb N H s n k s') (iget ROOTDEV n) s := by
  refine does_getMem ?_
  cases hfind : firstIdx (fun k : Fin NINODE => decide (0 < (s.mem.icache k).ref) &&
      decide ((s.mem.icache k).dev = ROOTDEV) && decide ((s.mem.icache k).inum = n)) with
  | some k =>
    have hk := firstIdx_some hfind
    simp only [Bool.and_eq_true, decide_eq_true_eq] at hk
    obtain ⟨⟨href, _⟩, rfl⟩ := hk
    rw [h.refs k] at href
    exact does_modInode (does_pure (got_ref h (Int.natCast_pos.mp href)))
  | none =>
    have hnone : ∀ l, 0 < H l → (s.mem.icache l).inum ≠ n := by
      intro l hl heq
      have := firstIdx_none hfind l
      rw [h.refs l, h.dev l hl, heq] at this
      simp at this
      omega
    cases hfree : firstIdx (fun k : Fin NINODE => decide ((s.mem.icache k).ref = 0)) with
    | none => exact does_kpanic (by decide)
    | some k =>
      have hk := firstIdx_some hfree
      rw [decide_eq_true_eq, h.refs k] at hk
      have hk0 : H k = 0 := by exact_mod_cast hk
      refine does_modInode (does_pure ⟨by rw [setInode_same], ?_, by rw [setInode_same], ?_⟩)
      · refine cache_setInode h (fun l hl => bump_of_ne hl) ?_ (fun _ => rfl) (fun _ => ⟨h1, h2⟩)
          (fun _ l _ hl => hnone l hl) nofun (fun hN _ => hlive hN)
        rw [bump_self, hk0]
        rfl
      · exact keep_setInode hk0

/-- The slot after `ilock`. -/
def locked (sb : Superblock) (v : Nat → Block) (i : Inode) : Inode :=
  { i with busy := true, valid := true, din := dino sb v i.inum }

theorem valid_eta {i : Inode} {d : Dinode} (hv : i.valid = true) (hd : i.din = d) :
    { i with valid := true, din := d } = i := by
  cases i
  cases hv
  cases hd
  rfl

/-- The half of `ilock` that reads the inode from the disk if the slot is not valid. -/
theorem ilockRead_does (hsb : s.mem.sb = sb) (h1 : 1 ≤ (s.mem.icache k).inum)
    (h2 : (s.mem.icache k).inum < sb.ninodes) (hsync : (s.mem.icache k).valid = true →
      (s.mem.icache k).din = dino sb s.view (s.mem.icache k).inum ∧ (s.mem.icache k).din.type ≠ 0)
    (hN : (dino sb s.view (s.mem.icache k).inum).type = 0 → N) :
    Does W N (fun _ s' => s' = setInode s k { s.mem.icache k with
        valid := true, din := dino sb s.view (s.mem.icache k).inum } ∧
      (dino sb s.view (s.mem.icache k).inum).type ≠ 0) (ilockRead k) s := by
  refine does_getInode ?_
  split_ifs with hv
  · obtain ⟨hd, htype⟩ := hsync hv
    refine does_pure ⟨?_, hd ▸ htype⟩
    rw [valid_eta hv hd, setInode_self]
  · refine does_getSb ?_
    rw [hsb]
    refine does_bread fun _ => does_modDin (does_brelse (does_modInode ?_))
    rw [← dino_of_range h1 h2]
    split_ifs with htype
    · exact does_halt fun _ => hN htype
    · simp only [setInode_twice, setInode_same]
      exact does_pure ⟨rfl, htype⟩

/-- **`ilock`** locks the slot and makes it valid. The inode is allocated, or the kernel
    panics. -/
theorem ilock_does (hsb : s.mem.sb = sb) (h : Cache sb N H s) (hk : 0 < H k) :
    Does W N (fun _ s' => s' = setInode s k (locked sb s.view (s.mem.icache k)) ∧
      (s.mem.icache k).busy = false ∧ (dino sb s.view (s.mem.icache k).inum).type ≠ 0 ∧
      Cache sb N H s') (ilock k) s := by
  obtain ⟨h1, h2⟩ := h.range k hk
  refine does_getInode ?_
  rw [if_neg (by rw [h.refs k]; omega)]
  cases hbusy : (s.mem.icache k).busy with
  | true => exact does_halt nofun
  | false =>
    refine does_modInode ?_
    refine does_mono (ilockRead_does hsb ?_ ?_ ?_ ?_) ?_
    · rw [setInode_same]; exact h1
    · rw [setInode_same]; exact h2
    · rw [setInode_same]; exact h.sync k hk
    · rw [setInode_same]
      intro htype
      by_contra hN
      exact h.live hN k hk htype
    · rintro _ s' ⟨rfl, htype⟩
      rw [setInode_same] at htype ⊢
      rw [setInode_twice]
      exact ⟨rfl, rfl, htype, cache_touch h hk (fun _ _ => rfl) (h.refs k) rfl rfl fun _ _ => ⟨rfl, htype⟩⟩

theorem iunlock_does (h : Cache sb N H s) (hk : 0 < H k) :
    Does W N (fun _ s' => s' = setInode s k { s.mem.icache k with busy := false } ∧
      (s.mem.icache k).busy = true ∧ Cache sb N H s') (iunlock k) s := by
  refine does_getInode ?_
  split_ifs with hc
  · exact does_kpanic (by decide)
  · refine does_last (does_modInode (does_pure ⟨rfl, ?_, ?_⟩))
    · cases hb : (s.mem.icache k).busy with
      | true => rfl
      | false => exact absurd (.inl hb) hc
    · exact cache_touch h hk (fun _ _ => rfl) (h.refs k) rfl rfl fun _ => h.sync k hk

end Ops

/-! ## `iput` -/

section Change

variable {sb : Superblock} {N : Prop} {H : Fin NINODE → Nat} {s s' : LState} {k l : Fin NINODE}
  {W : Set Nat} {n : Nat} {x : Node} {y : Option Node}

theorem changes_slot (h : Changes sb s k n y s') :
    s'.mem.icache k = { s.mem.icache k with din := dino sb s'.view n } := by
  obtain ⟨f, hf⟩ := h.state
  have e := congrArg (fun t : LState => t.mem.icache k) hf
  exact e.trans (edit_inode s k s'.view s'.lh _)

theorem changes_other (h : Changes sb s k n y s') (hl : l ≠ k) : s'.mem.icache l = s.mem.icache l := by
  obtain ⟨f, hf⟩ := h.state
  have e := congrArg (fun t : LState => t.mem.icache l) hf
  exact e.trans (edit_other s k s'.view s'.lh _ hl)

theorem node_type (h : nodes sb s.view n = some x) : (dino sb s.view n).type = x.type ∧ x.type ≠ 0 := by
  obtain ⟨h0, ht, _⟩ := nodesOf_some h
  exact ⟨ht.symm, ht ▸ h0⟩

/-- A change of the node of a slot in use keeps the cache in order. -/
theorem cache_changes (h : Cache sb N H s) (hk : 0 < H k) (hinum : (s.mem.icache k).inum = n)
    (hc : Changes sb s k n (some x) s') : Cache sb N H s' := by
  have hself := changes_slot hc
  have hx : nodes sb s'.view n = some x := by rw [hc.nodes, update_self]
  obtain ⟨ht, ht0⟩ := node_type hx
  have hne : ∀ l, l ≠ k → 0 < H l → (s.mem.icache l).inum ≠ n := by
    intro l hl hl0 heq
    exact hl (h.uniq l k hl0 hk (heq.trans hinum.symm))
  constructor
  · intro l
    by_cases hl : l = k
    · subst hl; rw [hself]; exact h.refs l
    · rw [changes_other hc hl]; exact h.refs l
  · intro l hl0
    by_cases hl : l = k
    · subst hl; rw [hself]; exact h.dev l hl0
    · rw [changes_other hc hl]; exact h.dev l hl0
  · intro l hl0
    by_cases hl : l = k
    · subst hl; rw [hself]; exact h.range l hl0
    · rw [changes_other hc hl]; exact h.range l hl0
  · intro l m hl0 hm0 heq
    have hsame : ∀ l, (s'.mem.icache l).inum = (s.mem.icache l).inum := by
      intro l
      by_cases hl : l = k
      · subst hl; rw [hself]
      · rw [changes_other hc hl]
    rw [hsame, hsame] at heq
    exact h.uniq l m hl0 hm0 heq
  · intro l hl0 hv
    by_cases hl : l = k
    · subst hl
      rw [hself]
      refine ⟨?_, ?_⟩
      · rw [hinum]
      · rw [ht]; exact ht0
    · rw [changes_other hc hl] at hv ⊢
      rw [hc.table _ (hne l hl hl0)]
      exact h.sync l hl0 hv
  · intro hN l hl0
    by_cases hl : l = k
    · subst hl
      rw [hself]
      rw [hinum, ht]; exact ht0
    · rw [changes_other hc hl, hc.table _ (hne l hl hl0)]
      exact h.live hN l hl0

/-- The state after slot `k` and its inode have been freed by `iput`. -/
structure Freed (sb : Superblock) (s : LState) (k : Fin NINODE) (n : Nat) (s' : LState) : Prop where
  outer : Outer s s'
  disk : Disk sb s'.view
  nodes : nodes sb s'.view = update (nodes sb s.view) n none
  table : ∀ j, j ≠ n → dino sb s'.view j = dino sb s.view j
  slot : (s'.mem.icache k).ref = (s.mem.icache k).ref
  other : ∀ l, l ≠ k → s'.mem.icache l = s.mem.icache l

/-- **`iput` frees** an inode with no links and no other references. -/
theorem iputFree_does (hsb : s.mem.sb = sb) (hd : Disk sb s.view)
    (hinum : (s.mem.icache k).inum = n) (hdin : dino sb s.view n = (s.mem.icache k).din)
    (hx : nodes sb s.view n = some x) (hW : ∀ b, b < sb.size → BBLOCK b sb ∈ W) (hWi : IBLOCK n sb ∈ W) :
    Does W N (fun _ s' => Freed sb s k n s') (iputFree k) s := by
  obtain ⟨hi, h1, h2⟩ := node_some hx
  refine does_getInode ?_
  split_ifs with hb
  · exact does_kpanic (by decide)
  · refine does_modInode ?_
    generalize hs1 : setInode s k { s.mem.icache k with busy := true } = s1
    have hv1 : s1.view = s.view := by rw [← hs1]; rfl
    have hk1 : s1.mem.icache k = { s.mem.icache k with busy := true } := by
      rw [← hs1, setInode_same]
    refine does_seq (itrunc_changes (i := n) (x := x) (s := s1) (by rw [hv1]; exact hd)
      (by rw [← hs1]; exact hsb) (by rw [hk1]; exact hinum) (by rw [hv1, hk1]; exact hdin)
      (by rw [hv1]; exact hx) hW hWi) ?_
    rintro _ s2 ⟨hc, htrunc⟩
    have hk2 := changes_slot hc
    have houter2 := changes_outer hc
    have hsb2 : s2.mem.sb = sb := by rw [houter2.sb, ← hs1]; exact hsb
    refine does_modDin ?_
    generalize hs3 : setInode s2 k { s2.mem.icache k with
      din := { (s2.mem.icache k).din with type := 0 } } = s3
    have hv3 : s3.view = s2.view := by rw [← hs3]; rfl
    have hk3 : (s3.mem.icache k).inum = n ∧ (s3.mem.icache k).din = { truncated (dino sb s.view n) with type := 0 } ∧
        (s3.mem.icache k).ref = (s.mem.icache k).ref := by
      rw [← hs3, setInode_same, hk2, hk1, htrunc, hv1]
      exact ⟨hinum, rfl, rfl⟩
    have hsb3 : s3.mem.sb = sb := by rw [← hs3]; exact hsb2
    refine does_seq (iupdate_does hsb3 (by rw [hk3.1]; exact hWi)) ?_
    rintro _ s4 hs4
    rw [hk3.1, hk3.2.1] at hs4
    refine does_last (does_modInode (does_pure ?_))
    have hempty := disk_empty (d := { truncated (dino sb s.view n) with type := 0 }) hc.disk h1 h2 (fun m => by
        rw [slots, htrunc]
        split_ifs with h0
        · rfl
        · exact slots_empty rfl m) rfl rfl
    obtain ⟨hdisk4, htable4, hnodes4⟩ := hempty
    have hv4 : s4.view = updateView sb s2.view n { truncated (dino sb s.view n) with type := 0 } := by
      rw [hs4]
      show updateView sb s3.view n _ = _
      rw [hv3]
    have hm4 : s4.mem = s3.mem := by rw [hs4]; rfl
    have houter4 : Outer s2 s4 := by
      rw [hs4, ← hs3]
      exact ⟨rfl, rfl, rfl, rfl, rfl, rfl⟩
    constructor
    · have houter1 : Outer s s1 := by rw [← hs1]; exact outer_setInode
      exact ((houter1.trans houter2).trans houter4).trans outer_setInode
    · show Disk sb s4.view
      rw [hv4]; exact hdisk4
    · show nodes sb s4.view = _
      rw [hv4, hnodes4, hc.nodes, update_idem, hv1]
      rfl
    · intro j hj
      show dino sb s4.view j = _
      rw [hv4, htable4, update_of_ne hj, hc.table j hj, hv1]
    · rw [setInode_same, hm4]
      exact hk3.2.2
    · intro l hl
      rw [setInode_ne hl, hm4, ← hs3, setInode_ne hl, changes_other hc hl, ← hs1, setInode_ne hl]

/-- The next `iput` of slot `k` frees its inode. -/
def Reclaims (H : Fin NINODE → Nat) (s : LState) (k : Fin NINODE) : Prop :=
  H k = 1 ∧ (s.mem.icache k).valid = true ∧ (s.mem.icache k).din.nlink = 0

/-- The state after a reference to slot `k` has been dropped. -/
structure Released (sb : Superblock) (N : Prop) (H : Fin NINODE → Nat) (s : LState)
    (k : Fin NINODE) (s' : LState) : Prop where
  outer : Outer s s'
  disk : Disk sb s'.view
  cache : Cache sb N (drop H k) s'
  keep : Keep (drop H k) s s'
  effect : (¬ Reclaims H s k ∧ s'.view = s.view ∧ s'.lh = s.lh) ∨ (Reclaims H s k ∧
      nodes sb s'.view = update (nodes sb s.view) (s.mem.icache k).inum none)

/-- Dropping a reference without freeing. -/
theorem released_ref (hd : Disk sb s.view) (h : Cache sb N H s) (hk : 0 < H k) (hno : ¬ Reclaims H s k) :
    Released sb N H s k (setInode s k { s.mem.icache k with ref := (s.mem.icache k).ref - 1 }) := by
  refine ⟨outer_setInode, hd, ?_, ?_, .inl ⟨hno, rfl, rfl⟩⟩
  · refine cache_touch h hk (fun l hl => drop_of_ne hl) ?_ rfl rfl (fun _ => h.sync k hk)
    show (s.mem.icache k).ref - 1 = (drop H k k : Nat)
    rw [drop_self, h.refs k]
    omega
  · intro l _
    by_cases hl : l = k
    · subst hl; rw [setInode_same]; rfl
    · rw [setInode_ne hl]

/-- The cache after the last reference to a freed inode is gone. -/
theorem released_freed (h : Cache sb N H s) (hr : Reclaims H s k) (hf : Freed sb s k (s.mem.icache k).inum s') :
    Released sb N H s k (setInode s' k { s'.mem.icache k with ref := (s'.mem.icache k).ref - 1 }) := by
  have hk1 : H k = 1 := hr.1
  have hk : 0 < H k := by omega
  have hzero : drop H k k = 0 := by rw [drop_self, hk1]
  have hold : ∀ l, 0 < drop H k l → 0 < H l ∧ (s.mem.icache l).inum ≠ (s.mem.icache k).inum ∧
      (setInode s' k { s'.mem.icache k with ref := (s'.mem.icache k).ref - 1 }).mem.icache l = s.mem.icache l := by
    intro l hl
    have hlk : l ≠ k := by
      rintro rfl
      omega
    refine ⟨pos_of_drop hl, ?_, ?_⟩
    · exact fun heq => hlk (h.uniq l k (pos_of_drop hl) hk heq)
    · rw [setInode_ne hlk, hf.other l hlk]
  refine ⟨hf.outer.trans outer_setInode, hf.disk, ?_, ?_, .inr ⟨hr, hf.nodes⟩⟩
  · constructor
    · intro l
      by_cases hl : l = k
      · subst hl
        rw [setInode_same, hzero]
        rw [hf.slot, h.refs l, hk1]
        rfl
      · rw [setInode_ne hl, hf.other l hl, drop_of_ne hl]
        exact h.refs l
    · intro l hl
      obtain ⟨h0, _, e⟩ := hold l hl
      rw [e]; exact h.dev l h0
    · intro l hl
      obtain ⟨h0, _, e⟩ := hold l hl
      rw [e]; exact h.range l h0
    · intro l m hl hm heq
      obtain ⟨h0, _, e⟩ := hold l hl
      obtain ⟨h0', _, e'⟩ := hold m hm
      rw [e, e'] at heq
      exact h.uniq l m h0 h0' heq
    · intro l hl hv
      obtain ⟨h0, hin, e⟩ := hold l hl
      rw [e] at hv ⊢
      rw [setInode_view, hf.table _ hin]
      exact h.sync l h0 hv
    · intro hN l hl
      obtain ⟨h0, hin, e⟩ := hold l hl
      rw [e, setInode_view, hf.table _ hin]
      exact h.live hN l h0
  · intro l hl
    rw [(hold l hl).2.2]

theorem Cache.table (h : Cache sb N H s) (hic : s'.mem.icache = s.mem.icache)
    (htable : ∀ j, (dino sb s.view j).type ≠ 0 → dino sb s'.view j = dino sb s.view j) : Cache sb N H s' := by
  constructor
  · rw [hic]; exact h.refs
  · rw [hic]; exact h.dev
  · rw [hic]; exact h.range
  · rw [hic]; exact h.uniq
  · intro l hl hv
    rw [hic] at hv ⊢
    obtain ⟨h1, h2⟩ := h.sync l hl hv
    rw [htable _ (h1 ▸ h2)]
    exact ⟨h1, h2⟩
  · intro hN l hl
    have h1 := h.live hN l hl
    rw [hic, htable _ h1]
    exact h1

section

variable (hsb : s.mem.sb = sb) (hd : Disk sb s.view) (h : Cache sb N H s) (hk : 0 < H k)
  (hW : Reclaims H s k → (∀ b, b < sb.size → BBLOCK b sb ∈ W) ∧ IBLOCK (s.mem.icache k).inum sb ∈ W)
include hsb hd h hk hW

/-- The rest of `iput`, after its first point. -/
theorem iputDrop_does : Does W N (fun _ s' => Released sb N H s k s')
      (iputMaybeFree k >>= fun _ => modInode k fun i => { i with ref := i.ref - 1 }) s := by
  by_cases hfree : Reclaims H s k
  · obtain ⟨hW1, hW2⟩ := hW hfree
    have ⟨hk1, hv, hlink⟩ := hfree
    obtain ⟨hdin, htype⟩ := h.sync k hk hv
    rw [hdin] at htype
    refine does_seq (R := fun _ s' => Freed sb s k (s.mem.icache k).inum s') ?_ ?_
    · refine does_getInode ?_
      rw [if_pos ⟨by rw [h.refs k, hk1]; rfl, hv, hlink⟩]
      exact iputFree_does hsb hd rfl hdin.symm (if_neg htype) hW1 hW2
    · intro _ s1 hf
      exact does_last (does_modInode (does_pure (released_freed h hfree hf)))
  · refine does_seq (R := fun _ s' => s' = s) ?_ ?_
    · refine does_getInode ?_
      rw [if_neg]
      · exact does_pure rfl
      · rintro ⟨h1, h2, h3⟩
        refine hfree ⟨?_, h2, h3⟩
        rw [h.refs k] at h1
        exact_mod_cast h1
    · rintro _ s1 rfl
      exact does_last (does_modInode (does_pure (released_ref hd h hk hfree)))

/-- **`iput`** drops a reference, and frees the inode with the last one if it has no
    links. -/
theorem iput_does : Does W N (fun _ s' => Released sb N H s k s') (iput k) s := by
  refine does_point ?_
  have hcache : Cache sb N H (pass s .iput) := h.table rfl fun _ _ => rfl
  refine does_mono (iputDrop_does (s := pass s .iput) hsb hd hcache hk hW) ?_
  intro _ s' hr
  have ho := hr.outer
  exact ⟨⟨ho.ftable, ho.ptable, ho.pipes, ho.sb, ho.outstanding, ho.logSize⟩, hr.disk, hr.cache, hr.keep, hr.effect⟩

end

/-! ## `ialloc` -/

/-- Inode `n` is the one that `ialloc` finds. -/
structure FirstFree (sb : Superblock) (v : Nat → Block) (n : Nat) : Prop where
  pos : 1 ≤ n
  lt : n < sb.ninodes
  free : (dino sb v n).type = 0
  first : ∀ j, 1 ≤ j → j < n → (dino sb v j).type ≠ 0

/-- The state after inode `n` has been allocated and got in slot `k`. -/
structure Allocated (sb : Superblock) (N : Prop) (H : Fin NINODE → Nat) (s : LState)
    (type : Int16) (n : Nat) (k : Fin NINODE) (s' : LState) : Prop where
  outer : Outer s s'
  disk : Disk sb s'.view
  cache : Cache sb N (bump H k) s'
  keep : Keep H s s'
  inum : (s'.mem.icache k).inum = n
  first : FirstFree sb s.view n
  nodes : nodes sb s'.view = update (nodes sb s.view) n
    (some ⟨type, 0, 0, 0, 0, fun _ => 0⟩)

/-- A free inode is written: no slot in use has a copy of it. -/
theorem cache_ialloc (hd : Disk sb s.view) (h : Cache sb N H s) (h1 : 1 ≤ n) (h2 : n < sb.ninodes)
    (hfree : (dino sb s.view n).type = 0) {d : Dinode} (haddrs : d.addrs = fun _ => 0) (hsize : d.size = 0)
    (hview : s'.view = updateView sb s.view n d) (hmem : s'.mem = s.mem) : Cache sb N H s' := by
  obtain ⟨-, htable, -⟩ := disk_empty hd h1 h2 (fun k => by rw [slots, if_pos hfree]) haddrs hsize
  refine h.table (by rw [hmem]) fun j hj => ?_
  have hjn : j ≠ n := by
    rintro rfl
    exact hj hfree
  rw [hview, htable, update_of_ne hjn]

theorem iallocLoop_does (hd : Disk sb s.view) (h : Cache sb N H s)
    {type : Int16} (htype : type ≠ 0) (hW : ∀ n, FirstFree sb s.view n → IBLOCK n sb ∈ W) :
    ∀ r n, 1 ≤ n → (∀ j, 1 ≤ j → j < n → (dino sb s.view j).type ≠ 0) →
    Does W N (fun k s' => ∃ n, Allocated sb N H s type n k s') (iallocLoop ROOTDEV sb type r n) s := by
  intro r
  induction r with
  | zero => intro n _ _; exact does_kpanic (by decide)
  | succ r ih =>
    intro n hn hfull
    rw [iallocLoop]
    split_ifs with hlt
    · refine does_bread fun _ => ?_
      have hdino : getDinode (s.view (IBLOCK n sb)) (n % IPB) = dino sb s.view n :=
        (dino_of_range hn hlt).symm
      rw [hdino]
      split_ifs with hfree
      · have hfirst : FirstFree sb s.view n := ⟨hn, hlt, hfree, hfull⟩
        refine does_input fun t => does_bstore (does_logWrite (hW n hfirst) (does_brelse ?_))
        obtain ⟨hdisk, htable, hnodes⟩ := disk_empty
          (d := { Dinode.zero with type := type, mtime := t }) hd hn hlt
          (fun k => by rw [slots, if_pos hfree]) rfl rfl
        rw [if_neg (show ({ Dinode.zero with type := type, mtime := t } : Dinode).type ≠ 0 from htype)]
          at hnodes
        generalize hS : log (put _ _ _) _ = S
        have hview : S.view = updateView sb s.view n { Dinode.zero with type := type, mtime := t } := by
          rw [← hS]; rfl
        have hmem : S.mem = s.mem := by rw [← hS]; rfl
        have hcache : Cache sb N H S := cache_ialloc hd h hn hlt hfree rfl rfl hview hmem
        refine does_mono (iget_does hcache hn hlt fun _ => ?_) ?_
        · rw [hview, htable, update_self]
          exact htype
        · intro k s' hg
          have houter : Outer s S := by
            rw [← hS]
            exact ⟨rfl, rfl, rfl, rfl, rfl, rfl⟩
          have hview' : s'.view = S.view := by rw [hg.state, setInode_view]
          refine ⟨n, houter.trans ?_, ?_, hg.cache, ?_, hg.inum, hfirst, ?_⟩
          · rw [hg.state]; exact outer_setInode
          · rw [hview', hview]; exact hdisk
          · intro l hl
            rw [hg.keep l hl, hmem]
          · rw [hview', hview, hnodes]
            rfl
      · refine does_brelse (ih (n + 1) (by omega) ?_)
        intro j hj1 hj2
        by_cases hjn : j = n
        · rw [hjn]; exact hfree
        · exact hfull j hj1 (by omega)
    · exact does_kpanic (by decide)

/-- **`ialloc`** takes the first free inode. -/
theorem ialloc_does (hsb : s.mem.sb = sb) (hd : Disk sb s.view) (h : Cache sb N H s)
    {type : Int16} (htype : type ≠ 0) (hW : ∀ n, FirstFree sb s.view n → IBLOCK n sb ∈ W) :
    Does W N (fun k s' => ∃ n, Allocated sb N H s type n k s') (ialloc ROOTDEV type) s := by
  refine does_getSb ?_
  rw [hsb]
  refine iallocLoop_does hd h htype hW _ 1 (le_refl 1) ?_
  intro j h1 h2
  omega

end Change

end Xv6Inode
