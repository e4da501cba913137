import Xv6.ByteArrayProofs
import Xv6.PathWalkProofs

/-!
# Path walks come to their end

`Runs p s Q` says that `p` finishes from `s`, with a result and a state that satisfy `Q`. What the cache
operations, `dirlookup` and `namex` do when they finish is known from `Does`; here they are shown to finish: with
a slot for the inode that is looked up, on slots that nobody has locked, in directories of whole entries.
-/

namespace Xv6World

open CmdProg ByteBuf Xv6Disk Xv6Kernel Xv6Fs Xv6Layout Xv6Own Xv6Inode Xv6Total UInt32

/-- The code finishes, and then `Q` holds. -/
def Runs {α : Type} (p : K α) (s : LState) (Q : α → LState → Prop) : Prop :=
  ∃ a s', exec p s = .done a s' ∧ Q a s'

section Rules

variable {α β : Type} {p : K α} {f : α → K β} {s : LState} {Q R : α → LState → Prop} {W : Set Nat} {N : Prop}

theorem runs_pure {a : α} (h : Q a s) : Runs (pure a) s Q := ⟨a, s, rfl, h⟩

theorem runs_mono (h : Runs p s R) (hQ : ∀ a s', R a s' → Q a s') : Runs p s Q := by
  obtain ⟨a, s', hr, h⟩ := h
  exact ⟨a, s', hr, hQ a s' h⟩

theorem runs_seq {Q : β → LState → Prop} (hp : Runs p s R) (hf : ∀ a s', R a s' → Runs (f a) s' Q) :
    Runs (p >>= f) s Q := by
  obtain ⟨a, s1, hr, h⟩ := hp
  obtain ⟨b, s2, hr2, h2⟩ := hf a s1 h
  exact ⟨b, s2, exec_bind_done.mpr ⟨a, s1, hr, hr2⟩, h2⟩

theorem runs_getInode {k : Fin NINODE} {f : Inode → K β} {Q : β → LState → Prop}
    (h : Runs (f (s.mem.icache k)) s Q) : Runs (getInode k >>= f) s Q := h

theorem runs_getSb {f : Superblock → K β} {Q : β → LState → Prop} (h : Runs (f s.mem.sb) s Q) :
    Runs (getSb >>= f) s Q := h

theorem runs_modInode {k : Fin NINODE} {g : Inode → Inode} {f : Unit → K β} {Q : β → LState → Prop}
    (h : Runs (f ()) (setInode s k (g (s.mem.icache k))) Q) : Runs (modInode k g >>= f) s Q := h

theorem runs_point {e : Point} {f : Unit → K β} {Q : β → LState → Prop} (h : Runs (f ()) (pass s e) Q) :
    Runs (point e >>= f) s Q := h

theorem runs_brelse {b : Nat} {f : Unit → K β} {Q : β → LState → Prop} (h : Runs (f ()) s Q) :
    Runs (brelse b >>= f) s Q := h

theorem runs_bread {b : Nat} {f : Block → K β} {Q : β → LState → Prop} (hb : b < FSSIZE)
    (h : Runs (f (s.view b)) s Q) : Runs (bread b >>= f) s Q := by
  obtain ⟨a, s', hr, hq⟩ := h
  exact ⟨a, s', exec_bind_done.mpr ⟨_, s, exec_bread_done.mpr ⟨hb, rfl, rfl⟩, hr⟩, hq⟩

/-- Code in last position. -/
theorem runs_last (h : Runs (p >>= pure) s Q) : Runs p s Q := by
  obtain ⟨a, s', hr, hq⟩ := h
  obtain ⟨b, s1, h1, h2⟩ := exec_bind_done.mp hr
  cases h2
  exact ⟨_, _, h1, hq⟩

/-- What code does when it finishes holds of code that finishes. -/
theorem runs_does (h : Runs p s R) (hd : Does W N Q p s) : Runs p s fun a s' => R a s' ∧ Q a s' := by
  obtain ⟨a, s', hr, h⟩ := h
  exact ⟨a, s', hr, h, does_exec hd hr⟩

end Rules

/-! ## Slots -/

section Slots

variable {sb : Superblock} {N : Prop} {H : Fin NINODE → Nat} {s : LState} {k : Fin NINODE} {n : Nat}

/-- There is a slot for inode `n`: its own or an unused one. -/
def SlotFor (H : Fin NINODE → Nat) (s : LState) (n : Nat) : Prop :=
  (∃ k, 0 < H k ∧ (s.mem.icache k).inum = n) ∨ ∃ k, H k = 0

/-- Nobody has locked a slot in use. -/
def Unlocked (H : Fin NINODE → Nat) (s : LState) : Prop :=
  ∀ k, 0 < H k → (s.mem.icache k).busy = false

theorem iget_runs (h : Cache sb N H s) (h1 : 1 ≤ n) (h2 : n < sb.ninodes)
    (hlive : ¬ N → (dino sb s.view n).type ≠ 0) (hslot : SlotFor H s n) : Runs (iget ROOTDEV n) s fun k s' =>
      (H k = 0 → (s'.mem.icache k).busy = false) ∧ Got sb N H s n k s' := by
  refine runs_does (W := ∅) ?_ (iget_does h h1 h2 hlive)
  rw [Runs, iget, exec_getMem]
  cases hfind : firstIdx (fun k : Fin NINODE => decide (0 < (s.mem.icache k).ref) &&
      decide ((s.mem.icache k).dev = ROOTDEV) && decide ((s.mem.icache k).inum = n)) with
  | some k =>
    have hk := firstIdx_some hfind
    simp only [Bool.and_eq_true, decide_eq_true_eq] at hk
    refine ⟨k, _, rfl, fun h0 => ?_⟩
    have href := hk.1.1
    rw [h.refs k, h0] at href
    exact absurd href (by decide)
  | none =>
    dsimp only
    cases hfree : firstIdx (fun k : Fin NINODE => decide ((s.mem.icache k).ref = 0)) with
    | some k => exact ⟨k, _, rfl, fun _ => congrArg Inode.busy setInode_same⟩
    | none =>
      rcases hslot with ⟨k, hk, hinum⟩ | ⟨k, hk⟩
      · have hno := firstIdx_none hfind k
        rw [h.refs k, h.dev k hk, hinum] at hno
        simp at hno
        omega
      · have hno := firstIdx_none hfree k
        rw [h.refs k, hk] at hno
        cases hno

/-- The half of `ilock` that reads the inode. -/
theorem ilockRead_runs (hl : Layout sb) (hsb : s.mem.sb = sb) (h1 : 1 ≤ (s.mem.icache k).inum)
    (h2 : (s.mem.icache k).inum < sb.ninodes) (hlive : (dino sb s.view (s.mem.icache k).inum).type ≠ 0) :
    Runs (ilockRead k) s fun _ _ => True := by
  refine runs_getInode ?_
  split_ifs with hv
  · exact runs_pure trivial
  · refine runs_getSb ?_
    have hblock : IBLOCK (s.mem.icache k).inum sb < FSSIZE := by
      have h3 := iblock_lt hl h2
      have h4 : sb.bmapstart < datastart sb := bmapstart_lt_datastart
      have h5 := hl.data
      have h6 := hl.disk
      omega
    rw [hsb]
    refine runs_bread hblock (runs_modInode (runs_brelse (runs_modInode ?_)))
    rw [dino_of_range h1 h2] at hlive
    rw [if_neg hlive]
    exact runs_pure trivial

theorem ilock_locks (hN : ¬ N) (hl : Layout sb) (hsb : s.mem.sb = sb) (h : Cache sb N H s) (hk : 0 < H k)
    (hb : (s.mem.icache k).busy = false) :
    Runs (ilock k) s fun _ s' => s' = setInode s k (locked sb s.view (s.mem.icache k)) ∧ Cache sb N H s' := by
  obtain ⟨h1, h2⟩ := h.range k hk
  have hend : Runs (ilock k) s fun _ _ => True := by
    refine runs_getInode ?_
    have href : ¬ (s.mem.icache k).ref < 1 := by rw [h.refs k]; omega
    rw [if_neg href, hb]
    refine runs_modInode (ilockRead_runs hl hsb ?_ ?_ ?_)
    · rw [setInode_same]; exact h1
    · rw [setInode_same]; exact h2
    · rw [setInode_same]; exact h.live hN k hk
  refine runs_mono (runs_does hend (ilock_does (W := ∅) hsb h hk)) ?_
  rintro _ s' ⟨-, hs, -, -, hc⟩
  exact ⟨hs, hc⟩

theorem ilock_runs (hN : ¬ N) (h : World sb N H s) (hk : 0 < H k) (hb : (s.mem.icache k).busy = false) :
    Runs (ilock k) s fun _ s' => s' = setInode s k (locked sb s.view (s.mem.icache k)) ∧
      World sb N H s' ∧ Still H s s' ∧ ∃ x, At sb s' k (s.mem.icache k).inum x := by
  refine runs_mono (runs_does (ilock_locks hN h.disk.layout h.super h.cache hk hb) (ilock_world (W := ∅) h hk)) ?_
  rintro _ s' ⟨⟨hs, -⟩, hw, hst, -, -, hat⟩
  exact ⟨hs, hw, hst, hat⟩

theorem iunlock_runs (h : World sb N H s) (hk : 0 < H k) (hb : (s.mem.icache k).busy = true) :
    Runs (iunlock k) s fun _ s' => s' = setInode s k { s.mem.icache k with busy := false } ∧
      World sb N H s' ∧ Still H s s' := by
  have hend : Runs (iunlock k) s fun _ _ => True := by
    refine runs_getInode ?_
    have href : ¬ ((s.mem.icache k).busy = false ∨ (s.mem.icache k).ref < 1) := by
      rw [hb, h.cache.refs k]
      rintro (hf | hlt)
      · cases hf
      · omega
    rw [if_neg href]
    exact runs_last (runs_modInode (runs_pure trivial))
  refine runs_mono (runs_does (runs_does hend (iunlock_does (W := ∅) h.cache hk))
    (iunlock_world (W := ∅) h hk)) ?_
  rintro _ s' ⟨⟨-, hs, -⟩, hw, hst⟩
  exact ⟨hs, hw, hst⟩

/-- `iput` of a reference that does not free the inode. -/
theorem iput_runs (h : World sb N H s) (hk : 0 < H k) (hheld : Held sb (drop H k) s) :
    Runs (iput k) s fun _ s' => World sb N (drop H k) s' ∧ Still (drop H k) s s' ∧ Keep (drop H k) s s' := by
  have hno := hheld.quiet h hk
  have hend : Runs (iput k) s fun _ _ => True := by
    refine runs_point (runs_seq (R := fun _ _ => True) ?_ fun _ s1 _ => ?_)
    · refine runs_getInode ?_
      have href : ¬ ((s.mem.icache k).ref = 1 ∧ (s.mem.icache k).valid = true ∧ (s.mem.icache k).din.nlink = 0) := by
        rintro ⟨h1, hv, hl⟩
        rw [h.cache.refs k] at h1
        exact hno ⟨by omega, hv, hl⟩
      show Runs (if (s.mem.icache k).ref = 1 ∧ (s.mem.icache k).valid = true ∧
        (s.mem.icache k).din.nlink = 0 then iputFree k else pure ()) (pass s .iput) _
      rw [if_neg href]
      exact runs_pure trivial
    · exact runs_last (runs_modInode (runs_pure trivial))
  have hdoes := iput_does (W := ∅) h.super h.disk h.cache hk fun hr => absurd hr hno
  refine runs_mono (runs_does (runs_does hend hdoes) (iput_quiet (W := ∅) h hk hheld)) ?_
  rintro _ s' ⟨⟨-, hr⟩, hw, hst⟩
  exact ⟨hw, hst, hr.keep⟩

/-- `iunlockput` of a slot that is locked: the slots that stay in use are as before, but for the lock. -/
theorem iunlockput_runs (h : World sb N H s) (hk : 0 < H k) (hb : (s.mem.icache k).busy = true)
    (hheld : Held sb (drop H k) s) :
    Runs (iunlockput k) s fun _ s' => World sb N (drop H k) s' ∧ Still (drop H k) s s' ∧
      ∀ l, 0 < drop H k l → (s'.mem.icache l).busy = (if l = k then false else (s.mem.icache l).busy) := by
  refine runs_seq (iunlock_runs h hk hb) ?_
  rintro _ s1 ⟨hs1, hw, hs⟩
  have hheld1 : Held sb (drop H k) s1 :=
    hheld.frame (hs.toFrame.mono fun _ => pos_of_drop) hs.view fun _ hl => hl
  refine runs_mono (iput_runs hw hk hheld1) ?_
  rintro _ s2 ⟨hw2, hs2, hkeep⟩
  refine ⟨hw2, (hs.mono fun _ => pos_of_drop).trans hs2, fun l hl => ?_⟩
  rw [hkeep.busy hl, hs1]
  split
  · next hlk =>
    rw [hlk, setInode_same]
  · next hlk =>
    rw [setInode_ne hlk]

end Slots

/-! ## `dirlookup` -/

section Lookup

variable {sb : Superblock} {N : Prop} {H : Fin NINODE → Nat} {s : LState} {dp : Fin NINODE} {d k : Nat}
  {x : Node} {name : List UInt8}

/-- A whole entry is read. -/
theorem readEntry_runs (hd : Disk sb s.view) (hsb : s.mem.sb = sb) (hat : At sb s dp d x) (hx : x.type = T_DIR)
    (hk : 16 * k + 16 ≤ x.size) :
    Runs (readi dp (ofNat (16 * k)) 16) s fun r s' => s' = s ∧ r.1 = 16 ∧ direntOf r.2 = x.entry k := by
  have hends := readi_ends keeps_none hd.layout hd.own (hd.whole d) hsb hat.din.symm hat.alloc (hat.notDev hx)
    (ofNat (16 * k)) 16
  obtain ⟨r, s', hrun, -⟩ := hends trivial
  obtain ⟨rfl, hentry⟩ := does_exec (readEntry_does (W := ∅) (N := False) hd hat hx (by omega)) hrun
  have hdoes : Does ∅ False (fun r s1 => s1 = s' ∧ r = readResult s'.view (dino sb s'.view) d
      (ofNat (16 * k)) 16) (readi dp (ofNat (16 * k)) 16) s' :=
    readi_does hat.din.symm hat.alloc (hat.notDev hx) (hd.whole d)
  have hres := (does_exec hdoes hrun).2
  have hsize : (dino sb s'.view d).size.toNat = x.size := by rw [← hat.din]; exact hat.size
  have hmax := ((hd.whole d) hat.alloc (hat.notDev hx)).1
  have hlim : MAXFILE * BSIZE + 16 < 2 ^ 32 := by decide
  have hoff : (ofNat (16 * k)).toNat = 16 * k := by
    rw [toNat_ofNat']
    omega
  have h16 : r.1 = 16 := by
    have hle : (ofNat (16 * k)).toNat ≤ (dino sb s'.view d).size.toNat := by omega
    have hsum : (ofNat (16 * k)).toNat + (16 : UInt32).toNat < 2 ^ 32 := by
      rw [hoff]
      show 16 * k + 16 < 2 ^ 32
      omega
    have hfit : ¬ ((dino sb s'.view d).size < ofNat (16 * k) ∨ ofNat (16 * k) + 16 < ofNat (16 * k)) := by
      rw [UInt32.lt_iff_toNat_lt, UInt32.lt_iff_toNat_lt, UInt32.toNat_add, Nat.mod_eq_of_lt hsum]
      omega
    rw [readResult, if_neg hfit] at hres
    rw [hres]
    rw [readLen_toNat hle hsum, hoff, hsize]
    show ((min 16 (x.size - 16 * k) : Nat) : Int) = 16
    omega
  exact ⟨r, s', hrun, rfl, h16, (hentry h16).2⟩

theorem dirlookupLoop_runs (hd : Disk sb s.view) (hsb : s.mem.sb = sb) (h : Cache sb N H s) (hdp : 0 < H dp)
    (hat : At sb s dp d x) (hx : x.type = T_DIR) (hok : DirOk sb x) (hsize : 16 ∣ x.size)
    (hlive : ¬ N → ∀ k, k < x.entries → (x.entry k).inum ≠ 0 →
      (dino sb s.view (x.entry k).inum.toNat).type ≠ 0) : ∀ r k, x.entries ≤ k + r →
    (∀ m, x.lookupFrom name k = some m → SlotFor H s (x.entry m).inum.toNat) → Runs (dirlookupLoop dp name r (16 * k)) s
      fun r s' => ∀ y, r = some y → H y.1 = 0 → (s'.mem.icache y.1).busy = false := by
  intro r
  induction r with
  | zero => intro k _ _; exact runs_pure nofun
  | succ r ih =>
    intro k hr hslot
    refine runs_getInode ?_
    rw [hat.size, h.dev dp hdp]
    by_cases hlt : 16 * k < x.size
    · rw [if_pos hlt]
      have hk : k < x.entries := by rw [Node.entries]; omega
      refine runs_seq (readEntry_runs hd hsb hat hx (by omega)) ?_
      rintro r1 s1 ⟨rfl, h16, hent⟩
      rw [if_neg (not_not.mpr h16), hent]
      have hnext : 16 * k + 16 = 16 * (k + 1) := by omega
      split
      · next h0 =>
        refine ih (k + 1) (by omega) fun m hm => hslot m ?_
        rw [lookupFrom_miss hk (by simp [Node.hasName, h0]), hm]
      · next h0 =>
        by_cases hn : namecmp name (List.ofFn (x.entry k).name) = 0
        · rw [if_pos hn]
          have hpos : 1 ≤ (x.entry k).inum.toNat := Nat.pos_of_ne_zero fun hz => h0 (UInt16.toNat.inj hz)
          have hhit : x.lookupFrom name k = some k := lookupFrom_hit hk (by simp [Node.hasName, h0, hn])
          refine runs_seq (iget_runs h hpos (hok k hk) (fun hN => hlive hN k hk h0) (hslot k hhit)) ?_
          rintro l s2 ⟨hbusy, -⟩
          refine runs_pure fun y hy => ?_
          cases hy
          exact hbusy
        · rw [if_neg hn, hnext]
          refine ih (k + 1) (by omega) fun m hm => hslot m ?_
          rw [lookupFrom_miss hk (by simp [Node.hasName, hn]), hm]
    · rw [if_neg hlt]
      exact runs_pure nofun

/-- **`dirlookup`** finishes if there is a slot for the inode it finds. -/
theorem dirlookup_runs (h : World sb N H s) (hdp : 0 < H dp) (hat : At sb s dp d x) (hx : x.type = T_DIR)
    (hsize : 16 ∣ x.size) (hslot : ∀ m, x.lookup name = some m → SlotFor H s (x.entry m).inum.toNat) :
    Runs (dirlookup dp name) s fun r s' => Found sb N H s x name r s' ∧
      ∀ y, r = some y → H y.1 = 0 → (s'.mem.icache y.1).busy = false := by
  have hrun : Runs (dirlookup dp name) s
      fun r s' => ∀ y, r = some y → H y.1 = 0 → (s'.mem.icache y.1).busy = false := by
    refine runs_getInode ?_
    rw [hat.type, hat.size, if_neg (not_not.mpr hx)]
    refine dirlookupLoop_runs h.disk h.super h.cache hdp hat hx (h.dirs d x hat.node hx) hsize ?_
      (x.size / 16 + 1) 0 ?_ hslot
    · intro hN m hm h0 htype
      exact (h.sound hN).named d m _ ⟨x, hat.node, hx, hm, h0, rfl⟩ (nodesOf_none.mpr htype)
    · rw [Node.entries]
      omega
  refine runs_mono (runs_does hrun (dirlookup_world (W := ∅) h hdp hat)) ?_
  rintro r s' ⟨hbusy, -, hfound⟩
  exact ⟨hfound, hbusy⟩

end Lookup

/-! ## `namex` -/

section Walk

variable {sb : Superblock} {N : Prop} {H : Fin NINODE → Nat} {s : LState}

/-- Directories consist of whole entries. -/
def WholeEntries (sb : Superblock) (v : Nat → Block) : Prop :=
  ∀ d x, nodes sb v d = some x → x.type = T_DIR → 16 ∣ x.size

/-- Two slots of the cache are unused. -/
def TwoSpare (H : Fin NINODE → Nat) : Prop := ∃ k l, k ≠ l ∧ H k = 0 ∧ H l = 0

theorem TwoSpare.bump (h : TwoSpare H) (k : Fin NINODE) : ∃ l, Xv6Inode.bump H k l = 0 := by
  obtain ⟨a, b, hab, ha, hb⟩ := h
  by_cases hk : a = k
  · exact ⟨b, by rw [bump_of_ne (fun hbk => hab (hk.trans hbk.symm))]; exact hb⟩
  · exact ⟨a, by rw [bump_of_ne hk]; exact ha⟩

/-- The loop of `namex` finishes: each round has a slot for the next inode, and leaves no lock behind. -/
theorem namexLoop_runs (hN : ¬ N) (hspare : TwoSpare H) {parent : Bool} :
    ∀ (r : Nat) (ip : Fin NINODE) (path name : List UInt8) (s : LState), path.length < r →
    World sb N (bump H ip) s → Held sb H s → WholeEntries sb s.view → Unlocked (bump H ip) s →
    Runs (namexLoop parent r ip path name) s fun r s' => ∀ y, r = some y → Unlocked (bump H y.1) s' := by
  intro r
  induction r with
  | zero => intro _ path _ _ hr; exact absurd hr (Nat.not_lt_zero _)
  | succ r ih =>
    intro ip path name s hr hw hheld hwhole hfree
    have hip : 0 < bump H ip ip := bump_pos
    have hback : ∀ l, 0 < H l → 0 < bump H ip l := fun _ => bump_pos_of_pos
    rw [namexLoop]
    cases hskip : skipelem path with
    | none =>
      cases parent with
      | true =>
        exact runs_seq (iput_runs hw hip (by rw [drop_bump]; exact hheld)) fun _ _ _ =>
          runs_pure (by rintro _ ⟨⟩)
      | false =>
        refine runs_pure fun y hy => ?_
        cases hy
        exact hfree
    | some e =>
      obtain ⟨name', rest⟩ := e
      refine runs_seq (ilock_runs hN hw hip (hfree ip hip)) ?_
      rintro _ s1 ⟨hs1, hw1, hst1, x, hat⟩
      have hbusy1 : ∀ l, 0 < bump H ip l → (s1.mem.icache l).busy = decide (l = ip) := by
        intro l hl
        rw [hs1]
        by_cases hlk : l = ip
        · rw [hlk, setInode_same, decide_eq_true rfl]
          rfl
        · rw [setInode_ne hlk, hfree l hl, decide_eq_false hlk]
      have hlock1 : (s1.mem.icache ip).busy = true := (hbusy1 ip hip).trans (decide_eq_true rfl)
      have hheld1 : Held sb H s1 := hheld.frame (hst1.toFrame.mono hback) hst1.view fun _ hl => hl
      refine runs_getInode ?_
      rw [hat.type]
      have hgiveup : Runs (iunlockput ip >>= fun _ => (pure none : K (Option (Fin NINODE × List UInt8))))
          s1 fun r s' => ∀ y, r = some y → Unlocked (bump H y.1) s' :=
        runs_seq (iunlockput_runs hw1 hip hlock1 (by rw [drop_bump]; exact hheld1)) fun _ _ _ =>
          runs_pure (by rintro _ ⟨⟩)
      split_ifs with hdir hstop
      · exact hgiveup
      · refine runs_seq (iunlock_runs hw1 hip hlock1) ?_
        rintro _ s2 ⟨hs2, -⟩
        refine runs_pure fun y hy l hl => ?_
        cases hy
        rw [hs2]
        by_cases hlk : l = ip
        · rw [hlk, setInode_same]
        · rw [setInode_ne hlk, hbusy1 l hl, decide_eq_false hlk]
      · have hx16 : 16 ∣ x.size :=
          hwhole _ x (by rw [← hst1.view]; exact hat.node) (not_not.mp hdir)
        refine runs_seq (dirlookup_runs hw1 hip hat (not_not.mp hdir) hx16
          fun m _ => .inr (hspare.bump ip)) ?_
        rintro (_ | next) s2 ⟨hfound, hnew⟩
        · obtain ⟨rfl, -⟩ := hfound
          exact hgiveup
        · obtain ⟨m, -, -, -, hw2, hst2, hkeep2⟩ := hfound
          have hst12 : Still H s s2 := (hst1.trans hst2).mono hback
          have hheld2 : Held sb (bump H next.1) s2 :=
            hheld.frame hst12.toFrame hst12.view fun _ => bump_pos_of_pos
          have hbusy2 : ∀ l, 0 < bump (bump H ip) next.1 l → (s2.mem.icache l).busy = decide (l = ip) := by
            intro l hl
            by_cases hl0 : 0 < bump H ip l
            · rw [hkeep2.busy hl0, hbusy1 l hl0]
            · -- the slot has just been taken
              have hln : l = next.1 := by
                by_contra hne
                rw [bump_of_ne hne] at hl
                exact hl0 hl
              have hne : l ≠ ip := fun h => hl0 (h ▸ hip)
              rw [decide_eq_false hne, hln]
              exact hnew next rfl (by rw [← hln]; omega)
          have hlock2 : (s2.mem.icache ip).busy = true :=
            (hbusy2 ip (bump_pos_of_pos hip)).trans (decide_eq_true rfl)
          refine runs_seq (iunlockput_runs hw2 (bump_pos_of_pos hip) hlock2 (by rw [drop_bump_bump]; exact hheld2)) ?_
          rintro _ s3 ⟨hw3, hst3, hbusy3⟩
          rw [drop_bump_bump] at hw3 hst3 hbusy3
          have hst13 : Still H s s3 := hst12.trans (hst3.mono fun _ => bump_pos_of_pos)
          have hlen := skipelem_length hskip
          refine ih next.1 rest name' s3 (by omega) hw3 (hheld.frame hst13.toFrame hst13.view fun _ hl => hl) ?_ ?_
          · rw [hst13.view]
            exact hwhole
          · intro l hl
            rw [hbusy3 l hl]
            by_cases hlk : l = ip
            · rw [if_pos hlk]
            · have hl2 : 0 < bump (bump H ip) next.1 l := by
                by_cases hln : l = next.1
                · rw [hln]; exact bump_pos
                · rw [bump_of_ne hln] at hl ⊢
                  exact hback l hl
              rw [if_neg hlk, hbusy2 l hl2, decide_eq_false hlk]

theorem namexStart_runs (h : World sb N H s) (hspare : TwoSpare H) (hfree : Unlocked H s) {p : Fin NPROC}
    {path : List UInt8} (hcwd : ∃ k, (s.mem.ptable p).cwd = some k ∧ 0 < H k) :
    Runs (namexStart p path) s fun k s' => World sb N (bump H k) s' ∧ Still H s s' ∧ Unlocked (bump H k) s' := by
  have hgot : ∀ n k s', Got sb N H s n k s' → (H k = 0 → (s'.mem.icache k).busy = false) →
      World sb N (bump H k) s' ∧ Still H s s' ∧ Unlocked (bump H k) s' := by
    intro n k s' hg hnew
    obtain ⟨hw, hst, -⟩ := h.got hg
    refine ⟨hw, hst, fun l hl => ?_⟩
    by_cases hl0 : 0 < H l
    · rw [hg.keep.busy hl0]
      exact hfree l hl0
    · have hlk : l = k := by
        by_contra hne
        rw [bump_of_ne hne] at hl
        exact hl0 hl
      rw [hlk]
      exact hnew (by rw [← hlk]; omega)
  rw [namexStart]
  split_ifs with habs
  · obtain ⟨k, -, -, hk, -⟩ := hspare
    have hroot : ¬ N → (dino sb s.view ROOTINO).type ≠ 0 :=
      fun hN hfree => (h.sound hN).root (nodesOf_none.mpr hfree)
    refine runs_mono (iget_runs h.cache (le_refl 1) h.disk.layout.root hroot (.inr ⟨k, hk⟩)) ?_
    rintro k s' ⟨hnew, hg⟩
    exact hgot _ k s' hg hnew
  · obtain ⟨k, hk, hpos⟩ := hcwd
    rw [Runs, exec_getMem, hk]
    have hend : Runs (idup k) s fun _ _ => True := runs_modInode (runs_pure trivial)
    refine runs_mono (runs_does hend (idup_does (W := ∅) h.cache hpos)) ?_
    rintro k' s' ⟨-, rfl, hg⟩
    exact hgot _ k' s' hg fun h0 => absurd hpos (by omega)

/-- **`namex` finishes** on every path: with two unused slots in the cache, nothing locked, and a current
    directory. -/
theorem namex_runs (hN : ¬ N) (h : World sb N H s) (hspare : TwoSpare H) (hfree : Unlocked H s)
    (hwhole : WholeEntries sb s.view) {p : Fin NPROC} {path : List UInt8} {parent : Bool}
    (hcwd : ∃ k, (s.mem.ptable p).cwd = some k ∧ 0 < H k) :
    Runs (namex p path parent) s fun r s' => Walked sb N H s (resolve sb s p path parent) r s' ∧
      ∀ y, r = some y → Unlocked (bump H y.1) s' := by
  have hrun : Runs (namex p path parent) s fun r s' => ∀ y, r = some y → Unlocked (bump H y.1) s' := by
    refine runs_seq (namexStart_runs h hspare hfree hcwd) ?_
    rintro k s1 ⟨hw1, hst1, hfree1⟩
    refine namexLoop_runs hN hspare _ k path [] s1 (Nat.lt_succ_self _) hw1
      (h.held.frame hst1.toFrame hst1.view fun _ hl => hl) ?_ hfree1
    rw [hst1.view]
    exact hwhole
  have hcwd' := cwdHeld_of_some hcwd
  refine runs_mono (runs_does hrun (namex_world (W := ∅) h hcwd')) ?_
  rintro r s' ⟨hfree', hr⟩
  exact ⟨hr, hfree'⟩

end Walk

end Xv6World
